import PrimeMover.Files
import PrimeMover.Scope

/-! Rendering of values and expansion of templates: `rendertable`, the string
modifiers and `node:__expand`. -/
namespace PrimeMover
open LuaPattern

variable {W : Type}

/-- The two substitutions that quote an element of a list. -/
def quoteElement (j : LuaString) : LuaString :=
  let r := gsub ⟨false, [.one (· == '\\')]⟩ (fun _ => "\\\\".toList) j
  gsub ⟨false, [.one (· == '"')]⟩ (fun _ => "\\\"".toList) r

def renderItem : Value → Except Stop LuaString
  | .str s => .ok (quoteElement s)
  | .num t => .ok (quoteElement t)
  | _ => .error (luaerror "attempt to expand a list containing an object".toList)

def rendertable : Option Value → Except Stop LuaString
  | some (.str s) => .ok s
  | some (.num t) => .ok t
  | none => .ok []
  | some .empty => .ok []
  | some v =>
    match v.items with
    | some vs => do
      let t ← vs.mapM renderItem
      .ok ("\"".toList ++ List.intercalate "\" \"".toList t ++ "\"".toList)
    | none => .error (luaerror ("bad argument #1 to `ipairs' (table expected, got ".toList ++
        v.typeName ++ ")".toList))

/-- The text of `node:__error`. -/
def nodeError (fields : Fields) (self : Obj) (message : LuaString) : Stop :=
  let field (key : LuaString) : LuaString :=
    match rawget fields self key with
    | some (.str s) => s
    | _ => []
  .exit ("object '".toList ++ field "class".toList ++ "', defined at ".toList ++
    field "definedat".toList ++ ", ".toList ++ message)

/-- `stringmodifier.dirname` -/
def dirnameModifier (fields : Fields) (self : Obj) : Value → Except Stop Value
  | .str s => .ok (.str (dirname s))
  | .num t => .ok (.str (dirname t))
  | .list [.str s] => .ok (.str (dirname s))
  | .list [.num t] => .ok (.str (dirname t))
  | v =>
    match v.items with
    | some [_] => .error (luaerror "bad argument #1 to `gsub' (string expected)".toList)
    | some _ => .error (nodeError fields self
        "tried to use string modifier 'dirname' on a table with more than one entry".toList)
    | none => .error (luaerror "bad argument #1 to `gsub' (string expected)".toList)

/-- `%%{(.-)}%%` -/
def expressionPattern : Pattern :=
  ⟨false, [.one (· == '%'), .one (· == '{'), .openCapture, .minus (fun _ => true), .closeCapture,
    .one (· == '}'), .one (· == '%')]⟩

/-- `%%(.-)%%` -/
def variablePattern : Pattern := enclosed '%'

/-- `([^:]*):?(.*)$` -/
def colonPattern : Pattern :=
  ⟨false, [.openCapture, .star (· != ':'), .closeCapture, .opt (· == ':'), .openCapture,
    .star (fun _ => true), .closeCapture, .atEnd]⟩

/-- `^([^[]*)%[?([^-%]]*)(%-?)([^%]]*)]?$` -/
def selectorPattern : Pattern :=
  ⟨true, [.openCapture, .star (· != '['), .closeCapture, .opt (· == '['),
    .openCapture, .star (fun c => c != '-' && c != ']'), .closeCapture,
    .openCapture, .opt (· == '-'), .closeCapture,
    .openCapture, .star (· != ']'), .closeCapture, .opt (· == ']'), .atEnd]⟩

def PERCENT : LuaString := ('\x07' :: "PERCENT".toList) ++ ['\x07']

/-- The literal text PERCENT as a pattern. -/
def percentPattern : Pattern := ⟨false, PERCENT.map (fun c => .one (· == c))⟩

/-- The elements picked by `[from-to]`, when one of the three parts is there. -/
def select (fields : Fields) (self : Obj) (varname selectfrom hyphen selectto : LuaString)
    (result : Value) : Except Stop Value :=
  if selectfrom = [] ∧ hyphen = [] ∧ selectto = [] then .ok result
  else
    match result.items with
    | none => .error (nodeError fields self ("tried to use a [] selector on variable '".toList ++
        varname ++ "', which doesn't contain a table".toList))
    | some vs =>
      let n := vs.length
      let bounds : Option (Int × Int) :=
        if hyphen ≠ [] then
          some ((tointeger selectfrom).getD 1, (tointeger selectto).getD n)
        else (tointeger selectfrom).map (fun a => (a, (tointeger selectto).getD a))
      match bounds with
      | none => .error (nodeError fields self
          ("tried to use an empty selector on variable '".toList ++ varname ++ "'".toList))
      | some (a, b) =>
        if a < 1 ∨ b < 1 ∨ n < a ∨ n < b ∨ b < a then
          .error (nodeError fields self ("tried to use an invalid selector [".toList ++
            integer a ++ "-".toList ++ integer b ++ "] on variable '".toList ++ varname ++
            "'; only [1-".toList ++ decimal n ++ "] is valid".toList))
        else .ok (.list ((vs.take b.toNat).drop (a.toNat - 1)))

/-- The text that replaces `%reference%`. -/
def expandVariable (cfg : Settings W) (fields : Fields) (scope : List Obj) (self : Obj)
    (reference : LuaString) : Except Stop LuaString :=
  if reference = [] then .ok PERCENT
  else
    match find colonPattern reference with
    | some [leftcolon, rightcolon] =>
      match find selectorPattern leftcolon with
      | some [varname, selectfrom, hyphen, selectto] => do
        let value ← index fields scope self cfg.fuel varname
        match truthy value with
        | none => .error (nodeError fields self
            ("doesn't understand variable '".toList ++ varname ++ "'".toList))
        | some result => do
          let result ← select fields self varname selectfrom hyphen selectto result
          let result ←
            if rightcolon = [] then .ok result
            else
              match cfg.stringmodifier rightcolon with
              | some f => f result
              | none =>
                if rightcolon = "dirname".toList then dirnameModifier fields self result
                else .error (nodeError fields self
                  ("tried to use an unknown string modifier '".toList ++ rightcolon ++
                    "' on variable '".toList ++ varname ++ "'".toList))
          rendertable (some result)
      | _ => .error (luaerror "bad argument #1 to `byte'".toList)
    | _ => .error (luaerror "bad argument #1 to `find'".toList)

/-- The text that replaces `%{expression}%`. -/
def expandExpression (cfg : Settings W) (fields : Fields) (scope : List Obj) (self : Obj)
    (expression : LuaString) : Except Stop LuaString := do
  let value ← cfg.evaluate expression (index fields scope self cfg.fuel)
  rendertable value

def captured (f : LuaString → Except Stop LuaString) (captures : List LuaString) :
    Except Stop LuaString :=
  f (captures.headD [])

/-- The loop of `node:__expand`; the fuel bounds the number of its passes. -/
def expandLoop (cfg : Settings W) (fields : Fields) (scope : List Obj) (self : Obj) :
    Nat → LuaString → Except Stop LuaString
  | 0, _ => .error .diverges
  | fuel + 1, s => do
    let expressions := scan expressionPattern s
    let s ← replaceM (captured (expandExpression cfg fields scope self)) expressions
    let references := scan variablePattern s
    let s ← replaceM (captured (expandVariable cfg fields scope self)) references
    if hits expressions + hits references = 0 then
      .ok (gsub percentPattern (fun _ => "%".toList) s)
    else expandLoop cfg fields scope self fuel s

/-- `node:__expand` -/
def expandText (cfg : Settings W) (fields : Fields) (scope : List Obj) (self : Obj)
    (s : LuaString) : Except Stop LuaString :=
  expandLoop cfg fields scope self cfg.fuel s

/-- `self:__expand(s)` during the run, on the current global scope. -/
def expand (cfg : Settings W) (self : Obj) (s : LuaString) : PM W LuaString := do
  let st ← get
  set { st with lookups := st.lookups ++ [(self, st.mem.scope)] }
  except (expandText cfg st.mem.fields st.mem.scope self s)

end PrimeMover
