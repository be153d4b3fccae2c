import PrimeMover.Cells
import PrimeMover.Table
import PrimeMover.Value
import Mathlib.Data.Rat.Defs
import Mathlib.Data.Rat.Cast.Defs

/-! The class system of pm.lua: calling an object clones it, and the clone's `__init` copies
the properties of a table onto it, appends the children and checks the result. Every object
has a `definedat`, which a call sets anew; as only the texts of errors read it, it is kept
beside the table unless a property of that name is given. The metamethods `__call` and
`__index` and the methods that report errors are those of `metaclass` and `node`. -/
namespace PrimeMover
open AssocTable LuaArray

inductive Constructor where
  | node
  | file
  | ith
  | foreach
  | simple
  | clike
  deriving DecidableEq

/-- A function: an `__init` of pm.lua and c.pm or one of the pmfile. -/
inductive Function where
  | init (c : Constructor)
  | user (f : Nat)

/-- A Lua value in a property or a child. An object is a table that is its own metatable. -/
inductive Datum where
  | str (s : LuaString)
  | num (x : ℚ)
  | bool (b : Bool)
  | func (f : Function)
  | table (object : Bool) (fields : List (LuaString × Datum)) (cells : List (Option Datum))

namespace Datum

def typeName : Datum → LuaString
  | .str _ => "string".toList
  | .num _ => "number".toList
  | .bool _ => "boolean".toList
  | .func _ => "function".toList
  | .table .. => "table".toList

/-- `if v then` fails on nil and false. -/
def given : Option Datum → Option Datum
  | some (.bool false) => none
  | v => v

/-- `{v}` -/
def list (v : Datum) : Datum := .table false [] [some v]

/-- `v.class`, for a table. -/
def isObject : Datum → Bool
  | .table _ fields _ => (given (fields.lookup "class".toList)).isSome
  | _ => false

end Datum

/-- The table of an object, with its entry in the registry of array sizes. -/
structure LuaObject where
  fields : List (LuaString × Datum)
  cells : List (Option Datum)
  size : Option Nat

def LuaObject.datum (o : LuaObject) : Datum := .table true o.fields o.cells

def LuaObject.rawset (o : LuaObject) (key : LuaString) (v : Datum) : LuaObject :=
  { o with fields := setEntry o.fields key v }

/-- A table of properties and children, its fields in the order in which `pairs` gives them. -/
structure Properties where
  fields : List (LuaString × Datum)
  items : List Datum
  distinct : (fields.map Prod.fst).Nodup

/-- The argument of a constructor. -/
inductive Argument where
  | string (s : LuaString)
  | table (t : Properties)
  | other (type : LuaString)

def Properties.singleton (v : Datum) : Properties := ⟨[], [v], by simp⟩

def Argument.properties : Argument → Option Properties
  | .string s => some (.singleton (.str s))
  | .table t => some t
  | .other _ => none

/-- `(type(p) == "table") and p.class` -/
def Argument.isClass : Argument → Bool
  | .table t => (Datum.given (t.fields.lookup "class".toList)).isSome
  | _ => false

/-- What the code takes from Lua and from the functions of the pmfile: the number a string
is read as, a function or another table as the `__newindex` of an object, a function that
children are made with or that is the `__init` of an object. -/
structure Lua where
  numeral : LuaString → Option ℚ
  numeral_n : numeral "n".toList = none
  numeral_i : numeral "i".toList = none
  newindex : Function → LuaObject → LuaString → Datum → Except Stop LuaObject
  store : Datum → LuaString → Datum → Except Stop Unit
  construct : Function → LuaString → Except Stop (Option Datum)
  initialise : Nat → LuaObject → Argument → Except Stop LuaObject

variable (lua : Lua)

/-- `self[key] = v`, which goes to `__newindex` when there is no such field yet. -/
def assign (o : LuaObject) (key : LuaString) (v : Datum) : Except Stop LuaObject :=
  if (o.fields.lookup key).isSome ∨ key = "definedat".toList then .ok (o.rawset key v)
  else
    match o.fields.lookup "__newindex".toList with
    | none => .ok (o.rawset key v)
    | some (.func f) => lua.newindex f o key v
    | some (.table object fields cells) =>
      (lua.store (.table object fields cells) key v).map fun _ => o
    | some _ => .error (luaerror "attempt to index a value".toList)

/-- `checkint` of lauxlib.c, `none` for a negative number too. -/
def checkint : Option Datum → Option Nat
  | some (.num x) => (x.num.tdiv x.den).toNat?
  | some (.str s) => (lua.numeral s).bind fun x => (x.num.tdiv x.den).toNat?
  | _ => none

/-- `luaL_getn` -/
def getn (o : LuaObject) : Nat :=
  (checkint lua (o.fields.lookup "n".toList)).getD (o.size.getD (front o.cells).length)

/-- `luaL_setn` -/
def setn (o : LuaObject) (n : Nat) : LuaObject :=
  match checkint lua (o.fields.lookup "n".toList) with
  | some _ => o.rawset "n".toList (.num n)
  | none => { o with size := some n }

/-- `table.insert(self, v)` -/
def tableInsert (o : LuaObject) (v : Datum) : LuaObject :=
  { setn lua o (getn lua o + 1) with cells := put o.cells (getn lua o) v }

/-- `for i, j in pairs(t) do if (tonumber(i) == nil) then self[i] = j end end` -/
def copyFields : List (LuaString × Datum) → LuaObject → Except Stop LuaObject
  | [], o => .ok o
  | (i, j) :: rest, o =>
    match lua.numeral i with
    | some _ => copyFields rest o
    | none => do copyFields rest (← assign lua o i j)

/-- `node:__init` up to the verification: the properties and the children of `t`. -/
def fill (o : LuaObject) (t : Properties) : Except Stop LuaObject := do
  let o ← copyFields lua t.fields o
  .ok (t.items.foldl (tableInsert lua) o)

/-- The clone of `metaclass.__call`. -/
def LuaObject.clone (o : LuaObject) : LuaObject :=
  ⟨dropEntry o.fields "definedat".toList, o.cells, none⟩

/-- `node:__error` -/
def LuaObject.fail (o : LuaObject) (position message : LuaString) : Stop :=
  let text (key other : LuaString) : LuaString :=
    match o.fields.lookup key with
    | some (.str s) => s
    | _ => other
  .exit ("object '".toList ++ text "class".toList [] ++ "', defined at ".toList ++
    text "definedat".toList position ++ ", ".toList ++ message)

def property (o : LuaObject) (key : LuaString) : Option Datum := Datum.given (o.fields.lookup key)

def ensureNChildren (o : LuaObject) : Except Stop Unit :=
  match property o "ensure_n_children".toList with
  | none => .ok ()
  | some (.num n) =>
    if (getn lua o : ℚ) = n then .ok ()
    else .error (luaerror "attempt to call method `_error' (a nil value)".toList)
  | some (.str _) => .error (luaerror "attempt to call method `_error' (a nil value)".toList)
  | some n =>
    .error (luaerror ("attempt to concatenate local `n' (a ".toList ++ n.typeName ++
      " value)".toList))

def ensureAtLeastOneChild (position : LuaString) (o : LuaObject) : Except Stop Unit :=
  if (property o "ensure_at_least_one_child".toList).isSome ∧ getn lua o < 1 then
    .error (o.fail position "must have at least one child".toList)
  else .ok ()

/-- `if (type(j) == "string") then self[i] = constructor {j} end`, for each child. -/
def constructCells (make : LuaString → Except Stop (Option Datum)) :
    List (Option Datum) → Except Stop (List (Option Datum))
  | some (.str j) :: cells => do
    let made ← make j
    let rest ← constructCells make cells
    .ok (made :: rest)
  | some j :: cells => do
    let rest ← constructCells make cells
    .ok (some j :: rest)
  | cells => .ok cells

def constructStringChildren (make : Datum → LuaString → Except Stop (Option Datum))
    (o : LuaObject) : Except Stop LuaObject :=
  match property o "construct_string_children_with".toList with
  | none => .ok o
  | some constructor => do
    let cells ← constructCells (make constructor) o.cells
    .ok { o with cells := cells }

/-- The loop that accepts children of one type only. -/
def checkChildren (o : LuaObject) (position type : LuaString) : Nat → List Datum → Except Stop Unit
  | _, [] => .ok ()
  | i, j :: js =>
    if j.typeName = type then checkChildren o position type (i + 1) js
    else .error (o.fail position ("doesn't know what to do with child ".toList ++ decimal i ++
      ", which is a ".toList ++ j.typeName))

def allChildrenAreObjects (position : LuaString) (o : LuaObject) : Except Stop Unit :=
  match property o "all_children_are_objects".toList with
  | none => .ok ()
  | some _ => checkChildren o position "table".toList 1 (front o.cells)

def verifyInstall (position : LuaString) (o : LuaObject) : Except Stop LuaObject :=
  match property o "install".toList with
  | none => .ok o
  | some (.table ..) => .ok o
  | some (.str s) => assign lua o "install".toList (.list (.str s))
  | some (.func f) => assign lua o "install".toList (.list (.func f))
  | some v =>
    .error (o.fail position ("doesn't know what to do with its installation command, ".toList ++
      "which is a ".toList ++ v.typeName ++ " but should be a table, function ".toList ++
      "or string".toList))

/-- The verification of `node:__init`; `make` calls the value children are made with. -/
def verify (make : Datum → LuaString → Except Stop (Option Datum)) (position : LuaString)
    (o : LuaObject) : Except Stop LuaObject := do
  ensureNChildren lua o
  ensureAtLeastOneChild lua position o
  let o ← constructStringChildren make o
  allChildrenAreObjects position o
  verifyInstall lua position o

/-- `node:__init` -/
def nodeInit (make : Datum → LuaString → Except Stop (Option Datum)) (position : LuaString)
    (o : LuaObject) (p : Argument) : Except Stop LuaObject :=
  match p.properties with
  | none =>
    .error (o.fail position ("can't be constructed with a ".toList ++
      (match p with | .other type => type | _ => []) ++ "; try a table or a string".toList))
  | some t => do
    let o ← fill lua o t
    if p.isClass then .ok o else verify lua make position o

/-- The loop of `file.__init`: the children of a file are strings. -/
def verifyFile (position : LuaString) (o : LuaObject) : Except Stop LuaObject := do
  checkChildren o position "string".toList 1 (front o.cells)
  .ok o

/-- A property that must be a number where it is set. -/
def numberProperty (position key : LuaString) (o : LuaObject) : Except Stop Unit :=
  match property o key with
  | none => .ok ()
  | some (.num _) => .ok ()
  | some v =>
    .error (o.fail position ("doesn't know what to do with its ".toList ++ key ++
      " property, which is a ".toList ++ v.typeName ++ " where a number was expected".toList))

/-- The branch of `ith.__init` for an i property. -/
def selectOne (position : LuaString) (o : LuaObject) : Except Stop LuaObject :=
  match property o "i".toList with
  | none => .ok o
  | some i =>
    if (property o "from".toList).isSome ∨ (property o "to".toList).isSome then
      .error (o.fail position "can't have both an i property and a from or to property".toList)
    else do
      numberProperty position "i".toList o
      let o ← assign lua o "from".toList i
      assign lua o "to".toList i

def verifyIth (position : LuaString) (o : LuaObject) : Except Stop LuaObject := do
  let o ← selectOne lua position o
  numberProperty position "from".toList o
  numberProperty position "to".toList o
  .ok o

def verifyForeach (position : LuaString) (o : LuaObject) : Except Stop LuaObject :=
  match property o "rule".toList with
  | none => .error (o.fail position "must have a rule property".toList)
  | some (.table ..) => .ok o
  | some v =>
    .error (o.fail position ("doesn't know what to do with its rule property, ".toList ++
      "which is a ".toList ++ v.typeName ++ " where a table was expected".toList))

def verifyOutputs (position : LuaString) (o : LuaObject) : Except Stop Unit :=
  match property o "outputs".toList with
  | none => .error (o.fail position "must have an outputs template set".toList)
  | some (.table ..) => .ok ()
  | some v =>
    .error (o.fail position ("doesn't know what to do with its outputs, which is a ".toList ++
      v.typeName ++ " but should be a table".toList))

def verifyCommand (position : LuaString) (o : LuaObject) : Except Stop LuaObject :=
  match property o "command".toList with
  | none => .error (o.fail position "must have a command specified".toList)
  | some (.table ..) => .ok o
  | some (.str s) => assign lua o "command".toList (.list (.str s))
  | some v =>
    .error (o.fail position ("doesn't know what to do with its command, which is a ".toList ++
      v.typeName ++ " but should be a string or a table".toList))

def verifySimple (position : LuaString) (o : LuaObject) : Except Stop LuaObject := do
  verifyOutputs position o
  verifyCommand lua position o

def verifyDynamicheaders (position : LuaString) (o : LuaObject) : Except Stop LuaObject :=
  match property o "dynamicheaders".toList with
  | none => .ok o
  | some (.table object fields cells) =>
    if (Datum.table object fields cells).isObject then
      assign lua o "dynamicheaders".toList (.list (.table object fields cells))
    else .ok o
  | some v =>
    .error (o.fail position ("doesn't know what to do with dynamicheaders, which ".toList ++
      "should be a list or an object but was a ".toList ++ v.typeName))

/-- What each `__init` does after `node.__init`, when the object is no class. -/
def Constructor.verify (position : LuaString) : Constructor → LuaObject → Except Stop LuaObject
  | .node, o => .ok o
  | .file, o => verifyFile position o
  | .ith, o => verifyIth lua position o
  | .foreach, o => verifyForeach position o
  | .simple, o => verifySimple lua position o
  | .clike, o => do
    let o ← verifySimple lua position o
    verifyDynamicheaders lua position o

def Constructor.init (make : Datum → LuaString → Except Stop (Option Datum))
    (position : LuaString) (c : Constructor) (o : LuaObject) (p : Argument) :
    Except Stop LuaObject := do
  let o ← nodeInit lua make position o p
  if p.isClass then .ok o else c.verify lua position o

/-- `metaclass.__call` -/
def call (make : Datum → LuaString → Except Stop (Option Datum)) (position : LuaString)
    (self : LuaObject) (p : Argument) : Except Stop LuaObject :=
  match self.fields.lookup "__init".toList with
  | some (.func (.init c)) => c.init lua make position self.clone p
  | some (.func (.user f)) => lua.initialise f self.clone p
  | _ => .error (luaerror "attempt to call method `__init' (a nil value)".toList)

/-- `constructor {j}`: the fuel bounds how deep constructors construct further children. -/
def construct (position : LuaString) : Nat → Datum → LuaString → Except Stop (Option Datum)
  | 0, _, _ => .error .diverges
  | fuel + 1, .table true fields cells, j => do
    let o ← call lua (construct position fuel) position ⟨fields, cells, none⟩
      (.table (.singleton (.str j)))
    .ok (some o.datum)
  | _ + 1, .func f, j => lua.construct f j
  | _ + 1, constructor, _ =>
    .error (luaerror ("attempt to call local `constructor' (a ".toList ++ constructor.typeName ++
      " value)".toList))

/-- `C {class = ..}` -/
def LuaObject.derive (C : LuaObject) (fields : List (LuaString × Datum)) : LuaObject :=
  { C with fields := fields.foldl (fun t e => setEntry t e.1 e.2) C.fields }

namespace Builtin

def node : LuaObject :=
  ⟨[("class".toList, .str "node".toList), ("__init".toList, .func (.init .node))], [], none⟩

def file : LuaObject := node.derive
  [("class".toList, .str "file".toList), ("ensure_at_least_one_child".toList, .bool true),
    ("__init".toList, .func (.init .file))]

def group : LuaObject := node.derive [("class".toList, .str "group".toList)]

def deponly : LuaObject := node.derive
  [("class".toList, .str "deponly".toList), ("ensure_at_least_one_child".toList, .bool true)]

def ith : LuaObject := node.derive
  [("class".toList, .str "ith".toList), ("ensure_at_least_one_child".toList, .bool true),
    ("__init".toList, .func (.init .ith))]

def foreach : LuaObject := node.derive
  [("class".toList, .str "foreach".toList), ("__init".toList, .func (.init .foreach))]

def simple : LuaObject := node.derive
  [("class".toList, .str "file".toList), ("construct_string_children_with".toList, file.datum),
    ("all_children_are_objects".toList, .bool true), ("__init".toList, .func (.init .simple))]

def simpleWithClikeDependencies : LuaObject := simple.derive
  [("class".toList, .str "simple_with_clike_dependencies".toList),
    ("makedepends".toList, .list (.str "%CDEPENDS%".toList)),
    ("__init".toList, .func (.init .clike))]

/-- A class of c.pm: its parent, its name, its command and its outputs. -/
def tool (parent : LuaObject) (name command outputs : String) : LuaObject := parent.derive
  [("class".toList, .str name.toList), ("command".toList, .list (.str command.toList)),
    ("outputs".toList, .list (.str outputs.toList))]

def cfile : LuaObject := tool simpleWithClikeDependencies "cfile" "%CC%" "%U%-%I%.o"
def cxxfile : LuaObject := tool simpleWithClikeDependencies "cxxfile" "%CXX%" "%U%-%I%.o"
def cprogram : LuaObject := tool simple "cprogram" "%CPROGRAM%" "%U%-%I%"
def cxxprogram : LuaObject := tool simple "cxxprogram" "%CXXPROGRAM%" "%U%-%I%"
def clibrary : LuaObject := tool simple "clibrary" "%CLIBRARY%" "%U%-%I%.a"

def classes : List LuaObject :=
  [file, group, deponly, ith, foreach, simple, simpleWithClikeDependencies, cfile, cxxfile,
    cprogram, cxxprogram, clibrary]

end Builtin

end PrimeMover
