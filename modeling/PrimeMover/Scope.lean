import PrimeMover.Value

/-! Property lookup: `node:__index`. -/
namespace PrimeMover

/-- What `{PARENT, ...}` splices in: the items of a table, any other value as one
item, nothing when there is no value. -/
def spliced (v : Option Value) : List Value :=
  match truthy v with
  | none => []
  | some v => v.items.getD [v]

inductive Found where
  | absent
  | extend (items : List Value)
  | restart (key : Option Value)
  | value (v : Value)

/-- How `recurse` reads what it finds at one level. -/
def classify : Option Value → Found
  | none => .absent
  | some (.list (.parent :: items)) => .extend items
  | some (.list (.redirect :: items)) => .restart items.head?
  | some v => .value v

def recurse (fields : Fields) (restart : Option Value → Except Stop (Option Value))
    (key : LuaString) : List Obj → Except Stop (Option Value)
  | [] => .ok none
  | o :: next =>
    match classify (truthy (rawget fields o key)) with
    | .absent => recurse fields restart key next
    | .extend items => do
      let parent ← recurse fields restart key next
      .ok (some (.list (spliced parent ++ items.filter (fun v => !v.isParent))))
    | .restart k => restart k
    | .value v => .ok (some v)

/-- Whether the first byte of the key is between 65 and 90. -/
def capital (key : LuaString) : Bool :=
  match key with
  | [] => false
  | c :: _ => decide ('A' ≤ c) && decide (c ≤ 'Z')

/-- `self:__index(o[2])`. What is neither a string nor a number is an error of `string.byte`. A
number is looked up among the children of the node, which are no properties; it is left out. -/
def restart (again : LuaString → Except Stop (Option Value)) :
    Option Value → Except Stop (Option Value)
  | some (.str k) => again k
  | _ => .error (luaerror "bad argument #1 to `byte'".toList)

/-- The body of `node:__index`, with `again` for the call it makes on a redirected
key. -/
def indexStep (fields : Fields) (scope : List Obj) (self : Obj)
    (again : LuaString → Except Stop (Option Value)) (key : LuaString) :
    Except Stop (Option Value) :=
  if key = [] then .error (luaerror "attempt to compare number with nil".toList)
  else if capital key then recurse fields (restart again) key (self :: scope)
  else .ok (rawget fields self key)

/-- `node:__index`; the fuel bounds the number of redirections. -/
def index (fields : Fields) (scope : List Obj) (self : Obj) :
    Nat → LuaString → Except Stop (Option Value)
  | 0 => indexStep fields scope self (fun _ => .error .diverges)
  | fuel + 1 => indexStep fields scope self (index fields scope self fuel)

end PrimeMover
