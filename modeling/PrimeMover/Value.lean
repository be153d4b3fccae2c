import PrimeMover.Pattern
import PrimeMover.Lines

/-! The Lua values a pmfile can bind, the operating system as a parameter, and the
state of a run. Only text that the run reads back is kept: the diagnostics on
standard error are left out, the errors that end a run keep their text. -/
namespace PrimeMover

/-- A Lua string. The characters stand for bytes. -/
abbrev LuaString := List Char

instance lawfulText : LawfulBEq LuaString := inferInstance

/-- `LUA_NUMBER` is an int of 32 bits: sums, and the times that the system gives, lose their
higher bits. -/
def luaNumber (n : Int) : Int := (BitVec.ofInt 32 n).toInt

theorem luaNumber_of_small {n : Int} (nonneg : 0 ≤ n) (small : n < 0x80000000) :
    luaNumber n = n := by
  rw [luaNumber, BitVec.toInt_ofInt]
  exact Int.bmod_eq_of_le (by omega) (by omega)

theorem luaNumber_toNat {n : Nat} (small : n < 0x80000000) : (luaNumber n).toNat = n := by
  rw [luaNumber_of_small (by omega) (by omega)]
  rfl

theorem luaNumber_lt (n : Int) : luaNumber n < 0x80000000 := by
  have bound := BitVec.two_mul_toInt_lt (x := BitVec.ofInt 32 n)
  rw [luaNumber]
  omega

/-- A Lua value bound to a name. A number is an int of 32 bits, kept as the text `%d` prints
for it, which is all that is ever done with it; `list` is a table with array part
`items`, and PARENT, EMPTY and REDIRECT are tables known by their identity.
`func` is a function of the pmfile, `install` a closure made by `pm.install`. -/
inductive Value where
  | str (s : LuaString)
  | num (text : LuaString)
  | bool (b : Bool)
  | list (items : List Value)
  | parent
  | empty
  | redirect
  | func (f : Nat)
  | install (src : LuaString) (dest : Option LuaString)

/-- `if v then` fails on nil and false. -/
def truthy : Option Value → Option Value
  | some (.bool false) => none
  | v => v

/-- The array part of a table, `none` for what is not a table. -/
def Value.items : Value → Option (List Value)
  | .list vs => some vs
  | .parent | .empty | .redirect => some []
  | _ => none

def Value.isParent : Value → Bool
  | .parent => true
  | _ => false

def Value.typeName : Value → LuaString
  | .str _ => "string".toList
  | .num _ => "number".toList
  | .bool _ => "boolean".toList
  | .func _ | .install .. => "function".toList
  | _ => "table".toList

/-- An entry of the id table or its count: a number when it was issued in this
run, a string when it was read from the index. -/
inductive Id where
  | num (n : Int)
  | str (s : LuaString)
  deriving DecidableEq

def decimal (n : Nat) : LuaString := Nat.toDigits 10 n

/-- How a number is printed. -/
def integer : Int → LuaString
  | .ofNat n => decimal n
  | .negSucc n => '-' :: decimal (n + 1)

def Id.text : Id → LuaString
  | .num n => integer n
  | .str s => s

/-- `tonumber` on decimal digits. -/
def tonumber (s : LuaString) : Option Nat :=
  if s ≠ [] ∧ s.all Char.isDigit then some (Nat.ofDigitChars 10 s 0) else none

/-- `tonumber` on the text of an integer, as it stands in an index or a selector or is kept for a
number of the pmfile. A numeral of more than 32 bits is taken by its value, and so is out of the
range of every list, as it is when it has become the least number. -/
def tointeger : LuaString → Option Int
  | '-' :: s => (tonumber s).map fun n : Nat => -(n : Int)
  | s => (tonumber s).map Int.ofNat

/-- The number an arithmetic operator or the limit of a loop takes a value for. -/
def Value.number : Value → Option Int
  | .num text | .str text => tointeger text
  | _ => none

/-- The number an arithmetic operator takes an entry for. -/
def Id.number : Id → Option Int
  | .num n => some n
  | .str s => tointeger s

/-- An object: a table with string keys and an identity. -/
structure Obj where
  id : Nat
  props : List (LuaString × Value)

/-- Assignments made to objects during the run, by identity. -/
abbrev Fields := Nat → LuaString → Option Value

def rawget (fields : Fields) (o : Obj) (key : LuaString) : Option Value :=
  match fields o.id key with
  | some v => some v
  | none => o.props.lookup key

/-- The built-in class a node is derived from. -/
inductive Kind where
  | file
  | group
  | deponly
  | ith
  | foreach
  | simple
  deriving DecidableEq

/-- A node as an object: `obj` keeps its string-keyed properties, `kind` stands for the
methods it inherits. -/
structure Decl where
  obj : Obj
  kind : Kind

/-- Why a run ends early: `os.exit(1)` after a message, or a loop or a recursion
that the given fuel does not exhaust. -/
inductive Stop where
  | exit (message : LuaString)
  | diverges
  deriving DecidableEq

inductive FileType where
  | regular
  | directory
  | other
  deriving DecidableEq

structure Stat where
  type : FileType
  mtime : Nat
  deriving DecidableEq

/-- The operating system and the parts of the Lua runtime whose result is not
determined by the program: `pairs` gives the entries of a table in any order. -/
structure Host (W : Type) where
  time : W → Nat
  stat : W → LuaString → Option Stat
  readlink : W → LuaString → Option LuaString
  getcwd : W → LuaString
  files : W → LuaString → Option (List LuaString)
  mkdir : W → LuaString → Option W
  unlink : W → LuaString → Option W
  rmdir : W → LuaString → Option W
  symlink : W → LuaString → LuaString → Option W
  /-- What `strerror` says where `symlink` or `unlink` fails. -/
  symlinkError : W → LuaString → LuaString → LuaString
  unlinkError : W → LuaString → LuaString
  execute : W → LuaString → Int × W
  readFile : W → LuaString → Option LuaString
  writeFile : W → LuaString → LuaString → Option W
  pairs : W → List (LuaString × Id) → List (LuaString × Id)

/-- A function of the pmfile in a command or an install list, called with `self`
(through which it can expand text), the inputs and the outputs. -/
abbrev LuaFunction (W : Type) :=
  (LuaString → Except Stop LuaString) → List LuaString → List LuaString →
    W → Except Stop (Option Int) × W

/-- The options and the environment of a run. `evaluate` compiles and calls the
text of an embedded expression, with the lookup of the node's properties. -/
structure Settings (W : Type) where
  host : Host W
  intermediateCacheDir : LuaString
  noExecute : Bool
  quiet : Bool
  stringmodifier : LuaString → Option (Value → Except Stop Value)
  evaluate : LuaString → (LuaString → Except Stop (Option Value)) → Except Stop (Option Value)
  functions : Nat → LuaFunction W
  fuel : Nat

/-- On whose behalf a shell command is executed. -/
inductive Phase where
  | build
  | cleanup
  | install
  deriving DecidableEq

inductive Event where
  | trace (text : LuaString)
  | execute (owner : Nat) (phase : Phase) (command : LuaString) (code : Int)
  | call (owner : Nat) (phase : Phase) (function : Nat) (result : Option Int)
  | issue (key : LuaString) (id : Int)
  | mkdir (directory : LuaString)
  deriving DecidableEq

/-- What the run has done to the world, and the stat cache. -/
structure Sys (W : Type) where
  world : W
  stattedFiles : LuaString → Option Int
  log : List Event

/-- The variables of the program that no system call touches. -/
structure Mem where
  intermediateCache : List (LuaString × Id)
  intermediateCacheCount : Option Id
  scope : List Obj
  fields : Fields
  objects : Nat

/-- A node as a build reached it, with the memory and the system at that moment. The first
`listed` inputs are names written in the pmfile; the visits from number `first` on are
those of its descendants. -/
structure Visit (W : Type) where
  decl : Decl
  mem : Mem
  sys : Sys W
  key : Option LuaString
  inputs : List LuaString
  outs : List LuaString
  listed : Nat
  first : Nat

/-- The state of a run. The last two fields are a record that nothing reads: the node
and the global scope of every expansion, and the nodes reached, children first. -/
structure State (W : Type) where
  mem : Mem
  sys : Sys W
  lookups : List (Obj × List Obj)
  visits : List (Visit W)

abbrev SysM (W : Type) := EStateM Stop (Sys W)
abbrev PM (W : Type) := EStateM Stop (State W)

def usererror {A S : Type} (message : LuaString) : EStateM Stop S A := throw (.exit message)

/-- An error raised by Lua ends in the traceback, which exits. -/
def luaerror (message : LuaString) : Stop := .exit ("error: ".toList ++ message)

/-- A step on the system, as a step of the run. -/
def lift {W A : Type} (x : SysM W A) : PM W A := fun st =>
  match x st.sys with
  | .ok a sys => .ok a { st with sys := sys }
  | .error e sys => .error e { st with sys := sys }

def except {S A : Type} : Except Stop A → EStateM Stop S A
  | .ok a => pure a
  | .error e => throw e

def record {W : Type} (e : Event) : SysM W Unit :=
  modify (fun s => { s with log := s.log ++ [e] })

def setField {W : Type} (o : Obj) (key : LuaString) (v : Value) : PM W Unit :=
  modify (fun st => { st with mem := { st.mem with
    fields := fun i k => if i = o.id ∧ k = key then some v else st.mem.fields i k } })

end PrimeMover
