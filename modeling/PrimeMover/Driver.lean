import PrimeMover.Node

/-! The application driver: the cache is set up and the targets are built in order.
The desk is a machine small enough to run examples on: files and directories are
known by the name the program uses, directories have no time, and the shell is a table of
commands. -/
namespace PrimeMover
open AssocTable

variable {W : Type}

def buildTargets (cfg : Settings W) : List Node → PM W Unit
  | [] => pure ()
  | o :: rest => do
    let _ ← build cfg o none
    buildTargets cfg rest

/-- The driver, once the target names are looked up in the sandbox. -/
def driver (cfg : Settings W) (purge : Bool) (targets : List Node) : PM W Unit := do
  setupCache cfg purge
  buildTargets cfg targets

/-- The state in which the input files have been read: `objects` is above the
identity of every object they made. -/
def start (w : W) (sandbox : Obj) (objects : Nat) : State W where
  mem := ⟨[], some (.num 0), [sandbox], fun _ _ => none, objects⟩
  sys := ⟨w, fun _ => none, []⟩
  lookups := []
  visits := []

structure DeskFile where
  mtime : Nat
  contents : LuaString
  deriving DecidableEq

structure Desk where
  clock : Nat
  files : List (LuaString × DeskFile)
  dirs : List LuaString
  deriving DecidableEq

namespace Desk

def write (d : Desk) (f : LuaString) (contents : LuaString) : Desk :=
  { d with files := setEntry d.files f ⟨d.clock, contents⟩ }

def remove (d : Desk) (f : LuaString) : Desk :=
  { d with files := dropEntry d.files f }

def list (d : Desk) (dir : LuaString) : List LuaString :=
  ((d.files.map Prod.fst ++ d.dirs).filter (fun f => dirname f = dir)).map
    (fun f => f.drop (dir.length + 1))

/-- The outcome of a shell command: its code, and what it writes or removes. -/
structure Effect where
  code : Int
  writes : List (LuaString × LuaString)
  removes : List LuaString

/-- Time passes when a command runs, and what it writes carries the new time. -/
def apply (d : Desk) (e : Effect) : Desk :=
  let later := { d with clock := d.clock + 1 }
  e.removes.foldl remove (e.writes.foldl (fun d w => d.write w.1 w.2) later)

def host (shell : LuaString → Effect) : Host Desk where
  time d := d.clock
  stat d f :=
    match d.files.lookup f with
    | some file => some ⟨.regular, file.mtime⟩
    | none => if f = ".".toList ∨ f ∈ d.dirs then some ⟨.directory, 0⟩ else none
  readlink _ _ := none
  getcwd _ := "/desk".toList
  files d dir := if dir = ".".toList ∨ dir ∈ d.dirs then some (d.list dir) else none
  mkdir d dir := if dir ∈ d.dirs then none else some { d with dirs := d.dirs ++ [dir] }
  unlink d f := if (d.files.lookup f).isSome then some (d.remove f) else none
  rmdir d dir :=
    if dir ∈ d.dirs ∧ d.list dir = [] then some { d with dirs := d.dirs.filter (· ≠ dir) }
    else none
  symlink _ _ _ := none
  symlinkError _ _ _ := "Operation not permitted".toList
  unlinkError _ _ := "No such file or directory".toList
  execute d command := ((shell command).code, d.apply (shell command))
  readFile d f := (d.files.lookup f).map DeskFile.contents
  writeFile d f text := some (d.write f text)
  pairs _ entries := entries

def settings (shell : LuaString → Effect) (fuel : Nat) : Settings Desk where
  host := host shell
  intermediateCacheDir := ".pm-cache/".toList
  noExecute := false
  quiet := true
  stringmodifier _ := none
  evaluate _ _ := .error (.exit [])
  functions _ _ _ _ d := (.ok none, d)
  fuel := fuel

theorem mkdir_files {shell : LuaString → Effect} {d d' : Desk} {dir : LuaString}
    (made : (host shell).mkdir d dir = some d') : d'.files = d.files ∧ d'.clock = d.clock := by
  change (if dir ∈ d.dirs then none else some { d with dirs := d.dirs ++ [dir] }) = some d' at made
  split at made
  · cases made
  · cases made
    exact ⟨rfl, rfl⟩

theorem rmdir_files {shell : LuaString → Effect} {d d' : Desk} {dir : LuaString}
    (removed : (host shell).rmdir d dir = some d') : d'.files = d.files := by
  change (if dir ∈ d.dirs ∧ d.list dir = [] then some { d with dirs := d.dirs.filter (· ≠ dir) }
    else none) = some d' at removed
  split at removed
  · cases removed
    rfl
  · cases removed

theorem unlink_files {shell : LuaString → Effect} {d d' : Desk} {f : LuaString}
    (removed : (host shell).unlink d f = some d') (g : LuaString) :
    d'.files.lookup g = if g = f then none else d.files.lookup g := by
  change (if (d.files.lookup f).isSome then some (d.remove f) else none) = some d' at removed
  split at removed
  · cases removed
    simp only [remove, lookup_dropEntry, beq_iff_eq]
  · cases removed

end Desk

def sandboxVariables : Obj :=
  ⟨0, [("RM".toList, .str "rm -f".toList), ("INSTALL".toList, .str "ln -f".toList)]⟩

end PrimeMover
