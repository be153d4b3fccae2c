import PrimeMover.Dependencies

/-! The files that a compilation reads, and the dependencies that pm gives it. -/
namespace PrimeMover
open LuaPattern DepthFirst AssocTable Outcome

variable {W : Type}

/-- The text before the first `close`. -/
def upTo (close : Char) (s : LuaString) : Option LuaString :=
  let name := s.takeWhile (· ≠ close)
  if name ≠ [] ∧ name.length < s.length then some name else none

/-- The header that a line includes, to a compiler. -/
def includedHeader (line : LuaString) : Option LuaString :=
  match line.dropWhile blank with
  | '#' :: directive =>
    let directive := directive.dropWhile blank
    if "include".toList <+: directive then
      match (directive.drop 7).dropWhile blank with
      | '"' :: rest => upTo '"' rest
      | '<' :: rest => upTo '>' rest
      | _ => none
    else none
  | _ => none

/-- The directory of a file. -/
def directoryOf (filename : LuaString) : LuaString :=
  if '/' ∈ filename then localInclude filename else ".".toList

/-- The compiler looks in the directory of the including file, and then along `-I`. -/
def compilerFinds (disk : Disk) (path : List LuaString) (filename f : LuaString) :
    Option LuaString :=
  ((directoryOf filename :: path).map (· ++ "/".toList ++ f)).find? fun name => (disk name).isSome

/-- The files that the include lines of a file make the compiler read. -/
def compiled (disk : Disk) (path : List LuaString) (filename : LuaString) : List LuaString :=
  match disk filename with
  | none => []
  | some text => (text.splitOn '\n').filterMap fun line =>
      (includedHeader line).bind (compilerFinds disk path filename)

section Covering

variable (cfg : Settings W) {F : Type} (place : LuaString → F)

/-- The compilation of the source reads the file of this name. -/
def DependencyList.Reads (u : DependencyList W) (n : LuaString) : Prop :=
  Reaches (compiled (cfg.host.readFile u.world) (u.dynamic ++ u.includes)) u.input n

/-- Everything the compilation reads is listed, under whatever name of the file. -/
def DependencyList.Covers (u : DependencyList W) : Prop :=
  ∀ n, u.Reads cfg n → ∃ m ∈ u.depends, place m = place n

/-- A file is scanned for the source or is a dynamic header of it. -/
def Noted (steps : List (DependStep W)) (input n : LuaString) : Prop :=
  ∃ m, Listed cfg steps input m ∧ place m = place n

/-- The search behind the table finds this file among the headers of `m`. -/
def ScanFinds (steps : List (DependStep W)) (input m n : LuaString) : Prop :=
  ∃ world includes, firstSearch steps input = some (world, includes) ∧
    ∃ m' ∈ included (cfg.host.readFile world) includes m, place m' = place n

/-- Where the compiler finds a header that the search does not find, and where a dynamic header
includes another, that header has been found some other way. -/
structure Caught (steps : List (DependStep W)) (u : DependencyList W) : Prop where
  scanned : ∀ n m, u.Reads cfg n → Scanned cfg steps u.input m → place m = place n →
    ∀ n' ∈ compiled (cfg.host.readFile u.world) (u.dynamic ++ u.includes) n,
      ¬ ScanFinds cfg place steps u.input m n' → Noted cfg place steps u.input n'
  inserted : ∀ n m, u.Reads cfg n → .insert u.input m ∈ steps → place m = place n →
    ∀ n' ∈ compiled (cfg.host.readFile u.world) (u.dynamic ++ u.includes) n,
      Noted cfg place steps u.input n'

variable {cfg place} {steps : List (DependStep W)} {u : DependencyList W}

theorem noted_of_scanFinds {m n : LuaString} (scanned : Scanned cfg steps u.input m)
    (finds : ScanFinds cfg place steps u.input m n) : Noted cfg place steps u.input n := by
  obtain ⟨world, includes, first, reached⟩ := scanned
  obtain ⟨_, _, again, m', one, same⟩ := finds
  cases first.symm.trans again
  exact ⟨m', Or.inl ⟨world, includes, first, reached.tail one⟩, same⟩

theorem Used.noted_input (used : Used cfg steps u) : Noted cfg place steps u.input u.input := by
  obtain ⟨⟨world, includes⟩, first⟩ := Option.isSome_iff_exists.mp used.searched
  exact ⟨u.input, Or.inl ⟨world, includes, first, .refl⟩, rfl⟩

theorem Used.covers_iff (used : Used cfg steps u) :
    u.Covers cfg place ↔ ∀ n, u.Reads cfg n → Noted cfg place steps u.input n := by
  constructor
  · intro covers n reads
    obtain ⟨m, listed, same⟩ := covers n reads
    exact ⟨m, (used.exactly m).mp listed, same⟩
  · intro noted n reads
    obtain ⟨m, listed, same⟩ := noted n reads
    exact ⟨m, (used.exactly m).mpr listed, same⟩

end Covering

/-- A build lists all that its compilation reads exactly when every header that its search
misses is caught. -/
theorem dependencies_cover (cfg : Settings W) (order : KeyOrder) {F : Type}
    (place : LuaString → F) (targets : List Clause) (s : CState W)
    (cache : s.dependencyCache = []) (fresh : s.steps = []) (earlier after : List (DependStep W))
    (u : DependencyList W)
    (split : (final (buildClauseTargets cfg order targets s)).steps = earlier ++ .use u :: after) :
    u.Covers cfg place ↔ Caught cfg place earlier u := by
  have used := used_of_run order targets cache fresh split
  rw [used.covers_iff]
  constructor
  · intro noted
    exact ⟨fun n _ reads _ _ n' one _ => noted n' (reads.tail one),
      fun n _ reads _ _ n' one => noted n' (reads.tail one)⟩
  · intro caught
    refine (reaches_all_iff used.noted_input).mpr ?_
    rintro n reads ⟨m, scanned | inserted, same⟩ n' one
    · by_cases finds : ScanFinds cfg place earlier u.input m n'
      · exact noted_of_scanFinds scanned finds
      · exact caught.scanned n m reads scanned same n' one finds
    · exact caught.inserted n m reads inserted same n' one

section Examples

def generator : LuaString → Desk.Effect
  | 'm' :: _ => ⟨0, [(".pm-cache/1/gen.h".toList, "#include <base.h>\n".toList)], []⟩
  | _ => ⟨0, [], []⟩

def generating : Settings Desk := compiling (Desk.host generator) 14

/-- A header that is made by a command. -/
def makeHeader (id : Nat) : Clause :=
  .object ⟨⟨id, [("command".toList, strings ["make-header %out%".toList]),
    ("outputs".toList, strings ["%U%/gen.h".toList])]⟩, .simple⟩ [] none none

/-- The made header includes one of the library. -/
def generatedRun : EStateM.Result Stop (CState Desk) Unit :=
  buildClauseTargets generating inserted
    [cfile 1 [("CINCLUDES".toList, strings ["lib".toList])] [.string "src/a.c".toList] [makeHeader 2]]
    (cstart ⟨9, [("src/a.c".toList, ⟨1, "#include <gen.h>\n".toList⟩),
      ("lib/base.h".toList, ⟨1, []⟩)], []⟩ 3)

def madeHeader : LuaString := ".pm-cache/1/gen.h".toList

def baseHeader : LuaString := "lib/base.h".toList

/-- The compiler reads the made header and the one of the library, and the latter is not
listed. -/
def DependStep.missesBase : DependStep Desk → Bool
  | .search .. => false
  | .insert .. => false
  | .use u =>
    let next := compiled (generating.host.readFile u.world) (u.dynamic ++ u.includes)
    decide (madeHeader ∈ next u.input) && decide (baseHeader ∈ next madeHeader) &&
      decide (baseHeader ∉ u.depends)

theorem generated_use : ∃ earlier u after,
    (final generatedRun).steps = earlier ++ .use u :: after ∧ u.Reads generating baseHeader ∧
      baseHeader ∉ u.depends := by
  have misses : (final generatedRun).steps.any DependStep.missesBase = true := by decide +kernel
  obtain ⟨e, member, misses⟩ := List.any_eq_true.mp misses
  obtain ⟨earlier, after, split⟩ := List.append_of_mem member
  cases e with
  | search => cases misses
  | insert => cases misses
  | use u =>
    simp only [DependStep.missesBase, Bool.and_eq_true, decide_eq_true_eq] at misses
    obtain ⟨⟨first, second⟩, missing⟩ := misses
    exact ⟨earlier, u, after, split, .tail (.single first) second, missing⟩

theorem generated_header_caught : ∃ earlier u after,
    (final generatedRun).steps = earlier ++ .use u :: after ∧ u.Reads generating baseHeader ∧
      (u.Covers generating id ↔ Caught generating id earlier u) := by
  obtain ⟨earlier, u, after, split, reads, _⟩ := generated_use
  exact ⟨earlier, u, after, split, reads,
    dependencies_cover _ _ id _ _ rfl rfl earlier after u split⟩

/-- What a made header includes is not listed. -/
theorem generated_include_missed : ¬ ∀ (cfg : Settings Desk) (order : KeyOrder)
    (targets : List Clause) (s : CState Desk), s.dependencyCache = [] → s.steps = [] →
    ∀ earlier u after,
      (final (buildClauseTargets cfg order targets s)).steps = earlier ++ .use u :: after →
      u.Covers cfg id := by
  intro all
  obtain ⟨earlier, u, after, split, reads, missing⟩ := generated_use
  obtain ⟨m, listed, same⟩ := all _ _ _ _ rfl rfl earlier u after split baseHeader reads
  exact missing ((show m = baseHeader from same) ▸ listed)

end Examples

end PrimeMover
