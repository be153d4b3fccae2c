import PrimeMover.Headers
import PrimeMover.Tree
import Mathlib.Data.Set.Finite.Lattice

/-! The header search on a directory tree, where many names lead to one file. -/
namespace PrimeMover
open LuaPattern Outcome DepthFirst PosixTree

/-- The two names lead to one regular file. -/
def SameFile (t : Tree) (a b : LuaString) : Prop :=
  ∃ l, t.isFile l ∧ t.resolve a = some l ∧ t.resolve b = some l

/-- How often a search read the lines of a file. -/
def readings (t : Tree) (names : List LuaString) (l : Location) : Nat :=
  (names.filter (fun n => t.resolve n = some l)).length

/-- The first search for a root ends, and reads the lines of no file twice. -/
def ReadsOnce (t : Tree) (pairs : KeyOrder) (includes : List LuaString) (root : LuaString) :
    Prop :=
  ∃ bound, ∀ fuel, bound ≤ fuel → ∃ o s',
    calculateDependencies t.read pairs fuel root includes Headers.none = .ok o s' ∧
      ∀ l, t.isFile l → readings t s'.scanned l ≤ 1

theorem read_of_file {t : Tree} {n : LuaString} {l : Location} (file : t.isFile l)
    (led : t.resolve n = some l) : (t.read n).isSome := by
  unfold Tree.isFile at file
  unfold Tree.read Tree.stat
  rw [led, Option.bind_some]
  cases found : t.entry l with
  | none => simp [found] at file
  | some e =>
    cases e with
    | file mtime contents => rfl
    | dir => rfl

theorem file_of_included {t : Tree} {includes : List LuaString} {a b : LuaString}
    (one : b ∈ included t.read includes a) : SameFile t a a := by
  unfold included at one
  cases opened : t.read a with
  | none => simp [opened] at one
  | some text =>
    unfold Tree.read Tree.stat at opened
    cases led : t.resolve a with
    | none => simp [led] at opened
    | some l =>
      rw [led, Option.bind_some] at opened
      cases found : t.entry l with
      | none => simp [found] at opened
      | some e =>
        cases e with
        | file mtime contents => exact ⟨l, by simp [Tree.isFile, found], led, led⟩
        | dir =>
          rw [found] at opened
          cases opened
          have empty : t.read a = some [] := by simp [Tree.read, Tree.stat, led, found]
          rw [empty] at one
          simp [fileLines, linesFrom, LineReader.readLine_nil] at one

/-- If no file is reached under two names, finitely many names are reached. -/
theorem few_of_distinct {t : Tree} {includes : List LuaString} {root : LuaString}
    (distinct : ∀ a b, Reaches (included t.read includes) root a →
      Reaches (included t.read includes) root b → SameFile t a b → a = b) :
    {n | Reaches (included t.read includes) root n}.Finite := by
  let fileNames : Set LuaString :=
    {n | Reaches (included t.read includes) root n ∧ SameFile t n n}
  have few : fileNames.Finite := by
    apply Set.Finite.of_finite_image (f := t.resolve)
    · apply (t.entries.map (fun e => some e.1)).finite_toSet.subset
      rintro _ ⟨n, ⟨_, l, file, led, _⟩, rfl⟩
      rw [led]
      cases found : t.entries.lookup l with
      | none => simp [Tree.isFile, Tree.entry, found] at file
      | some e => exact List.mem_map.mpr ⟨(l, e), AssocTable.mem_of_lookup found, rfl⟩
    · rintro a ⟨pa, l, file, led, _⟩ b ⟨pb, _⟩ same
      exact distinct a b pa pb ⟨l, file, led, same ▸ led⟩
  have more : (⋃ n ∈ fileNames, {b | b ∈ included t.read includes n}).Finite :=
    few.biUnion fun n _ => (included t.read includes n).finite_toSet
  apply (more.insert root).subset
  intro n path
  rcases Relation.ReflTransGen.cases_tail path with same | ⟨before, reached, one⟩
  · exact Or.inl same
  · right
    simp only [Set.mem_iUnion]
    exact ⟨before, ⟨reached, file_of_included one⟩, one⟩

theorem readings_le_one {t : Tree} {names : List LuaString} (nodup : names.Nodup) (l : Location) :
    readings t names l ≤ 1 ↔
      ∀ a ∈ names, ∀ b ∈ names, t.resolve a = some l → t.resolve b = some l → a = b := by
  have member : ∀ n, n ∈ names.filter (fun n => t.resolve n = some l) ↔
      n ∈ names ∧ t.resolve n = some l := by
    intro n
    rw [List.mem_filter, decide_eq_true_iff]
  have kept := nodup.filter (fun n => decide (t.resolve n = some l))
  unfold readings
  generalize names.filter (fun n => t.resolve n = some l) = leading at member kept
  constructor
  · intro once a ha b hb led led'
    have ha' := (member a).mpr ⟨ha, led⟩
    have hb' := (member b).mpr ⟨hb, led'⟩
    match leading, once with
    | [], _ => cases ha'
    | [c], _ => rw [List.mem_singleton.mp ha', List.mem_singleton.mp hb']
  · intro unique
    match leading, kept with
    | [], _ => exact Nat.zero_le 1
    | [c], _ => exact le_rfl
    | c :: d :: rest, kept =>
      have hc := (member c).mp (by simp)
      have hd := (member d).mp (by simp)
      have same := unique c hc.1 d hd.1 hc.2 hd.2
      simp [same] at kept

/-- The search ends and reads each file at most once exactly when it does not come
upon a file under two names. -/
theorem files_read_once (t : Tree) (pairs : KeyOrder) (includes : List LuaString)
    (root : LuaString) : ReadsOnce t pairs includes root ↔
      ∀ a b, Reaches (included t.read includes) root a →
        Reaches (included t.read includes) root b → SameFile t a b → a = b := by
  constructor
  · rintro ⟨bound, ends⟩ a b pa pb ⟨l, file, led, led'⟩
    obtain ⟨o, s', run, once⟩ := ends bound le_rfl
    obtain ⟨_, _, _, new, scanned, nodup, exactly⟩ := calculate_first rfl run
    have all : s'.scanned = new := scanned
    have few := once l file
    rw [all, readings_le_one nodup] at few
    exact few a ((exactly a).mpr ⟨pa, read_of_file file led⟩) b
      ((exactly b).mpr ⟨pb, read_of_file file led'⟩) led led'
  · intro distinct
    obtain ⟨bound, returns⟩ := calculate_returns t.read pairs (few_of_distinct distinct)
    refine ⟨bound, fun fuel enough => ?_⟩
    obtain ⟨o, s', run⟩ := returns fuel enough Headers.none rfl
    obtain ⟨_, _, _, new, scanned, nodup, exactly⟩ := calculate_first rfl run
    have all : s'.scanned = new := scanned
    refine ⟨o, s', run, fun l file => ?_⟩
    rw [all, readings_le_one nodup]
    intro a ha b hb led led'
    exact distinct a b ((exactly a).mp ha).1 ((exactly b).mp hb).1 ⟨l, file, led, led'⟩

theorem localInclude_slash (a b : LuaString) (clean : '/' ∉ b) : localInclude (a ++ '/' :: b) = a := by
  simp [localInclude, gsub, scan_lastComponent a b clean]

def folder : Name := ⟨"d".toList, by decide, by decide, by decide, by decide⟩

def headerFile : Name := ⟨"x.h".toList, by decide, by decide, by decide, by decide⟩

/-- A directory with a header that includes itself through the directory above. -/
def loopTree : Tree :=
  (Tree.bare.add folder [] .dir Tree.bare_root rfl).add headerFile [folder]
    (.file 0 "#include \"../d/x.h\"\n".toList) rfl rfl

/-- The directory after some rounds of the loop. -/
def loopDirectory : Nat → LuaString
  | 0 => "d".toList
  | k + 1 => loopDirectory k ++ "/../d".toList

theorem loopDirectory_leads (k : Nat) : loopTree.resolve (loopDirectory k) = some [folder] := by
  induction k with
  | zero => decide
  | succ k ih => exact (Tree.resolve_slash ih "../d".toList).trans (by decide)

theorem loopDirectory_length (k : Nat) : (loopDirectory k).length = 5 * k + 1 := by
  induction k with
  | zero => rfl
  | succ k ih => rw [loopDirectory, List.length_append, ih]; simp; omega

theorem loop_leads (k : Nat) :
    loopTree.resolve (loopDirectory k ++ "/x.h".toList) = some [headerFile, folder] :=
  (Tree.resolve_slash (loopDirectory_leads k) "x.h".toList).trans (by decide)

theorem loop_read (k : Nat) : loopTree.read (loopDirectory k ++ "/x.h".toList) =
    some "#include \"../d/x.h\"\n".toList := by
  rw [Tree.read, Tree.stat, loop_leads k]
  decide

theorem loop_included (k : Nat) : loopDirectory (k + 1) ++ "/x.h".toList ∈
    included loopTree.read [] (loopDirectory k ++ "/x.h".toList) := by
  have lines : fileLines "#include \"../d/x.h\"\n".toList = ["#include \"../d/x.h\"".toList] := by
    decide +kernel
  have captured : header "#include \"../d/x.h\"".toList = some "../d/x.h".toList := by
    decide +kernel
  have text : loopDirectory k ++ "/".toList ++ "../d/x.h".toList =
      loopDirectory (k + 1) ++ "/x.h".toList := by
    simp [loopDirectory]
  have found : resolveHeader loopTree.read [] (loopDirectory k ++ "/x.h".toList)
      "../d/x.h".toList = some (loopDirectory (k + 1) ++ "/x.h".toList) := by
    rw [resolveHeader, show "/x.h".toList = '/' :: "x.h".toList from rfl,
      localInclude_slash _ _ (by decide), List.map_cons, text, List.find?_cons_of_pos]
    · rfl
    · rw [loop_read]
      rfl
  rw [included, loop_read]
  exact List.mem_filterMap.mpr ⟨_, by rw [lines]; exact List.mem_singleton_self _, by
    rw [captured]
    exact found⟩

theorem loop_reached (k : Nat) :
    Reaches (included loopTree.read []) "d/x.h".toList (loopDirectory k ++ "/x.h".toList) := by
  induction k with
  | zero => exact Relation.ReflTransGen.refl
  | succ k ih => exact ih.tail (loop_included k)

/-- The header search does not come to an end on the loop. -/
theorem header_loop : ¬ ReadsOnce loopTree inserted [] "d/x.h".toList ∧
    ∀ fuel o s', calculateDependencies loopTree.read inserted fuel "d/x.h".toList []
      Headers.none ≠ .ok o s' := by
  have endless : ∀ fuel o s', calculateDependencies loopTree.read inserted fuel
      "d/x.h".toList [] Headers.none ≠ .ok o s' := by
    intro fuel o s' run
    have few := few_of_calculate rfl run
    apply Set.infinite_of_injective_forall_mem _ loop_reached few
    intro j k same
    have length := congrArg List.length same
    simp only [List.length_append, loopDirectory_length] at length
    omega
  refine ⟨?_, endless⟩
  rintro ⟨bound, ends⟩
  obtain ⟨o, s', run, _⟩ := ends bound le_rfl
  exact endless bound o s' run

end PrimeMover
