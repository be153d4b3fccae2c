import PrimeMover.Cache
import PrimeMover.DepthFirst

/-! The header search of lib/c.pm, on a file system that does not change. -/
namespace PrimeMover
open LuaPattern LineReader AssocTable Outcome DepthFirst

/-- What `io_open` gives for a name: the text of the file, if it can be opened. -/
abbrev Disk := LuaString → Option LuaString

/-- `for line in file:lines()`; a line has at least one character of the text. -/
def linesFrom : Nat → LuaString → List LuaString
  | 0, _ => []
  | fuel + 1, text =>
    let l := readLine bufferSize text
    match l.1 with
    | none => []
    | some line => line :: linesFrom fuel l.2

def fileLines (text : LuaString) : List LuaString := linesFrom (text.length + 1) text

def blank (c : Char) : Bool := c == ' ' || c == '\t'

/-- `^[ \t]*#[ \t]*include[ \t]*["<]([^"]+)[">]` -/
def includePattern : Pattern where
  anchored := true
  items := [.star blank, .one (· == '#'), .star blank] ++
    "include".toList.map (fun c => .one (· == c)) ++
    [.star blank, .one (fun c => c == '"' || c == '<'), .openCapture, .plus (· != '"'),
      .closeCapture, .one (fun c => c == '"' || c == '>')]

/-- The name an include line captures. -/
def header (line : LuaString) : Option LuaString := (find includePattern line).bind List.head?

/-- The name without its last `/...` part, which is the whole name if it has none. -/
def localInclude (filename : LuaString) : LuaString := gsub lastComponent (fun _ => []) filename

/-- `dependency_cache`, and the table of the names found by the call under way. The
last field is a record of the files whose lines were read. -/
structure Headers where
  dependencyCache : List (LuaString × List LuaString)
  deps : List LuaString
  scanned : List LuaString

abbrev HeaderM := EStateM Stop Headers

/-- The loop over the search path. The first file that opens ends it. -/
def followInclude (disk : Disk) (calcdeps : LuaString → LuaString → HeaderM Unit)
    (f : LuaString) : List LuaString → HeaderM Unit
  | [] => pure ()
  | path :: paths => do
    let subfilename := path ++ "/".toList ++ f
    match disk subfilename with
    | none => followInclude disk calcdeps f paths
    | some subfile =>
      if subfilename ∉ (← get).deps then
        modify (fun s => { s with deps := s.deps ++ [subfilename] })
        calcdeps subfilename subfile

def scanLine (disk : Disk) (calcdeps : LuaString → LuaString → HeaderM Unit)
    (localincludes : List LuaString) (line : LuaString) : HeaderM Unit :=
  match header line with
  | none => pure ()
  | some f => followInclude disk calcdeps f localincludes

/-- The local function `calcdeps`, for a file that is open. -/
def calcdeps (disk : Disk) (includes : List LuaString) : Nat → LuaString → LuaString →
    HeaderM Unit
  | 0, _, _ => throw .diverges
  | fuel + 1, filename, file => do
    modify (fun s => { s with scanned := s.scanned ++ [filename] })
    (fileLines file).forM
      (scanLine disk (calcdeps disk includes fuel) (localInclude filename :: includes))

/-- The order in which `pairs` gives the keys of a table. -/
structure KeyOrder where
  order : List LuaString → List LuaString
  perm : ∀ keys, (order keys).Perm keys

def calculateDependencies (disk : Disk) (pairs : KeyOrder) (fuel : Nat) (filename : LuaString)
    (includes : List LuaString) : HeaderM (List LuaString) := do
  match (← get).dependencyCache.lookup filename with
  | some o => pure o
  | none =>
    modify (fun s => { s with deps := [filename] })
    match disk filename with
    | none => pure ()
    | some file => calcdeps disk includes fuel filename file
    let o := pairs.order (← get).deps
    modify (fun s => { s with dependencyCache := setEntry s.dependencyCache filename o })
    pure o

/-- The first name on the search path that can be opened. -/
def resolveHeader (disk : Disk) (includes : List LuaString) (filename f : LuaString) :
    Option LuaString :=
  ((localInclude filename :: includes).map (· ++ "/".toList ++ f)).find?
    (fun name => (disk name).isSome)

/-- The names that the include lines of a file lead to. -/
def included (disk : Disk) (includes : List LuaString) (filename : LuaString) : List LuaString :=
  match disk filename with
  | none => []
  | some file => (fileLines file).filterMap
      (fun line => (header line).bind (resolveHeader disk includes filename))

def Headers.trail (s : Headers) : Trail LuaString := ⟨s.deps, s.scanned⟩

def Headers.follow (s : Headers) (t : Trail LuaString) : Headers :=
  { s with deps := t.marked, scanned := t.scanned }

/-- A run of the loops and a search with the same outcome. -/
def Follows (s : Headers) (r : EStateM.Result Stop Headers Unit) :
    Option (Trail LuaString) → Prop
  | some t => r = .ok () (s.follow t)
  | none => ∃ s', r = .error .diverges s'

@[simp] theorem Headers.follow_trail (s : Headers) (t : Trail LuaString) :
    (s.follow t).trail = t := rfl

@[simp] theorem Headers.follow_follow (s : Headers) (t u : Trail LuaString) :
    (s.follow t).follow u = s.follow u := rfl

theorem Follows.bind {s : Headers} {x y : HeaderM Unit} {o : Option (Trail LuaString)}
    {p : Trail LuaString → Option (Trail LuaString)} (first : Follows s (x s) o)
    (later : ∀ t, Follows (s.follow t) (y (s.follow t)) (p t)) :
    Follows s ((x >>= fun _ => y) s) (o.bind p) := by
  cases o with
  | none =>
    obtain ⟨s', stopped⟩ := first
    exact ⟨s', bind_error_run stopped _⟩
  | some t =>
    rw [bind_ok_run (show x s = .ok () (s.follow t) from first)]
    have rest := later t
    cases hp : p t with
    | none =>
      rw [hp] at rest
      simpa [Follows, hp] using rest
    | some u =>
      rw [hp] at rest
      simpa [Follows, hp] using rest

section
variable (disk : Disk) (calcdeps : LuaString → LuaString → HeaderM Unit)
  (search : LuaString → Trail LuaString → Option (Trail LuaString))

theorem followInclude_follows
    (below : ∀ name file, disk name = some file →
      ∀ s, Follows s (calcdeps name file s) (search name s.trail))
    (f : LuaString) (paths : List LuaString) (s : Headers) :
    Follows s (followInclude disk calcdeps f paths s)
      (visitAll search ((paths.map (· ++ "/".toList ++ f)).find?
        (fun name => (disk name).isSome)).toList s.trail) := by
  induction paths with
  | nil => rfl
  | cons path paths ih =>
    rw [followInclude, List.map_cons]
    cases opened : disk (path ++ "/".toList ++ f) with
    | none =>
      rw [List.find?_cons_of_neg (by simp only [opened, Option.isSome_none, Bool.false_eq_true,
        not_false_eq_true])]
      exact ih
    | some file =>
      rw [List.find?_cons_of_pos (by simp only [opened, Option.isSome_some])]
      simp only [Option.toList_some, visitAll, bind_run, get_run]
      by_cases old : path ++ "/".toList ++ f ∈ s.deps
      · rw [if_neg (not_not.mpr old), if_pos (show _ ∈ s.trail.marked from old)]
        rfl
      · rw [if_pos old, if_neg (show ¬ _ ∈ s.trail.marked from old), Option.bind_fun_some]
        exact below _ file opened { s with deps := s.deps ++ [path ++ "/".toList ++ f] }

theorem scanLine_follows
    (below : ∀ name file, disk name = some file →
      ∀ s, Follows s (calcdeps name file s) (search name s.trail))
    (includes : List LuaString) (filename line : LuaString) (s : Headers) :
    Follows s (scanLine disk calcdeps (localInclude filename :: includes) line s)
      (visitAll search ((header line).bind (resolveHeader disk includes filename)).toList
        s.trail) := by
  rw [scanLine]
  cases header line with
  | none => rfl
  | some f => exact followInclude_follows disk calcdeps search below f _ s

end

/-- The loops are the search among the included names, for every amount of fuel. -/
theorem calcdeps_follows (disk : Disk) (includes : List LuaString) (fuel : Nat)
    (name file : LuaString) (opened : disk name = some file) (s : Headers) :
    Follows s (calcdeps disk includes fuel name file s)
      (visit (included disk includes) fuel name s.trail) := by
  induction fuel generalizing name file s with
  | zero => exact ⟨s, rfl⟩
  | succ fuel ih =>
    have all : ∀ lines : List LuaString, ∀ t : Headers,
        Follows t (lines.forM (scanLine disk (calcdeps disk includes fuel)
          (localInclude name :: includes)) t)
          (visitAll (visit (included disk includes) fuel) (lines.filterMap
            (fun line => (header line).bind (resolveHeader disk includes name))) t.trail) := by
      intro lines
      induction lines with
      | nil => exact fun t => rfl
      | cons line lines rest =>
        intro t
        have split : (line :: lines).filterMap
            (fun line => (header line).bind (resolveHeader disk includes name)) =
            ((header line).bind (resolveHeader disk includes name)).toList ++ lines.filterMap
              (fun line => (header line).bind (resolveHeader disk includes name)) := by
          rw [List.filterMap_cons]
          cases (header line).bind (resolveHeader disk includes name) <;> rfl
        rw [split, visitAll_append]
        exact (scanLine_follows disk _ _ ih includes name line t).bind fun u => rest _
    have same : included disk includes name = (fileLines file).filterMap
        (fun line => (header line).bind (resolveHeader disk includes name)) := by
      rw [included, opened]
    rw [visit, same]
    exact all (fileLines file) { s with scanned := s.scanned ++ [name] }

theorem calcdeps_cache (disk : Disk) (includes : List LuaString)
    (table : List (LuaString × List LuaString)) (fuel : Nat) (name file : LuaString) :
    Keeps (fun s : Headers => s.dependencyCache = table)
      (calcdeps disk includes fuel name file) := by
  induction fuel generalizing name file with
  | zero => exact Keeps.throw _
  | succ fuel ih =>
    have follow : ∀ (f : LuaString) (paths : List LuaString),
        Keeps (fun s : Headers => s.dependencyCache = table)
          (followInclude disk (calcdeps disk includes fuel) f paths) := by
      intro f paths
      induction paths with
      | nil => exact Keeps.pure ()
      | cons path paths rest =>
        rw [followInclude]
        cases disk (path ++ "/".toList ++ f) with
        | none => exact rest
        | some subfile =>
          refine Keeps.get_bind fun s hs => ?_
          split
          · refine Keeps.from (Keeps.bind ?_ fun _ => ih _ subfile) hs
            exact Keeps.modify fun _ same => same
          · exact (Keeps.pure ()).from hs
    rw [calcdeps]
    refine Keeps.bind (Keeps.modify fun _ same => same) fun _ => Keeps.forM _ fun line _ => ?_
    unfold scanLine
    split
    · exact Keeps.pure ()
    · exact follow _ _

theorem calculate_unopened {disk : Disk} {filename : LuaString} (missing : disk filename = none)
    (pairs : KeyOrder) (fuel : Nat) (includes : List LuaString) (s : Headers)
    (first : s.dependencyCache.lookup filename = none) :
    calculateDependencies disk pairs fuel filename includes s =
      .ok (pairs.order [filename]) { s with
        deps := [filename]
        dependencyCache := setEntry s.dependencyCache filename (pairs.order [filename]) } := by
  simp only [calculateDependencies, bind_run, get_run, first, missing, modify_run, pure_run]

theorem calculate_opened {disk : Disk} {filename file : LuaString}
    (opened : disk filename = some file) (pairs : KeyOrder) (fuel : Nat)
    (includes : List LuaString) (s : Headers)
    (first : s.dependencyCache.lookup filename = none) :
    match visit (included disk includes) fuel filename ⟨[filename], s.scanned⟩ with
    | some t => calculateDependencies disk pairs fuel filename includes s =
        .ok (pairs.order t.marked) ⟨setEntry s.dependencyCache filename (pairs.order t.marked),
          t.marked, t.scanned⟩
    | none => ∃ s', calculateDependencies disk pairs fuel filename includes s =
        .error .diverges s' := by
  have search := calcdeps_follows disk includes fuel filename file opened
    { s with deps := [filename] }
  simp only [calculateDependencies, bind_run, get_run, first, opened, modify_run, pure_run]
  simp only [Headers.trail] at search
  cases found : visit (included disk includes) fuel filename ⟨[filename], s.scanned⟩ with
  | none =>
    rw [found] at search
    obtain ⟨s', stopped⟩ := search
    exact ⟨s', by rw [stopped]⟩
  | some t =>
    rw [found] at search
    rw [show calcdeps disk includes fuel filename file { s with deps := [filename] } = _
      from search]
    rfl

theorem calculate_stops {disk : Disk} {pairs : KeyOrder} {fuel : Nat} {filename : LuaString}
    {includes : List LuaString} {s s' : Headers} {e : Stop}
    (run : calculateDependencies disk pairs fuel filename includes s = .error e s') :
    s'.dependencyCache = s.dependencyCache := by
  simp only [calculateDependencies, bind_run, get_run] at run
  cases known : s.dependencyCache.lookup filename with
  | some o =>
    simp only [known, pure_run] at run
    cases run
  | none =>
    simp only [known, bind_run, modify_run] at run
    cases opened : disk filename with
    | none =>
      simp only [opened] at run
      cases run
    | some file =>
      have kept := calcdeps_cache disk includes s.dependencyCache fuel filename file
        { s with deps := [filename] } rfl
      simp only [opened, bind_run] at run
      cases search : calcdeps disk includes fuel filename file { s with deps := [filename] } with
      | ok a t =>
        rw [search] at run
        cases run
      | error e' t =>
        rw [search] at run kept
        cases run
        exact kept

theorem opened_of_reaches {disk : Disk} {includes : List LuaString} {root name : LuaString}
    (path : Reaches (included disk includes) root name) : name = root ∨ (disk name).isSome := by
  rcases Relation.ReflTransGen.cases_tail path with same | ⟨before, _, one⟩
  · exact Or.inl same
  · right
    unfold included at one
    split at one
    · cases one
    · obtain ⟨line, _, found⟩ := List.mem_filterMap.mp one
      obtain ⟨f, _, found⟩ := Option.bind_eq_some_iff.mp found
      have there := List.find?_some found
      exact there

theorem reaches_unopened {disk : Disk} {includes : List LuaString} {root name : LuaString}
    (missing : disk root = none) :
    Reaches (included disk includes) root name ↔ name = root := by
  constructor
  · intro path
    rcases Relation.ReflTransGen.cases_head path with same | ⟨after, one, _⟩
    · exact same.symm
    · rw [included, missing] at one
      cases one
  · rintro rfl
    exact Relation.ReflTransGen.refl

theorem calculate_first {disk : Disk} {pairs : KeyOrder} {fuel : Nat} {root : LuaString}
    {includes o : List LuaString} {s s' : Headers}
    (first : s.dependencyCache.lookup root = none)
    (run : calculateDependencies disk pairs fuel root includes s = .ok o s') :
    o.Nodup ∧ (∀ n, n ∈ o ↔ Reaches (included disk includes) root n) ∧
      s'.dependencyCache = setEntry s.dependencyCache root o ∧
      ∃ new, s'.scanned = s.scanned ++ new ∧ new.Nodup ∧
        ∀ n, n ∈ new ↔ Reaches (included disk includes) root n ∧ (disk n).isSome := by
  cases opened : disk root with
  | none =>
    rw [calculate_unopened opened pairs fuel includes s first] at run
    cases run
    have alone := pairs.perm [root]
    refine ⟨alone.nodup_iff.mpr (List.nodup_singleton root), fun n => ?_, rfl, [], by simp,
      List.nodup_nil, fun n => ?_⟩
    · rw [alone.mem_iff, List.mem_singleton, reaches_unopened opened]
    · rw [reaches_unopened opened]
      constructor
      · intro h
        cases h
      · rintro ⟨rfl, there⟩
        rw [opened] at there
        cases there
  | some file =>
    have search := calculate_opened opened pairs fuel includes s first
    cases found : visit (included disk includes) fuel root ⟨[root], s.scanned⟩ with
    | none =>
      rw [found] at search
      obtain ⟨_, stopped⟩ := search
      cases run.symm.trans stopped
    | some t =>
      rw [found] at search
      cases run.symm.trans search
      obtain ⟨distinct, exactly, scanned⟩ := visit_exact found
      have order := pairs.perm t.marked
      refine ⟨order.nodup_iff.mpr distinct, fun n => ?_, rfl, t.marked, scanned, distinct,
        fun n => ?_⟩
      · rw [order.mem_iff]
        exact exactly n
      · rw [exactly]
        constructor
        · intro path
          refine ⟨path, ?_⟩
          rcases opened_of_reaches path with rfl | there
          · rw [opened]
            rfl
          · exact there
        · exact And.left

theorem few_of_calculate {disk : Disk} {pairs : KeyOrder} {fuel : Nat} {root : LuaString}
    {includes o : List LuaString} {s s' : Headers}
    (first : s.dependencyCache.lookup root = none)
    (run : calculateDependencies disk pairs fuel root includes s = .ok o s') :
    {n | Reaches (included disk includes) root n}.Finite := by
  apply o.finite_toSet.subset
  intro n path
  exact ((calculate_first first run).2.1 n).mpr path

theorem calculate_returns (disk : Disk) (pairs : KeyOrder) {root : LuaString}
    {includes : List LuaString} (few : {n | Reaches (included disk includes) root n}.Finite) :
    ∃ bound, ∀ fuel, bound ≤ fuel → ∀ s : Headers, s.dependencyCache.lookup root = none →
      ∃ o s', calculateDependencies disk pairs fuel root includes s = .ok o s' := by
  obtain ⟨bound, returns⟩ := visit_returns few
  refine ⟨bound, fun fuel enough s first => ?_⟩
  cases opened : disk root with
  | none => exact ⟨_, _, calculate_unopened opened pairs fuel includes s first⟩
  | some file =>
    obtain ⟨t, found⟩ := returns fuel enough s.scanned
    have search := calculate_opened opened pairs fuel includes s first
    rw [found] at search
    exact ⟨_, _, search⟩

/-- The header search: from any state of the cache that does not know the root, it
returns what the root reaches, and reads each file it reaches once. -/
theorem headers_reached (disk : Disk) (pairs : KeyOrder) (includes : List LuaString)
    (root : LuaString) (few : {n | (disk n).isSome}.Finite) :
    ∃ bound, ∀ fuel, bound ≤ fuel → ∀ s : Headers, s.dependencyCache.lookup root = none →
      ∃ o s', calculateDependencies disk pairs fuel root includes s = .ok o s' ∧ o.Nodup ∧
        (∀ n, n ∈ o ↔ Reaches (included disk includes) root n) ∧
        ∃ new, s'.scanned = s.scanned ++ new ∧ new.Nodup ∧
          ∀ n, n ∈ new ↔ Reaches (included disk includes) root n ∧ (disk n).isSome := by
  have reach : {n | Reaches (included disk includes) root n}.Finite := by
    apply (few.insert root).subset
    intro n path
    exact opened_of_reaches path
  obtain ⟨bound, returns⟩ := calculate_returns disk pairs reach
  refine ⟨bound, fun fuel enough s first => ?_⟩
  obtain ⟨o, s', run⟩ := returns fuel enough s first
  obtain ⟨distinct, exactly, _, reads⟩ := calculate_first first run
  exact ⟨o, s', run, distinct, exactly, reads⟩

/-- A disk with the files of a table. -/
def diskOf (files : List (LuaString × LuaString)) : Disk := fun name => files.lookup name

theorem diskOf_few (files : List (LuaString × LuaString)) :
    {n | (diskOf files n).isSome}.Finite := by
  apply (files.map Prod.fst).finite_toSet.subset
  intro n there
  obtain ⟨text, found⟩ := Option.isSome_iff_exists.mp there
  exact List.mem_map.mpr ⟨(n, text), mem_of_lookup found, rfl⟩

def inserted : KeyOrder := ⟨id, fun keys => List.Perm.refl keys⟩

def Headers.none : Headers := ⟨[], [], []⟩

/-- Two headers that include each other, one of them through the search path. -/
def mutualHeaders : Disk := diskOf
  [("src/main.c".toList, "#include \"a.h\"\nint x;\n # include\t<b.h>\n".toList),
   ("src/a.h".toList, "#include \"b.h\"\n".toList),
   ("lib/b.h".toList, "#include <../src/a.h>".toList),
   ("lib/../src/a.h".toList, "#include \"b.h\"\n".toList)]

def mutualNames : List LuaString :=
  ["src/main.c".toList, "src/a.h".toList, "lib/b.h".toList, "lib/../src/a.h".toList]

/-- The search with a fuel that is enough here. -/
theorem mutual_run : (∀ n, Reaches (included mutualHeaders ["lib".toList]) "src/main.c".toList n ↔
    n ∈ mutualNames) ∧ ∀ n ∈ mutualNames, (mutualHeaders n).isSome := by
  have returned : (match calculateDependencies mutualHeaders inserted 9 "src/main.c".toList
      ["lib".toList] Headers.none with
    | .ok o _ => decide (o = mutualNames)
    | .error _ _ => false) = true := by decide +kernel
  have opened : mutualNames.all (fun n => (mutualHeaders n).isSome) = true := by decide +kernel
  refine ⟨fun n => ?_, List.all_eq_true.mp opened⟩
  cases run : calculateDependencies mutualHeaders inserted 9 "src/main.c".toList
    ["lib".toList] Headers.none with
  | ok o s' =>
    rw [run] at returned
    rw [← of_decide_eq_true returned]
    exact ((calculate_first rfl run).2.1 n).symm
  | error e s' =>
    rw [run] at returned
    cases returned

theorem mutual_headers_reached :
    ∃ bound, ∀ fuel, bound ≤ fuel →
      ∃ o s', calculateDependencies mutualHeaders inserted fuel "src/main.c".toList
        ["lib".toList] Headers.none = .ok o s' ∧ o.Nodup ∧ (∀ n, n ∈ o ↔ n ∈ mutualNames) ∧
        s'.scanned.Nodup ∧ ∀ n, n ∈ s'.scanned ↔ n ∈ mutualNames := by
  obtain ⟨bound, all⟩ := headers_reached mutualHeaders inserted ["lib".toList] "src/main.c".toList
    (diskOf_few _)
  obtain ⟨reached, opened⟩ := mutual_run
  refine ⟨bound, fun fuel enough => ?_⟩
  obtain ⟨o, s', run, distinct, exactly, new, scanned, once, reads⟩ :=
    all fuel enough Headers.none rfl
  have scanned : s'.scanned = new := scanned
  refine ⟨o, s', run, distinct, fun n => (exactly n).trans (reached n), scanned ▸ once, fun n => ?_⟩
  rw [scanned, reads, reached]
  exact ⟨And.left, fun member => ⟨member, opened n member⟩⟩

/-- A call of the header search. -/
structure HeaderCall where
  filename : LuaString
  includes : List LuaString

/-- The names the call is about. -/
def HeaderCall.Reaches (disk : Disk) (c : HeaderCall) (name : LuaString) : Prop :=
  DepthFirst.Reaches (included disk c.includes) c.filename name

/-- The calls return these lists one after the other. -/
def Answers (disk : Disk) : Headers → List HeaderCall → List (List LuaString) → Prop
  | _, [], [] => True
  | s, c :: cs, o :: os => ∃ pairs fuel s',
      calculateDependencies disk pairs fuel c.filename c.includes s = .ok o s' ∧
        Answers disk s' cs os
  | _, _, _ => False

/-- The list holds the names that a call with an empty cache returns. -/
def AsFresh (disk : Disk) (c : HeaderCall) (o : List LuaString) : Prop :=
  ∃ pairs fuel o' s',
    calculateDependencies disk pairs fuel c.filename c.includes Headers.none = .ok o' s' ∧
      ∀ n, n ∈ o ↔ n ∈ o'

theorem asFresh_iff {disk : Disk} {c : HeaderCall} {o : List LuaString} :
    AsFresh disk c o ↔ ∀ n, n ∈ o ↔ c.Reaches disk n := by
  constructor
  · rintro ⟨pairs, fuel, o', s', run, same⟩ n
    rw [same, (calculate_first rfl run).2.1 n]
    rfl
  · intro exactly
    have few : {n | c.Reaches disk n}.Finite := by
      apply o.finite_toSet.subset
      intro n path
      exact (exactly n).mpr path
    obtain ⟨bound, returns⟩ := calculate_returns disk inserted few
    obtain ⟨o', s', run⟩ := returns bound le_rfl Headers.none rfl
    refine ⟨inserted, bound, o', s', run, fun n => ?_⟩
    rw [exactly, (calculate_first rfl run).2.1 n]
    rfl

theorem calculate_cache {disk : Disk} {pairs : KeyOrder} {fuel : Nat} {c : HeaderCall}
    {o : List LuaString} {s s' : Headers}
    (run : calculateDependencies disk pairs fuel c.filename c.includes s = .ok o s') :
    s'.dependencyCache.lookup c.filename = some o ∧
      (∀ name o, s.dependencyCache.lookup name = some o →
        s'.dependencyCache.lookup name = some o) ∧
      ∀ name o, s'.dependencyCache.lookup name = some o →
        s.dependencyCache.lookup name = some o ∨
          c.filename = name ∧ ∀ n, n ∈ o ↔ c.Reaches disk n := by
  cases known : s.dependencyCache.lookup c.filename with
  | some o' =>
    simp only [calculateDependencies, bind_run, get_run, known, pure_run] at run
    cases run
    exact ⟨known, fun _ _ h => h, fun _ _ h => Or.inl h⟩
  | none =>
    obtain ⟨_, exactly, table, _⟩ := calculate_first known run
    rw [table]
    refine ⟨by simp, fun name o' old => ?_, fun name o' found => ?_⟩
    · rw [lookup_setEntry, if_neg]
      · exact old
      · intro same
        rw [beq_iff_eq.mp same, known] at old
        cases old
    · rw [lookup_setEntry] at found
      split at found
      · rename_i same
        cases found
        exact Or.inr ⟨(beq_iff_eq.mp same).symm, exactly⟩
      · exact Or.inl found

theorem answers_table {disk : Disk} {calls : List HeaderCall} {answers : List (List LuaString)}
    {s : Headers} (run : Answers disk s calls answers) :
    ∃ table : List (LuaString × List LuaString), calls.length = answers.length ∧
      (∀ p ∈ calls.zip answers, table.lookup p.1.filename = some p.2) ∧
      (∀ name o, s.dependencyCache.lookup name = some o → table.lookup name = some o) ∧
      ∀ name o, table.lookup name = some o → s.dependencyCache.lookup name = some o ∨
        ∃ c ∈ calls, c.filename = name ∧ ∀ n, n ∈ o ↔ c.Reaches disk n := by
  induction calls generalizing s answers with
  | nil =>
    cases answers with
    | nil => exact ⟨s.dependencyCache, rfl, by simp, fun _ _ h => h, fun _ _ h => Or.inl h⟩
    | cons o os => exact run.elim
  | cons c cs ih =>
    cases answers with
    | nil => exact run.elim
    | cons o os =>
      obtain ⟨pairs, fuel, s', one, rest⟩ := run
      obtain ⟨here, kept, source⟩ := calculate_cache one
      obtain ⟨table, length, answered, grown, entered⟩ := ih rest
      refine ⟨table, by simp [length], ?_, fun name o' h => grown name o' (kept name o' h), ?_⟩
      · intro p hp
        rcases List.mem_cons.mp hp with rfl | hp
        · exact grown _ _ here
        · exact answered p hp
      · intro name o' found
        rcases entered name o' found with old | ⟨d, hd, same, names⟩
        · rcases source name o' old with old | ⟨same, names⟩
          · exact Or.inl old
          · exact Or.inr ⟨c, List.mem_cons_self, same, names⟩
        · exact Or.inr ⟨d, List.mem_cons_of_mem c hd, same, names⟩

/-- With finitely many files every sequence of calls returns. -/
theorem answers_of_few {disk : Disk} (few : {n | (disk n).isSome}.Finite)
    (calls : List HeaderCall) (s : Headers) : ∃ answers, Answers disk s calls answers := by
  induction calls generalizing s with
  | nil => exact ⟨[], trivial⟩
  | cons c cs ih =>
    have one : ∃ fuel o s',
        calculateDependencies disk inserted fuel c.filename c.includes s = .ok o s' := by
      cases known : s.dependencyCache.lookup c.filename with
      | some o =>
        refine ⟨0, o, s, ?_⟩
        simp only [calculateDependencies, bind_run, get_run, known, pure_run]
      | none =>
        have reach : {n | c.Reaches disk n}.Finite := by
          apply (few.insert c.filename).subset
          intro n path
          exact opened_of_reaches path
        obtain ⟨bound, returns⟩ := calculate_returns disk inserted reach
        exact ⟨bound, returns bound le_rfl s known⟩
    obtain ⟨fuel, o, s', run⟩ := one
    obtain ⟨os, rest⟩ := ih s'
    exact ⟨o :: os, inserted, fuel, s', run, rest⟩

/-- Every call returns what it would return without the cache exactly when calls for
one file are made with search paths on which the file reaches the same names. -/
theorem cached_headers (disk : Disk) (calls : List HeaderCall) (answers : List (List LuaString))
    (run : Answers disk Headers.none calls answers) :
    List.Forall₂ (AsFresh disk) calls answers ↔
      ∀ c ∈ calls, ∀ d ∈ calls, c.filename = d.filename →
        ∀ n, c.Reaches disk n ↔ d.Reaches disk n := by
  obtain ⟨table, length, answered, _, entered⟩ := answers_table run
  rw [List.forall₂_iff_zip]
  constructor
  · rintro ⟨_, fresh⟩ c hc d hd same n
    have answer : ∀ e ∈ calls, ∃ o, (e, o) ∈ calls.zip answers := by
      intro e he
      obtain ⟨i, hi, rfl⟩ := List.mem_iff_getElem.mp he
      exact ⟨answers[i], List.mem_iff_getElem.mpr ⟨i, by simp; omega, by simp⟩⟩
    obtain ⟨o, ho⟩ := answer c hc
    obtain ⟨o', ho'⟩ := answer d hd
    have hd' := answered _ ho'
    rw [← same, answered _ ho] at hd'
    cases hd'
    rw [← asFresh_iff.mp (fresh ho) n, asFresh_iff.mp (fresh ho') n]
  · intro agree
    refine ⟨length, fun {c o} member => asFresh_iff.mpr fun n => ?_⟩
    have hc := (List.of_mem_zip member).1
    rcases entered _ _ (answered _ member) with known | ⟨d, hd, same, names⟩
    · cases known
    · rw [names n]
      exact agree d hd c hc same n

def answer {E S A : Type} : EStateM.Result E S A → Option A
  | .ok a _ => some a
  | .error _ _ => none

theorem answers_again {disk : Disk} {c d : HeaderCall} {o : List LuaString} {fuel : Nat}
    (same : c.filename = d.filename)
    (first : answer (calculateDependencies disk inserted fuel c.filename c.includes
      Headers.none) = some o) : Answers disk Headers.none [c, d] [o, o] := by
  cases run : calculateDependencies disk inserted fuel c.filename c.includes Headers.none with
  | error e s' =>
    rw [run] at first
    cases first
  | ok o' s' =>
    rw [run] at first
    cases first
    refine ⟨inserted, fuel, s', run, inserted, 0, s', ?_, trivial⟩
    have known := (calculate_cache run).1
    rw [same] at known
    simp only [calculateDependencies, bind_run, get_run, known, pure_run]

/-- One source compiled with two search paths that have a header of the same name. -/
def twoPaths : Disk := diskOf
  [("a.c".toList, "#include <x.h>\n".toList), ("one/x.h".toList, []), ("two/x.h".toList, [])]

theorem second_path_ignored : ∃ answers,
    Answers twoPaths Headers.none
      [⟨"a.c".toList, ["one".toList]⟩, ⟨"a.c".toList, ["two".toList]⟩] answers ∧
    ¬ List.Forall₂ (AsFresh twoPaths)
      [⟨"a.c".toList, ["one".toList]⟩, ⟨"a.c".toList, ["two".toList]⟩] answers := by
  let o : List LuaString := ["a.c".toList, "one/x.h".toList]
  have first : answer (calculateDependencies twoPaths inserted 3 "a.c".toList ["one".toList]
      Headers.none) = some o := by decide +kernel
  refine ⟨[o, o], answers_again rfl first, fun fresh => ?_⟩
  cases fresh with
  | cons _ rest =>
    cases rest with
    | cons second _ =>
      have reached : HeaderCall.Reaches twoPaths ⟨"a.c".toList, ["two".toList]⟩
          "two/x.h".toList :=
        Relation.ReflTransGen.single (by decide +kernel)
      have listed := (asFresh_iff.mp second _).mpr reached
      exact absurd listed (by decide)

theorem same_path_twice : ∃ answers,
    Answers twoPaths Headers.none
      [⟨"a.c".toList, ["one".toList]⟩, ⟨"a.c".toList, ["one".toList]⟩] answers ∧
    List.Forall₂ (AsFresh twoPaths)
      [⟨"a.c".toList, ["one".toList]⟩, ⟨"a.c".toList, ["one".toList]⟩] answers := by
  obtain ⟨answers, run⟩ := answers_of_few (diskOf_few _)
    [⟨"a.c".toList, ["one".toList]⟩, ⟨"a.c".toList, ["one".toList]⟩] Headers.none
  refine ⟨answers, run, (cached_headers twoPaths _ answers run).mpr ?_⟩
  intro c hc d hd _ n
  simp only [List.mem_cons, List.not_mem_nil, or_false, or_self] at hc hd
  rw [hc, hd]

end PrimeMover
