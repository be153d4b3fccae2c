import PrimeMover.Headers
import PrimeMover.Listing

/-! collapse.lua, which combines C files and the headers they include into one file. -/
namespace PrimeMover
open LuaPattern Outcome DepthFirst SourceListing

/-- `^#include "(.*)"$` -/
def quotedPattern : Pattern where
  anchored := true
  items := "#include \"".toList.map (fun c => .one (· == c)) ++
    [.openCapture, .star (fun _ => true), .closeCapture, .one (· == '"'), .atEnd]

/-- `^#include <(.*)>$` -/
def systemPattern : Pattern where
  anchored := true
  items := "#include <".toList.map (fun c => .one (· == c)) ++
    [.openCapture, .star (fun _ => true), .closeCapture, .one (· == '>'), .atEnd]

def quotedHeader (line : LuaString) : Option LuaString := (find quotedPattern line).bind List.head?

def systemHeader (line : LuaString) : Option LuaString := (find systemPattern line).bind List.head?

def lineDirective (n : Nat) (filename : LuaString) : LuaString :=
  "#line ".toList ++ decimal n ++ " \"".toList ++ filename ++ "\"".toList

def includeDirective (name : LuaString) : LuaString := "#include <".toList ++ name ++ ">".toList

/-- The tables of the script. The last field is a record of the calls of `collapse`. -/
structure Collapsing where
  sysheaders : List LuaString
  luaheaders : List LuaString
  body : List LuaString
  expanded : List LuaString

abbrev CollapseM := EStateM Stop Collapsing

def addLine (line : LuaString) : CollapseM Unit :=
  modify (fun s => { s with body := s.body ++ [line] })

/-- The loop over the lines of a file that is open. -/
def collapseLines (collapse : LuaString → CollapseM Unit) (filename : LuaString) :
    Nat → List LuaString → CollapseM Unit
  | _, [] => pure ()
  | lineno, line :: rest => do
    match quotedHeader line with
    | some name =>
      if name ∉ (← get).luaheaders then
        modify (fun s => { s with luaheaders := s.luaheaders ++ [name] })
        collapse name
        addLine (lineDirective (lineno + 1) filename)
      else
        addLine []
    | none =>
      match systemHeader line with
      | some name =>
        addLine []
        modify (fun s => { s with
          sysheaders := if name ∈ s.sysheaders then s.sysheaders else s.sysheaders ++ [name] })
      | none => addLine line
    collapseLines collapse filename (lineno + 1) rest

def collapse (disk : Disk) : Nat → LuaString → CollapseM Unit
  | 0, _ => throw .diverges
  | fuel + 1, filename => do
    modify (fun s => { s with expanded := s.expanded ++ [filename] })
    addLine (lineDirective 1 filename)
    match disk filename with
    | none => throw (luaerror "attempt to index a nil value".toList)
    | some text => collapseLines (collapse disk fuel) filename 1 (fileLines text)

/-- The lines on standard output; `pairs` gives the system headers in any order. -/
def collapseAll (disk : Disk) (pairs : KeyOrder) (fuel : Nat) (args : List LuaString) :
    CollapseM (List LuaString) := do
  args.forM (collapse disk fuel)
  let s ← get
  pure ((pairs.order s.sysheaders).map includeDirective ++ s.body)

/-- The files that the lines of a file include in quotes, as often as they do. -/
def quotedHeaders (disk : Disk) (filename : LuaString) : List LuaString :=
  match disk filename with
  | none => []
  | some text => (fileLines text).filterMap quotedHeader

/-- A listing with the lines of a file. A quoted header is written out or left out, a system
header is left out, and every other line stays. -/
inductive Lists (disk : Disk) : List LuaString → Listing LuaString LuaString → Prop where
  | done : Lists disk [] .done
  | line (text lines rest) (unquoted : quotedHeader text = none) (other : systemHeader text = none)
      (later : Lists disk lines rest) : Lists disk (text :: lines) (.line text rest)
  | system (text name lines rest) (unquoted : quotedHeader text = none)
      (header : systemHeader text = some name) (later : Lists disk lines rest) :
      Lists disk (text :: lines) (.gap rest)
  | again (text name lines rest) (quoted : quotedHeader text = some name)
      (later : Lists disk lines rest) : Lists disk (text :: lines) (.gap rest)
  | first (text name content lines inside rest) (quoted : quotedHeader text = some name)
      (there : disk name = some content) (within : Lists disk (fileLines content) inside)
      (later : Lists disk lines rest) : Lists disk (text :: lines) (.nested name inside rest)

/-- A preprocessor that follows the directives which collapse writes. -/
structure Preprocessor where
  directive : LuaString → Option (Nat × LuaString)
  line : ∀ n filename, directive (lineDirective n filename) = some (n, filename)
  blank : directive [] = none
  system : ∀ name, directive (includeDirective name) = none

def Preprocessor.marks (cpp : Preprocessor) : Marks LuaString LuaString where
  mark := lineDirective
  blank := []
  read := cpp.directive
  read_mark := cpp.line
  read_blank := cpp.blank

def Collapsing.trail (s : Collapsing) : Trail LuaString := ⟨s.luaheaders, s.expanded⟩

/-- What has been done for some lines of a file, from line n on. -/
structure Wrote (cpp : Preprocessor) (disk : Disk) (filename : LuaString) (n : Nat)
    (lines : List LuaString) (s s' : Collapsing) (l : Listing LuaString LuaString) : Prop where
  lists : Lists disk lines l
  body : s'.body = s.body ++ renderFile cpp.marks filename n l
  headers : s'.luaheaders = s.luaheaders ++ (nestedFiles l).map Prod.fst
  calls : s'.expanded = s.expanded ++ (nestedFiles l).map Prod.fst

section
variable {cpp : Preprocessor} {disk : Disk} {fuel : Nat}

/-- The lines of a file are treated as the search treats the headers they include. -/
theorem collapseLines_wrote {search : LuaString → CollapseM Unit}
    {visit : LuaString → Trail LuaString → Option (Trail LuaString)} (filename : LuaString)
    (lines : List LuaString)
    (one : ∀ name ∈ lines.filterMap quotedHeader, ∀ s t, visit name s.trail = some t →
      ∃ s' text l, search name s = .ok () s' ∧ s'.trail = t ∧ disk name = some text ∧
        Wrote cpp disk name 1 (fileLines text)
          { s with
            expanded := s.expanded ++ [name]
            body := s.body ++ [lineDirective 1 name] } s' l)
    (n : Nat) (s : Collapsing) (t : Trail LuaString)
    (visited : visitAll visit (lines.filterMap quotedHeader) s.trail = some t) :
    ∃ s' l, collapseLines search filename n lines s = .ok () s' ∧ s'.trail = t ∧
      Wrote cpp disk filename n lines s s' l := by
  induction lines generalizing n s with
  | nil =>
    cases Option.some.inj visited
    exact ⟨s, .done, rfl, rfl, .done, by simp [renderFile], by simp [nestedFiles],
      by simp [nestedFiles]⟩
  | cons text lines ih =>
    have later : ∀ (n : Nat) (s : Collapsing),
        visitAll visit (lines.filterMap quotedHeader) s.trail = some t →
        ∃ s' l, collapseLines search filename n lines s = .ok () s' ∧ s'.trail = t ∧
          Wrote cpp disk filename n lines s s' l := by
      apply ih
      intro name mem
      apply one name
      rw [List.filterMap_cons]
      split
      · exact mem
      · exact List.mem_cons_of_mem _ mem
    cases quoted : quotedHeader text with
    | none =>
      rw [List.filterMap_cons_none quoted] at visited
      cases header : systemHeader text with
      | none =>
        obtain ⟨s', l, run, trail, wrote⟩ :=
          later (n + 1) { s with body := s.body ++ [text] } visited
        refine ⟨s', .line text l, ?_, trail,
          .line text lines l quoted header wrote.lists, ?_, ?_, ?_⟩
        · simp only [collapseLines, quoted, header, addLine, bind_run, modify_run, run]
        · simp [wrote.body, renderFile]
        · simp [wrote.headers, nestedFiles]
        · simp [wrote.calls, nestedFiles]
      | some name =>
        obtain ⟨s', l, run, trail, wrote⟩ := later (n + 1) { s with
          body := s.body ++ [[]]
          sysheaders := if name ∈ s.sysheaders then s.sysheaders else s.sysheaders ++ [name] } visited
        refine ⟨s', .gap l, ?_, trail,
          .system text name lines l quoted header wrote.lists, ?_, ?_, ?_⟩
        · simp only [collapseLines, quoted, header, addLine, bind_run, modify_run, run]
        · simp [wrote.body, renderFile, Preprocessor.marks]
        · simp [wrote.headers, nestedFiles]
        · simp [wrote.calls, nestedFiles]
    | some name =>
      rw [List.filterMap_cons_some quoted, visitAll] at visited
      by_cases old : name ∈ s.luaheaders
      · rw [if_pos (show name ∈ s.trail.marked from old)] at visited
        obtain ⟨s', l, run, trail, wrote⟩ :=
          later (n + 1) { s with body := s.body ++ [[]] } visited
        refine ⟨s', .gap l, ?_, trail, .again text name lines l quoted wrote.lists, ?_, ?_, ?_⟩
        · simp only [collapseLines, quoted, addLine, bind_run, get_run, modify_run, old,
            not_true_eq_false, if_false, run]
        · simp [wrote.body, renderFile, Preprocessor.marks]
        · simp [wrote.headers, nestedFiles]
        · simp [wrote.calls, nestedFiles]
      · rw [if_neg (show ¬ name ∈ s.trail.marked from old)] at visited
        obtain ⟨u, below, rest⟩ := Option.bind_eq_some_iff.mp visited
        have listed : name ∈ (text :: lines).filterMap quotedHeader := by
          rw [List.filterMap_cons_some quoted]
          exact List.mem_cons_self
        obtain ⟨v, content, inside, first, trail, there, within⟩ :=
          one name listed { s with luaheaders := s.luaheaders ++ [name] } u below
        obtain ⟨s', l, run, trail', wrote⟩ := later (n + 1)
          { v with body := v.body ++ [lineDirective (n + 1) filename] } (trail ▸ rest)
        refine ⟨s', .nested name inside l, ?_, trail',
          .first text name content lines inside l quoted there within.lists wrote.lists, ?_, ?_, ?_⟩
        · simp only [collapseLines, quoted, addLine, bind_run, get_run, modify_run, old,
            not_false_eq_true, if_true, first, run]
        · simp [wrote.body, within.body, renderFile, Preprocessor.marks]
        · simp [wrote.headers, within.headers, nestedFiles]
        · simp [wrote.calls, within.calls, nestedFiles]

/-- A search that returns, among files that exist, is one run of `collapse`. -/
theorem collapse_wrote (cpp : Preprocessor) (filename : LuaString) (s : Collapsing)
    (t : Trail LuaString)
    (present : ∀ n, Reaches (quotedHeaders disk) filename n → (disk n).isSome)
    (visited : visit (quotedHeaders disk) fuel filename s.trail = some t) :
    ∃ s' text l, collapse disk fuel filename s = .ok () s' ∧ s'.trail = t ∧
      disk filename = some text ∧ Wrote cpp disk filename 1 (fileLines text)
        { s with
          expanded := s.expanded ++ [filename]
          body := s.body ++ [lineDirective 1 filename] } s' l := by
  induction fuel generalizing filename s t with
  | zero => cases visited
  | succ fuel ih =>
    obtain ⟨text, there⟩ := Option.isSome_iff_exists.mp (present filename .refl)
    have same : quotedHeaders disk filename = (fileLines text).filterMap quotedHeader := by
      rw [quotedHeaders, there]
    rw [visit, same] at visited
    have below : ∀ name ∈ (fileLines text).filterMap quotedHeader, ∀ s t,
        visit (quotedHeaders disk) fuel name s.trail = some t →
        ∃ s' text l, collapse disk fuel name s = .ok () s' ∧ s'.trail = t ∧
          disk name = some text ∧ Wrote cpp disk name 1 (fileLines text)
            { s with
              expanded := s.expanded ++ [name]
              body := s.body ++ [lineDirective 1 name] } s' l := by
      intro name mem s t deeper
      exact ih name s t (fun n path => present n (path.step (same ▸ mem))) deeper
    obtain ⟨s', l, run, trail, wrote⟩ := collapseLines_wrote filename (fileLines text) below 1
      { s with
        expanded := s.expanded ++ [filename]
        body := s.body ++ [lineDirective 1 filename] } t visited
    refine ⟨s', text, l, ?_, trail, there, wrote⟩
    simp only [collapse, bind_run, modify_run, addLine, there, run]

/-- The loop over the arguments, and the listings of their files. -/
theorem collapseArgs_wrote (cpp : Preprocessor) (args : List LuaString) (s : Collapsing)
    (t : Trail LuaString)
    (present : ∀ a ∈ args, ∀ n, Reaches (quotedHeaders disk) a n → (disk n).isSome)
    (visited : visitRoots (quotedHeaders disk) fuel args s.trail = some t) :
    ∃ (s' : Collapsing) (forest : List (LuaString × Listing LuaString LuaString)),
      args.forM (collapse disk fuel) s = .ok () s' ∧ s'.trail = t ∧ forest.map Prod.fst = args ∧
      (∀ e ∈ forest, ∃ text, disk e.1 = some text ∧ Lists disk (fileLines text) e.2) ∧
      s'.body = s.body ++ renderAll cpp.marks forest ∧
      s'.luaheaders = s.luaheaders ++ (forest.flatMap (fun e => nestedFiles e.2)).map Prod.fst ∧
      s'.expanded = s.expanded ++ (listedFiles forest).map Prod.fst := by
  induction args generalizing s with
  | nil =>
    cases Option.some.inj visited
    exact ⟨s, [], rfl, rfl, rfl, by simp, by simp [renderAll], by simp, by simp [listedFiles]⟩
  | cons a args ih =>
    obtain ⟨u, one, rest⟩ := Option.bind_eq_some_iff.mp visited
    obtain ⟨v, text, l, run, trail, there, wrote⟩ :=
      collapse_wrote cpp a s u (present a List.mem_cons_self) one
    obtain ⟨s', forest, runs, trail', names, listed, body, headers, calls⟩ :=
      ih v (fun b mem => present b (List.mem_cons_of_mem a mem)) (trail ▸ rest)
    refine ⟨s', (a, l) :: forest, ?_, trail', ?_, ?_, ?_, ?_, ?_⟩
    · exact (bind_ok_run run (fun _ => args.forM (collapse disk fuel))).trans runs
    · rw [List.map_cons, names]
    · intro e mem
      rcases List.mem_cons.mp mem with rfl | later
      · exact ⟨text, there, wrote.lists⟩
      · exact listed e later
    · simp [body, wrote.body, renderAll, Preprocessor.marks]
    · simp [headers, wrote.headers]
    · simp [calls, wrote.calls, listedFiles]

end

/-- The lines of a file that are no include directives, with their places. -/
def keptLines (filename : LuaString) : Nat → List LuaString → List (LuaString × LuaString × Nat)
  | _, [] => []
  | n, line :: rest =>
    if (quotedHeader line).isNone ∧ (systemHeader line).isNone then
      (line, filename, n) :: keptLines filename (n + 1) rest
    else keptLines filename (n + 1) rest

section
variable {disk : Disk} {lines : List LuaString} {l : Listing LuaString LuaString}

theorem Lists.inside (lists : Lists disk lines l) :
    ∀ e ∈ nestedFiles l, ∃ text, disk e.1 = some text ∧ Lists disk (fileLines text) e.2 := by
  induction lists with
  | done => simp [nestedFiles]
  | line _ _ _ _ _ _ ih => exact ih
  | system _ _ _ _ _ _ _ ih => exact ih
  | again _ _ _ _ _ _ ih => exact ih
  | first text name content lines inside rest quoted there within later ihWithin ihLater =>
    intro e mem
    simp only [nestedFiles, List.cons_append, List.mem_cons, List.mem_append] at mem
    rcases mem with rfl | deeper | behind
    · exact ⟨content, there, within⟩
    · exact ihWithin e deeper
    · exact ihLater e behind

/-- Where no line of a file is a directive, the reader meets none but those of the listing. -/
theorem Lists.plain {cpp : Preprocessor} (lists : Lists disk lines l) (reached : Set LuaString)
    (closed : ∀ a ∈ reached, ∀ b ∈ quotedHeaders disk a, b ∈ reached)
    (undirected : ∀ a ∈ reached, ∀ text, disk a = some text →
      ∀ line ∈ fileLines text, cpp.directive line = none)
    (own : ∀ line ∈ lines, cpp.directive line = none)
    (headers : ∀ b ∈ lines.filterMap quotedHeader, b ∈ reached) : Unmarked cpp.marks l := by
  induction lists with
  | done => trivial
  | line text lines rest unquoted other later ih =>
    rw [List.filterMap_cons_none unquoted] at headers
    have here := own text List.mem_cons_self
    exact ⟨here, ih (fun line mem => own line (List.mem_cons_of_mem text mem)) headers⟩
  | system text name lines rest unquoted header later ih =>
    rw [List.filterMap_cons_none unquoted] at headers
    exact ih (fun line mem => own line (List.mem_cons_of_mem text mem)) headers
  | again text name lines rest quoted later ih =>
    rw [List.filterMap_cons_some quoted] at headers
    exact ih (fun line mem => own line (List.mem_cons_of_mem text mem))
      (fun b mem => headers b (List.mem_cons_of_mem name mem))
  | first text name content lines inside rest quoted there within later ihWithin ihLater =>
    rw [List.filterMap_cons_some quoted] at headers
    have entered := headers name List.mem_cons_self
    have same : quotedHeaders disk name = (fileLines content).filterMap quotedHeader := by
      rw [quotedHeaders, there]
    have below := closed name entered
    rw [same] at below
    exact ⟨ihWithin (undirected name entered content there) below,
      ihLater (fun line mem => own line (List.mem_cons_of_mem text mem))
        (fun b mem => headers b (List.mem_cons_of_mem name mem))⟩

theorem Lists.keeps (m : Marks LuaString LuaString) (lists : Lists disk lines l)
    (filename : LuaString) (n : Nat) : (keptLines filename n lines).Sublist (own m filename n l) := by
  induction lists generalizing n with
  | done => exact .refl _
  | line text lines rest unquoted other later ih =>
    simp only [keptLines, unquoted, other, Option.isNone_none, and_self, if_true]
    exact (ih (n + 1)).cons_cons _
  | system text name lines rest unquoted header later ih =>
    simp only [keptLines, header, Option.isNone_some, Bool.false_eq_true, and_false, if_false]
    exact (ih (n + 1)).cons _
  | again text name lines rest quoted later ih =>
    simp only [keptLines, quoted, Option.isNone_some, Bool.false_eq_true, false_and, if_false]
    exact (ih (n + 1)).cons _
  | first text name content lines inside rest quoted there within later _ ihLater =>
    simp only [keptLines, quoted, Option.isNone_some, Bool.false_eq_true, false_and, if_false]
    exact ihLater (n + 1)

end

theorem keptLines_cases {filename : LuaString} {n : Nat} {lines : List LuaString} :
    ∀ p ∈ keptLines filename n lines, p.2.1 = filename ∧ systemHeader p.1 = none := by
  induction lines generalizing n with
  | nil => simp [keptLines]
  | cons line lines ih =>
    intro p mem
    rw [keptLines] at mem
    split at mem
    · rename_i kept
      rcases List.mem_cons.mp mem with rfl | later
      · exact ⟨rfl, Option.isNone_iff_eq_none.mp kept.2⟩
      · exact ih p later
    · exact ih p mem

theorem systemHeader_includeDirective (name : LuaString) :
    systemHeader (includeDirective name) = some name := by
  have closing : maxExpand (fun _ => true)
      (fun s => matchItems [.closeCapture, .one (· == '>'), .atEnd] s
        [.unfinished (name ++ ['>'])]) (name ++ ['>']) = some ([], [.closed name]) := by
    apply maxExpand_last
    · intro _ _; rfl
    · rfl
    · intro a b h
      obtain ⟨rfl, rfl⟩ := List.append_eq_nil_iff.mp h.symm
      simp [matchItems]
    · simp [matchItems, closeLast_single]
  have shape : includeDirective name = "#include <".toList ++ (name ++ ['>']) :=
    List.append_assoc _ _ _
  have found : find systemPattern (includeDirective name) = some [name] := by
    rw [shape]
    refine find_of_match (show _ = some ([], [name].map .closed) from ?_)
    exact (match_word "#include <".toList (name ++ ['>']) _ []).trans closing
  rw [systemHeader, found]
  rfl

/-- What a reader finds in the text for the listings of some files. -/
theorem forest_read {disk : Disk} (cpp : Preprocessor)
    {forest : List (LuaString × Listing LuaString LuaString)}
    (lists : ∀ e ∈ listedFiles forest, ∃ text, disk e.1 = some text ∧
      Lists disk (fileLines text) e.2)
    (plain : ∀ e ∈ forest, Unmarked cpp.marks e.2) (system : List LuaString)
    (start : LuaString × Nat) {file text : LuaString}
    (mem : file ∈ (listedFiles forest).map Prod.fst) (there : disk file = some text) :
    (keptLines file 1 (fileLines text)).Sublist
        (follow cpp.marks start (system.map includeDirective ++ renderAll cpp.marks forest)) ∧
      ∀ p ∈ keptLines file 1 (fileLines text),
        (follow cpp.marks start (system.map includeDirective ++ renderAll cpp.marks forest)).count p =
          ((listedFiles forest).map Prod.fst).count file := by
  obtain ⟨front, k, same, behind⟩ := follow_unmarked cpp.marks start
    (system.map includeDirective) (by
      intro line mem
      obtain ⟨name, _, rfl⟩ := List.mem_map.mp mem
      exact cpp.system name)
  rw [behind, follow_renderAll cpp.marks _ forest plain]
  have kept : ∀ e ∈ listedFiles forest, e.1 = file →
      (keptLines file 1 (fileLines text)).Sublist (own cpp.marks e.1 1 e.2) := by
    intro e listed named
    obtain ⟨content, found, lists⟩ := lists e listed
    rw [named, there] at found
    cases found
    exact named ▸ lists.keeps cpp.marks e.1 1
  constructor
  · obtain ⟨e, listed, named⟩ := List.mem_map.mp mem
    exact ((kept e listed named).trans (listedFiles_sublist cpp.marks forest e listed)).trans
      (List.sublist_append_right _ _)
  · intro p mem
    obtain ⟨place, other⟩ := keptLines_cases p mem
    have elsewhere : p ∉ front := by
      intro first
      have line := List.mem_map_of_mem (f := Prod.fst) first
      rw [same] at line
      obtain ⟨name, _, shape⟩ := List.mem_map.mp line
      rw [← shape, systemHeader_includeDirective] at other
      cases other
    have has : ∀ e ∈ listedFiles forest, e.1 = p.2.1 → p ∈ own cpp.marks e.1 1 e.2 :=
      fun e listed named => (kept e listed (named.trans place)).subset mem
    rw [List.count_append, List.count_eq_zero_of_not_mem elsewhere, Nat.zero_add,
      placedAll_count cpp.marks forest p has, place]

/-- What collapse writes for a finite set of files that are there: it returns, each header that
is included in quotes has been expanded once, and a reader that follows the directives
finds each line at its place, as often as its file has been expanded and in order. -/
theorem collapse_faithful (cpp : Preprocessor) (disk : Disk) (pairs : KeyOrder)
    (args : List LuaString)
    (few : {b | ∃ a ∈ args, Reaches (quotedHeaders disk) a b}.Finite)
    (present : ∀ a ∈ args, ∀ b, Reaches (quotedHeaders disk) a b → (disk b).isSome)
    (undirected : ∀ a ∈ args, ∀ b, Reaches (quotedHeaders disk) a b →
      ∀ text, disk b = some text → ∀ line ∈ fileLines text, cpp.directive line = none) :
    ∃ bound, ∀ fuel, bound ≤ fuel → ∃ output s,
      collapseAll disk pairs fuel args ⟨[], [], [], []⟩ = .ok output s ∧
      s.expanded.Perm (args ++ s.luaheaders) ∧ s.luaheaders.Nodup ∧
      (∀ b, b ∈ s.luaheaders ↔
        ∃ a ∈ args, ∃ c, Reaches (quotedHeaders disk) a c ∧ b ∈ quotedHeaders disk c) ∧
      ∀ start, ∀ file ∈ s.expanded, ∀ text, disk file = some text →
        (keptLines file 1 (fileLines text)).Sublist (follow cpp.marks start output) ∧
        ∀ p ∈ keptLines file 1 (fileLines text),
          (follow cpp.marks start output).count p = s.expanded.count file := by
  obtain ⟨whole, same⟩ := few.exists_finset_coe
  have member : ∀ b, b ∈ whole.toList ↔ ∃ a ∈ args, Reaches (quotedHeaders disk) a b := by
    intro b
    rw [Finset.mem_toList, ← Finset.mem_coe, same]
    rfl
  refine ⟨whole.toList.length + 1, fun fuel enough => ?_⟩
  have closed : ∀ a ∈ whole.toList, ∀ b ∈ quotedHeaders disk a, b ∈ whole.toList := by
    intro a ha b hb
    obtain ⟨root, listed, path⟩ := (member a).mp ha
    exact (member b).mpr ⟨root, listed, path.tail hb⟩
  obtain ⟨t, visited⟩ := Option.isSome_iff_exists.mp
    (visitRoots_total closed args (fun a mem => (member a).mpr ⟨a, mem, .refl⟩) enough ⟨[], []⟩)
  obtain ⟨s, forest, run, trail, names, listed, body, headers, calls⟩ :=
    collapseArgs_wrote cpp args ⟨[], [], [], []⟩ t present visited
  simp only [List.nil_append] at body headers calls
  obtain ⟨distinct, exactly⟩ := visitRoots_exact visited
  rw [show t.marked = s.luaheaders by rw [← trail]; rfl] at distinct exactly
  refine ⟨(pairs.order s.sysheaders).map includeDirective ++ s.body, s, ?_, ?_, distinct,
    exactly, ?_⟩
  · rw [collapseAll, bind_ok_run run]
    rfl
  · rw [calls, headers, ← names, ← List.map_append]
    exact (listedFiles_perm forest).map Prod.fst
  have lists : ∀ e ∈ listedFiles forest, ∃ text, disk e.1 = some text ∧
      Lists disk (fileLines text) e.2 := by
    intro e mem
    obtain ⟨f, mem, inside⟩ := List.mem_flatMap.mp mem
    obtain ⟨text, there, top⟩ := listed f mem
    rcases List.mem_cons.mp inside with rfl | nested
    · exact ⟨text, there, top⟩
    · exact top.inside e nested
  have unread : ∀ a ∈ whole.toList, ∀ text, disk a = some text →
      ∀ line ∈ fileLines text, cpp.directive line = none := by
    intro a ha
    obtain ⟨root, mem, path⟩ := (member a).mp ha
    exact undirected root mem a path
  have plain : ∀ e ∈ forest, Unmarked cpp.marks e.2 := by
    intro e mem
    have reached : e.1 ∈ whole.toList :=
      (member e.1).mpr ⟨e.1, names ▸ List.mem_map_of_mem mem, .refl⟩
    obtain ⟨text, there, top⟩ := listed e mem
    have below := closed e.1 reached
    rw [quotedHeaders, there] at below
    exact top.plain {a | a ∈ whole.toList} closed unread (unread e.1 reached text there) below
  intro start file mem text there
  rw [body]
  rw [calls] at mem ⊢
  exact forest_read cpp lists plain _ start mem there

/-- Reads a line as a directive where it is one that collapse writes. -/
def writtenDirective (line : LuaString) : Option (Nat × LuaString) :=
  let n := Nat.ofDigitChars 10 ((line.drop 6).takeWhile Char.isDigit) 0
  let filename := (((line.drop 6).dropWhile Char.isDigit).drop 2).dropLast
  if line = lineDirective n filename then some (n, filename) else none

theorem writtenDirective_line (n : Nat) (filename : LuaString) :
    writtenDirective (lineDirective n filename) = some (n, filename) := by
  have shape : lineDirective n filename =
      "#line ".toList ++ (decimal n ++ (" \"".toList ++ filename ++ "\"".toList)) := by
    unfold lineDirective
    generalize "#line ".toList = opening, decimal n = digits, "\"".toList = closing
    simp only [List.append_assoc]
  have behind : (lineDirective n filename).drop 6 =
      decimal n ++ (" \"".toList ++ filename ++ "\"".toList) := by
    rw [shape]
    exact List.drop_left' rfl
  have digits : ∀ c ∈ decimal n, c.isDigit = true := fun c mem =>
    Nat.isDigit_of_mem_toDigits (by decide) (by decide) mem
  have number : ((lineDirective n filename).drop 6).takeWhile Char.isDigit = decimal n := by
    rw [behind, List.takeWhile_append_of_pos digits]
    exact List.append_nil _
  have rest : ((lineDirective n filename).drop 6).dropWhile Char.isDigit =
      " \"".toList ++ filename ++ "\"".toList := by
    rw [behind, List.dropWhile_append_of_pos digits]
    rfl
  have value : Nat.ofDigitChars 10 (decimal n) 0 = n := Nat.ofDigitChars_ten_toDigits
  have name : ((" \"".toList ++ filename ++ "\"".toList).drop 2).dropLast = filename :=
    List.dropLast_concat
  simp only [writtenDirective, number, rest, value, name, if_true]

def lineReader : Preprocessor where
  directive := writtenDirective
  line := writtenDirective_line
  blank := by decide
  system := by
    intro name
    rw [writtenDirective, if_neg]
    intro same
    have second : some 'i' = some 'l' := congrArg (fun s => s.tail.head?) same
    exact absurd second (by decide)

/-- Two files that include each other. -/
def mutualDisk : Disk :=
  diskOf [("a".toList, "#include \"b\"\nx\n".toList), ("b".toList, "#include \"a\"\n\ny\n".toList)]

theorem mutual_reaches {b : LuaString} (path : Reaches (quotedHeaders mutualDisk) "a".toList b) :
    b = "a".toList ∨ b = "b".toList := by
  have first : quotedHeaders mutualDisk "a".toList = ["b".toList] := by decide +kernel
  have second : quotedHeaders mutualDisk "b".toList = ["a".toList] := by decide +kernel
  induction path with
  | refl => exact .inl rfl
  | tail _ one ih =>
    rcases ih with rfl | rfl
    · exact .inr (List.mem_singleton.mp (first ▸ one))
    · exact .inl (List.mem_singleton.mp (second ▸ one))

theorem mutual_faithful : ∃ bound, ∀ fuel, bound ≤ fuel → ∃ output s,
    collapseAll mutualDisk inserted fuel ["a".toList] ⟨[], [], [], []⟩ = .ok output s ∧
    s.expanded.Perm (["a".toList] ++ s.luaheaders) ∧ s.luaheaders.Nodup ∧
    (∀ b, b ∈ s.luaheaders ↔ ∃ a ∈ ["a".toList], ∃ c,
      Reaches (quotedHeaders mutualDisk) a c ∧ b ∈ quotedHeaders mutualDisk c) ∧
    ∀ start, ∀ file ∈ s.expanded, ∀ text, mutualDisk file = some text →
      (keptLines file 1 (fileLines text)).Sublist (follow lineReader.marks start output) ∧
      ∀ p ∈ keptLines file 1 (fileLines text),
        (follow lineReader.marks start output).count p = s.expanded.count file := by
  have unread : ∀ b, b = "a".toList ∨ b = "b".toList → ∀ text, mutualDisk b = some text →
      ∀ line ∈ fileLines text, lineReader.directive line = none := by
    have here : ∀ b ∈ ["a".toList, "b".toList], ∀ text ∈ mutualDisk b,
        ((fileLines text).all (fun line => (writtenDirective line).isNone)) = true := by
      decide +kernel
    intro b two text there line mem
    have all := here b (by simpa using two) text there
    exact Option.isNone_iff_eq_none.mp (List.all_eq_true.mp all line mem)
  apply collapse_faithful
  · apply (["a".toList, "b".toList].finite_toSet).subset
    rintro b ⟨a, mem, path⟩
    cases List.mem_singleton.mp mem
    rcases mutual_reaches path with rfl | rfl <;> simp
  · intro a mem b path
    cases List.mem_singleton.mp mem
    rcases mutual_reaches path with rfl | rfl <;> rfl
  · intro a mem b path
    cases List.mem_singleton.mp mem
    exact unread b (mutual_reaches path)

end PrimeMover
