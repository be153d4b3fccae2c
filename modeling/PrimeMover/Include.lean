import PrimeMover.Links
import PrimeMover.Spellings

/-! What the search of lib/c.pm makes of one include line: the name its pattern
captures, and the directory in which a quoted name is looked up first. -/
namespace PrimeMover
open LuaPattern DepthFirst PosixTree

/-- An include line with blanks in all the places that may hold some. -/
def includeLine (before hash after : LuaString) (opening : Char) (h : LuaString) (closing : Char)
    (rest : LuaString) : LuaString :=
  before ++ '#' :: (hash ++ ("include".toList ++ (after ++ opening :: (h ++ closing :: rest))))

/-- What can stand between the delimiters of an include line. -/
def HeaderName (h : LuaString) : Prop :=
  h ≠ [] ∧ ∀ c ∈ h, c ≠ '"' ∧ c ≠ '<' ∧ c ≠ '>' ∧ c ≠ '\n'

def Blanks (s : LuaString) : Prop := ∀ c ∈ s, blank c = true

instance decideHeaderName (h : LuaString) : Decidable (HeaderName h) :=
  @instDecidableAnd _ _ inferInstance (List.decidableBAll _ h)

instance decideBlanks (s : LuaString) : Decidable (Blanks s) := List.decidableBAll _ s

theorem match_blanks (b s : LuaString) (c : Char) (ps : List Item) (cs : List Capture)
    (r : List Char × List Capture) (blanks : Blanks b) (stop : blank c = false)
    (found : matchItems ps (c :: s) cs = some r) :
    matchItems (.star blank :: ps) (b ++ c :: s) cs = some r := by
  rw [matchItems]
  exact maxExpand_prefix blank _ b s c r blanks stop found

/-- The closing delimiter is the first quote after the name, or else the last bracket. -/
def Closes (closing : Char) (rest : LuaString) : Prop :=
  closing = '"' ∨ (closing = '>' ∧ '"' ∉ rest ∧ '>' ∉ rest)

/-- The capture ends where nothing after it could close it. -/
theorem match_name (h rest : LuaString) (closing : Char) (nonempty : h ≠ [])
    (clean : ∀ c ∈ h, (c != '"') = true) (closes : Closes closing rest) :
    matchItems [.openCapture, .plus (· != '"'), .closeCapture, .one (fun c => c == '"' || c == '>')]
      (h ++ closing :: rest) [] = some (rest, [.closed h]) := by
  obtain ⟨c, h, rfl⟩ := List.exists_cons_of_ne_nil nonempty
  have hc := clean c List.mem_cons_self
  have all : ∀ d ∈ h, (d != '"') = true := fun d hd => clean d (List.mem_cons_of_mem c hd)
  have closed : closeLast (closing :: rest) [.unfinished (c :: (h ++ closing :: rest))] =
      [.closed (c :: h)] := closeLast_single (c :: h) (closing :: rest)
  simp only [matchItems, List.cons_append, hc, if_true, List.nil_append]
  rcases closes with rfl | ⟨rfl, noQuote, noBracket⟩
  · apply maxExpand_prefix _ _ h rest '"' _ all rfl
    rw [closed]
    rfl
  · apply maxExpand_last _ _ h rest '>' _ all rfl
    · intro a b split
      cases b with
      | nil => rfl
      | cons d b =>
        have other : (d == '"' || d == '>') = false := by
          have quote : d ≠ '"' := by
            rintro rfl
            exact noQuote (by simp [split])
          have bracket : d ≠ '>' := by
            rintro rfl
            exact noBracket (by simp [split])
          simp [quote, bracket]
        simp only [other, Bool.false_eq_true, if_false]
    · rw [closed]
      rfl

theorem header_line (before hash after h rest : LuaString) (opening closing : Char)
    (b1 : Blanks before) (b2 : Blanks hash) (b3 : Blanks after) (nonempty : h ≠ [])
    (clean : ∀ c ∈ h, (c != '"') = true) (opens : opening = '"' ∨ opening = '<')
    (closes : Closes closing rest) :
    header (includeLine before hash after opening h closing rest) = some h := by
  have name := match_name h rest closing nonempty clean closes
  have visible : blank opening = false := by rcases opens with rfl | rfl <;> rfl
  have delimiter : (opening == '"' || opening == '<') = true := by
    rcases opens with rfl | rfl <;> rfl
  have found : matchItems includePattern.items
      (includeLine before hash after opening h closing rest) [] = some (rest, [.closed h]) := by
    refine match_blanks before _ '#' _ [] _ b1 rfl ?_
    refine match_blanks hash _ 'i' _ [] _ b2 rfl ?_
    refine (match_word "include".toList _ _ []).trans ?_
    refine match_blanks after _ opening _ [] _ b3 visible ?_
    exact (if_pos delimiter).trans name
  unfold header
  generalize includeLine before hash after opening h closing rest = line at found
  cases line with
  | nil => simp [find, found, Capture.text]
  | cons c s => simp [find, found, Capture.text]

/-- The name is taken as far as a later delimiter on the line. -/
theorem header_overrun (before hash after h a b : LuaString) (opening closing : Char)
    (b1 : Blanks before) (b2 : Blanks hash) (b3 : Blanks after) (nonempty : h ≠ [])
    (clean : ∀ c ∈ h ++ '>' :: a, (c != '"') = true) (opens : opening = '"' ∨ opening = '<')
    (closes : Closes closing b) :
    header (includeLine before hash after opening h '>' (a ++ closing :: b)) ≠ some h := by
  have same : includeLine before hash after opening h '>' (a ++ closing :: b) =
      includeLine before hash after opening (h ++ '>' :: a) closing b := by
    simp [includeLine]
  rw [same, header_line before hash after (h ++ '>' :: a) b opening closing b1 b2 b3
    (by simp [nonempty]) clean opens closes]
  intro short
  simp at short

/-- Both forms of the line give the name exactly when no delimiter that could close
it follows. A name in quotes is right in any case. -/
theorem header_captured (before hash after h rest : LuaString) (b1 : Blanks before)
    (b2 : Blanks hash) (b3 : Blanks after) (name : HeaderName h) :
    (header (includeLine before hash after '"' h '"' rest) = some h ∧
      header (includeLine before hash after '<' h '>' rest) = some h) ↔
        '"' ∉ rest ∧ '>' ∉ rest := by
  have clean : ∀ c ∈ h, (c != '"') = true := fun c hc => by simpa using (name.2 c hc).1
  have extended : ∀ a, '"' ∉ a → ∀ c ∈ h ++ '>' :: a, (c != '"') = true := by
    intro a ha c hc
    rcases List.mem_append.mp hc with hc | hc
    · exact clean c hc
    · rcases List.mem_cons.mp hc with rfl | hc
      · rfl
      · have : c ≠ '"' := by
          rintro rfl
          exact ha hc
        simpa using this
  constructor
  · rintro ⟨_, angled⟩
    have noQuote : '"' ∉ rest := by
      intro quote
      obtain ⟨a, b, rfl, first⟩ := List.eq_append_cons_of_mem quote
      exact header_overrun before hash after h a b '<' '"' b1 b2 b3 name.1 (extended a first)
        (Or.inr rfl) (Or.inl rfl) angled
    refine ⟨noQuote, fun bracket => ?_⟩
    obtain ⟨a, b, rfl, last⟩ := last_split bracket
    simp only [List.mem_append, List.mem_cons, not_or] at noQuote
    exact header_overrun before hash after h a b '<' '>' b1 b2 b3 name.1 (extended a noQuote.1)
      (Or.inr rfl) (Or.inr ⟨rfl, noQuote.2.2, last⟩) angled
  · rintro ⟨noQuote, noBracket⟩
    exact ⟨header_line before hash after h rest '"' '"' b1 b2 b3 name.1 clean (Or.inl rfl)
        (Or.inl rfl),
      header_line before hash after h rest '<' '>' b1 b2 b3 name.1 clean (Or.inr rfl)
        (Or.inr ⟨rfl, noQuote, noBracket⟩)⟩

theorem plain_line_captured :
    (header (includeLine [] [] " ".toList '"' "a.h".toList '"' " // x".toList) =
        some "a.h".toList ∧
      header (includeLine [] [] " ".toList '<' "a.h".toList '>' " // x".toList) =
        some "a.h".toList) ↔ '"' ∉ " // x".toList ∧ '>' ∉ " // x".toList :=
  header_captured [] [] " ".toList "a.h".toList " // x".toList (by decide)
    (by decide) (by decide) (by decide)

/-- A bracket in a comment after the name. -/
theorem angled_name_overrun :
    header "#include <a.h> // list->next".toList = some "a.h> // list-".toList ∧
      ¬ ∀ before hash after h rest : LuaString, Blanks before → Blanks hash → Blanks after →
        HeaderName h → header (includeLine before hash after '"' h '"' rest) = some h ∧
          header (includeLine before hash after '<' h '>' rest) = some h := by
  have overrun : header "#include <a.h> // list->next".toList = some "a.h> // list-".toList :=
    header_line [] [] " ".toList "a.h> // list-".toList "next".toList '<' '>' (by decide)
      (by decide) (by decide) (by decide) (List.all_eq_true.mp (by decide)) (Or.inr rfl)
      (Or.inr ⟨rfl, by decide, by decide⟩)
  refine ⟨overrun, fun all => ?_⟩
  have right := (all [] [] " ".toList "a.h".toList " // list->next".toList (by decide)
    (by decide) (by decide) (by decide)).2
  have same : includeLine [] [] " ".toList '<' "a.h".toList '>' " // list->next".toList =
      "#include <a.h> // list->next".toList := by decide
  rw [same, overrun] at right
  exact absurd right (by decide)

/-- The file has a line that includes `h` in quotes. -/
def Quoted (disk : Disk) (f h : LuaString) : Prop :=
  ∃ text before hash after rest, disk f = some text ∧ Blanks before ∧ Blanks hash ∧
    Blanks after ∧ HeaderName h ∧ includeLine before hash after '"' h '"' rest ∈ fileLines text

theorem Quoted.captured {disk : Disk} {f h : LuaString} (quoted : Quoted disk f h) :
    ∃ text line, disk f = some text ∧ line ∈ fileLines text ∧ header line = some h := by
  obtain ⟨text, before, hash, after, rest, opened, b1, b2, b3, name, there⟩ := quoted
  exact ⟨text, _, opened, there, header_line before hash after h rest '"' '"' b1 b2 b3 name.1
    (fun c hc => by simpa using (name.2 c hc).1) (Or.inl rfl) (Or.inl rfl)⟩

theorem localInclude_dirname {f : LuaString} (slash : '/' ∈ f) : localInclude f = dirname f := by
  obtain ⟨a, b, rfl, clean⟩ := last_split slash
  rw [localInclude_slash a b clean, dirname_append a b clean]

theorem localInclude_plain {f : LuaString} (plain : '/' ∉ f) : localInclude f = f := by
  have copied := replace_chars (fun _ => []) f []
  rw [List.append_nil] at copied
  simpa [localInclude, gsub, scan_noComponent f plain] using copied

/-- The names that the include lines of a file lead to by way of the include
directories alone. -/
def throughIncludes (disk : Disk) (includes : List LuaString) (filename : LuaString) :
    List LuaString :=
  match disk filename with
  | none => []
  | some file => (fileLines file).filterMap (fun line => (header line).bind (fun f =>
      (includes.map (· ++ "/".toList ++ f)).find? (fun name => (disk name).isSome)))

/-- What a search from `root` finds without looking beside it. -/
def FoundThrough (disk : Disk) (includes : List LuaString) (root name : LuaString) : Prop :=
  name = root ∨ ∃ m ∈ throughIncludes disk includes root, Reaches (included disk includes) m name

/-- Whenever a file that the search from `root` reaches includes a file of its own
directory in quotes, that file is in the list. -/
def BesideListed (t : Linked) (includes : List LuaString) (root : LuaString)
    (deps : List LuaString) : Prop :=
  ∀ f, Reaches (included t.read includes) root f → ∀ h l, Quoted t.read f h →
    t.FileAt (dirname f ++ '/' :: h) l → ∃ n ∈ deps, t.resolve n = some l

theorem included_slash {disk : Disk} {includes : List LuaString} {a b : LuaString}
    (one : b ∈ included disk includes a) : '/' ∈ b := by
  unfold included at one
  split at one
  · cases one
  · obtain ⟨line, _, found⟩ := List.mem_filterMap.mp one
    obtain ⟨f, _, found⟩ := Option.bind_eq_some_iff.mp found
    obtain ⟨path, _, rfl⟩ := List.mem_map.mp (List.mem_of_find?_eq_some found)
    simp

/-- With a directory part the file beside comes first. -/
theorem included_beside {t : Linked} (includes : List LuaString) {f h : LuaString} {l : Location}
    (slash : '/' ∈ f) (quoted : Quoted t.read f h) (there : t.FileAt (dirname f ++ '/' :: h) l) :
    dirname f ++ '/' :: h ∈ included t.read includes f := by
  obtain ⟨text, line, opened, member, captured⟩ := quoted.captured
  have first : resolveHeader t.read includes f h = some (dirname f ++ '/' :: h) := by
    have same : localInclude f ++ "/".toList ++ h = dirname f ++ '/' :: h := by
      simp [localInclude_dirname slash]
    rw [resolveHeader, List.map_cons, same, List.find?_cons_of_pos]
    exact Linked.read_fileAt there
  rw [included, opened]
  exact List.mem_filterMap.mpr ⟨line, member, by rw [captured]; exact first⟩

/-- Without one, the search looks for the files beside under the file itself. -/
theorem included_plain {t : Linked} {includes : List LuaString} {root : LuaString} {l : Location}
    (plain : '/' ∉ root) (file : t.FileAt root l) :
    included t.read includes root = throughIncludes t.read includes root := by
  have skipped : ∀ f, resolveHeader t.read includes root f =
      (includes.map (· ++ "/".toList ++ f)).find? (fun name => (t.read name).isSome) := by
    intro f
    have same : localInclude root ++ "/".toList ++ f = root ++ '/' :: f := by
      simp [localInclude_plain plain]
    rw [resolveHeader, List.map_cons, same, List.find?_cons_of_neg]
    simp [Linked.read_below file f]
  unfold included throughIncludes
  cases t.read root with
  | none => rfl
  | some file =>
    exact congrArg (fun r => (fileLines file).filterMap (fun line => (header line).bind r))
      (funext skipped)

theorem Quoted.file {t : Linked} {f h : LuaString} (quoted : Quoted t.read f h) :
    ∃ l, t.FileAt f l := by
  obtain ⟨text, line, opened, member, _⟩ := quoted.captured
  apply Linked.file_of_read ?_ opened
  rintro rfl
  simp [fileLines, linesFrom, LineReader.readLine_nil] at member

theorem foundThrough_iff {t : Linked} {includes : List LuaString} {root : LuaString} {l : Location}
    (plain : '/' ∉ root) (file : t.FileAt root l) (n : LuaString) :
    FoundThrough t.read includes root n ↔ Reaches (included t.read includes) root n := by
  rw [FoundThrough, ← included_plain plain file]
  constructor
  · rintro (rfl | ⟨m, one, path⟩)
    · exact Relation.ReflTransGen.refl
    · exact path.step one
  · intro path
    rcases Relation.ReflTransGen.cases_head path with rfl | ⟨m, one, rest⟩
    · exact Or.inl rfl
    · exact Or.inr ⟨m, one, rest⟩

/-- The list has every file that lies beside a file including it in quotes, exactly
when the root has a directory part, or what lies beside the root is found by way of the
include directories as well. -/
theorem quoted_beside_listed (t : Linked) {pairs : KeyOrder} {fuel : Nat} {root : LuaString}
    {includes deps : List LuaString} {s s' : Headers}
    (first : s.dependencyCache.lookup root = none)
    (run : calculateDependencies t.read pairs fuel root includes s = .ok deps s') :
    BesideListed t includes root deps ↔ '/' ∈ root ∨
      ∀ h l, Quoted t.read root h → t.FileAt ("./".toList ++ h) l →
        ∃ n, FoundThrough t.read includes root n ∧ t.resolve n = some l := by
  have exactly := (calculate_first first run).2.1
  have listed : ∀ f, Reaches (included t.read includes) root f → '/' ∈ f → ∀ h l,
      Quoted t.read f h → t.FileAt (dirname f ++ '/' :: h) l → ∃ n ∈ deps, t.resolve n = some l := by
    intro f path slash h l quoted there
    have one := included_beside includes slash quoted there
    exact ⟨_, (exactly _).mpr (path.tail one), there.1⟩
  constructor
  · intro all
    by_cases slash : '/' ∈ root
    · exact Or.inl slash
    · refine Or.inr fun h l quoted there => ?_
      obtain ⟨r, file⟩ := quoted.file
      have beside : t.FileAt (dirname root ++ '/' :: h) l := by
        rw [dirname_plain root slash]
        exact there
      obtain ⟨n, member, led⟩ := all root Relation.ReflTransGen.refl h l quoted beside
      exact ⟨n, (foundThrough_iff slash file n).mpr ((exactly n).mp member), led⟩
  · intro condition f path h l quoted there
    by_cases slash : '/' ∈ f
    · exact listed f path slash h l quoted there
    · -- only the root itself can be without a directory part
      rcases Relation.ReflTransGen.cases_tail path with rfl | ⟨before, _, one⟩
      · rcases condition with inside | found
        · exact absurd inside slash
        · obtain ⟨r, file⟩ := quoted.file
          have beside : t.FileAt ("./".toList ++ h) l := by
            rw [dirname_plain f slash] at there
            exact there
          obtain ⟨n, reached, led⟩ := found h l quoted beside
          exact ⟨n, (exactly n).mpr ((foundThrough_iff slash file n).mp reached), led⟩
      · exact absurd (included_slash one) slash

def sourceFile : Name := ⟨"x.c".toList, by decide, by decide, by decide, by decide⟩

/-- A source in the working directory, and the header it includes beside it. -/
def besideTree : Linked :=
  ((Linked.bareLinked 8).add sourceFile [] (.file 0 "#include \"x.h\"\n".toList) rfl rfl).add
    headerFile [] (.file 0 []) rfl rfl

theorem beside_quoted (root : LuaString)
    (opened : besideTree.read root = some "#include \"x.h\"\n".toList) :
    Quoted besideTree.read root "x.h".toList := by
  have lines : fileLines "#include \"x.h\"\n".toList = ["#include \"x.h\"".toList] := by
    decide +kernel
  refine ⟨_, [], [], " ".toList, [], opened, by decide, by decide, by decide, by decide, ?_⟩
  rw [lines]
  exact List.mem_singleton.mpr (by decide)

theorem beside_alone {n : LuaString}
    (path : Reaches (included besideTree.read []) "x.c".toList n) : n = "x.c".toList := by
  have file : besideTree.FileAt "x.c".toList [sourceFile] :=
    ⟨by decide, 0, "#include \"x.h\"\n".toList, by decide⟩
  have reached := (foundThrough_iff (by decide) file n).mpr path
  rcases reached with same | ⟨m, one, _⟩
  · exact same
  · have none : throughIncludes besideTree.read [] "x.c".toList = [] := by
      unfold throughIncludes
      split
      · rfl
      · simp
    rw [none] at one
    cases one

theorem beside_few : {n | Reaches (included besideTree.read []) "x.c".toList n}.Finite := by
  apply (Set.finite_singleton "x.c".toList).subset
  intro n path
  exact beside_alone path

theorem plain_root_searched : ∃ bound, ∀ fuel, bound ≤ fuel → ∃ deps s',
    calculateDependencies besideTree.read inserted fuel "x.c".toList [] Headers.none = .ok deps s' ∧
      (BesideListed besideTree [] "x.c".toList deps ↔ '/' ∈ "x.c".toList ∨
        ∀ h l, Quoted besideTree.read "x.c".toList h → besideTree.FileAt ("./".toList ++ h) l →
          ∃ n, FoundThrough besideTree.read [] "x.c".toList n ∧ besideTree.resolve n = some l) := by
  obtain ⟨bound, returns⟩ := calculate_returns besideTree.read inserted beside_few
  refine ⟨bound, fun fuel enough => ?_⟩
  obtain ⟨deps, s', run⟩ := returns fuel enough Headers.none rfl
  exact ⟨deps, s', run, quoted_beside_listed besideTree rfl run⟩

/-- Of a source named without a directory the header next to it is missed. -/
theorem plain_root_misses : ¬ ∀ (t : Linked) (pairs : KeyOrder) (fuel : Nat)
    (root : LuaString) (includes deps : List LuaString) (s' : Headers),
    calculateDependencies t.read pairs fuel root includes Headers.none = .ok deps s' →
      BesideListed t includes root deps := by
  intro all
  obtain ⟨bound, returns⟩ := calculate_returns besideTree.read inserted beside_few
  obtain ⟨deps, s', run⟩ := returns bound le_rfl Headers.none rfl
  have exactly := (calculate_first rfl run).2.1
  obtain ⟨n, member, led⟩ := all besideTree inserted bound _ [] deps s' run "x.c".toList
    Relation.ReflTransGen.refl "x.h".toList [headerFile] (beside_quoted _ (by decide))
    ⟨by decide, 0, [], by decide⟩
  rw [beside_alone ((exactly n).mp member)] at led
  exact absurd led (by decide)

end PrimeMover
