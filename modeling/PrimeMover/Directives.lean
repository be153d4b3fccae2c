import PrimeMover.Munching
import PrimeMover.Swapping

/-! The lines that begin with `#`: how ccruncher reads them, and where it writes them. -/
namespace PrimeMover.Cruncher
open LuaPattern CTokens

section Source

/-- The loop that collapses continuations: the line, and the lines below it. -/
def collapseContinuations : LuaString → List LuaString →
    Except Stop (LuaString × List LuaString)
  | s, [] =>
    if s.getLast? = some '\\' then .error (luaerror "attempt to concatenate a nil value".toList)
    else .ok (s, [])
  | s, line :: lines =>
    if s.getLast? = some '\\' then collapseContinuations (s.dropLast ++ line) lines
    else .ok (s, line :: lines)

def literally (s : String) : List Item := s.toList.map fun c => .one (· == c)

/-- `^%s*#line.*$` -/
def linePattern : Pattern :=
  ⟨true, .star white :: literally "#line" ++ [.star (fun _ => true), .atEnd]⟩

/-- `^%s*#%s*` and what follows. -/
def hashItems (items : List Item) : List Item :=
  .star white :: .one (· == '#') :: .star white :: items

/-- `^%s*#%s*include%s+([<"].*[>"])%s*$` -/
def includePattern : Pattern :=
  ⟨true, hashItems (literally "include" ++ [.plus white, .openCapture,
    .one (fun c => c == '<' || c == '"'), .star (fun _ => true),
    .one (fun c => c == '>' || c == '"'), .closeCapture, .star white, .atEnd])⟩

/-- `^%s*#%s*define%s+([%w_]+)` and what follows. -/
def defineItems (items : List Item) : List Item :=
  hashItems (literally "define" ++
    .plus white :: .openCapture :: .plus word :: .closeCapture :: items)

/-- `%s+(.*)$` -/
def bodyItems : List Item :=
  [.plus white, .openCapture, .star (fun _ => true), .closeCapture, .atEnd]

/-- `^%s*#%s*define%s+([%w_]+)%s+(.*)$` -/
def objectPattern : Pattern := ⟨true, defineItems bodyItems⟩

/-- `%b()` behind its first character: what is left of the text at a depth. -/
def matchBalance : Nat → LuaString → Option LuaString
  | _, [] => none
  | depth, c :: s =>
    if c = ')' then if depth = 0 then some s else matchBalance (depth - 1) s
    else matchBalance (if c = '(' then depth + 1 else depth) s

/-- `^%s*#%s*define%s+([%w_]+)(%b())%s+(.*)$`. No shorter name is followed by a parenthesis. -/
def findFunction (s : LuaString) : Option (LuaString × LuaString × LuaString) :=
  match matchItems (defineItems []) s [] with
  | some ('(' :: t, [name]) =>
    match matchBalance 0 t with
    | some rest =>
      match matchItems bodyItems rest [] with
      | some (_, [body]) => some (name.text, '(' :: t.take (t.length - rest.length), body.text)
      | _ => none
    | none => none
  | _ => none

/-- `^%s*#%s*([%u%l]+)%s*(.*)$` -/
def genericPattern : Pattern :=
  ⟨true, hashItems [.openCapture, .plus Char.isAlpha, .closeCapture, .star white, .openCapture,
    .star (fun _ => true), .closeCapture, .atEnd]⟩

/-- `process_normal_line` for a part of a line. -/
def normalPart (s : LuaString) (lines : List LuaString) : Run :=
  processNormalLine (size (s :: lines) + 1) lines s 1

/-- One part after the other, each with the lines that are left. -/
def inTurn : List (List LuaString → Run) → List LuaString → Run
  | [], lines => ([], .ok lines)
  | part :: parts, lines => Run.bind (part lines) (inTurn parts)

def emits (emitted : List Emission) (lines : List LuaString) : Run := (emitted, .ok lines)

def processPreprocessorDirective (lines : List LuaString) (s : LuaString) : Run :=
  match collapseContinuations s lines with
  | .error e => ([], .error e)
  | .ok (s, lines) =>
    if (find linePattern s).isSome then ([], .ok lines)
    else
      match find includePattern s with
      | some [sc1] => ([.emit_nl, .emit "#include".toList, .emit sc1, .emit_nl], .ok lines)
      | _ =>
        match find objectPattern s with
        | some [sc1, sc2] => inTurn [emits [.emit_nl, .emit "#define".toList], normalPart sc1,
            emits [.emit_ws], normalPart sc2, emits [.emit_nl]] lines
        | _ =>
          match findFunction s with
          | some (sc1, sc2, sc3) => inTurn [emits [.emit_nl, .emit "#define".toList],
              normalPart sc1, normalPart sc2, emits [.emit_ws], normalPart sc3, emits [.emit_nl]] lines
          | none =>
            match find genericPattern s with
            | some [sc1, sc2] =>
              inTurn [emits [.emit_nl, .emit ('#' :: sc1)], normalPart sc2, emits [.emit_nl]] lines
            | _ => ([], .error (luaerror ("malformed preprocessor directive in ".toList ++ s)))

end Source

section Parts

/-- What is handed over outside of directives. -/
structure Tidy (p : LuaString) : Prop where
  nonempty : p ≠ []
  line : '\n' ∉ p
  plain : p.head? ≠ some '#'

theorem pieceLength_hash (t : LuaString) : pieceLength ('#' :: t) = none := rfl

theorem tidy_piece {t : LuaString} (nonempty : t ≠ []) (clean : '\n' ∉ t) {n : Nat}
    (found : pieceLength t = some n) : Tidy (t.take n) := by
  have some := pieceLength_pos found
  obtain ⟨c, t, rfl⟩ := List.exists_cons_of_ne_nil nonempty
  obtain ⟨n, rfl⟩ : ∃ k, n = k + 1 := ⟨n - 1, by omega⟩
  refine ⟨by simp, fun mem => clean (List.mem_of_mem_take mem), fun hash => ?_⟩
  have same : c = '#' := by simpa using hash
  rw [same, pieceLength_hash] at found
  cases found

def OnlyPieces (emitted : List Emission) : Prop :=
  ∃ ps : List LuaString, emitted = ps.map .emit ∧ ∀ p ∈ ps, Tidy p

theorem OnlyPieces.nil : OnlyPieces [] := ⟨[], rfl, by simp⟩

theorem OnlyPieces.append {a b : List Emission} (ha : OnlyPieces a) (hb : OnlyPieces b) :
    OnlyPieces (a ++ b) := by
  obtain ⟨ps, rfl, tidy⟩ := ha
  obtain ⟨qs, rfl, tidy'⟩ := hb
  refine ⟨ps ++ qs, by simp, fun p mem => ?_⟩
  rcases List.mem_append.mp mem with mem | mem
  · exact tidy p mem
  · exact tidy' p mem

/-- A step emits a piece at most. It stays on its line, or goes on with one below. -/
structure Steps (s : LuaString) (lines : List LuaString) (emitted : List Emission) (pos : Nat)
    (s' : LuaString) (lines' : List LuaString) : Prop where
  pieces : OnlyPieces emitted
  start : 1 ≤ pos
  below : s' = s ∧ lines' = lines ∨ s' :: lines' <:+ lines

theorem GoesOn.steps {r : Except Stop (List Emission × Nat × LuaString × List LuaString)}
    {s s' rest : LuaString} {lines lines' : List LuaString} {emitted emitted' : List Emission}
    {pos left : Nat} (goes : GoesOn r emitted s lines rest)
    (run : r = .ok (emitted', pos, s', lines')) (pieces : OnlyPieces emitted)
    (shrinks : rest.length < left) : Steps s lines emitted' pos s' lines' ∧
      (s'.drop (pos - 1)).length + size lines' < left + size lines := by
  obtain ⟨_, step, start, there⟩ := goes
  rw [step] at run
  cases run
  rw [there]
  exact ⟨⟨pieces, start, .inl ⟨rfl, rfl⟩⟩, by omega⟩

theorem size_suffix {a b : List LuaString} (inside : a <:+ b) : size a ≤ size b := by
  obtain ⟨p, rfl⟩ := inside
  simp [size]

theorem processToken_steps {lines lines' : List LuaString} {s s' : LuaString} {pos pos' : Nat}
    {emitted : List Emission} (start : 1 ≤ pos) (inside : pos ≤ s.length) (clean : '\n' ∉ s)
    (run : processToken lines s pos = .ok (emitted, pos', s', lines')) :
    Steps s lines emitted pos' s' lines' ∧
      (s'.drop (pos' - 1)).length + size lines' < (s.drop (pos - 1)).length + size lines := by
  have nonempty : s.drop (pos - 1) ≠ [] := by
    rw [ne_eq, List.drop_eq_nil_iff]
    omega
  have line : '\n' ∉ s.drop (pos - 1) := fun mem => clean (List.mem_of_mem_drop mem)
  obtain ⟨c, t, shape⟩ := List.exists_cons_of_ne_nil nonempty
  cases blank : white c with
  | true =>
    refine (processToken_white rfl start shape blank).steps run .nil ?_
    rw [shape]
    exact Nat.lt_succ_of_le (List.dropWhile_suffix white).length_le
  | false =>
    cases opens : opensComment (c :: t) with
    | true =>
      obtain ⟨u, comment⟩ := (opensComment_iff _).mp opens
      rw [comment] at shape
      have clear : '\n' ∉ u := fun mem => line (by rw [shape]; simp [mem])
      have token := @processToken_comment lines s _ pos rfl start u shape clear
      cases last : lastClose u with
      | some v =>
        rw [last] at token
        refine token.steps run .nil ?_
        have spaces := (List.dropWhile_suffix (l := v) white).length_le
        have inside_u := (lastClose_suffix last).length_le
        rw [shape, List.length_cons, List.length_cons]
        omega
      | none =>
        rw [last] at token
        have read := readComment_text lines
        rw [token] at run
        cases behind : afterClose (below lines) with
        | none =>
          rw [behind] at read
          obtain ⟨e, failed⟩ := read
          rw [failed] at run
          cases run
        | some v =>
          rw [behind] at read
          obtain ⟨_, _, _, found, start', _, inside'⟩ := read
          rw [found] at run
          cases run
          have sizes := size_suffix inside'
          have bound := List.length_drop (i := pos' - 1) (l := s')
          rw [size_cons] at sizes
          exact ⟨⟨.nil, start', .inr inside'⟩, by omega⟩
    | false =>
      have solid : Solid (s.drop (pos - 1)) := by
        rw [shape]
        exact ⟨by simpa using blank, opens⟩
      have token := @processToken_solid lines s _ pos rfl start solid nonempty line
      cases piece : pieceLength (s.drop (pos - 1)) with
      | none =>
        rw [piece] at token
        obtain ⟨e, failed⟩ := token
        rw [failed] at run
        cases run
      | some n =>
        rw [piece] at token
        refine token.steps run ⟨[_], rfl, by simpa using tidy_piece nonempty line piece⟩ ?_
        have some := pieceLength_pos piece
        have long := List.length_pos_of_ne_nil nonempty
        rw [List.length_drop (i := n)]
        omega

theorem processNormalLine_pieces {fuel : Nat} {lines lines' : List LuaString} {s : LuaString}
    {pos : Nat} {emitted : List Emission} (start : 1 ≤ pos) (clean : '\n' ∉ s)
    (cleanLines : ∀ l ∈ lines, '\n' ∉ l)
    (run : processNormalLine fuel lines s pos = (emitted, .ok lines')) :
    OnlyPieces emitted ∧ lines' <:+ lines := by
  induction fuel generalizing lines s pos emitted with
  | zero => cases run
  | succ fuel ih =>
    rw [processNormalLine] at run
    split at run
    · rename_i inside
      split at run
      · rename_i first pos' s' lines1 token
        obtain ⟨rfl, later⟩ := Prod.mk.inj run
        obtain ⟨⟨pieces, start', below⟩, _⟩ := processToken_steps start inside clean token
        have next : '\n' ∉ s' ∧ lines1 <:+ lines := by
          rcases below with ⟨rfl, rfl⟩ | below
          · exact ⟨clean, List.suffix_rfl⟩
          · exact ⟨cleanLines s' (below.subset List.mem_cons_self),
              (List.suffix_cons s' lines1).trans below⟩
        obtain ⟨more, rest⟩ := ih start' next.1 (fun l mem => cleanLines l (next.2.subset mem))
          (Prod.ext rfl later)
        exact ⟨pieces.append more, rest.trans next.2⟩
      · cases run
    · cases run
      exact ⟨.nil, List.suffix_rfl⟩

/-- What a directive hands over between its first word and its end. -/
def Inline : Emission → Prop
  | .emit p => '\n' ∉ p
  | .emit_ws => True
  | _ => False

/-- A program that hands over parts of a directive. -/
def HandsInline (f : List LuaString → Run) : Prop :=
  ∀ lines emitted rest, (∀ l ∈ lines, '\n' ∉ l) → f lines = (emitted, .ok rest) →
    (∀ e ∈ emitted, Inline e) ∧ rest <:+ lines

theorem normalPart_inline {s : LuaString} (clean : '\n' ∉ s) : HandsInline (normalPart s) := by
  intro lines emitted rest cleanLines run
  obtain ⟨⟨ps, rfl, tidy⟩, inside⟩ :=
    processNormalLine_pieces (Nat.le_refl 1) clean cleanLines run
  refine ⟨fun e mem => ?_, inside⟩
  obtain ⟨p, known, rfl⟩ := List.mem_map.mp mem
  exact (tidy p known).line

theorem emits_inline {emitted : List Emission} (all : ∀ e ∈ emitted, Inline e) :
    HandsInline (emits emitted) := by
  intro lines found rest _ run
  cases run
  exact ⟨all, List.suffix_rfl⟩

theorem bind_ok {r : Run} {next : List LuaString → Run} {emitted : List Emission}
    {rest : List LuaString} (run : Run.bind r next = (emitted, .ok rest)) :
    ∃ first lines later, r = (first, .ok lines) ∧ next lines = (later, .ok rest) ∧
      emitted = first ++ later := by
  obtain ⟨first, result⟩ := r
  cases result with
  | error e => cases run
  | ok lines =>
    obtain ⟨rfl, last⟩ := Prod.mk.inj run
    exact ⟨first, lines, _, rfl, Prod.ext rfl last, rfl⟩

theorem inTurn_inline {parts : List (List LuaString → Run)} (all : ∀ f ∈ parts, HandsInline f) :
    HandsInline (inTurn parts) := by
  induction parts with
  | nil =>
    intro lines emitted rest _ run
    cases run
    exact ⟨by simp, List.suffix_rfl⟩
  | cons f parts ih =>
    intro lines emitted rest clean run
    obtain ⟨first, lines', later, head, tail, rfl⟩ := bind_ok run
    obtain ⟨here, inside⟩ := all f List.mem_cons_self lines first lines' clean head
    obtain ⟨there, inside'⟩ := ih (fun g mem => all g (List.mem_cons_of_mem f mem)) lines' later rest
      (fun l mem => clean l (inside.subset mem)) tail
    refine ⟨fun e mem => ?_, inside'.trans inside⟩
    rcases List.mem_append.mp mem with mem | mem
    · exact here e mem
    · exact there e mem

theorem inTurn_last {parts : List (List LuaString → Run)} {last emitted : List Emission}
    {lines rest : List LuaString} (run : inTurn (parts ++ [emits last]) lines = (emitted, .ok rest)) :
    ∃ before, inTurn parts lines = (before, .ok rest) ∧ emitted = before ++ last := by
  induction parts generalizing lines emitted with
  | nil =>
    obtain ⟨_, _, _, head, tail, rfl⟩ := bind_ok run
    cases head
    cases tail
    exact ⟨[], rfl, by simp⟩
  | cons f parts ih =>
    obtain ⟨first, lines', later, head, tail, rfl⟩ := bind_ok run
    obtain ⟨before, middle, rfl⟩ := ih tail
    refine ⟨first ++ before, ?_, by simp⟩
    rw [inTurn, head, Run.bind]
    dsimp only
    rw [middle]

/-- What is handed over for a directive that stands in the output. -/
def Framed (emitted : List Emission) : Prop :=
  ∃ name body, emitted = .emit_nl :: .emit ('#' :: name) :: body ++ [.emit_nl] ∧ '\n' ∉ name ∧
    ∀ e ∈ body, Inline e

theorem framed_inTurn {parts : List (List LuaString → Run)} {name : LuaString}
    {emitted : List Emission} {lines rest : List LuaString} (word : '\n' ∉ name)
    (clean : ∀ l ∈ lines, '\n' ∉ l) (all : ∀ f ∈ parts, HandsInline f)
    (run : inTurn (emits [.emit_nl, .emit ('#' :: name)] :: parts ++ [emits [.emit_nl]]) lines =
      (emitted, .ok rest)) : Framed emitted ∧ rest <:+ lines := by
  obtain ⟨before, start, rfl⟩ := inTurn_last run
  obtain ⟨_, _, body, head, tail, rfl⟩ := bind_ok start
  cases head
  obtain ⟨inner, inside⟩ := inTurn_inline all lines body rest clean tail
  exact ⟨⟨name, body, by simp, word, inner⟩, inside⟩

theorem collapse_clean {s s' : LuaString} {lines lines' : List LuaString} (clean : '\n' ∉ s)
    (cleanLines : ∀ l ∈ lines, '\n' ∉ l)
    (run : collapseContinuations s lines = .ok (s', lines')) : '\n' ∉ s' ∧ lines' <:+ lines := by
  induction lines generalizing s with
  | nil =>
    rw [collapseContinuations] at run
    split at run
    · cases run
    · cases run
      exact ⟨clean, List.suffix_rfl⟩
  | cons l lines ih =>
    rw [collapseContinuations] at run
    split at run
    · have joined : '\n' ∉ s.dropLast ++ l := by
        intro mem
        rcases List.mem_append.mp mem with mem | mem
        · exact clean (List.dropLast_subset s mem)
        · exact cleanLines l List.mem_cons_self mem
      obtain ⟨line, inside⟩ := ih joined (fun k mem => cleanLines k (List.mem_cons_of_mem l mem)) run
      exact ⟨line, inside.trans (List.suffix_cons l lines)⟩
    · cases run
      exact ⟨clean, List.suffix_rfl⟩

theorem matchBalance_suffix {depth : Nat} {s rest : LuaString}
    (found : matchBalance depth s = some rest) : rest <:+ s := by
  induction s generalizing depth with
  | nil => cases found
  | cons c s ih =>
    rw [matchBalance] at found
    split at found
    · split at found
      · cases found
        exact List.suffix_cons c _
      · exact (ih found).trans (List.suffix_cons c s)
    · exact (ih found).trans (List.suffix_cons c s)

theorem findFunction_within {s sc1 sc2 sc3 : LuaString}
    (found : findFunction s = some (sc1, sc2, sc3)) : sc1 ⊆ s ∧ sc2 ⊆ s ∧ sc3 ⊆ s := by
  have texts : ∀ {items : List Item} {t r : LuaString} {c : Capture}, t ⊆ s →
      matchItems items t [] = some (r, [c]) → c.text ⊆ s := by
    intro items t r c inside matched
    have within := matchItems_within inside (fun _ none => by cases none) matched c
      (List.mem_singleton_self c)
    cases c with
    | unfinished start => exact List.nil_subset s
    | closed text => exact within
  unfold findFunction at found
  split at found
  · rename_i t name matched
    split at found
    · rename_i rest balanced
      split at found
      · rename_i body behind
        cases found
        have inside : '(' :: t ⊆ s := (matchItems_suffix matched).subset
        have later : rest ⊆ s := fun c mem =>
          inside (List.mem_cons_of_mem _ ((matchBalance_suffix balanced).subset mem))
        refine ⟨texts (List.Subset.refl s) matched, ?_, texts later behind⟩
        exact fun c mem => inside (List.cons_subset_cons _ (List.take_subset _ t) mem)
      · cases found
    · cases found
  · cases found

/-- A part of a directive: white space, or a text of its line that is read as a normal line. -/
inductive OwnPart (s : LuaString) : (List LuaString → Run) → Prop where
  | space : OwnPart s (emits [.emit_ws])
  | text {t : LuaString} (within : t ⊆ s) : OwnPart s (normalPart t)

theorem OwnPart.inline {s : LuaString} (line : '\n' ∉ s) {f : List LuaString → Run}
    (own : OwnPart s f) : HandsInline f := by
  cases own with
  | space => exact emits_inline (by simp [Inline])
  | text within => exact normalPart_inline fun mem => line (within mem)

/-- What becomes of a directive. -/
theorem directive_cases {lines lines' : List LuaString} {s s' : LuaString} (line : '\n' ∉ s')
    (collapsed : collapseContinuations s lines = .ok (s', lines')) :
    processPreprocessorDirective lines s = ([], .ok lines') ∨
    (∃ sc1, sc1 ⊆ s' ∧ processPreprocessorDirective lines s =
      ([.emit_nl, .emit "#include".toList, .emit sc1, .emit_nl], .ok lines')) ∨
    (∃ name parts, '\n' ∉ name ∧ (∀ f ∈ parts, OwnPart s' f) ∧
      processPreprocessorDirective lines s =
        inTurn (emits [.emit_nl, .emit ('#' :: name)] :: parts ++ [emits [.emit_nl]]) lines') ∨
    ∃ message, processPreprocessorDirective lines s = ([], .error (luaerror message)) := by
  simp only [processPreprocessorDirective, collapsed]
  split
  · exact .inl rfl
  split
  · rename_i sc1 found
    exact .inr (.inl ⟨sc1, find_within found sc1 (by simp), rfl⟩)
  split
  · rename_i sc1 sc2 found
    have first := OwnPart.text (find_within found sc1 (by simp))
    have second := OwnPart.text (find_within found sc2 (by simp))
    exact .inr (.inr (.inl ⟨"define".toList, [normalPart sc1, emits [.emit_ws], normalPart sc2],
      by decide, by simp [first, OwnPart.space, second], rfl⟩))
  split
  · rename_i sc1 sc2 sc3 found
    obtain ⟨in1, in2, in3⟩ := findFunction_within found
    exact .inr (.inr (.inl ⟨"define".toList, [normalPart sc1, normalPart sc2, emits [.emit_ws],
      normalPart sc3], by decide, by simp [OwnPart.space, OwnPart.text, in1, in2, in3], rfl⟩))
  split
  · rename_i sc1 sc2 found
    have word : '\n' ∉ sc1 := fun mem => line (find_within found sc1 (by simp) mem)
    have body := OwnPart.text (find_within found sc2 (by simp))
    exact .inr (.inr (.inl ⟨sc1, [normalPart sc2], word, by simp [body], rfl⟩))
  · exact .inr (.inr (.inr ⟨_, rfl⟩))

/-- A directive is passed over, or is handed over as a whole. -/
theorem directive_framed {lines rest : List LuaString} {s : LuaString} {emitted : List Emission}
    (clean : '\n' ∉ s) (cleanLines : ∀ l ∈ lines, '\n' ∉ l)
    (run : processPreprocessorDirective lines s = (emitted, .ok rest)) :
    (emitted = [] ∨ Framed emitted) ∧ rest <:+ lines := by
  cases collapsed : collapseContinuations s lines with
  | error e =>
    rw [processPreprocessorDirective, collapsed] at run
    cases run
  | ok r =>
    obtain ⟨s', lines'⟩ := r
    obtain ⟨line, inside⟩ := collapse_clean clean cleanLines collapsed
    rcases directive_cases line collapsed with
      eaten | ⟨sc1, within, included⟩ | ⟨name, parts, word, own, turn⟩ | ⟨message, failed⟩
    · rw [eaten] at run
      cases run
      exact ⟨.inl rfl, inside⟩
    · rw [included] at run
      cases run
      refine ⟨.inr ⟨"include".toList, [.emit sc1], rfl, by decide, ?_⟩, inside⟩
      intro e mem
      cases List.mem_singleton.mp mem
      exact fun mem => line (within mem)
    · rw [turn] at run
      obtain ⟨frame, last⟩ := framed_inTurn word (fun l mem => cleanLines l (inside.subset mem))
        (fun f mem => (own f mem).inline line) run
      exact ⟨.inr frame, last.trans inside⟩
    · rw [failed] at run
      cases run

end Parts

section Fuel

theorem ok_ends {A : Type} (a : A) : (.ok a : Except Stop A) ≠ .error .diverges := by
  intro failed
  cases failed

theorem error_ends {A : Type} (message : LuaString) :
    (.error (luaerror message) : Except Stop A) ≠ .error .diverges := by
  intro failed
  cases failed

theorem readComment_ends (lines : List LuaString) : readComment lines ≠ .error .diverges := by
  induction lines with
  | nil => exact error_ends _
  | cons s lines ih =>
    rw [readComment]
    cases afterClose s with
    | some rest => exact ok_ends _
    | none => exact ih

theorem processString_ends (s : LuaString) (pos : Nat) (sep : Char) :
    processString s pos sep ≠ .error .diverges := by
  rw [processString]
  cases stringLoop sep (s.length + 1) (s.drop pos) with
  | some r => exact ok_ends _
  | none => exact error_ends _

theorem map_ends {A B : Type} {r : Except Stop A} (f : A → B) (ends : r ≠ .error .diverges) :
    r.map f ≠ .error .diverges := by
  cases r with
  | error e => exact fun failed => ends (by cases failed; rfl)
  | ok a => exact ok_ends _

theorem processToken_ends (lines : List LuaString) (s : LuaString) (pos : Nat) :
    processToken lines s pos ≠ .error .diverges := by
  rw [processToken]
  split
  · exact ok_ends _
  split
  · exact ok_ends _
  split
  · exact ok_ends _
  split
  · exact map_ends _ (readComment_ends lines)
  split
  · exact map_ends _ (processString_ends s pos _)
  split
  · exact map_ends _ (processString_ends s pos _)
  split
  · exact ok_ends _
  · exact error_ends _

/-- The fuel is enough: every token takes something away. -/
theorem processNormalLine_ends {fuel : Nat} {lines : List LuaString} {s : LuaString} {pos : Nat}
    (start : 1 ≤ pos) (clean : '\n' ∉ s) (cleanLines : ∀ l ∈ lines, '\n' ∉ l)
    (enough : (s.drop (pos - 1)).length + size lines < fuel) :
    (processNormalLine fuel lines s pos).2 ≠ .error .diverges := by
  induction fuel generalizing lines s pos with
  | zero => omega
  | succ fuel ih =>
    rw [processNormalLine]
    split
    · rename_i inside
      split
      · rename_i first pos' s' lines' token
        obtain ⟨⟨_, start', below⟩, less⟩ := processToken_steps start inside clean token
        have next : '\n' ∉ s' ∧ lines' ⊆ lines := by
          rcases below with ⟨rfl, rfl⟩ | below
          · exact ⟨clean, List.Subset.refl _⟩
          · exact ⟨cleanLines s' (below.subset List.mem_cons_self),
              fun l mem => below.subset (List.mem_cons_of_mem s' mem)⟩
        exact ih start' next.1 (fun l mem => cleanLines l (next.2 mem)) (by omega)
      · rename_i e failed
        exact fun same => processToken_ends lines s pos (by cases same; exact failed)
    · exact ok_ends _

theorem bind_ends {r : Run} {next : List LuaString → Run} (ends : r.2 ≠ .error .diverges)
    (more : ∀ emitted lines, r = (emitted, .ok lines) → (next lines).2 ≠ .error .diverges) :
    (Run.bind r next).2 ≠ .error .diverges := by
  obtain ⟨emitted, result⟩ := r
  cases result with
  | error e => exact ends
  | ok lines => exact more emitted lines rfl

/-- A program that ends, whatever lines it finds, and goes on with lines below. -/
def Returns (f : List LuaString → Run) : Prop :=
  ∀ lines, (∀ l ∈ lines, '\n' ∉ l) → (f lines).2 ≠ .error .diverges ∧
    ∀ emitted rest, f lines = (emitted, .ok rest) → rest <:+ lines

theorem normalPart_returns {s : LuaString} (clean : '\n' ∉ s) : Returns (normalPart s) := by
  refine fun lines cleanLines => ⟨?_, fun emitted rest run =>
    (normalPart_inline clean lines emitted rest cleanLines run).2⟩
  refine processNormalLine_ends (Nat.le_refl 1) clean cleanLines ?_
  rw [size_cons, Nat.sub_self, List.drop_zero]
  omega

theorem emits_returns (emitted : List Emission) : Returns (emits emitted) := by
  refine fun lines _ => ⟨ok_ends _, fun found rest run => ?_⟩
  cases run
  exact List.suffix_rfl

theorem inTurn_returns {parts : List (List LuaString → Run)} (all : ∀ f ∈ parts, Returns f) :
    Returns (inTurn parts) := by
  induction parts with
  | nil => exact emits_returns []
  | cons f parts ih =>
    have later := ih fun g mem => all g (List.mem_cons_of_mem f mem)
    intro lines clean
    obtain ⟨ends, below⟩ := all f List.mem_cons_self lines clean
    have still : ∀ emitted lines', f lines = (emitted, .ok lines') → ∀ l ∈ lines', '\n' ∉ l :=
      fun emitted lines' run l mem => clean l ((below emitted lines' run).subset mem)
    constructor
    · exact bind_ends ends fun emitted lines' run => (later lines' (still emitted lines' run)).1
    · intro emitted rest run
      obtain ⟨first, lines', last, head, tail, rfl⟩ := bind_ok run
      exact ((later lines' (still first lines' head)).2 last rest tail).trans
        (below first lines' head)

theorem collapse_ends (s : LuaString) (lines : List LuaString) :
    collapseContinuations s lines ≠ .error .diverges := by
  induction lines generalizing s with
  | nil =>
    rw [collapseContinuations]
    split
    · exact error_ends _
    · exact ok_ends _
  | cons l lines ih =>
    rw [collapseContinuations]
    split
    · exact ih _
    · exact ok_ends _

theorem OwnPart.returns {s : LuaString} (line : '\n' ∉ s) {f : List LuaString → Run}
    (own : OwnPart s f) : Returns f := by
  cases own with
  | space => exact emits_returns _
  | text within => exact normalPart_returns fun mem => line (within mem)

theorem directive_ends {lines : List LuaString} {s : LuaString} (clean : '\n' ∉ s)
    (cleanLines : ∀ l ∈ lines, '\n' ∉ l) :
    (processPreprocessorDirective lines s).2 ≠ .error .diverges := by
  cases collapsed : collapseContinuations s lines with
  | error e =>
    rw [processPreprocessorDirective, collapsed]
    exact fun same => collapse_ends s lines (by cases same; exact collapsed)
  | ok r =>
    obtain ⟨s', lines'⟩ := r
    obtain ⟨line, inside⟩ := collapse_clean clean cleanLines collapsed
    rcases directive_cases line collapsed with
      eaten | ⟨sc1, _, included⟩ | ⟨name, parts, _, own, turn⟩ | ⟨message, failed⟩
    · rw [eaten]
      exact ok_ends _
    · rw [included]
      exact ok_ends _
    · rw [turn]
      refine (inTurn_returns ?_ lines' fun l mem => cleanLines l (inside.subset mem)).1
      intro f mem
      rcases List.mem_append.mp mem with mem | mem
      · rcases List.mem_cons.mp mem with rfl | mem
        · exact emits_returns _
        · exact (own f mem).returns line
      · cases List.mem_singleton.mp mem
        exact emits_returns _
    · rw [failed]
      exact error_ends _

theorem gettokens_ends {fuel : Nat} {source : List LuaString} (clean : ∀ l ∈ source, '\n' ∉ l)
    (enough : source.length < fuel) :
    (gettokens processPreprocessorDirective fuel source).2 ≠ .error .diverges := by
  induction fuel generalizing source with
  | zero => omega
  | succ fuel ih =>
    cases source with
    | nil => exact ok_ends _
    | cons s lines =>
      have line := clean s List.mem_cons_self
      have below := fun l mem => clean l (List.mem_cons_of_mem s mem)
      have later : ∀ rest, rest <:+ lines →
          (gettokens processPreprocessorDirective fuel rest).2 ≠ .error .diverges :=
        fun rest inside => ih (fun l mem => below l (inside.subset mem))
          (by have := inside.length_le; rw [List.length_cons] at enough; omega)
      rw [gettokens]
      split
      · refine bind_ends (directive_ends line below) fun emitted rest run => later rest ?_
        exact (directive_framed line below (Prod.ext rfl (Prod.mk.inj run).2)).2
      · obtain ⟨ends, within⟩ := normalPart_returns line lines below
        exact bind_ends ends fun emitted rest run => later rest (within emitted rest run)

/-- Every source is read to its end, or to an error that ccruncher reports. -/
theorem crunch_ends {source : List LuaString} (clean : ∀ l ∈ source, '\n' ∉ l) :
    (crunch processPreprocessorDirective source).2 ≠ .error .diverges :=
  gettokens_ends clean (Nat.lt_succ_self _)

end Fuel

section Rows

variable {swaptable : List (LuaString × LuaString)}

/-- The writer behind some emissions. -/
def after (swaptable : List (LuaString × LuaString)) : Writer → List Emission → Writer
  | w, [] => w
  | w, .emit s :: rest => after swaptable (emit swaptable w s).2 rest
  | w, .emit_nl :: rest => after swaptable { w with nl := true } rest
  | w, .emit_ws :: rest => after swaptable { w with ws := true } rest
  | w, .breaks_on :: rest => after swaptable { w with breaks := true } rest
  | w, .breaks_off :: rest => after swaptable { w with breaks := false } rest

theorem write_append (w : Writer) (a b : List Emission) : write swaptable w (a ++ b) =
    write swaptable w a ++ write swaptable (after swaptable w a) b := by
  induction a generalizing w with
  | nil => rfl
  | cons e a ih =>
    cases e with
    | emit s => simp only [List.cons_append, write, after, ih, List.append_assoc]
    | _ => exact ih _

/-- The text of a directive, without the line break in front of it. -/
def row (swaptable : List (LuaString × LuaString)) (emitted : List Emission) : LuaString :=
  (write swaptable ⟨false, false, false, false⟩ (emitted.drop 1)).flatten

/-- A table that gives identifiers other names. -/
def Identifiers (swaptable : List (LuaString × LuaString)) : Prop :=
  ∀ s v, swaptable.lookup s = some v → IsName s ∧ IsName v

theorem IsName.line {s : LuaString} (name : IsName s) : '\n' ∉ s := by
  intro mem
  have := List.all_eq_true.mp name.2 _ mem
  cases this

theorem IsName.start {s : LuaString} (name : IsName s) {c : Char} (other : letter c = false) :
    s.head? ≠ some c := by
  intro head
  have first := name.1
  rw [head, Option.any_some, other] at first
  cases first

section
variable (names : Identifiers swaptable)

include names

theorem swapped_line {p : LuaString} (line : '\n' ∉ p) : '\n' ∉ swapped swaptable p := by
  rw [swapped]
  cases found : swaptable.lookup p with
  | none => exact line
  | some v => exact (names p v found).2.line

theorem swapped_other {p : LuaString} {c : Char} (head : p.head? = some c)
    (other : letter c = false) : swapped swaptable p = p := by
  rw [swapped]
  cases found : swaptable.lookup p with
  | none => rfl
  | some v => exact absurd head ((names p v found).1.start other)

theorem swapped_hash {p : LuaString} (plain : p.head? ≠ some '#') :
    (swapped swaptable p).head? ≠ some '#' := by
  rw [swapped]
  cases found : swaptable.lookup p with
  | none => exact plain
  | some v => exact (names p v found).2.start rfl

/-- Inside a directive there is no line break. -/
theorem inline_write {body : List Emission} (inline : ∀ e ∈ body, Inline e) (w : Writer)
    (nl : w.nl = false) (breaks : w.breaks = false) :
    '\n' ∉ (write swaptable w body).flatten ∧ (after swaptable w body).nl = false ∧
      (after swaptable w body).breaks = false := by
  induction body generalizing w with
  | nil => exact ⟨by simp [write], nl, breaks⟩
  | cons e body ih =>
    have later := ih fun e mem => inline e (List.mem_cons_of_mem _ mem)
    have here := inline e List.mem_cons_self
    cases e with
    | emit s =>
      have line := swapped_line names here
      rw [swapped] at line
      obtain ⟨clean, rest⟩ := later (emit swaptable w s).2
        (by simp only [emit]; split <;> simp [nl]) (by simp only [emit]; split <;> simp [breaks])
      refine ⟨?_, rest⟩
      simp only [write, List.flatten_append, List.mem_append, not_or]
      refine ⟨?_, clean⟩
      simp only [emit, nl, breaks]
      split <;> simp [line]
    | emit_ws => exact later _ nl breaks
    | emit_nl => cases here
    | breaks_on => cases here
    | breaks_off => cases here

/-- A directive is written on a line of its own, whatever the writer has written before. -/
theorem framed_write {emitted : List Emission} (framed : Framed emitted) (w : Writer)
    (es : List Emission) : ∃ w' : Writer, w'.nl = true ∧ w'.breaks = true ∧
      (write swaptable w (.breaks_off :: emitted ++ .breaks_on :: es)).flatten =
        '\n' :: (row swaptable emitted ++ (write swaptable w' es).flatten) ∧
      '\n' ∉ row swaptable emitted ∧ (row swaptable emitted).head? = some '#' := by
  obtain ⟨name, body, rfl, word, inline⟩ := framed
  have same : swapped swaptable ('#' :: name) = '#' :: name := swapped_other names rfl rfl
  rw [swapped] at same
  let start : Writer := ⟨false, false, ('#' :: name).getLast?.any CTokens.word, false⟩
  have text : row swaptable (.emit_nl :: .emit ('#' :: name) :: body ++ [.emit_nl]) =
      '#' :: name ++ (write swaptable start body).flatten := by
    have first : emit swaptable ⟨false, false, false, false⟩ ('#' :: name) =
        ([('#' :: name)], start) := by
      simp only [emit, same]
      rfl
    simp only [row, List.cons_append, List.drop_succ_cons, List.drop_zero, write, first,
      write_append, List.flatten_cons, List.append_nil, List.nil_append]
  obtain ⟨clean, _, _⟩ := inline_write names inline start rfl rfl
  refine ⟨{ after swaptable start body with nl := true, breaks := true }, rfl, rfl, ?_, ?_, ?_⟩
  · have first : emit swaptable { w with breaks := false, nl := true } ('#' :: name) =
        ([['\n'], '#' :: name], start) := by
      simp only [emit, same, Bool.or_true, if_true]
      rfl
    rw [text]
    simp only [List.cons_append, List.append_assoc, write, first, write_append, List.flatten_append,
      List.flatten_cons, List.nil_append]
  · rw [text]
    intro mem
    rcases List.mem_append.mp mem with mem | mem
    · rcases List.mem_cons.mp mem with same | mem
      · cases same
      · exact word mem
    · exact clean mem
  · rw [text]
    rfl

end

/-- Lines outside of directives, or those of one directive, as they are handed over. -/
inductive Block where
  | plain (emitted : List Emission)
  | directive (emitted : List Emission)

def Block.emissions : Block → List Emission
  | .plain emitted => emitted
  | .directive emitted => .breaks_off :: emitted ++ [.breaks_on]

/-- A source falls into blocks. -/
inductive Blocks : List LuaString → List Block → Prop where
  | nil : Blocks [] []
  | plain {s lines rest emitted bs} (other : (find directivePattern s).isSome = false)
      (run : normalPart s lines = (emitted, .ok rest)) (more : Blocks rest bs) :
      Blocks (s :: lines) (.plain emitted :: bs)
  | directive {s lines rest emitted bs} (hash : (find directivePattern s).isSome = true)
      (run : processPreprocessorDirective lines s = (emitted, .ok rest)) (more : Blocks rest bs) :
      Blocks (s :: lines) (.directive emitted :: bs)

/-- The line of a directive, none if it is passed over. -/
def Block.row (swaptable : List (LuaString × LuaString)) : Block → Option LuaString
  | .plain _ => none
  | .directive [] => none
  | .directive (e :: emitted) => some (Cruncher.row swaptable (e :: emitted))

theorem gettokens_blocks {fuel : Nat} {source : List LuaString} {emitted : List Emission}
    {rest : List LuaString}
    (run : gettokens processPreprocessorDirective fuel source = (emitted, .ok rest)) :
    ∃ bs, Blocks source bs ∧ emitted = bs.flatMap Block.emissions := by
  induction fuel generalizing source emitted with
  | zero => cases run
  | succ fuel ih =>
    cases source with
    | nil =>
      cases run
      exact ⟨[], .nil, rfl⟩
    | cons s lines =>
      rw [gettokens] at run
      split at run
      · rename_i hash
        obtain ⟨first, lines', later, head, tail, rfl⟩ := bind_ok run
        obtain ⟨rfl, result⟩ := Prod.mk.inj head
        obtain ⟨rfl, result'⟩ := Prod.mk.inj tail
        obtain ⟨bs, blocks, same⟩ := ih (Prod.ext rfl result')
        refine ⟨_, .directive hash (Prod.ext rfl result) blocks, ?_⟩
        rw [List.flatMap_cons, ← same]
        simp [Block.emissions]
      · rename_i other
        obtain ⟨first, lines', later, head, tail, rfl⟩ := bind_ok run
        obtain ⟨bs, blocks, rfl⟩ := ih tail
        exact ⟨_, .plain (by simpa using other) head blocks, rfl⟩

def startsHash (line : LuaString) : Bool := line.head? == some '#'

/-- Behind a text that stands on the current line, these are the lines that start with `#`. -/
def Continues (swaptable : List (LuaString × LuaString)) (es : List Emission)
    (rows : List LuaString) : Prop :=
  ∀ (w : Writer) (pre : LuaString), w.breaks = true → '\n' ∉ pre →
    (startsHash pre = true → w.nl = true) →
    (LineEdit.lines (pre ++ (write swaptable w es).flatten)).filter startsHash =
      [pre].filter startsHash ++ rows

theorem filter_lines {pre : LuaString} (clean : '\n' ∉ pre) (t : LuaString) :
    (LineEdit.lines (pre ++ '\n' :: t)).filter startsHash =
      [pre].filter startsHash ++ (LineEdit.lines t).filter startsHash := by
  rw [LineEdit.lines_append, LineEdit.lines_clean clean, List.filter_append]

theorem Continues.nil : Continues swaptable [] [] := by
  intro w pre _ clean _
  simp [write, LineEdit.lines_clean clean]

/-- Outside of directives a text is written behind a line break or behind nothing. -/
theorem emit_breaking {w : Writer} (breaks : w.breaks = true) (p : LuaString) :
    ∃ w' : Writer, w'.breaks = true ∧
      (emit swaptable w p = ([['\n'], swapped swaptable p], w') ∨
        w.nl = false ∧ emit swaptable w p = ([swapped swaptable p], w')) := by
  cases between : (p.head?.any CTokens.word && w.id) || w.ws || w.nl with
  | true =>
    refine ⟨{ w with
      ws := false
      nl := false
      id := (swapped swaptable p).getLast?.any CTokens.word }, breaks, .inl ?_⟩
    simp [emit, between, breaks, swapped]
  | false =>
    refine ⟨{ w with id := (swapped swaptable p).getLast?.any CTokens.word }, breaks,
      .inr ⟨?_, ?_⟩⟩
    · exact (Bool.or_eq_false_iff.mp between).2
    · simp [emit, between, swapped]

/-- A directive that is passed over. -/
theorem Continues.eaten {es : List Emission} {rows : List LuaString}
    (more : Continues swaptable es rows) :
    Continues swaptable (.breaks_off :: .breaks_on :: es) rows :=
  fun w pre _ clean closed => more { w with breaks := true } pre rfl clean closed

section
variable (names : Identifiers swaptable)

include names

/-- A piece neither starts a line with `#` nor goes on in one that does. -/
theorem Continues.piece {p : LuaString} (tidy : Tidy p) {es : List Emission}
    {rows : List LuaString} (more : Continues swaptable es rows) :
    Continues swaptable (.emit p :: es) rows := by
  intro w pre breaks clean closed
  have line := swapped_line names tidy.line
  have plain : startsHash (swapped swaptable p) = false := by
    simpa [startsHash] using swapped_hash names tidy.plain
  obtain ⟨w', breaks', step | ⟨nl, step⟩⟩ := @emit_breaking swaptable w breaks p
  · have rest := more w' (swapped swaptable p) breaks' line (by simp [plain])
    rw [write, step]
    simp only [List.flatten_cons, List.cons_append, List.nil_append]
    rw [filter_lines clean, rest]
    simp [plain]
  · have unmarked : startsHash pre = false := by
      cases hash : startsHash pre with
      | false => rfl
      | true =>
        rw [closed hash] at nl
        cases nl
    have joined : startsHash (pre ++ swapped swaptable p) = false := by
      cases pre with
      | nil => exact plain
      | cons c pre => exact unmarked
    have apart : '\n' ∉ pre ++ swapped swaptable p := by
      simp only [List.mem_append, not_or]
      exact ⟨clean, line⟩
    have rest := more w' (pre ++ swapped swaptable p) breaks' apart (by simp [joined])
    rw [write, step]
    simp only [List.flatten_cons, List.cons_append, List.nil_append]
    rw [← List.append_assoc, rest]
    simp [joined, unmarked]

theorem Continues.pieces {emitted : List Emission} (tidy : OnlyPieces emitted)
    {es : List Emission} {rows : List LuaString} (more : Continues swaptable es rows) :
    Continues swaptable (emitted ++ es) rows := by
  obtain ⟨ps, rfl, tidy⟩ := tidy
  induction ps with
  | nil => exact more
  | cons p ps ih =>
    exact (ih fun q mem => tidy q (List.mem_cons_of_mem p mem)).piece names
      (tidy p List.mem_cons_self)

theorem Continues.framed {emitted : List Emission} (framed : Framed emitted) {es : List Emission}
    {rows : List LuaString} (more : Continues swaptable es rows) :
    Continues swaptable (.breaks_off :: emitted ++ .breaks_on :: es)
      (row swaptable emitted :: rows) := by
  intro w pre _ clean _
  obtain ⟨w', nl, breaks, text, line, hash⟩ := framed_write names framed w es
  have starts : startsHash (row swaptable emitted) = true := beq_iff_eq.mpr hash
  have rest := more w' (row swaptable emitted) breaks line fun _ => nl
  rw [text, filter_lines clean, rest]
  simp [starts]

theorem blocks_continue {source : List LuaString} {bs : List Block} (blocks : Blocks source bs)
    (clean : ∀ l ∈ source, '\n' ∉ l) : Continues swaptable (bs.flatMap Block.emissions)
      (bs.filterMap (Block.row swaptable)) := by
  induction blocks with
  | nil => exact .nil
  | @plain s lines rest emitted bs other run more ih =>
    obtain ⟨pieces, inside⟩ := processNormalLine_pieces (Nat.le_refl 1) (clean s List.mem_cons_self)
      (fun l mem => clean l (List.mem_cons_of_mem s mem)) run
    exact (ih fun l mem => clean l (List.mem_cons_of_mem s (inside.subset mem))).pieces names pieces
  | @directive s lines rest emitted bs hash run more ih =>
    obtain ⟨shape, inside⟩ := directive_framed (clean s List.mem_cons_self)
      (fun l mem => clean l (List.mem_cons_of_mem s mem)) run
    have later := ih fun l mem => clean l (List.mem_cons_of_mem s (inside.subset mem))
    rcases shape with rfl | framed
    · exact later.eaten
    · have whole := later.framed names framed
      obtain ⟨name, body, rfl, _⟩ := framed
      simpa [Block.emissions, Block.row] using whole

end

/-- Every directive of a source that is not passed over is a line of the output, in their
order, with the text that it would have alone, and no other line of the output starts
with `#`. -/
theorem directives_stand_alone (names : Identifiers swaptable) {source : List LuaString}
    (clean : ∀ l ∈ source, '\n' ∉ l) {emitted : List Emission} {rest : List LuaString}
    (run : crunch processPreprocessorDirective source = (emitted, .ok rest)) :
    ∃ bs, Blocks source bs ∧ emitted = bs.flatMap Block.emissions ∧
      (LineEdit.lines (written swaptable emitted)).filter startsHash =
        bs.filterMap (Block.row swaptable) := by
  obtain ⟨bs, blocks, rfl⟩ := gettokens_blocks run
  refine ⟨bs, blocks, rfl, ?_⟩
  have rows := blocks_continue names blocks clean Writer.start [] rfl (by simp) (by simp [startsHash])
  rw [written, LineEdit.lines_append, List.filter_append]
  simpa [startsHash, LineEdit.lines_clean] using rows

def renamed : List (LuaString × LuaString) := [("foo".toList, "a".toList)]

theorem renamed_identifiers : Identifiers renamed := by
  intro s v found
  rw [renamed, List.lookup_cons] at found
  split at found
  · rename_i same
    cases found
    rw [beq_iff_eq.mp same]
    exact ⟨⟨rfl, by decide⟩, rfl, by decide⟩
  · cases found

def listing : List LuaString :=
  ["# include <a.h>".toList, "int foo ;".toList, "#line 7".toList, "#define foo( x ) x + \\".toList,
    "foo".toList, "foo( y )".toList]

theorem listing_accepted : (crunch processPreprocessorDirective listing).2 = .ok [] ∧
    LineEdit.lines (written renamed (crunch processPreprocessorDirective listing).1) =
      ["".toList, "#include<a.h>".toList, "int".toList, "a;".toList, "#define a(x) x+a".toList,
        "a(y)".toList, "".toList] := by
  decide +kernel

theorem listing_stands_alone : ∃ bs, Blocks listing bs ∧
    (crunch processPreprocessorDirective listing).1 = bs.flatMap Block.emissions ∧
    (LineEdit.lines (written renamed (crunch processPreprocessorDirective listing).1)).filter
      startsHash = bs.filterMap (Block.row renamed) :=
  directives_stand_alone renamed_identifiers (by decide) (Prod.ext rfl listing_accepted.1)

end Rows

section Macros

/-- A line that defines a macro: its name, and the text behind it. -/
structure Define (s name rest : LuaString) : Prop where
  shape : ∃ a b c, s = a ++ '#' :: (b ++ ("define".toList ++ (c ++ (name ++ rest)))) ∧
    (∀ d ∈ a, white d = true) ∧ (∀ d ∈ b, white d = true) ∧ (∀ d ∈ c, white d = true) ∧ c ≠ []
  name : IsName name
  ends : rest.head?.any word = false

theorem dropWhile_all {p : Char → Bool} {a t : LuaString} (all : ∀ c ∈ a, p c = true)
    (stop : t.head?.any p = false) : (a ++ t).dropWhile p = t := by
  rw [List.dropWhile_append_of_pos all]
  cases t with
  | nil => rfl
  | cons c t => exact List.dropWhile_cons_of_neg (by simpa using stop)

/-- Items that match no white space. -/
def Dark (items : List Item) : Prop :=
  ∀ c t cs, white c = true → matchItems items (c :: t) cs = none

theorem hash_match {items : List Item} (dark : Dark items) {a b t : LuaString}
    (blank : ∀ c ∈ a, white c = true) (blank' : ∀ c ∈ b, white c = true)
    (stop : t.head?.any white = false) :
    matchItems (hashItems items) (a ++ '#' :: (b ++ t)) [] = matchItems items t [] := by
  rw [hashItems, matchItems, maxExpand_run, dropWhile_all blank rfl]
  · rw [matchItems, if_pos (beq_self_eq_true '#'), matchItems,
      maxExpand_run (fun c s h => dark c s [] h), dropWhile_all blank' stop]
  · intro c s blank
    rw [matchItems, if_neg]
    rintro hash
    rw [beq_iff_eq.mp hash] at blank
    cases blank

theorem literally_dark {w : String} {d : Char} (head : w.toList.head? = some d)
    (other : white d = false) (items : List Item) : Dark (literally w ++ items) := by
  intro c t cs blank
  obtain ⟨ds, whole⟩ := List.head?_eq_some_iff.mp head
  rw [literally, whole, List.map_cons, List.cons_append, matchItems, if_neg]
  intro same
  rw [beq_iff_eq.mp same, other] at blank
  cases blank

theorem word_dark {c : Char} (inside : word c = true) : white c = false := by
  cases blank : white c with
  | false => rfl
  | true =>
    rw [white_other blank] at inside
    cases inside

theorem IsName.dark {s : LuaString} (name : IsName s) (t : LuaString) :
    (s ++ t).head?.any white = false := by
  obtain ⟨first, _⟩ := name
  cases s with
  | nil => cases first
  | cons c s => simpa using word_dark (letter_word first)

/-- The first part of the patterns for `#define` finds the name. -/
theorem Define.matched {s name rest : LuaString} (define : Define s name rest) {items : List Item}
    (stops : ∀ t cs, maxExpand word (fun u => matchItems (.closeCapture :: items) u cs) t =
      matchItems (.closeCapture :: items) (t.dropWhile word) cs) :
    matchItems (defineItems items) s [] = matchItems items rest [.closed name] := by
  obtain ⟨a, b, c, rfl, blank, blank', blank'', some⟩ := define.shape
  rw [defineItems, hash_match (literally_dark rfl rfl _) blank blank' rfl, literally, match_word]
  obtain ⟨d, c, rfl⟩ := List.exists_cons_of_ne_nil some
  have dark : ∀ e t, white e = true →
      matchItems (.openCapture :: .plus word :: .closeCapture :: items) (e :: t) [] = none := by
    intro e t h
    rw [matchItems, matchItems, if_neg]
    rw [white_other h]
    decide
  rw [List.cons_append, matchItems, if_pos (blank'' d List.mem_cons_self), maxExpand_run dark,
    dropWhile_all (fun e mem => blank'' e (List.mem_cons_of_mem d mem)) (define.name.dark rest)]
  have words := List.all_eq_true.mp define.name.2
  have first := define.name.1
  generalize name = n at *
  cases n with
  | nil => cases first
  | cons e n =>
    rw [matchItems, List.cons_append, matchItems, if_pos (words e List.mem_cons_self), stops,
      dropWhile_all (fun d mem => words d (List.mem_cons_of_mem e mem)) define.ends, matchItems,
      List.nil_append, ← List.cons_append, closeLast_single]

theorem body_match (names : List LuaString) (t : LuaString) :
    matchItems [.openCapture, .star (fun _ => true), .closeCapture, .atEnd] t (names.map .closed) =
      some ([], (names ++ [t]).map .closed) :=
  match_capture_all names t (fun _ _ => rfl) rfl

theorem white_dropWhile {c : Char} (blank : white c = true) (t : LuaString) :
    (c :: t).dropWhile white = t.dropWhile white := List.dropWhile_cons_of_pos blank

theorem Define.object {s name rest : LuaString} (define : Define s name rest) :
    find objectPattern s =
      if rest.head?.any white then some [name, rest.dropWhile white] else none := by
  rw [find_anchored rfl, objectPattern, define.matched]
  · cases rest with
    | nil => rfl
    | cons c rest =>
      cases blank : white c with
      | false => simp [bodyItems, matchItems, blank]
      | true =>
        have body := body_match [name] (rest.dropWhile white)
        rw [List.map_singleton] at body
        rw [bodyItems, matchItems, if_pos blank, maxExpand_free fun u => by
          rw [← List.map_singleton, body_match]; rfl, body, white_dropWhile blank]
        simp [blank, Capture.text]
  · intro t cs
    refine maxExpand_run (fun c u h => ?_) t
    simp [bodyItems, matchItems, word_dark h]

theorem Define.function {s name rest sc1 sc2 sc3 : LuaString} (define : Define s name rest)
    (found : findFunction s = some (sc1, sc2, sc3)) :
    sc1 = name ∧ rest.head? = some '(' ∧ sc2.head? = some '(' := by
  have matched := @Define.matched s name rest define [] fun t cs => maxExpand_free (fun _ => rfl) t
  rw [matchItems] at matched
  unfold findFunction at found
  rw [matched] at found
  split at found
  · rename_i t name' same
    cases same
    split at found
    · split at found
      · cases found
        exact ⟨rfl, rfl, rfl⟩
      · cases found
    · cases found
  · cases found

/-- `%s*(.*)$` behind an open capture. -/
def genericTail : List Item :=
  [.closeCapture, .star white, .openCapture, .star (fun _ => true), .closeCapture, .atEnd]

theorem generic_tail (t u : LuaString) : matchItems genericTail u [.unfinished t] =
    some ([], [.closed (t.take (t.length - u.length)), .closed (u.dropWhile white)]) := by
  have body := body_match [t.take (t.length - u.length)]
  simp only [List.map_cons, List.map_nil, List.cons_append, List.nil_append] at body
  have closed : closeLast u [.unfinished t] = [.closed (t.take (t.length - u.length))] := by
    simp [closeLast]
  rw [genericTail, matchItems, closed, matchItems, maxExpand_free fun v => by rw [body]; rfl]
  exact body _

theorem white_alpha {c : Char} (blank : white c = true) : c.isAlpha = false := by
  have other := white_other blank
  rw [word, Bool.or_eq_false_iff, Char.isAlphanum, Bool.or_eq_false_iff] at other
  exact other.1.1

theorem Define.generic {s name rest : LuaString} (define : Define s name rest) :
    find genericPattern s = some ["define".toList, name ++ rest] := by
  obtain ⟨a, b, c, rfl, blank, blank', blank'', nonempty⟩ := define.shape
  have dark : Dark (.openCapture :: .plus Char.isAlpha :: genericTail) := by
    intro e t cs h
    rw [matchItems, matchItems, if_neg]
    simp [white_alpha h]
  have stop : (c ++ (name ++ rest)).head?.any Char.isAlpha = false := by
    obtain ⟨d, c, rfl⟩ := List.exists_cons_of_ne_nil nonempty
    exact white_alpha (blank'' d List.mem_cons_self)
  have letters : ∀ d ∈ "efine".toList, d.isAlpha = true := List.all_eq_true.mp rfl
  have shape : "define".toList ++ (c ++ (name ++ rest)) =
      'd' :: ("efine".toList ++ (c ++ (name ++ rest))) := rfl
  rw [find_anchored rfl]
  show (matchItems (hashItems (.openCapture :: .plus Char.isAlpha :: genericTail)) _ []).map _ = _
  rw [hash_match dark blank blank' rfl, matchItems, List.nil_append]
  rw [shape, matchItems, if_pos (by decide), maxExpand_free fun u => by rw [generic_tail]; rfl,
    dropWhile_all letters stop, generic_tail, dropWhile_all blank'' (define.name.dark rest)]
  have kept : ∀ u : LuaString, ('d' :: ("efine".toList ++ u)).take
      (('d' :: ("efine".toList ++ u)).length - u.length) = "define".toList := by
    intro u
    show ("define".toList ++ u).take (("define".toList ++ u).length - u.length) = _
    rw [List.length_append, Nat.add_sub_cancel, List.take_left]
  simp only [Option.map_some, List.map_cons, List.map_nil, Capture.text, kept]

theorem Define.others {s name rest : LuaString} (define : Define s name rest) :
    find linePattern s = none ∧ find includePattern s = none := by
  obtain ⟨a, b, c, rfl, blank, blank', _, _⟩ := define.shape
  constructor
  · have dark : ∀ e t, white e = true → matchItems (literally "#line" ++
        [.star (fun _ => true), .atEnd]) (e :: t) [] = none :=
      fun e t h => literally_dark rfl rfl _ e t [] h
    have differs : ∀ t : LuaString, (b ++ ("define".toList ++ t)).head? ≠ some 'l' := by
      intro t
      cases b with
      | nil => simp
      | cons d b =>
        have other := blank' d List.mem_cons_self
        intro same
        cases same
        cases other
    rw [find_anchored rfl]
    show (matchItems (.star white :: (literally "#line" ++ [.star (fun _ => true), .atEnd])) _
      []).map _ = none
    rw [matchItems, maxExpand_run dark, dropWhile_all blank rfl]
    show (matchItems (.one (· == '#') :: .one (· == 'l') :: _) _ []).map _ = none
    rw [matchItems, if_pos (beq_self_eq_true '#')]
    have differs := differs (c ++ (name ++ rest))
    generalize b ++ ("define".toList ++ (c ++ (name ++ rest))) = t at differs ⊢
    cases t with
    | nil => rfl
    | cons d t =>
      have other : ¬ (d == 'l') = true := fun same => differs (by rw [beq_iff_eq.mp same]; rfl)
      rw [matchItems, if_neg other]
      rfl
  · rw [find_anchored rfl, includePattern, hash_match (literally_dark rfl rfl _) blank blank' rfl]
    rfl

/-- The branches of the directive that a definition takes. -/
theorem Define.branches {line s name rest : LuaString} {lines lines' : List LuaString}
    (define : Define s name rest) (collapsed : collapseContinuations line lines = .ok (s, lines')) :
    ∃ parts, processPreprocessorDirective lines line =
        inTurn (emits [.emit_nl, .emit "#define".toList] :: parts ++ [emits [.emit_nl]]) lines' ∧
      (rest.head?.any white = true ∧
          parts = [normalPart name, emits [.emit_ws], normalPart (rest.dropWhile white)] ∨
        rest.head?.any white = false ∧ (parts = [normalPart (name ++ rest)] ∨
          rest.head? = some '(' ∧ ∃ sc2 sc3, sc2.head? = some '(' ∧ sc2 ⊆ s ∧
            parts = [normalPart name, normalPart sc2, emits [.emit_ws], normalPart sc3])) := by
  obtain ⟨unlined, unincluded⟩ := define.others
  simp only [processPreprocessorDirective, collapsed, unlined, unincluded, define.object,
    define.generic, Option.isSome_none, Bool.false_eq_true, if_false]
  cases blank : rest.head?.any white with
  | true => exact ⟨_, rfl, .inl ⟨rfl, rfl⟩⟩
  | false =>
    cases found : findFunction s with
    | none => exact ⟨_, rfl, .inr ⟨rfl, .inl rfl⟩⟩
    | some texts =>
      obtain ⟨sc1, sc2, sc3⟩ := texts
      obtain ⟨rfl, opens, opens'⟩ := define.function found
      exact ⟨_, rfl, .inr ⟨rfl, .inr ⟨opens, sc2, sc3, opens', (findFunction_within found).2.1, rfl⟩⟩⟩

/-- A run on a text that starts with a piece hands that over and goes on behind it. -/
theorem processNormalLine_first {fuel : Nat} {lines rest : List LuaString} {s t : LuaString}
    {pos : Nat} {emitted : List Emission} (clean : '\n' ∉ s) (start : 1 ≤ pos)
    (there : s.drop (pos - 1) = t) (solid : Solid t) (nonempty : t ≠ [])
    (run : processNormalLine fuel lines s pos = (emitted, .ok rest)) :
    ∃ n later fuel' pos', pieceLength t = some n ∧ emitted = .emit (t.take n) :: later ∧
      1 ≤ pos' ∧ s.drop (pos' - 1) = t.drop n ∧
      processNormalLine fuel' lines s pos' = (later, .ok rest) := by
  have inside : pos ≤ s.length := by
    by_contra outside
    exact nonempty (by rw [← there]; exact List.drop_eq_nil_of_le (by omega))
  cases fuel with
  | zero => cases run
  | succ fuel =>
    have token := @processToken_solid lines s t pos there start solid nonempty fun mem =>
      clean (List.mem_of_mem_drop (there ▸ mem))
    rw [processNormalLine, if_pos inside] at run
    cases piece : pieceLength t with
    | none =>
      rw [piece] at token
      obtain ⟨e, failed⟩ := token
      rw [failed] at run
      cases run
    | some n =>
      rw [piece] at token
      obtain ⟨pos', step, start', there'⟩ := token
      rw [step] at run
      obtain ⟨rfl, result⟩ := Prod.mk.inj run
      exact ⟨n, _, fuel, pos', rfl, rfl, start', there', Prod.ext rfl result⟩

theorem processNormalLine_end {fuel : Nat} {lines rest : List LuaString} {s : LuaString}
    {pos : Nat} {emitted : List Emission} (start : 1 ≤ pos) (there : s.drop (pos - 1) = [])
    (run : processNormalLine fuel lines s pos = (emitted, .ok rest)) : emitted = [] := by
  have outside : ¬ pos ≤ s.length := by
    rw [List.drop_eq_nil_iff] at there
    omega
  cases fuel with
  | zero => cases run
  | succ fuel =>
    rw [processNormalLine, if_neg outside] at run
    cases run
    rfl

theorem IsName.piece {name rest : LuaString} (is_name : IsName name)
    (ends : rest.head?.any word = false) : pieceLength (name ++ rest) = some name.length := by
  obtain ⟨first, words⟩ := is_name
  cases name with
  | nil => cases first
  | cons c name =>
    have run : (name ++ rest).takeWhile word = name := by
      rw [List.takeWhile_append_of_pos fun d mem =>
        List.all_eq_true.mp words d (List.mem_cons_of_mem c mem)]
      cases rest with
      | nil => exact List.append_nil name
      | cons d rest => rw [List.takeWhile_cons_of_neg (by simpa using ends), List.append_nil]
    have plain : quote c = false := by
      cases quoted : quote c with
      | false => rfl
      | true =>
        have dark := quote_dark quoted
        rw [letter_word first] at dark
        cases dark
    have read := (read_name first (name ++ rest)).piece
    rw [run] at read
    rw [List.cons_append, pieceLength_cons, plain]
    exact read

/-- What is handed over for a name, and where the run goes on. -/
theorem IsName.handed {fuel : Nat} {lines left : List LuaString} {s name rest : LuaString}
    {pos : Nat} {emitted : List Emission} (is_name : IsName name)
    (ends : rest.head?.any word = false) (clean : '\n' ∉ s) (start : 1 ≤ pos)
    (there : s.drop (pos - 1) = name ++ rest)
    (run : processNormalLine fuel lines s pos = (emitted, .ok left)) :
    ∃ later fuel' pos', emitted = .emit name :: later ∧ 1 ≤ pos' ∧ s.drop (pos' - 1) = rest ∧
      processNormalLine fuel' lines s pos' = (later, .ok left) := by
  have nonempty : name ≠ [] := by
    rintro rfl
    cases is_name.1
  have opens : opensComment (name ++ rest) = false := by
    obtain ⟨c, name, rfl⟩ := List.exists_cons_of_ne_nil nonempty
    refine opens_slash ?_
    rintro rfl
    cases is_name.1
  obtain ⟨n, later, fuel', pos', piece, rfl, start', there', run'⟩ := processNormalLine_first clean
    start there ⟨is_name.dark rest, opens⟩ (by simp [nonempty]) run
  rw [is_name.piece ends] at piece
  cases piece
  rw [List.take_left]
  rw [List.drop_left] at there'
  exact ⟨later, fuel', pos', rfl, start', there', run'⟩

theorem normalPart_name {name : LuaString} (is_name : IsName name) {lines left : List LuaString}
    {emitted : List Emission} (run : normalPart name lines = (emitted, .ok left)) :
    emitted = [.emit name] := by
  obtain ⟨later, _, _, rfl, start, there, run'⟩ := is_name.handed rfl is_name.line (Nat.le_refl 1)
    (List.append_nil name).symm run
  rw [processNormalLine_end start there run']

/-- What is handed over first for a text that starts with neither white space nor a comment. -/
theorem normal_first {fuel : Nat} {lines left : List LuaString} {s t : LuaString} {pos : Nat}
    {emitted : List Emission} (clean : '\n' ∉ s) (start : 1 ≤ pos) (there : s.drop (pos - 1) = t)
    (solid : Solid t) (nonempty : t ≠ [])
    (run : processNormalLine fuel lines s pos = (emitted, .ok left)) :
    ∃ p later, emitted = .emit p :: later ∧ p.head? = t.head? := by
  obtain ⟨n, later, _, _, piece, rfl, _⟩ :=
    processNormalLine_first clean start there solid nonempty run
  refine ⟨t.take n, later, rfl, ?_⟩
  have some := pieceLength_pos piece
  rw [List.head?_take, if_neg (by omega)]

section
variable {swaptable : List (LuaString × LuaString)} (names : Identifiers swaptable)

include names

theorem row_define {name : LuaString} (is_name : IsName name) (body : List Emission) :
    row swaptable (.emit_nl :: .emit "#define".toList :: .emit name :: body) =
      "#define ".toList ++ swapped swaptable name ++
        (write swaptable ⟨false, false, true, false⟩ body).flatten := by
  have keyword : swapped swaptable "#define".toList = "#define".toList := swapped_other names rfl rfl
  have starts : name.head?.any CTokens.word = true := by
    obtain ⟨first, words⟩ := is_name
    cases name with
    | nil => cases first
    | cons c name => exact letter_word first
  have ends : (swapped swaptable name).getLast?.any CTokens.word = true := by
    rw [swapped]
    cases found : swaptable.lookup name with
    | none => exact is_name.ends
    | some v => exact (names name v found).2.ends
  rw [swapped] at keyword ends
  have first : emit swaptable ⟨false, false, false, false⟩ "#define".toList =
      (["#define".toList], ⟨false, false, true, false⟩) := by
    simp only [emit, keyword]
    rfl
  have second : emit swaptable ⟨false, false, true, false⟩ name =
      ([[' '], swapped swaptable name], ⟨false, false, true, false⟩) := by
    simp only [emit, starts, ends, swapped]
    rfl
  simp only [row, List.drop_succ_cons, List.drop_zero, write, first, second, List.flatten_append,
    List.flatten_cons, List.flatten_nil, List.append_nil, List.append_assoc]
  rfl

/-- A piece that does not begin like a word stands right behind the word before. -/
theorem write_joined {p : LuaString} {c : Char} (head : p.head? = some c)
    (other : CTokens.word c = false) (es : List Emission) :
    (write swaptable ⟨false, false, true, false⟩ (.emit p :: es)).flatten.head? = some c := by
  have letterless : letter c = false := by
    cases first : letter c with
    | false => rfl
    | true => rw [letter_word first] at other; cases other
  have same := swapped_other names head letterless
  rw [swapped] at same
  cases p with
  | nil => cases head
  | cons d p =>
    cases head
    simp [write, emit, same, other]

end

theorem write_spaced {swaptable : List (LuaString × LuaString)} {emitted : List Emission}
    (pieces : OnlyPieces emitted) :
    (write swaptable ⟨false, false, true, false⟩
      (.emit_ws :: emitted ++ [.emit_nl])).flatten.head?.getD ' ' = ' ' := by
  obtain ⟨ps, rfl, _⟩ := pieces
  cases ps with
  | nil => rfl
  | cons p ps => simp [write, emit]

/-- What is handed over for a definition. -/
theorem Define.handed {line s name rest : LuaString} {lines lines' left : List LuaString}
    {emitted : List Emission} (define : Define s name rest) (clean : '\n' ∉ s)
    (cleanLines : ∀ l ∈ lines', '\n' ∉ l)
    (collapsed : collapseContinuations line lines = .ok (s, lines'))
    (uncommented : opensComment rest = false)
    (run : processPreprocessorDirective lines line = (emitted, .ok left)) :
    ∃ body, emitted = .emit_nl :: .emit "#define".toList :: .emit name :: body ∧
      (rest.head?.any white = true ∧ (∃ pieces, OnlyPieces pieces ∧
          body = .emit_ws :: pieces ++ [.emit_nl]) ∨
        rest = [] ∧ body = [.emit_nl] ∨
        rest.head?.any white = false ∧ rest ≠ [] ∧
          ∃ p later, body = .emit p :: later ∧ p.head? = rest.head?) := by
  have line_rest : '\n' ∉ name ++ rest := by
    obtain ⟨a, b, c, rfl, _⟩ := define.shape
    exact fun mem => clean (by simp only [List.mem_append, List.mem_cons] at mem ⊢; tauto)
  obtain ⟨parts, same, branches⟩ := define.branches collapsed
  rw [same] at run
  obtain ⟨_, turn, rfl⟩ := inTurn_last run
  obtain ⟨_, _, inner, head, turn1, rfl⟩ := bind_ok turn
  cases head
  rcases branches with ⟨blank, rfl⟩ | ⟨dark, rfl | ⟨opens, sc2, sc3, opens', within, rfl⟩⟩
  · obtain ⟨first, mid, _, named, turn2, rfl⟩ := bind_ok turn1
    obtain ⟨_, _, _, head, turn3, rfl⟩ := bind_ok turn2
    cases head
    obtain ⟨pieces, _, _, last, turn4, rfl⟩ := bind_ok turn3
    cases turn4
    have shorter := (normalPart_inline define.name.line lines' first mid cleanLines named).2
    have inner : '\n' ∉ rest.dropWhile white := fun mem => line_rest
      (List.mem_append_right name ((List.dropWhile_suffix white).subset mem))
    have only := (processNormalLine_pieces (Nat.le_refl 1) inner
      (fun l mem => cleanLines l (shorter.subset mem)) last).1
    rw [normalPart_name define.name named]
    exact ⟨_, rfl, .inl ⟨blank, pieces, only, by simp⟩⟩
  · obtain ⟨first, _, _, named, turn2, rfl⟩ := bind_ok turn1
    cases turn2
    obtain ⟨later, _, _, rfl, start, there, more⟩ := define.name.handed define.ends line_rest
      (Nat.le_refl 1) rfl named
    by_cases nothing : rest = []
    · rw [processNormalLine_end start (there.trans nothing) more]
      exact ⟨_, rfl, .inr (.inl ⟨nothing, rfl⟩)⟩
    · obtain ⟨p, later, rfl, head⟩ := normal_first line_rest start there ⟨dark, uncommented⟩
        nothing more
      exact ⟨_, rfl, .inr (.inr ⟨dark, nothing, p, _, rfl, head⟩)⟩
  · obtain ⟨first, _, _, named, turn2, rfl⟩ := bind_ok turn1
    obtain ⟨second, _, _, parameters, _, rfl⟩ := bind_ok turn2
    have nothing : rest ≠ [] := by
      rintro rfl
      cases opens
    have solid : Solid sc2 ∧ sc2 ≠ [] := by
      cases sc2 with
      | nil => cases opens'
      | cons c sc2 =>
        cases opens'
        exact ⟨⟨rfl, opens_slash (by decide)⟩, List.cons_ne_nil _ _⟩
    obtain ⟨p, later, rfl, head⟩ := normal_first (fun mem => clean (within mem)) (Nat.le_refl 1) rfl
      solid.1 solid.2 parameters
    rw [normalPart_name define.name named]
    exact ⟨_, rfl, .inr (.inr ⟨dark, nothing, p, _, rfl, head.trans (opens'.trans opens.symm)⟩)⟩

/-- The line of a definition defines the same name, under its new text, and a macro with
parameters stays one, and a macro without parameters too. -/
theorem macro_kind_kept {swaptable : List (LuaString × LuaString)} (names : Identifiers swaptable)
    {line s name rest : LuaString} {lines lines' left : List LuaString} {emitted : List Emission}
    (clean : '\n' ∉ line) (cleanLines : ∀ l ∈ lines, '\n' ∉ l)
    (collapsed : collapseContinuations line lines = .ok (s, lines')) (define : Define s name rest)
    (uncommented : opensComment rest = false)
    (run : processPreprocessorDirective lines line = (emitted, .ok left)) :
    ∃ body, row swaptable emitted = "#define ".toList ++ swapped swaptable name ++ body ∧
      body.head?.any word = false ∧ (body.head? = some '(' ↔ rest.head? = some '(') := by
  obtain ⟨line_s, inside⟩ := collapse_clean clean cleanLines collapsed
  obtain ⟨body, rfl, shape⟩ := define.handed line_s (fun l mem => cleanLines l (inside.subset mem))
    collapsed uncommented run
  refine ⟨_, row_define names define.name body, ?_⟩
  rcases shape with ⟨blank, pieces, only, rfl⟩ | ⟨rfl, rfl⟩ | ⟨dark, some, p, later, rfl, head⟩
  · have spaced := @write_spaced swaptable pieces only
    obtain ⟨c, rest, rfl⟩ : ∃ c t, rest = c :: t := by
      cases rest with
      | nil => cases blank
      | cons c rest => exact ⟨c, rest, rfl⟩
    have apart : c ≠ '(' := by
      rintro rfl
      cases blank
    generalize write swaptable _ _ = texts at spaced ⊢
    cases head : texts.flatten.head? with
    | none => simp [apart]
    | some d =>
      rw [head] at spaced
      obtain rfl : d = ' ' := spaced
      exact ⟨rfl, by simp [apart]⟩
  · simp [write]
  · obtain ⟨c, rest, rfl⟩ := List.exists_cons_of_ne_nil some
    rw [write_joined names head (by simpa using define.ends)]
    exact ⟨define.ends, Iff.rfl⟩

theorem foo_kind_kept : ∃ body,
    row renamed (processPreprocessorDirective ["x".toList] "#define foo( x ) \\".toList).1 =
        "#define ".toList ++ swapped renamed "foo".toList ++ body ∧
      body.head?.any word = false ∧ (body.head? = some '(' ↔ "( x ) x".toList.head? = some '(') :=
  have collapsed : collapseContinuations "#define foo( x ) \\".toList ["x".toList] =
      .ok ("#define foo( x ) x".toList, []) := by decide
  macro_kind_kept renamed_identifiers (by decide) (by decide) collapsed
    ⟨⟨[], [], " ".toList, rfl, List.all_eq_true.mp rfl, List.all_eq_true.mp rfl,
      List.all_eq_true.mp rfl, by decide⟩, ⟨rfl, by decide⟩, rfl⟩
    rfl (Prod.ext rfl (by decide +kernel : _ = Except.ok []))

-- A comment behind the name is dropped without a trace, and the macro gets a parameter.
example : row renamed (processPreprocessorDirective [] "#define foo/* x */(y) z".toList).1 =
    "#define a(y)z".toList := by
  decide +kernel

end Macros

end PrimeMover.Cruncher
