import PrimeMover.Readings

/-! The tokens of what ccruncher writes. -/
namespace PrimeMover.Cruncher
open LuaPattern CTokens

/-- What is written of some texts without a map. -/
theorem write_tight (P : List LuaString) (prev : Bool) :
    (write [] ⟨false, false, prev, true⟩ (P.map .emit)).flatten = tight prev P := by
  induction P generalizing prev with
  | nil => rfl
  | cons p P ih =>
    have here : emit [] ⟨false, false, prev, true⟩ p =
        ((if prev && startsWord p then [['\n']] else []) ++ [p],
          ⟨false, false, endsWord p, true⟩) := by
      cases starts : p.head?.any word <;> cases prev <;>
        simp [emit, startsWord, endsWord, starts]
    rw [List.map_cons, write, here]
    simp only [List.flatten_append, ih, tight]
    cases prev && startsWord p <;> simp

theorem written_tight (P : List LuaString) :
    written [] (P.map .emit) = tight false P ++ ['\n'] := by
  rw [written, Writer.start, write_tight]

/-- A text without its line breaks. -/
def dark (t : LuaString) : LuaString := t.filter (· != '\n')

theorem dark_append (s t : LuaString) : dark (s ++ t) = dark s ++ dark t :=
  List.filter_append s t

theorem dark_line {p : LuaString} (line : '\n' ∉ p) : dark p = p := by
  rw [dark, List.filter_eq_self]
  intro c mem
  exact bne_iff_ne.mpr fun same => line (same ▸ mem)

theorem dark_suffix {s t : LuaString} (inside : s <:+ t) : (dark s).length ≤ (dark t).length :=
  (inside.sublist.filter _).length_le

theorem dark_rejoin {parts : List (Bool × LuaString)}
    (lines : ∀ p ∈ parts.map Prod.snd, '\n' ∉ p) (prev : Bool) :
    dark (rejoin prev parts) = (parts.map Prod.snd).flatten := by
  induction parts generalizing prev with
  | nil => rfl
  | cons e parts ih =>
    obtain ⟨gap, p⟩ := e
    rw [rejoin, dark_append, dark_append, dark_line (lines p List.mem_cons_self),
      ih (fun q mem => lines q (List.mem_cons_of_mem p mem))]
    split <;> rfl

theorem dark_tight {P : List LuaString} (lines : ∀ p ∈ P, '\n' ∉ p) (prev : Bool) :
    dark (tight prev P) = P.flatten := by
  induction P generalizing prev with
  | nil => rfl
  | cons p P ih =>
    rw [tight, dark_append, dark_append, dark_line (lines p List.mem_cons_self),
      ih (fun q mem => lines q (List.mem_cons_of_mem p mem))]
    split <;> rfl

theorem Passes.line {m : Mode} {p x : LuaString} (passes : Passes m p x) : '\n' ∉ p := by
  induction passes with
  | nil x => exact List.not_mem_nil
  | cons line _ _ _ _ ih =>
    rw [List.mem_cons, not_or]
    exact ⟨line.symm, ih⟩

theorem Laid.solid {gap : Bool} {parts : List (Bool × LuaString)} {t : LuaString}
    (laid : Laid gap parts t) :
    ∀ p ∈ parts.map Prod.snd, p ≠ [] ∧ p.head?.any white = false ∧ '\n' ∉ p := by
  induction laid with
  | nil => exact fun p mem => by cases mem
  | skip _ _ ih => exact ih
  | part nonempty passes _ ih =>
    intro p mem
    rcases List.mem_cons.mp mem with rfl | later
    · refine ⟨nonempty, ?_, passes.line⟩
      cases passes with
      | nil => rfl
      | cons _ dark _ _ _ => exact dark rfl
    · exact ih p later

theorem quoteEnds_line {sep : Char} (other : sep ≠ '\n') {t : LuaString} {n : Nat}
    (ends : QuoteEnds sep t n) : '\n' ∉ t.take n := by
  induction ends with
  | close t => simpa using other.symm
  | escape _ line _ ih => simpa using ⟨line.symm, ih⟩
  | plain _ line _ _ ih => simpa using ⟨line.symm, ih⟩

theorem literal_line {t : LuaString} {n : Nat} (found : literal t = some n) :
    '\n' ∉ t.take n := by
  obtain ⟨c, u, k, rfl, either, close, rfl⟩ := literal_quoteEnd found
  have other : c ≠ '\n' := by
    rcases either with rfl | rfl <;> decide
  rw [List.take_succ_cons, List.mem_cons, not_or]
  exact ⟨other.symm, quoteEnds_line other (quoteEnds_of close)⟩

theorem operators_line : ∀ p ∈ operators2 ++ operators3, '\n' ∉ p := by decide

/-- No token goes over the end of a line, in whatever text. -/
theorem munch_line {c : Char} {t : LuaString} (solid : white c = false) :
    '\n' ∉ (c :: t).take (munch (c :: t)) := by
  have line := (white_line solid).symm
  rw [munch]
  split
  · rename_i first
    cases found : prefixed c t with
    | none => exact (token_word first t).passes.line
    | some n =>
      rw [prefixed] at found
      split at found
      · simp only [List.take_succ_cons, List.mem_cons, not_or]
        exact ⟨line, literal_line found⟩
      · cases found
  · split
    · rename_i starts
      exact (token_number starts).passes.line
    · cases found : literal (c :: t) with
      | some n => exact literal_line found
      | none =>
        rcases operatorLength_cases (c :: t) with ⟨same, three⟩ | ⟨same, two⟩ | same
        · simp only [same]
          exact operators_line _ (List.mem_append_right _ three)
        · simp only [same]
          exact operators_line _ (List.mem_append_left _ two)
        · simpa [same] using line

/-- Texts with nothing but line breaks between them. -/
inductive Spaced : List LuaString → LuaString → Prop
  | nil : Spaced [] []
  | line {ps : List LuaString} {t : LuaString} (rest : Spaced ps t) : Spaced ps ('\n' :: t)
  | part {p : LuaString} {ps : List LuaString} {t : LuaString} (nonempty : p ≠ [])
      (line : '\n' ∉ p) (rest : Spaced ps t) : Spaced (p :: ps) (p ++ t)

theorem afterComment_suffix (t : LuaString) : afterComment t <:+ t := by
  induction t with
  | nil => exact List.suffix_rfl
  | cons c t ih =>
    rw [afterComment]
    split
    · exact (List.tail_suffix t).trans (List.suffix_cons c t)
    · exact ih.trans (List.suffix_cons c t)

/-- The tokens hold at most the characters of the text, and all of them only if nothing but line
breaks stands between them. -/
theorem lex_dark (t : LuaString) : (lex t).flatten.length ≤ (dark t).length ∧
    ((lex t).flatten.length = (dark t).length → Spaced (lex t) t) := by
  induction n : t.length using Nat.strong_induction_on generalizing t with
  | _ n ih =>
    subst n
    cases t with
    | nil => exact ⟨Nat.le_refl 0, fun _ => .nil⟩
    | cons c t =>
      cases blank : white c with
      | true =>
        obtain ⟨fewer, spaced⟩ := ih t.length (Nat.lt_succ_self _) t rfl
        rw [lex_white blank]
        by_cases line : c = '\n'
        · subst line
          exact ⟨fewer, fun same => .line (spaced same)⟩
        · have counted : dark (c :: t) = c :: dark t :=
            List.filter_cons_of_pos (bne_iff_ne.mpr line)
          rw [counted, List.length_cons]
          exact ⟨Nat.le_succ_of_le fewer, fun same => by omega⟩
      | false =>
        have counted : dark (c :: t) = c :: dark t :=
          List.filter_cons_of_pos (bne_iff_ne.mpr (white_line blank))
        cases opens : opensComment (c :: t) with
        | true =>
          have inside := (afterComment_suffix t.tail).trans (List.tail_suffix t)
          obtain ⟨fewer, _⟩ := ih (afterComment t.tail).length
            (Nat.lt_succ_of_le inside.length_le) _ rfl
          have less := dark_suffix inside
          rw [lex_opened blank opens, counted, List.length_cons]
          constructor
          · omega
          · intro same
            omega
        | false =>
          have bounds := munch_bounds c t
          have line := munch_line (t := t) blank
          have shape := List.take_append_drop (munch (c :: t)) (c :: t)
          obtain ⟨fewer, spaced⟩ := ih ((c :: t).drop (munch (c :: t))).length
            (by rw [List.length_drop]; omega) _ rfl
          have total : (dark (c :: t)).length = ((c :: t).take (munch (c :: t))).length +
              (dark ((c :: t).drop (munch (c :: t)))).length := by
            rw [← dark_line line, ← List.length_append, ← dark_append, shape]
          rw [lex_token blank opens, List.flatten_cons, List.length_append, total]
          constructor
          · omega
          · intro same
            have nonempty : (c :: t).take (munch (c :: t)) ≠ [] := by
              rw [Ne, List.take_eq_nil_iff]
              rintro (none | none)
              · omega
              · cases none
            have part := Spaced.part nonempty line (spaced (by omega))
            rwa [shape] at part

/-- How many line breaks stand directly between two words. -/
def wordBreaks : Bool → LuaString → Nat
  | _, [] => 0
  | prev, c :: t => (if c == '\n' && prev && startsWord t then 1 else 0) + wordBreaks (word c) t

/-- How often one text ends in a word and the next starts with one. -/
def joints : Bool → List LuaString → Nat
  | _, [] => 0
  | prev, p :: ps => (if prev && startsWord p then 1 else 0) + joints (endsWord p) ps

theorem wordBreaks_part {p : LuaString} (nonempty : p ≠ []) (line : '\n' ∉ p) (prev : Bool)
    (x : LuaString) : wordBreaks prev (p ++ x) = wordBreaks (endsWord p) x := by
  induction p generalizing prev with
  | nil => exact absurd rfl nonempty
  | cons c p ih =>
    rw [List.mem_cons, not_or] at line
    have no_break : (c == '\n') = false := beq_eq_false_iff_ne.mpr (Ne.symm line.1)
    rw [List.cons_append, wordBreaks, no_break, Bool.false_and, Bool.false_and,
      if_neg (by decide), Nat.zero_add]
    by_cases empty : p = []
    · subst empty
      rfl
    · rw [ih empty line.2, endsWord_cons c p empty]

theorem startsWord_append {p : LuaString} (nonempty : p ≠ []) (x : LuaString) :
    startsWord (p ++ x) = startsWord p := by
  obtain ⟨c, p, rfl⟩ := List.exists_cons_of_ne_nil nonempty
  rfl

theorem Spaced.joints_succ {ps : List LuaString} {t : LuaString} (spaced : Spaced ps t)
    (starts : startsWord t = true) : joints true ps = 1 + joints false ps := by
  cases spaced with
  | nil => cases starts
  | line => cases starts
  | part nonempty _ _ =>
    rw [startsWord_append nonempty] at starts
    simp [joints, starts]

theorem joints_mono (prev : Bool) (ps : List LuaString) : joints false ps ≤ joints prev ps := by
  cases ps with
  | nil => exact Nat.le_refl 0
  | cons p ps =>
    simp only [joints, Bool.false_and, Bool.false_eq_true, if_false]
    omega

theorem Spaced.wordBreaks_le {ps : List LuaString} {t : LuaString} (spaced : Spaced ps t)
    (prev : Bool) : wordBreaks prev t ≤ joints prev ps := by
  induction spaced generalizing prev with
  | nil => exact Nat.le_refl 0
  | @line ps t rest ih =>
    have later : wordBreaks false t ≤ joints false ps := ih false
    have step : wordBreaks prev ('\n' :: t) =
        (if prev && startsWord t then 1 else 0) + wordBreaks false t := rfl
    rw [step]
    split
    · rename_i both
      rw [Bool.and_eq_true] at both
      rw [both.1, rest.joints_succ both.2]
      omega
    · have := joints_mono prev ps
      omega
  | part nonempty line _ ih =>
    rw [wordBreaks_part nonempty line, joints]
    exact Nat.le_add_left_of_le (ih _)

theorem wordBreaks_tight {P : List LuaString} (parts : ∀ p ∈ P, p ≠ [] ∧ '\n' ∉ p) (prev : Bool) :
    wordBreaks prev (tight prev P ++ ['\n']) = joints prev P := by
  induction P generalizing prev with
  | nil => cases prev <;> rfl
  | cons p P ih =>
    obtain ⟨nonempty, line⟩ := parts p List.mem_cons_self
    have later := ih (fun q mem => parts q (List.mem_cons_of_mem p mem)) (endsWord p)
    rw [tight, joints, ← later, List.append_assoc, List.append_assoc]
    split
    · rename_i both
      rw [Bool.and_eq_true] at both
      have starts : startsWord (p ++ (tight (endsWord p) P ++ ['\n'])) = true := by
        rw [startsWord_append nonempty, both.2]
      rw [List.singleton_append, wordBreaks, starts, both.1, wordBreaks_part nonempty line]
      rfl
    · rw [List.nil_append, wordBreaks_part nonempty line, Nat.zero_add]

theorem length_tight (P : List LuaString) (prev : Bool) :
    (tight prev P).length = P.flatten.length + joints prev P := by
  induction P generalizing prev with
  | nil => rfl
  | cons p P ih =>
    rw [tight, joints, List.length_append, List.length_append, ih, List.flatten_cons,
      List.length_append]
    split <;> simp <;> omega

/-- Each of some texts, directly in front of the next ones but for a line break between two
words, is the longest token there and opens no comment. -/
def settled : List LuaString → Bool
  | [] => true
  | p :: ps => munch (tight false (p :: ps) ++ ['\n']) == p.length &&
      !opensComment (tight false (p :: ps) ++ ['\n']) && settled ps

theorem settled_cons (p : LuaString) (ps : List LuaString) : settled (p :: ps) = true ↔
    munch (tight false (p :: ps) ++ ['\n']) = p.length ∧
      opensComment (tight false (p :: ps) ++ ['\n']) = false ∧ settled ps = true := by
  simp [settled, and_assoc]

theorem tight_flag (prev : Bool) (ps : List LuaString) :
    lex (tight prev ps ++ ['\n']) = lex (tight false ps ++ ['\n']) := by
  cases ps with
  | nil => rfl
  | cons p ps =>
    rw [tight, tight]
    split
    · exact lex_white rfl _
    · rfl

theorem settled_iff {ps : List LuaString}
    (parts : ∀ p ∈ ps, p ≠ [] ∧ p.head?.any white = false ∧ '\n' ∉ p) :
    lex (tight false ps ++ ['\n']) = ps ↔ settled ps = true := by
  induction ps with
  | nil => exact ⟨fun _ => rfl, fun _ => rfl⟩
  | cons p ps ih =>
    have later := ih (fun q mem => parts q (List.mem_cons_of_mem p mem))
    obtain ⟨nonempty, solid, line⟩ := parts p List.mem_cons_self
    have shape : tight false (p :: ps) ++ ['\n'] = p ++ (tight (endsWord p) ps ++ ['\n']) := by
      simp [tight]
    have counted : dark (tight false (p :: ps) ++ ['\n']) = (p :: ps).flatten := by
      rw [dark_append, dark_tight (fun q mem => (parts q mem).2.2)]
      exact List.append_nil _
    rw [settled_cons, shape]
    rw [shape] at counted
    obtain ⟨c, p, rfl⟩ := List.exists_cons_of_ne_nil nonempty
    generalize rest : tight (endsWord (c :: p)) ps ++ ['\n'] = x at counted ⊢
    have again : lex x = ps ↔ settled ps = true := by
      rw [← rest, tight_flag]
      exact later
    rw [List.cons_append] at counted ⊢
    cases opens : opensComment (c :: (p ++ x)) with
    | true =>
      constructor
      · intro same
        have less := (lex_dark (afterComment (p ++ x).tail)).1
        have fewer := dark_suffix ((afterComment_suffix (p ++ x).tail).trans
          (List.tail_suffix (p ++ x)))
        have one : dark (c :: (p ++ x)) = c :: dark (p ++ x) :=
          List.filter_cons_of_pos (bne_iff_ne.mpr (white_line solid))
        rw [lex_opened solid opens] at same
        rw [same, ← counted, one, List.length_cons] at less
        omega
      · rintro ⟨_, impossible, _⟩
        cases impossible
    | false =>
      have bounds := munch_bounds c (p ++ x)
      rw [lex_token solid opens]
      constructor
      · intro same
        obtain ⟨first, behind⟩ := List.cons.inj same
        have length := congrArg List.length first
        rw [List.length_take, Nat.min_eq_left bounds.2] at length
        refine ⟨length, rfl, again.mp ?_⟩
        rw [← behind, length, ← List.cons_append, List.drop_left]
      · rintro ⟨length, _, settled⟩
        rw [length, ← List.cons_append, List.take_left, List.drop_left, again.mpr settled]

/-- Pieces keep the tokens of a text. -/
theorem pieces_keep {parts tokens : List (Bool × LuaString)} {t : LuaString}
    (pieced : Pieced false parts t) (texts : tokens.map Prod.snd = lex t)
    (laid : Laid false tokens t) (whole : Whole false tokens) :
    lex (tight false (parts.map Prod.snd) ++ ['\n']) = lex t ↔
      untorn t = true ∧ settled (lex t) = true := by
  have solid := laid.solid
  have solid_parts := pieced.laid.solid
  have same : rejoin false parts = rejoin false tokens := by
    rw [← pieced.laid.squeeze, ← laid.squeeze]
  have letters : (parts.map Prod.snd).flatten = (lex t).flatten := by
    rw [← texts, ← dark_rejoin (fun p mem => (solid_parts p mem).2.2) false, same,
      dark_rejoin (fun p mem => (solid p mem).2.2) false]
  rw [rejoin_whole whole, texts] at same
  rw [texts] at solid
  have entire : Whole false parts ↔ untorn t = true := by
    rw [pieced.whole, untorn]
    exact and_iff_right (fun no => by cases no)
  have apart := settled_iff solid
  constructor
  · intro kept
    have counted : dark (tight false (parts.map Prod.snd) ++ ['\n']) = (lex t).flatten := by
      rw [dark_append, dark_tight (fun p mem => (solid_parts p mem).2.2), letters]
      exact List.append_nil _
    have spaced := (lex_dark (tight false (parts.map Prod.snd) ++ ['\n'])).2 (by
      rw [kept, counted])
    rw [kept] at spaced
    have breaks := spaced.wordBreaks_le false
    rw [wordBreaks_tight (fun p mem => ⟨(solid_parts p mem).1, (solid_parts p mem).2.2⟩)] at breaks
    obtain ⟨shorter, torn⟩ := rejoin_torn false parts
    have here := length_tight (parts.map Prod.snd) false
    have there := length_tight (lex t) false
    rw [letters] at here
    have untorn_parts := torn (by rw [same] at shorter ⊢; omega)
    rw [← rejoin_whole untorn_parts, same] at kept
    exact ⟨entire.mp untorn_parts, apart.mp kept⟩
  · rintro ⟨untorn_parts, all_settled⟩
    rw [← rejoin_whole (entire.mpr untorn_parts), same]
    exact apart.mpr all_settled

theorem tokens_kept_iff {directive : List LuaString → LuaString → Run} {source : List LuaString}
    (clean : ∀ l ∈ source, '\n' ∉ l) (free : commentFree (sourceText source) = true)
    (plain : ∀ l ∈ source, (find directivePattern l).isSome = false)
    (accepted : (crunch directive source).2 = .ok []) :
    lex (written [] (crunch directive source).1) = lex (sourceText source) ↔
      untorn (sourceText source) = true ∧ settled (lex (sourceText source)) = true := by
  obtain ⟨ordinary, undirected⟩ := undirected_text clean plain
  obtain ⟨⟨P, done⟩, run⟩ := crunched_isSome undirected
  obtain ⟨emitted, finished⟩ := @crunch_text directive _ clean ordinary _ run
  have unopened : blankFrom .code (sourceText source) = some (sourceText source) :=
    beq_iff_eq.mp free
  cases done with
  | false =>
    obtain ⟨e, failed⟩ := finished
    rw [failed] at accepted
    cases accepted
  | true =>
    obtain ⟨parts, rfl, pieced⟩ := crunched_laid unopened run false
    obtain ⟨tokens, texts, laid, whole⟩ :=
      lex_laid pieced.proper false false (fun no => by cases no)
    rw [emitted, written_tight]
    exact pieces_keep pieced texts laid whole

theorem spaced_tokens_kept : lex (written [] (crunch passedOver
      ["unsigned  i = 10UL ;".toList, "s [ i ++ ] = .5 * \"a b\" ;".toList]).1) =
    lex (sourceText ["unsigned  i = 10UL ;".toList, "s [ i ++ ] = .5 * \"a b\" ;".toList]) := by
  refine (tokens_kept_iff ?_ ?_ ?_ ?_).mpr ⟨?_, ?_⟩ <;> decide +kernel

/-- Two operators run together. -/
theorem plus_signs_fused : ¬ ∀ (directive : List LuaString → LuaString → Run)
    (source : List LuaString), (∀ l ∈ source, '\n' ∉ l) →
    commentFree (sourceText source) = true →
    (∀ l ∈ source, (find directivePattern l).isSome = false) →
    (crunch directive source).2 = .ok [] →
    lex (written [] (crunch directive source).1) = lex (sourceText source) := by
  intro all
  have same := all passedOver ["a + +b".toList] (by decide +kernel) (by decide +kernel)
    (by decide +kernel) (by decide +kernel)
  have fused : (lex (written [] (crunch passedOver ["a + +b".toList]).1)).length = 3 := by
    decide +kernel
  have apart : (lex (sourceText ["a + +b".toList])).length = 4 := by decide +kernel
  rw [← same, fused] at apart
  cases apart

end PrimeMover.Cruncher
