import PrimeMover.Cruncher

/-! The run of ccruncher, told of the text of the file instead of its lines. -/
namespace PrimeMover.Cruncher
open LuaPattern CTokens

/-- The text below a line. -/
def below (lines : List LuaString) : LuaString := lines.flatMap (fun s => '\n' :: s)

def sourceText : List LuaString → LuaString
  | [] => []
  | s :: lines => s ++ below lines

def quote (c : Char) : Bool := c == '"' || c == '\''

/-- The length of the piece at the start of a text. -/
def pieceLength (t : LuaString) : Option Nat :=
  if t.head?.any quote then literal t else firstLength piecePatterns t

theorem pieceLength_cons (c : Char) (t : LuaString) : pieceLength (c :: t) =
    if quote c then (quoteEnd c t).map (· + 1) else firstLength piecePatterns (c :: t) := by
  by_cases quoted : quote c = true
  · have head : (c :: t).head?.any quote = true := quoted
    rw [pieceLength, if_pos head, if_pos quoted, literal]
    exact if_pos quoted
  · have head : ¬ (c :: t).head?.any quote = true := quoted
    rw [pieceLength, if_neg head, if_neg quoted]

/-- What stands behind the last `*/` of the first line. -/
def lastClose : LuaString → Option LuaString
  | [] => none
  | c :: t =>
    if c == '\n' then none
    else (lastClose t).or (if c == '*' && t.head? == some '/' then some t.tail else none)

def startsDirective (t : LuaString) : Bool :=
  (t.dropWhile (fun c => white c && c != '\n')).head? == some '#'

/-- The pieces of a text and whether it is read to its end. No value is given where the run
comes to a directive. -/
def crunchFrom : Nat → LuaString → Option (List LuaString × Bool)
  | 0, _ => none
  | _ + 1, [] => some ([], true)
  | n + 1, c :: t =>
    if white c then if c == '\n' && startsDirective t then none else crunchFrom n t
    else if opensComment (c :: t) then
      match (lastClose t.tail).or (afterClose t.tail) with
      | some u => crunchFrom n u
      | none => some ([], false)
    else
      match pieceLength (c :: t) with
      | some k => (crunchFrom n ((c :: t).drop k)).map (fun r => ((c :: t).take k :: r.1, r.2))
      | none => some ([], false)

def crunched (t : LuaString) : Option (List LuaString × Bool) := crunchFrom (t.length + 1) t

theorem opensComment_iff (t : LuaString) : opensComment t = true ↔ ∃ u, t = '/' :: '*' :: u := by
  have opening : "/*".toList = ['/', '*'] := rfl
  rw [opensComment, beq_iff_eq, opening]
  constructor
  · intro same
    match t, same with
    | c :: d :: u, same =>
      simp only [List.take_succ_cons, List.take_zero, List.cons.injEq, and_true] at same
      obtain ⟨rfl, rfl⟩ := same
      exact ⟨u, rfl⟩
  · rintro ⟨u, rfl⟩
    rfl

theorem afterClose_suffix {t u : LuaString} (found : afterClose t = some u) : u <:+ t := by
  induction t with
  | nil => cases found
  | cons c t ih =>
    rw [afterClose] at found
    split at found
    · cases found
      exact (List.tail_suffix t).trans (List.suffix_cons c t)
    · exact (ih found).trans (List.suffix_cons c t)

theorem lastClose_suffix {t u : LuaString} (found : lastClose t = some u) : u <:+ t := by
  induction t with
  | nil => cases found
  | cons c t ih =>
    rw [lastClose] at found
    split at found
    · cases found
    · rcases Option.or_eq_some_iff.mp found with later | ⟨_, here⟩
      · exact (ih later).trans (List.suffix_cons c t)
      · split at here
        · cases here
          exact (List.tail_suffix t).trans (List.suffix_cons c t)
        · cases here

theorem closing_shorter {t u : LuaString} (found : (lastClose t).or (afterClose t) = some u) :
    u.length ≤ t.length := by
  rcases Option.or_eq_some_iff.mp found with last | ⟨_, first⟩
  · exact (lastClose_suffix last).length_le
  · exact (afterClose_suffix first).length_le

theorem matchLength_pos {items : List Item} {t : LuaString} {n : Nat}
    (takes : items.any Item.takes = true) (found : matchLength items t = some n) : 0 < n := by
  obtain ⟨⟨r, cs⟩, matched, rfl⟩ := Option.map_eq_some_iff.mp found
  have shorter := matchItems_shorter takes matched
  simp only
  omega

theorem firstLength_pos {patterns : List (List Item)} {t : LuaString} {n : Nat}
    (takes : ∀ items ∈ patterns, items.any Item.takes = true)
    (found : firstLength patterns t = some n) : 0 < n := by
  induction patterns with
  | nil => cases found
  | cons items more ih =>
    rcases Option.or_eq_some_iff.mp found with first | ⟨_, later⟩
    · exact matchLength_pos (takes items List.mem_cons_self) first
    · exact ih (fun i mem => takes i (List.mem_cons_of_mem _ mem)) later

theorem pieceLength_pos {t : LuaString} {n : Nat} (found : pieceLength t = some n) : 0 < n := by
  rw [pieceLength] at found
  split at found
  · cases t with
    | nil => cases found
    | cons c t =>
      rw [literal] at found
      split at found
      · obtain ⟨k, _, rfl⟩ := Option.map_eq_some_iff.mp found
        exact Nat.succ_pos k
      · cases found
  · exact firstLength_pos (by decide) found

/-- The fuel does not matter as long as it exceeds the text. -/
theorem crunchFrom_fuel (n : Nat) (t : LuaString) (enough : t.length < n) :
    crunchFrom n t = crunched t := by
  suffices general : ∀ n m (t : LuaString), t.length < n → t.length < m →
      crunchFrom n t = crunchFrom m t from
    general n (t.length + 1) t enough (Nat.lt_succ_self _)
  intro n
  induction n with
  | zero => intro m t less; omega
  | succ n ih =>
    intro m t less other
    cases m with
    | zero => omega
    | succ m =>
      cases t with
      | nil => rfl
      | cons c t =>
        simp only [List.length_cons] at less other
        have tail := ih m t (by omega) (by omega)
        rw [crunchFrom, crunchFrom]
        split
        · rw [tail]
        · split
          · cases close : (lastClose t.tail).or (afterClose t.tail) with
            | none => rfl
            | some u =>
              have shorter := closing_shorter close
              have tails := List.length_tail (l := t)
              exact ih m u (by omega) (by omega)
          · cases piece : pieceLength (c :: t) with
            | none => rfl
            | some k =>
              have positive := pieceLength_pos piece
              have rest := ih m ((c :: t).drop k) (by simp; omega) (by simp; omega)
              simp only [rest]

theorem crunched_white {c : Char} (blank : white c = true) (t : LuaString)
    (free : c = '\n' → startsDirective t = false) : crunched (c :: t) = crunched t := by
  have same : (c == '\n' && startsDirective t) = false := by
    cases line : c == '\n' with
    | false => rfl
    | true => rw [free (beq_iff_eq.mp line), Bool.and_false]
  rw [crunched, crunchFrom, if_pos blank, same]
  exact crunchFrom_fuel _ t (Nat.lt_succ_self _)

theorem crunched_directive {t : LuaString} (directive : startsDirective t = true) :
    crunched ('\n' :: t) = none := by
  rw [crunched, crunchFrom, if_pos (show white '\n' = true from rfl), directive]
  rfl

theorem crunched_comment (t : LuaString) : crunched ('/' :: '*' :: t) =
    match (lastClose t).or (afterClose t) with
    | some u => crunched u
    | none => some ([], false) := by
  have opens : opensComment ('/' :: '*' :: t) = true := (opensComment_iff _).mpr ⟨t, rfl⟩
  rw [crunched, crunchFrom, if_neg (by decide), if_pos opens, List.tail_cons]
  cases close : (lastClose t).or (afterClose t) with
  | none => rfl
  | some u =>
    have shorter := closing_shorter close
    exact crunchFrom_fuel _ u (by simp; omega)

/-- A text that starts with no white space and no comment. -/
def Solid (t : LuaString) : Prop := t.head?.any white = false ∧ opensComment t = false

theorem crunched_solid {t : LuaString} (solid : Solid t) (nonempty : t ≠ []) : crunched t =
    match pieceLength t with
    | some k => (crunched (t.drop k)).map (fun r => (t.take k :: r.1, r.2))
    | none => some ([], false) := by
  obtain ⟨c, t, rfl⟩ := List.exists_cons_of_ne_nil nonempty
  have dark : ¬ white c = true := fun blank => by
    have := solid.1
    simp [blank] at this
  rw [crunched, crunchFrom, if_neg dark, solid.2]
  simp only [Bool.false_eq_true, if_false]
  cases piece : pieceLength (c :: t) with
  | none => rfl
  | some k =>
    have positive := pieceLength_pos piece
    have rest := crunchFrom_fuel (c :: t).length ((c :: t).drop k) (by simp; omega)
    simp only [rest]

theorem restBlank_isSome (t : LuaString) :
    (matchItems restBlank t []).isSome = t.all white := by
  induction t with
  | nil => rfl
  | cons c t ih =>
    have stuck : matchItems [.atEnd] (c :: t) [] = none := by simp [matchItems]
    simp only [restBlank, matchItems] at ih stuck ⊢
    simp only [maxExpand, stuck, List.all_cons]
    cases white c with
    | false => rfl
    | true =>
      simp only [if_true, Bool.true_and, ← ih]
      cases maxExpand white _ t <;> rfl

theorem plus_white {c : Char} (blank : white c = true) (t : LuaString) :
    matchLength [.plus white] (c :: t) = some ((c :: t).length - (t.dropWhile white).length) := by
  have rest := match_rest white t []
  rw [matchItems] at rest
  rw [matchLength, matchItems]
  simp only [blank, if_true, rest, Option.map_some]

theorem plus_dark {t : LuaString} (dark : t.head?.any white = false) :
    matchLength [.plus white] t = none := by
  cases t with
  | nil => rfl
  | cons c t =>
    have no : white c = false := by simpa using dark
    simp [matchLength, matchItems, no]

theorem match_lastClose {t : LuaString} (clean : '\n' ∉ t) :
    maxExpand (fun _ => true) (fun s => matchItems [.one (· == '*'), .one (· == '/'), .star white]
      s []) t = (lastClose t).map (fun u => (u.dropWhile white, [])) := by
  induction t with
  | nil => rfl
  | cons c t ih =>
    have line : (c == '\n') = false := beq_eq_false_iff_ne.mpr (List.ne_of_not_mem_cons clean).symm
    have here : matchItems [.one (· == '*'), .one (· == '/'), .star white] (c :: t) [] =
        (if c == '*' && t.head? == some '/' then some t.tail else none).map
          (fun u => (u.dropWhile white, [])) := by
      rw [matchItems]
      cases c == '*' with
      | false => rfl
      | true =>
        cases t with
        | nil => rfl
        | cons d t =>
          rw [matchItems]
          by_cases slash : d = '/'
          · subst slash
            simpa using match_rest white t []
          · simp [slash]
    rw [maxExpand, if_pos rfl, ih (List.not_mem_of_not_mem_cons clean), here, lastClose, line]
    cases lastClose t <;> rfl

theorem match_closedComment {t : LuaString} (clean : '\n' ∉ t) :
    matchItems closedComment ('/' :: '*' :: t) [] =
      (lastClose t).map (fun u => (u.dropWhile white, [])) := by
  rw [← match_lastClose clean]
  rfl

theorem closedComment_solid {t : LuaString} (solid : opensComment t = false) :
    matchItems closedComment t [] = none ∧ matchItems openComment t [] = none := by
  match t with
  | [] => exact ⟨rfl, rfl⟩
  | [c] => cases slash : c == '/' <;> simp [closedComment, openComment, matchItems, slash]
  | c :: d :: t =>
    cases slash : c == '/' with
    | false => simp [closedComment, openComment, matchItems, slash]
    | true =>
      have star : (d == '*') = false := by
        rw [beq_eq_false_iff_ne]
        rintro rfl
        rw [beq_iff_eq.mp slash, (opensComment_iff _).mpr ⟨t, rfl⟩] at solid
        cases solid
      simp [closedComment, openComment, matchItems, slash, star]

section
variable {sep : Char}

theorem quoteEnd_run {run : LuaString}
    (ordinary : ∀ c ∈ run, c ≠ sep ∧ c ≠ '\n' ∧ c ≠ '\\') (t : LuaString) :
    quoteEnd sep (run ++ t) = (quoteEnd sep t).map (run.length + ·) := by
  induction run with
  | nil => simp
  | cons c run ih =>
    obtain ⟨other, line, plain⟩ := ordinary c List.mem_cons_self
    rw [List.cons_append, quoteEnd_cons other line plain,
      ih (fun d mem => ordinary d (List.mem_cons_of_mem c mem))]
    cases quoteEnd sep t with
    | none => rfl
    | some n => simp [Nat.add_right_comm]

theorem stringPart_stop {run : LuaString} {c : Char} (inner : ∀ d ∈ run, ordinary sep d = true)
    (stop : ordinary sep c = false) (t : LuaString) :
    matchItems (stringPart sep) (run ++ c :: t) [] = some (t, [.closed run, .closed [c]]) := by
  refine match_capture [] run inner stop ?_
  simp [matchItems, closeLast]

theorem stringPart_end {run : LuaString} {c : Char} (inner : ∀ d ∈ run, ordinary sep d = true)
    (last : ordinary sep c = true) :
    matchItems (stringPart sep) (run ++ [c]) [] = some ([], [.closed run, .closed [c]]) := by
  rw [stringPart, matchItems, matchItems]
  apply maxExpand_last _ _ run [] c _ inner last
  · intro a b split
    obtain ⟨rfl, rfl⟩ := List.append_eq_nil_iff.mp split.symm
    simp [matchItems]
  · simp [matchItems, closeLast_single, closeLast]

theorem stringPart_nil : matchItems (stringPart sep) [] [] = none := by
  simp [stringPart, matchItems, maxExpand]

theorem ordinary_iff (c : Char) : ordinary sep c = true ↔ c ≠ '\\' ∧ c ≠ sep := by
  simp [ordinary]

/-- A text is a run of ordinary characters up to a quote or a backslash. -/
theorem ordinary_split (t : LuaString) : ∃ run u, t = run ++ u ∧
    (∀ d ∈ run, ordinary sep d = true) ∧ ∀ c v, u = c :: v → ordinary sep c = false := by
  refine ⟨t.takeWhile (ordinary sep), t.dropWhile (ordinary sep),
    List.takeWhile_append_dropWhile.symm, fun d mem => List.mem_takeWhile_imp mem, ?_⟩
  intro c v rest
  have head := List.head?_dropWhile_not (ordinary sep) t
  rw [rest] at head
  simpa using head

/-- The loop finds the end of a literal on its line. -/
theorem stringLoop_eq (fuel : Nat) (t : LuaString) (clean : '\n' ∉ t)
    (enough : t.length < fuel) :
    stringLoop sep fuel t = (quoteEnd sep t).map (fun n => (t.take n, t.drop n)) := by
  induction fuel generalizing t with
  | zero => omega
  | succ fuel ih =>
    obtain ⟨run, u, rfl, inner, stop⟩ := @ordinary_split sep t
    have within : ∀ c ∈ run, c ≠ sep ∧ c ≠ '\n' ∧ c ≠ '\\' := by
      intro c mem
      obtain ⟨plain, other⟩ := (ordinary_iff c).mp (inner c mem)
      exact ⟨other, fun same => clean (List.mem_append_left _ (same ▸ mem)), plain⟩
    rw [quoteEnd_run within]
    cases u with
    | nil =>
      rw [List.append_nil]
      have open_end : quoteEnd sep [] = none := rfl
      rw [open_end]
      rcases List.eq_nil_or_concat run with rfl | ⟨front, c, rfl⟩
      · rw [stringLoop, stringPart_nil]
        rfl
      · have last := inner c (by simp)
        have before : ∀ d ∈ front, ordinary sep d = true := fun d mem => inner d (by simp [mem])
        obtain ⟨plain, other⟩ := (ordinary_iff c).mp last
        have rest : stringLoop sep fuel [] = none := by
          rw [ih [] (by simp) (by simp at enough ⊢; omega)]
          rfl
        rw [stringLoop, List.concat_eq_append, stringPart_end before last]
        simp [Capture.text, plain, other, rest]
    | cons c v =>
      rw [stringLoop, stringPart_stop inner (stop c v rfl)]
      by_cases closes : c = sep
      · subst closes
        have here : quoteEnd c (c :: v) = some 1 := by cases v <;> simp [quoteEnd]
        simp [Capture.text, here, List.take_length_add_append, List.drop_length_add_append]
      · have backslash : c = '\\' := by
          by_contra plain
          exact absurd ((ordinary_iff c).mpr ⟨plain, closes⟩) (by simp [stop c v rfl])
        subst backslash
        cases v with
        | nil =>
          have rest : stringLoop sep fuel [] = none := by
            rw [ih [] (by simp) (by simp at enough ⊢; omega)]
            rfl
          simp [Capture.text, quoteEnd, closes, rest]
        | cons d w =>
          have line : d ≠ '\n' := fun same => clean (by simp [same])
          have rest := ih w (fun mem => clean (by simp [mem]))
            (by simp only [List.length_append, List.length_cons] at enough; omega)
          simp only [Capture.text, List.cons.injEq, closes, and_true, if_false, if_true,
            List.drop_succ_cons, List.drop_zero, List.take_succ_cons, List.take_zero, rest]
          simp only [quoteEnd, beq_iff_eq, closes, line, if_false]
          cases quoteEnd sep w with
          | none => rfl
          | some n => simp [List.take_length_add_append, List.drop_length_add_append]

end

/-- The characters that can go on in a piece of more than one character. -/
def joins (c : Char) : Bool := word c || c == '.' || c == '+' || c == '-'

theorem hex_word {c : Char} (digit : hex c = true) : word c = true := by
  have alnum : c.isAlphanum = true := by
    rw [hex, Bool.or_eq_true, Bool.or_eq_true, decide_eq_true_eq, decide_eq_true_eq] at digit
    rw [Char.isAlphanum, Bool.or_eq_true]
    rcases digit with (digit | ⟨low, high⟩) | ⟨low, high⟩
    · exact .inr digit
    · have upper : c.val ≤ 'z'.val := UInt32.le_trans high (by decide)
      have lower : c.isLower = true := by
        change (decide ('a'.val ≤ c.val) && decide (c.val ≤ 'z'.val)) = true
        rw [Bool.and_eq_true]
        exact ⟨decide_eq_true low, decide_eq_true upper⟩
      exact .inl (Bool.or_eq_true_iff.mpr (.inr lower))
    · have top : c.val ≤ 'Z'.val := UInt32.le_trans high (by decide)
      have upper : c.isUpper = true := by
        change decide (c.val ≥ 'A'.val ∧ c.val ≤ 'Z'.val) = true
        exact decide_eq_true ⟨low, top⟩
      exact .inl (Bool.or_eq_true_iff.mpr (.inl upper))
  rw [word, alnum]
  rfl

/-- The patterns of the pieces of more than one character. -/
theorem accepts_joins : ∀ items ∈ piecePatterns.dropLast, ∀ item ∈ items, item.plain = true ∧
    ∀ c, item.accepts c = true → joins c = true := by
  have of_word : ∀ c, word c = true → joins c = true := fun c h => by simp [joins, h]
  have of_letter : ∀ c, letter c = true → joins c = true := fun c h => of_word c (letter_word h)
  have of_digit : ∀ c, c.isDigit = true → joins c = true := fun c h => of_word c (digit_word h)
  have of_hex : ∀ c, hex c = true → joins c = true := fun c h => of_word c (hex_word h)
  simp only [piecePatterns, List.dropLast_cons_of_ne_nil, ne_eq, reduceCtorEq, not_false_eq_true,
    List.dropLast_singleton, List.forall_mem_cons, List.not_mem_nil, false_imp_iff, implies_true,
    and_true, Item.plain, true_and, Item.accepts, Bool.or_eq_true, beq_iff_eq]
  refine ⟨⟨of_letter, of_word⟩, ⟨?_, ?_, of_hex⟩, ⟨of_digit, ?_⟩,
    ⟨of_digit, ?_, of_digit, ?_, ?_, of_digit⟩, of_digit, ?_, of_digit⟩
  · rintro c rfl
    rfl
  · rintro c (rfl | rfl) <;> rfl
  · rintro c (((rfl | rfl) | rfl) | rfl) <;> rfl
  · rintro c rfl
    rfl
  · rintro c (rfl | rfl) <;> rfl
  · rintro c (rfl | rfl) <;> rfl
  · rintro c rfl
    rfl

theorem matchLength_stop {items : List Item} (listed : items ∈ piecePatterns.dropLast)
    {x : LuaString} (stop : ∀ d, x.head? = some d → joins d = false) (t : LuaString) :
    matchLength items (t ++ x) = matchLength items t := by
  have fits := accepts_joins items listed
  have rejects : ∀ d, x.head? = some d → ∀ item ∈ items, item.accepts d = false := by
    intro d head item mem
    cases taken : item.accepts d with
    | false => rfl
    | true => exact absurd ((fits item mem).2 d taken) (by simp [stop d head])
  rw [matchLength, matchItems_stop items (fun item mem => (fits item mem).1) rejects, matchLength]
  cases found : matchItems items t [] with
  | none => rfl
  | some r =>
    have shorter := (matchItems_suffix found).length_le
    simp only [Option.map_some, List.length_append]
    congr 1
    omega

theorem firstLength_append (ps qs : List (List Item)) (t : LuaString) :
    firstLength (ps ++ qs) t = (firstLength ps t).or (firstLength qs t) := by
  induction ps with
  | nil => simp [firstLength]
  | cons p ps ih => rw [List.cons_append, firstLength, firstLength, ih, Option.or_assoc]

theorem operatorPiece (c : Char) (t : LuaString) :
    firstLength [[.one operator]] (c :: t) = if operator c then some 1 else none := by
  simp only [firstLength, matchLength, matchItems, Option.or_none]
  split
  · simp
  · rfl

theorem firstLength_stop {t x : LuaString} (nonempty : t ≠ [])
    (stop : ∀ d, x.head? = some d → joins d = false) :
    firstLength piecePatterns (t ++ x) = firstLength piecePatterns t := by
  have parts : piecePatterns = piecePatterns.dropLast ++ [[.one operator]] := rfl
  have many : ∀ ps, (∀ items ∈ ps, items ∈ piecePatterns.dropLast) →
      firstLength ps (t ++ x) = firstLength ps t := by
    intro ps listed
    induction ps with
    | nil => rfl
    | cons items ps ih =>
      rw [firstLength, firstLength, matchLength_stop (listed items List.mem_cons_self) stop,
        ih (fun i mem => listed i (List.mem_cons_of_mem _ mem))]
  obtain ⟨c, t, rfl⟩ := List.exists_cons_of_ne_nil nonempty
  rw [parts, firstLength_append, firstLength_append, many _ (fun _ mem => mem), List.cons_append,
    operatorPiece, operatorPiece]

theorem firstLength_le {t : LuaString} {n : Nat} (ps : List (List Item))
    (found : firstLength ps t = some n) : n ≤ t.length := by
  induction ps with
  | nil => cases found
  | cons items ps ih =>
    rcases Option.or_eq_some_iff.mp found with first | ⟨_, later⟩
    · obtain ⟨r, _, rfl⟩ := Option.map_eq_some_iff.mp first
      exact Nat.sub_le _ _
    · exact ih later

theorem pieceLength_le {t : LuaString} {n : Nat} (found : pieceLength t = some n) :
    n ≤ t.length := by
  cases t with
  | nil => exact firstLength_le _ found
  | cons c t =>
    rw [pieceLength_cons] at found
    split at found
    · obtain ⟨k, close, rfl⟩ := Option.map_eq_some_iff.mp found
      exact Nat.succ_le_succ (quoteEnd_le close)
    · exact firstLength_le _ found

theorem Solid.append {t x : LuaString} (solid : Solid t) (nonempty : t ≠ [])
    (other : x.head? ≠ some '*') : Solid (t ++ x) := by
  obtain ⟨c, t, rfl⟩ := List.exists_cons_of_ne_nil nonempty
  refine ⟨solid.1, ?_⟩
  cases opens : opensComment (c :: t ++ x) with
  | false => rfl
  | true =>
    obtain ⟨u, shape⟩ := (opensComment_iff _).mp opens
    cases t with
    | nil =>
      have rest : x = '*' :: u := (List.cons.inj shape).2
      rw [rest] at other
      exact absurd rfl other
    | cons d t =>
      obtain ⟨rfl, rest⟩ := List.cons.inj shape
      obtain ⟨rfl, -⟩ := List.cons.inj rest
      have closed := solid.2
      rw [(opensComment_iff _).mpr ⟨t, rfl⟩] at closed
      cases closed

end PrimeMover.Cruncher
