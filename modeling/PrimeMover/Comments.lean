import PrimeMover.CruncherText
import PrimeMover.LineEdit

/-! The comments of a C source, and what ccruncher makes of them. -/
namespace PrimeMover.Cruncher
open LuaPattern CTokens

/-- Where a character of a source stands. A comment is `here` as long as it is on the line on
which it was opened. -/
inductive Mode where
  | code
  | quoted (sep : Char)
  | escaped (sep : Char)
  | opened (here : Bool)
  | comment (here : Bool)
  | closing (here : Bool)

def Mode.inside : Mode → Bool
  | .opened _ | .comment _ | .closing _ => true
  | _ => false

def closes (s : LuaString) : Bool := s.head? == some '*' && s.tail.head? == some '/'

/-- The mode behind a character. The first `*/` ends a comment, and a literal ends with its line. -/
def Mode.next : Mode → Char → LuaString → Mode
  | .code, c, t =>
    if opensComment (c :: t) then .opened true else if quote c then .quoted c else .code
  | .quoted sep, c, _ =>
    if c == '\n' || c == sep then .code else if c == '\\' then .escaped sep else .quoted sep
  | .escaped sep, c, _ => if c == '\n' then .code else .quoted sep
  | .opened here, _, _ => .comment here
  | .comment here, c, t => if closes (c :: t) then .closing here else .comment (here && c != '\n')
  | .closing _, _, _ => .code

/-- The source with a blank in the place of each comment, if every comment ends. -/
def blankFrom : Mode → LuaString → Option LuaString
  | m, [] => if m.inside then none else some []
  | m, c :: t =>
    let rest := blankFrom (m.next c t) t
    if m.inside then rest
    else rest.map ((if (m.next c t).inside then ' ' else c) :: ·)

def withoutComments (source : LuaString) : Option LuaString := blankFrom .code source

/-- Up to the last `*/` of the line there are only white space and comments. -/
def clearFrom : Mode → LuaString → Bool
  | m, [] => !m.inside
  | m, c :: t =>
    if m.inside then c != '\n' && clearFrom (m.next c t) t
    else (lastClose (c :: t)).isNone ||
      ((white c || opensComment (c :: t)) && clearFrom (m.next c t) t)

def Mode.reads : Mode → Bool
  | .comment _ => true
  | _ => false

/-- The last `*/` of the line ends a comment. -/
def landsFrom : Mode → LuaString → Bool
  | _, [] => true
  | m, c :: t =>
    c == '\n' ||
      ((!closes (c :: t) || (lastClose t).isSome || m.reads) && landsFrom (m.next c t) t)

/-- What stands behind a comment that ends on its line has a property. -/
def behindFrom (p : LuaString → Bool) : Mode → LuaString → Bool
  | _, [] => true
  | .closing true, c :: t => p t && behindFrom p (Mode.next (.closing true) c t) t
  | m, c :: t => behindFrom p (m.next c t) t

def apart (source : LuaString) : Bool := behindFrom (clearFrom .code) .code source

def landing (source : LuaString) : Bool := behindFrom (landsFrom .code) .code source

theorem closes_cons (c : Char) (t : LuaString) :
    closes (c :: t) = (c == '*' && t.head? == some '/') := rfl

theorem afterClose_open {c : Char} {t : LuaString} (open_here : closes (c :: t) = false) :
    afterClose (c :: t) = afterClose t := by
  rw [closes_cons] at open_here
  rw [afterClose, open_here]
  simp

theorem closes_shape {c : Char} {t : LuaString} (close : closes (c :: t) = true) :
    ∃ u, c = '*' ∧ t = '/' :: u := by
  rw [closes_cons, Bool.and_eq_true, beq_iff_eq, beq_iff_eq] at close
  cases t with
  | nil => cases close.2
  | cons d t => exact ⟨t, close.1, by rw [Option.some.inj close.2]⟩

theorem lastClose_cons {c : Char} {t : LuaString} (line : c ≠ '\n')
    (open_here : closes (c :: t) = false) : lastClose (c :: t) = lastClose t := by
  rw [closes_cons] at open_here
  rw [lastClose, if_neg (by simpa using line), open_here]
  simp

theorem lastClose_later {c : Char} {t : LuaString} (line : c ≠ '\n')
    (later : (lastClose t).isSome = true) : lastClose (c :: t) = lastClose t := by
  obtain ⟨v, found⟩ := Option.isSome_iff_exists.mp later
  rw [lastClose, if_neg (by simpa using line), found, Option.some_or]

def Mode.plain : Mode → Bool
  | .code => true
  | _ => false

/-- A text leads from a mode into code, and no comment opens in it. -/
inductive Passes : Mode → LuaString → LuaString → Prop
  | nil (x : LuaString) : Passes .code [] x
  | cons {m : Mode} {c : Char} {p x : LuaString} (line : c ≠ '\n')
      (dark : m.plain = true → white c = false) (outside : m.inside = false)
      (stays : (m.next c (p ++ x)).inside = false) (rest : Passes (m.next c (p ++ x)) p x) :
      Passes m (c :: p) x

namespace Passes

variable {m : Mode} {p x : LuaString}

theorem blank (passes : Passes m p x) :
    blankFrom m (p ++ x) = (blankFrom .code x).map (p ++ ·) := by
  induction passes with
  | nil x => simp
  | cons _ _ outside stays _ ih =>
    rw [List.cons_append, blankFrom, ih]
    simp only [outside, stays, Bool.false_eq_true, if_false, Option.map_map]
    rfl

theorem behind (passes : Passes m p x) (q : LuaString → Bool) :
    behindFrom q m (p ++ x) = behindFrom q .code x := by
  induction passes with
  | nil x => rfl
  | @cons m c p x _ _ outside _ _ ih =>
    have step : behindFrom q m (c :: (p ++ x)) = behindFrom q (m.next c (p ++ x)) (p ++ x) := by
      cases m with
      | closing here => cases outside
      | _ => rfl
    rw [List.cons_append, step, ih]

theorem last (passes : Passes m p x) (lands : landsFrom m (p ++ x) = true)
    (closed : (lastClose (p ++ x)).isSome = true) :
    lastClose (p ++ x) = lastClose x ∧ landsFrom .code x = true := by
  induction passes with
  | nil x => exact ⟨rfl, lands⟩
  | @cons m c p x line _ outside _ _ ih =>
    have unread : m.reads = false := by
      cases m with
      | comment here => cases outside
      | _ => rfl
    have no_break : (c == '\n') = false := beq_eq_false_iff_ne.mpr line
    rw [List.cons_append, landsFrom, unread, no_break] at lands
    simp only [Bool.false_or, Bool.or_false, Bool.and_eq_true, Bool.or_eq_true,
      Bool.not_eq_true'] at lands
    obtain ⟨here, lands⟩ := lands
    have same : lastClose (c :: (p ++ x)) = lastClose (p ++ x) :=
      here.elim (lastClose_cons line) (lastClose_later line)
    rw [List.cons_append, same] at closed ⊢
    exact ih lands closed

end Passes

theorem white_line {c : Char} (dark : white c = false) : c ≠ '\n' := by
  rintro rfl
  cases dark

theorem passes_code {c : Char} {x : LuaString} (dark : white c = false)
    (opens : opensComment (c :: x) = false) (plain : quote c = false) : Passes .code [c] x := by
  have next : Mode.next .code c ([] ++ x) = .code := by
    rw [List.nil_append, Mode.next, opens, plain]
    rfl
  exact .cons (white_line dark) (fun _ => dark) rfl (by rw [next]; rfl) (by rw [next]; exact .nil x)

theorem joins_plain {c : Char} (joined : joins c = true) :
    white c = false ∧ c ≠ '\n' ∧ c ≠ '/' ∧ quote c = false := by
  refine ⟨?_, ?_, ?_, ?_⟩
  · cases blank : white c with
    | false => rfl
    | true =>
      simp only [white, Bool.or_eq_true, beq_iff_eq] at blank
      rcases blank with ((((rfl | rfl) | rfl) | rfl) | rfl) | rfl <;> cases joined
  · rintro rfl
    cases joined
  · rintro rfl
    cases joined
  · cases quoted : quote c with
    | false => rfl
    | true =>
      simp only [quote, Bool.or_eq_true, beq_iff_eq] at quoted
      rcases quoted with rfl | rfl <;> cases joined

theorem opens_slash {c : Char} {t : LuaString} (other : c ≠ '/') : opensComment (c :: t) = false := by
  cases opens : opensComment (c :: t) with
  | false => rfl
  | true =>
    obtain ⟨u, shape⟩ := (opensComment_iff _).mp opens
    exact absurd (List.cons.inj shape).1 other

/-- Characters that open neither a literal nor a comment. -/
theorem passes_apart {p : LuaString}
    (apart : ∀ c ∈ p, white c = false ∧ c ≠ '/' ∧ quote c = false) (x : LuaString) :
    Passes .code p x := by
  induction p with
  | nil => exact .nil x
  | cons c p ih =>
    obtain ⟨dark, slash, plain⟩ := apart c List.mem_cons_self
    have next : Mode.next .code c (p ++ x) = .code := by
      rw [Mode.next, opens_slash slash, plain]
      rfl
    exact .cons (white_line dark) (fun _ => dark) rfl (by rw [next]; rfl)
      (by rw [next]; exact ih (fun d mem => apart d (List.mem_cons_of_mem c mem)))

theorem passes_joined {p : LuaString} (joined : ∀ c ∈ p, joins c = true) (x : LuaString) :
    Passes .code p x := by
  refine passes_apart (fun c mem => ?_) x
  obtain ⟨dark, _, slash, plain⟩ := joins_plain (joined c mem)
  exact ⟨dark, slash, plain⟩

section
variable {sep : Char}

theorem passes_end (line : sep ≠ '\n') (x : LuaString) : Passes (.quoted sep) [sep] x := by
  have next : Mode.next (.quoted sep) sep ([] ++ x) = .code := by simp [Mode.next]
  exact .cons line (fun code => by cases code) rfl (by rw [next]; rfl) (by rw [next]; exact .nil x)

/-- A literal is passed up to its closing quote. -/
theorem passes_quoted (line : sep ≠ '\n') {t : LuaString} {n : Nat} (ends : QuoteEnds sep t n) :
    Passes (.quoted sep) (t.take n) (t.drop n) := by
  induction ends with
  | close t => exact passes_end line t
  | @escape d t n other goes_on rest ih =>
    have one : ∀ u, Mode.next (.quoted sep) '\\' u = .escaped sep := fun u => by
      simp [Mode.next, other.symm]
    have two : ∀ u, Mode.next (.escaped sep) d u = .quoted sep := fun u => by
      simp [Mode.next, goes_on]
    refine .cons (by decide) (fun code => by cases code) rfl (by rw [one]; rfl) ?_
    rw [one]
    refine .cons goes_on (fun code => by cases code) rfl (by rw [two]; rfl) ?_
    rw [two]
    exact ih
  | @plain c t n other no_break plain rest ih =>
    have one : ∀ u, Mode.next (.quoted sep) c u = .quoted sep := fun u => by
      simp [Mode.next, no_break, other, plain]
    refine .cons no_break (fun code => by cases code) rfl (by rw [one]; rfl) ?_
    rw [one]
    exact ih

theorem quoteEnd_take {t : LuaString} {n : Nat} (ends : QuoteEnds sep t n) (x : LuaString) :
    QuoteEnds sep (t.take n ++ x) n := by
  induction ends with
  | close t => exact .close x
  | escape other line _ ih => exact .escape other line ih
  | plain other line plain _ ih => exact .plain other line plain ih

/-- What is blanked outside of comments starts with what it was made from. -/
theorem blank_head {m : Mode} (outside : m.inside = false)
    (stays : ∀ c t, (m.next c t).inside = false) {t b : LuaString} {c : Char}
    (blanked : blankFrom m t = some (c :: b)) :
    ∃ u, t = c :: u ∧ blankFrom (m.next c u) u = some b := by
  cases t with
  | nil => simp [blankFrom, outside] at blanked
  | cons d t =>
    simp only [blankFrom, outside, stays, Bool.false_eq_true, if_false] at blanked
    obtain ⟨b', rest, same⟩ := Option.map_eq_some_iff.mp blanked
    obtain ⟨rfl, rfl⟩ := List.cons.inj same
    exact ⟨t, rfl, rest⟩

theorem quoted_outside (c : Char) (t : LuaString) :
    (Mode.next (.quoted sep) c t).inside = false := by
  simp only [Mode.next]
  split
  · rfl
  · split <;> rfl

theorem escaped_outside (c : Char) (t : LuaString) :
    (Mode.next (.escaped sep) c t).inside = false := by
  simp only [Mode.next]
  split <;> rfl

theorem quoteEnds_blank {b : LuaString} {n : Nat} (ends : QuoteEnds sep b n) {t : LuaString}
    (blanked : blankFrom (.quoted sep) t = some b) : QuoteEnds sep t n := by
  induction ends generalizing t with
  | close b =>
    obtain ⟨u, rfl, _⟩ := blank_head rfl quoted_outside blanked
    exact .close u
  | @escape d b n other line _ ih =>
    obtain ⟨u, rfl, rest⟩ := blank_head rfl quoted_outside blanked
    have one : Mode.next (.quoted sep) '\\' u = .escaped sep := by
      simp [Mode.next, other.symm]
    rw [one] at rest
    obtain ⟨v, rfl, later⟩ := blank_head rfl escaped_outside rest
    have two : Mode.next (.escaped sep) d v = .quoted sep := by simp [Mode.next, line]
    rw [two] at later
    exact .escape other line (ih later)
  | @plain c b n other line plain _ ih =>
    obtain ⟨u, rfl, rest⟩ := blank_head rfl quoted_outside blanked
    have one : Mode.next (.quoted sep) c u = .quoted sep := by
      simp [Mode.next, line, other, plain]
    rw [one] at rest
    exact .plain other line plain (ih rest)

theorem quoteEnd_blank (line : sep ≠ '\n') {t b : LuaString}
    (blanked : blankFrom (.quoted sep) t = some b) : quoteEnd sep b = quoteEnd sep t := by
  cases found : quoteEnd sep t with
  | some n =>
    have ends := quoteEnds_of found
    have whole := (passes_quoted line ends).blank
    rw [List.take_append_drop, blanked] at whole
    obtain ⟨x, _, rfl⟩ := Option.map_eq_some_iff.mp whole.symm
    exact (quoteEnd_take ends x).eq
  | none =>
    cases other : quoteEnd sep b with
    | none => rfl
    | some n =>
      rw [(quoteEnds_blank (quoteEnds_of other) blanked).eq] at found
      cases found

end

theorem next_comment (here : Bool) {c : Char} {t : LuaString}
    (open_here : closes (c :: t) = false) :
    Mode.next (.comment here) c t = .comment (here && c != '\n') := by
  rw [Mode.next, open_here]
  rfl

theorem lastClose_break (t : LuaString) : lastClose ('\n' :: t) = none := rfl

/-- A comment is blanked up to the first `*/`. -/
theorem comment_blank (here : Bool) (t : LuaString) :
    blankFrom (.comment here) t = (afterClose t).bind (blankFrom .code) := by
  induction t generalizing here with
  | nil => rfl
  | cons c t ih =>
    cases close : closes (c :: t) with
    | true =>
      obtain ⟨u, rfl, rfl⟩ := closes_shape close
      rfl
    | false =>
      have next := next_comment here close
      rw [afterClose_open close, blankFrom, next]
      exact ih _

theorem lastClose_closes (t : LuaString) :
    lastClose ('*' :: '/' :: t) = some ((lastClose t).getD t) := by
  have slash : closes ('/' :: t) = false := rfl
  rw [lastClose, lastClose_cons (by decide) slash]
  cases lastClose t <;> rfl

/-- The last `*/` of a line, seen from the first one. -/
theorem lastClose_first {t v : LuaString} (last : lastClose t = some v) :
    ∃ u, afterClose t = some u ∧ v = (lastClose u).getD u := by
  induction t with
  | nil => cases last
  | cons c t ih =>
    have line : c ≠ '\n' := by
      rintro rfl
      cases last
    cases close : closes (c :: t) with
    | false =>
      rw [lastClose_cons line close] at last
      rw [afterClose_open close]
      exact ih last
    | true =>
      obtain ⟨u, rfl, rfl⟩ := closes_shape close
      rw [lastClose_closes] at last
      exact ⟨u, rfl, (Option.some.inj last).symm⟩

/-- Behind the first `*/` the text is read as code, and that is asked about if the comment was
opened on this line. -/
theorem comment_behind (q : LuaString → Bool) {here : Bool} {t u : LuaString}
    (found : afterClose t = some u) : behindFrom q (.comment here) t =
      ((!(here && (lastClose t).isSome) || q u) && behindFrom q .code u) := by
  induction t generalizing here with
  | nil => cases found
  | cons c t ih =>
    cases close : closes (c :: t) with
    | true =>
      obtain ⟨v, rfl, rfl⟩ := closes_shape close
      cases found
      rw [lastClose_closes]
      cases here with
      | true => simp [behindFrom, Mode.next, closes]
      | false => simp [behindFrom, Mode.next, closes]
    | false =>
      have next := next_comment here close
      rw [afterClose_open close] at found
      have step : behindFrom q (.comment here) (c :: t) =
          behindFrom q (.comment (here && c != '\n')) t := by rw [← next]; rfl
      rw [step, ih found]
      by_cases line : c = '\n'
      · subst line
        simp [lastClose_break]
      · have other : (c != '\n') = true := bne_iff_ne.mpr line
        rw [lastClose_cons line close, other]
        simp

/-- A comment is clear if it ends on its line and what follows is clear. -/
theorem comment_clear (here : Bool) (t : LuaString) : clearFrom (.comment here) t =
    ((lastClose t).isSome && (afterClose t).any (clearFrom .code)) := by
  induction t generalizing here with
  | nil => rfl
  | cons c t ih =>
    cases close : closes (c :: t) with
    | true =>
      obtain ⟨u, rfl, rfl⟩ := closes_shape close
      rw [lastClose_closes]
      simp [clearFrom, Mode.inside, Mode.next, closes, afterClose]
    | false =>
      have next := next_comment here close
      have step : clearFrom (.comment here) (c :: t) =
          (c != '\n' && clearFrom (.comment (here && c != '\n')) t) := by rw [← next]; rfl
      rw [step, ih, afterClose_open close]
      by_cases line : c = '\n'
      · subst line
        simp [lastClose_break]
      · have other : (c != '\n') = true := bne_iff_ne.mpr line
        rw [lastClose_cons line close, other]
        simp

/-- A comment ends with the last `*/` of its line, or the text behind it lands. -/
theorem comment_lands {here : Bool} {t u : LuaString} (last : (lastClose t).isSome = true)
    (found : afterClose t = some u) (further : (lastClose u).isSome = true)
    (lands : landsFrom (.comment here) t = true) : landsFrom .code u = true := by
  induction t generalizing here with
  | nil => cases found
  | cons c t ih =>
    have line : c ≠ '\n' := by
      rintro rfl
      cases last
    have no_break : (c == '\n') = false := beq_eq_false_iff_ne.mpr line
    rw [landsFrom, no_break, Bool.false_or, Bool.and_eq_true] at lands
    cases close : closes (c :: t) with
    | true =>
      obtain ⟨v, rfl, rfl⟩ := closes_shape close
      cases found
      have next : Mode.next (.comment here) '*' ('/' :: v) = .closing here := rfl
      rw [next, landsFrom] at lands
      have behind := (Bool.or_eq_true_iff.mp lands.2).resolve_left (by decide)
      exact (Bool.and_eq_true_iff.mp behind).2
    | false =>
      have next := next_comment here close
      rw [lastClose_cons line close] at last
      rw [afterClose_open close] at found
      exact ih last found (next ▸ lands.2)

theorem opened_blank (t : LuaString) :
    blankFrom .code ('/' :: '*' :: t) = ((afterClose t).bind (blankFrom .code)).map (' ' :: ·) := by
  rw [← comment_blank true]
  rfl

theorem opened_behind (q : LuaString → Bool) {t u : LuaString} (found : afterClose t = some u) :
    behindFrom q .code ('/' :: '*' :: t) =
      (((lastClose t).isNone || q u) && behindFrom q .code u) := by
  have whole := @comment_behind q true t u found
  rw [Bool.true_and, Option.not_isSome] at whole
  exact whole

theorem white_shape {c : Char} (blank : white c = true) :
    c ≠ '/' ∧ c ≠ '*' ∧ quote c = false := by
  refine ⟨?_, ?_, ?_⟩
  · rintro rfl
    cases blank
  · rintro rfl
    cases blank
  · cases quoted : quote c with
    | false => rfl
    | true =>
      simp only [quote, Bool.or_eq_true, beq_iff_eq] at quoted
      rcases quoted with rfl | rfl <;> cases blank

theorem next_white {c : Char} (blank : white c = true) (t : LuaString) :
    Mode.next .code c t = .code := by
  obtain ⟨slash, _, plain⟩ := white_shape blank
  rw [Mode.next, opens_slash slash, plain]
  rfl

theorem white_blank {c : Char} (blank : white c = true) (t : LuaString) :
    blankFrom .code (c :: t) = (blankFrom .code t).map (c :: ·) := by
  rw [blankFrom, next_white blank]
  rfl

theorem white_behind (q : LuaString → Bool) {c : Char} (blank : white c = true) (t : LuaString) :
    behindFrom q .code (c :: t) = behindFrom q .code t := by
  have step : behindFrom q .code (c :: t) = behindFrom q (Mode.next .code c t) t := rfl
  rw [step, next_white blank]

theorem opened_clear (t : LuaString) (last : (lastClose ('/' :: '*' :: t)).isSome = true) :
    clearFrom .code ('/' :: '*' :: t) =
      ((lastClose t).isSome && (afterClose t).any (clearFrom .code)) := by
  have some_left : (lastClose ('/' :: '*' :: t)).isNone = false := by
    rw [← Option.not_isSome, last]
    rfl
  rw [← comment_clear true, clearFrom, some_left]
  rfl

theorem white_clear {c : Char} (blank : white c = true) {t : LuaString}
    (last : (lastClose (c :: t)).isSome = true) :
    clearFrom .code (c :: t) = clearFrom .code t := by
  have some_left : (lastClose (c :: t)).isNone = false := by
    rw [← Option.not_isSome, last]
    rfl
  rw [clearFrom, some_left, next_white blank, blank]
  rfl

theorem white_last {c : Char} (blank : white c = true) (line : c ≠ '\n') (t : LuaString) :
    lastClose (c :: t) = lastClose t := by
  refine lastClose_cons line ?_
  rw [closes_cons, beq_eq_false_iff_ne.mpr (white_shape blank).2.1]
  rfl

theorem opened_last {t : LuaString} (last : (lastClose t).isSome = true) :
    lastClose ('/' :: '*' :: t) = lastClose t := by
  rw [lastClose_later (by decide), lastClose_later (by decide) last]
  rw [lastClose_later (by decide) last]
  exact last

/-- White space and comments up to the last `*/` of the line mean nothing. -/
theorem clear_pass {t b : LuaString} (clear : clearFrom .code t = true)
    (blanked : blankFrom .code t = some b) : ∃ b', b' <:+ b ∧ crunched b = crunched b' ∧
      blankFrom .code ((lastClose t).getD t) = some b' ∧ apart t = apart ((lastClose t).getD t) := by
  induction n : t.length using Nat.strong_induction_on generalizing t b with
  | _ n ih =>
    subst n
    cases last : (lastClose t).isSome with
    | false =>
      have never : lastClose t = none := by simpa using last
      rw [never]
      exact ⟨b, List.suffix_rfl, rfl, blanked, rfl⟩
    | true =>
      cases t with
      | nil => cases last
      | cons c t =>
        have line : c ≠ '\n' := by
          rintro rfl
          cases last
        cases blank : white c with
        | true =>
          rw [white_blank blank] at blanked
          rw [white_clear blank last] at clear
          obtain ⟨b, rest, rfl⟩ := Option.map_eq_some_iff.mp blanked
          obtain ⟨b', inside, same, there, still⟩ := ih t.length (Nat.lt_succ_self _) clear rest rfl
          have shift : apart (c :: t) = apart t := white_behind _ blank t
          rw [white_last blank line] at last ⊢
          obtain ⟨v, found⟩ := Option.isSome_iff_exists.mp last
          rw [found] at there still ⊢
          refine ⟨b', inside.trans (List.suffix_cons c b), ?_, there, shift.trans still⟩
          rw [crunched_white blank b (fun h => absurd h line), same]
        | false =>
          have some_left : (lastClose (c :: t)).isNone = false := by
            rw [← Option.not_isSome, last]
            rfl
          have opens : opensComment (c :: t) = true := by
            rw [clearFrom, some_left, blank] at clear
            exact (Bool.and_eq_true_iff.mp clear).1
          obtain ⟨u, shape⟩ := (opensComment_iff _).mp opens
          rw [shape] at last clear blanked ⊢
          rw [opened_clear u last, Bool.and_eq_true, Option.any_eq_true] at clear
          obtain ⟨inner, w, first, clear⟩ := clear
          rw [opened_last inner]
          obtain ⟨v, found⟩ := Option.isSome_iff_exists.mp inner
          obtain ⟨w', first', behind⟩ := lastClose_first found
          cases first.symm.trans first'
          rw [opened_blank, first] at blanked
          obtain ⟨b, rest, rfl⟩ := Option.map_eq_some_iff.mp blanked
          have shorter := (afterClose_suffix first).length_le
          have fewer : w.length < (c :: t).length := by
            rw [shape]
            simp only [List.length_cons]
            omega
          obtain ⟨b', part, same, there, still⟩ := ih w.length fewer clear rest rfl
          have shift : apart ('/' :: '*' :: u) = apart w := by
            rw [apart, opened_behind _ first, clear, Bool.or_true, Bool.true_and, apart]
          rw [found, Option.getD_some, behind]
          refine ⟨b', part.trans (List.suffix_cons ' ' b), ?_, there, shift.trans still⟩
          rw [crunched_white rfl b (fun h => absurd h (by decide)), same]

theorem blank_starts {t b : LuaString} (blanked : blankFrom .code t = some b) :
    b.head? = t.head? ∨ b.head? = some ' ' := by
  cases t with
  | nil =>
    cases blanked
    exact .inl rfl
  | cons c t =>
    have outside : Mode.inside .code = false := rfl
    simp only [blankFrom, outside, Bool.false_eq_true, if_false] at blanked
    obtain ⟨b, _, rfl⟩ := Option.map_eq_some_iff.mp blanked
    cases (Mode.next .code c t).inside with
    | true => exact .inr rfl
    | false => exact .inl rfl

theorem firstLength_dark {c : Char} (dark : joins c = false) (t : LuaString) :
    firstLength piecePatterns (c :: t) = if operator c then some 1 else none := by
  have parts : piecePatterns = piecePatterns.dropLast ++ [[.one operator]] := rfl
  have stop : ∀ d, (c :: t).head? = some d → joins d = false := by
    rintro d head
    cases head
    exact dark
  have none_first : firstLength piecePatterns.dropLast (c :: t) = none := by
    have empty : ∀ items ∈ piecePatterns.dropLast, matchLength items [] = none := by decide
    have all : ∀ ps, (∀ items ∈ ps, items ∈ piecePatterns.dropLast) →
        firstLength ps (c :: t) = none := by
      intro ps listed
      induction ps with
      | nil => rfl
      | cons items ps ih =>
        have here := matchLength_stop (listed items List.mem_cons_self) stop []
        rw [List.nil_append, empty items (listed items List.mem_cons_self)] at here
        rw [firstLength, here, ih (fun i mem => listed i (List.mem_cons_of_mem _ mem))]
        rfl
    exact all _ (fun _ mem => mem)
  rw [parts, firstLength_append, none_first, operatorPiece]
  rfl

/-- The piece at the start of a text, when comments are blanked. -/
structure SamePiece (t b : LuaString) : Prop where
  solid : Solid b
  nonempty : b ≠ []
  same : pieceLength b = pieceLength t
  passes : ∀ k, pieceLength t = some k → ∃ p x b', t = p ++ x ∧ b = p ++ b' ∧ p.length = k ∧
    Passes .code p x ∧ blankFrom .code x = some b'

theorem Passes.piece {p x b : LuaString} (passes : Passes .code p x)
    (blanked : blankFrom .code (p ++ x) = some b) :
    ∃ b', b = p ++ b' ∧ blankFrom .code x = some b' := by
  rw [passes.blank] at blanked
  obtain ⟨b', rest, rfl⟩ := Option.map_eq_some_iff.mp blanked
  exact ⟨b', rfl, rest⟩

theorem quote_solid {c : Char} (quoted : quote c = true) (t : LuaString) :
    white c = false ∧ c ≠ '\n' ∧ opensComment (c :: t) = false := by
  simp only [quote, Bool.or_eq_true, beq_iff_eq] at quoted
  rcases quoted with rfl | rfl <;> exact ⟨rfl, by decide, rfl⟩

theorem passes_literal {c : Char} (quoted : quote c = true) {t : LuaString} {n : Nat}
    (ends : QuoteEnds c t n) : Passes .code (c :: t.take n) (t.drop n) := by
  obtain ⟨dark, line, opens⟩ := quote_solid quoted (t.take n ++ t.drop n)
  have next : Mode.next .code c (t.take n ++ t.drop n) = .quoted c := by
    rw [Mode.next, opens, quoted]
    rfl
  exact .cons line (fun _ => dark) rfl (by rw [next]; rfl)
    (by rw [next]; exact passes_quoted line ends)

theorem samePiece_literal {c : Char} (quoted : quote c = true) {t b : LuaString}
    (blanked : blankFrom .code (c :: t) = some b) : SamePiece (c :: t) b := by
  obtain ⟨dark, line, opens⟩ := quote_solid quoted t
  have next : Mode.next .code c t = .quoted c := by
    rw [Mode.next, opens, quoted]
    rfl
  have start : blankFrom .code (c :: t) = (blankFrom (.quoted c) t).map (c :: ·) := by
    rw [blankFrom, next]
    rfl
  rw [start] at blanked
  obtain ⟨b, rest, rfl⟩ := Option.map_eq_some_iff.mp blanked
  constructor
  · exact ⟨dark, (quote_solid quoted b).2.2⟩
  · exact List.cons_ne_nil c b
  · rw [pieceLength_cons, pieceLength_cons, if_pos quoted, if_pos quoted, quoteEnd_blank line rest]
  · intro k piece
    rw [pieceLength_cons, if_pos quoted] at piece
    obtain ⟨n, found, rfl⟩ := Option.map_eq_some_iff.mp piece
    have bounded := quoteEnd_le found
    have passes := passes_literal quoted (quoteEnds_of found)
    rw [← start] at blanked
    have shape : c :: t = (c :: t.take n) ++ t.drop n := by simp
    rw [shape] at blanked
    obtain ⟨b', same, later⟩ := passes.piece blanked
    exact ⟨_, _, b', shape, same, by simp [bounded], passes, later⟩

theorem samePiece_joined {p x b : LuaString} (joined : ∀ c ∈ p, joins c = true)
    (stop : ∀ d, x.head? = some d → joins d = false) (nonempty : p ≠ [])
    (blanked : blankFrom .code (p ++ x) = some b) : SamePiece (p ++ x) b := by
  obtain ⟨b', same, rest⟩ := (passes_joined joined x).piece blanked
  have stop' : ∀ d, b'.head? = some d → joins d = false := by
    intro d head
    rcases blank_starts rest with same | space
    · exact stop d (same ▸ head)
    · cases space.symm.trans head
      rfl
  have lengths : ∀ y : LuaString, (∀ d, y.head? = some d → joins d = false) →
      pieceLength (p ++ y) = firstLength piecePatterns p := by
    intro y stops
    rw [← firstLength_stop nonempty stops]
    obtain ⟨c, p, rfl⟩ := List.exists_cons_of_ne_nil nonempty
    obtain ⟨_, _, _, plain⟩ := joins_plain (joined c List.mem_cons_self)
    rw [List.cons_append, pieceLength_cons, plain, if_neg (by decide)]
  constructor
  · obtain ⟨c, p, rfl⟩ := List.exists_cons_of_ne_nil nonempty
    obtain ⟨dark, _, slash, _⟩ := joins_plain (joined c List.mem_cons_self)
    rw [same]
    exact ⟨dark, opens_slash slash⟩
  · simp [same, nonempty]
  · rw [same, lengths b' stop', lengths x stop]
  · intro k piece
    rw [lengths x stop] at piece
    have bounded := firstLength_le _ piece
    have shape : p ++ x = p.take k ++ (p.drop k ++ x) := by
      rw [← List.append_assoc, List.take_append_drop]
    have front : ∀ c ∈ p.take k, joins c = true := fun c mem => joined c (List.mem_of_mem_take mem)
    have passes := passes_joined front (p.drop k ++ x)
    rw [shape] at blanked
    obtain ⟨b'', whole, later⟩ := passes.piece blanked
    exact ⟨p.take k, p.drop k ++ x, b'', shape, whole, List.length_take_of_le bounded, passes,
      later⟩

theorem samePiece_operator {c : Char} (dark : white c = false) (single : joins c = false)
    (plain : quote c = false) {x b : LuaString} (opens : opensComment (c :: x) = false)
    (blanked : blankFrom .code (c :: x) = some b) : SamePiece (c :: x) b := by
  have passes := passes_code dark opens plain
  obtain ⟨b', same, rest⟩ := passes.piece blanked
  have lengths : ∀ y, pieceLength (c :: y) = if operator c then some 1 else none := by
    intro y
    rw [pieceLength_cons, plain, if_neg (by decide), firstLength_dark single]
  rw [List.singleton_append] at same
  constructor
  · refine ⟨same ▸ dark, ?_⟩
    rw [same]
    cases opens' : opensComment (c :: b') with
    | false => rfl
    | true =>
      obtain ⟨u, shape⟩ := (opensComment_iff _).mp opens'
      obtain ⟨rfl, rfl⟩ := List.cons.inj shape
      rcases blank_starts rest with head | space
      · cases x with
        | nil => cases head
        | cons d x =>
          cases head
          cases opens
      · cases space
  · exact same ▸ List.cons_ne_nil c b'
  · rw [same, lengths, lengths]
  · intro k piece
    rw [lengths] at piece
    split at piece
    · cases piece
      exact ⟨[c], x, b', rfl, same, rfl, passes, rest⟩
    · cases piece

theorem samePiece {t b : LuaString} (solid : Solid t) (nonempty : t ≠ [])
    (blanked : blankFrom .code t = some b) : SamePiece t b := by
  obtain ⟨c, t, rfl⟩ := List.exists_cons_of_ne_nil nonempty
  cases quoted : quote c with
  | true => exact samePiece_literal quoted blanked
  | false =>
    cases joined : joins c with
    | false => exact samePiece_operator solid.1 joined quoted solid.2 blanked
    | true =>
      have whole : c :: t = (c :: t).takeWhile joins ++ (c :: t).dropWhile joins :=
        List.takeWhile_append_dropWhile.symm
      have some_left : (c :: t).takeWhile joins ≠ [] := by
        rw [List.takeWhile_cons_of_pos joined]
        exact List.cons_ne_nil _ _
      rw [whole] at blanked ⊢
      refine samePiece_joined (fun d mem => List.mem_takeWhile_imp mem) ?_ some_left blanked
      intro d head
      have stops := List.head?_dropWhile_not joins (c :: t)
      rw [head] at stops
      simpa using stops

/-- No line but the first one is a directive. -/
def Undirected (t : LuaString) : Prop := ∀ x, '\n' :: x <:+ t → startsDirective x = false

theorem Undirected.suffix {t u : LuaString} (undirected : Undirected t) (inside : u <:+ t) :
    Undirected u := fun x there => undirected x (there.trans inside)

theorem startsDirective_cons (c : Char) (t : LuaString) :
    startsDirective (c :: t) = if white c && c != '\n' then startsDirective t else c == '#' := by
  rw [startsDirective, List.dropWhile_cons]
  split <;> rfl

theorem ordinary_blank {t b : LuaString} (blanked : blankFrom .code t = some b)
    (ordinary : startsDirective b = false) : startsDirective t = false := by
  induction t generalizing b with
  | nil => rfl
  | cons c t ih =>
    rw [startsDirective_cons]
    split
    · rename_i passed
      rw [white_blank (Bool.and_eq_true_iff.mp passed).1] at blanked
      obtain ⟨b, rest, rfl⟩ := Option.map_eq_some_iff.mp blanked
      rw [startsDirective_cons, if_pos passed] at ordinary
      exact ih rest ordinary
    · rename_i other
      rw [beq_eq_false_iff_ne]
      rintro rfl
      have passes := passes_code (x := t) (c := '#') rfl (opens_slash (by decide)) rfl
      obtain ⟨b, rfl, _⟩ := passes.piece blanked
      cases ordinary

theorem clear_never {t : LuaString} (never : lastClose t = none) : clearFrom .code t = true := by
  cases t with
  | nil => rfl
  | cons c t => rw [clearFrom, never]; rfl

/-- As long as only white space and comments stand between the first and the last `*/` of a
line, just the comments are dropped. -/
theorem crunched_apart {t b : LuaString} (separate : apart t = true)
    (blanked : blankFrom .code t = some b) (undirected : Undirected b) :
    crunched t = crunched b := by
  induction n : t.length using Nat.strong_induction_on generalizing t b with
  | _ n ih =>
    subst n
    cases t with
    | nil =>
      cases blanked
      rfl
    | cons c t =>
      cases blank : white c with
      | true =>
        rw [white_blank blank] at blanked
        obtain ⟨b, rest, rfl⟩ := Option.map_eq_some_iff.mp blanked
        have shift : apart (c :: t) = apart t := white_behind _ blank t
        have free : c = '\n' → startsDirective b = false := by
          rintro rfl
          exact undirected b List.suffix_rfl
        have free' : c = '\n' → startsDirective t = false := fun line =>
          ordinary_blank rest (free line)
        rw [crunched_white blank t free', crunched_white blank b free]
        exact ih t.length (Nat.lt_succ_self _) (shift ▸ separate) rest
          (undirected.suffix (List.suffix_cons c b)) rfl
      | false =>
        cases opens : opensComment (c :: t) with
        | false =>
          have solid : Solid (c :: t) := ⟨blank, opens⟩
          have piece := samePiece solid (List.cons_ne_nil c t) blanked
          rw [crunched_solid solid (List.cons_ne_nil c t), crunched_solid piece.solid piece.nonempty,
            piece.same]
          cases found : pieceLength (c :: t) with
          | none => rfl
          | some k =>
            obtain ⟨p, x, b', shape, rfl, length, passes, rest⟩ := piece.passes k found
            have positive := pieceLength_pos found
            rw [shape] at separate ⊢
            have fewer : x.length < (c :: t).length := by
              rw [shape, List.length_append]
              omega
            have later := ih x.length fewer ((passes.behind _).symm.trans separate) rest
              (undirected.suffix (List.suffix_append p b')) rfl
            subst length
            simp [later]
        | true =>
          obtain ⟨u, shape⟩ := (opensComment_iff _).mp opens
          rw [shape] at separate blanked ⊢
          rw [opened_blank] at blanked
          obtain ⟨b, rest, rfl⟩ := Option.map_eq_some_iff.mp blanked
          obtain ⟨w, first, rest⟩ := Option.bind_eq_some_iff.mp rest
          have undirected' := undirected.suffix (List.suffix_cons ' ' b)
          have shorter := (afterClose_suffix first).length_le
          have size : (c :: t).length = u.length + 2 := by rw [shape]; rfl
          rw [apart, opened_behind _ first, Bool.and_eq_true] at separate
          rw [crunched_comment, crunched_white rfl b (fun h => absurd h (by decide))]
          cases last : lastClose u with
          | none =>
            rw [Option.none_or, first]
            exact ih w.length (by omega) separate.2 rest undirected' rfl
          | some v =>
            obtain ⟨w', first', behind⟩ := lastClose_first last
            cases first.symm.trans first'
            have clear : clearFrom .code w = true := by simpa [last] using separate.1
            obtain ⟨b', inside, same, there, still⟩ := clear_pass clear rest
            have bounded := (lastClose_suffix last).length_le
            rw [← behind] at there still
            rw [Option.some_or, same]
            exact ih v.length (by omega) (still ▸ separate.2) there (undirected'.suffix inside) rfl

theorem white_lands {c : Char} (blank : white c = true) (line : c ≠ '\n') {t : LuaString}
    (lands : landsFrom .code (c :: t) = true) : landsFrom .code t = true := by
  have no_break : (c == '\n') = false := beq_eq_false_iff_ne.mpr line
  rw [landsFrom, next_white blank, no_break, Bool.false_or, Bool.and_eq_true] at lands
  exact lands.2

theorem opened_lands {t u : LuaString} (last : (lastClose ('/' :: '*' :: t)).isSome = true)
    (found : afterClose t = some u) (lands : landsFrom .code ('/' :: '*' :: t) = true) :
    (lastClose t).isSome = true ∧
      ((lastClose u).isSome = true → landsFrom .code u = true) := by
  have inner : landsFrom (.opened true) ('*' :: t) = true := by
    rw [landsFrom, Bool.or_eq_true, Bool.and_eq_true] at lands
    exact (lands.resolve_left (by decide)).2
  rw [landsFrom, Bool.or_eq_true, Bool.and_eq_true] at inner
  obtain ⟨here, rest⟩ := inner.resolve_left (by decide)
  have some_left : (lastClose t).isSome = true := by
    cases close : closes ('*' :: t) with
    | true => simpa [close, Mode.reads] using here
    | false =>
      have slash : closes ('/' :: '*' :: t) = false := rfl
      rwa [lastClose_cons (by decide) slash, lastClose_cons (by decide) close] at last
  exact ⟨some_left, fun further => comment_lands some_left found further rest⟩

/-- The last `*/` of a line that lands leads past some of the pieces. -/
theorem lands_pass {t v b : LuaString} {P : List LuaString} (lands : landsFrom .code t = true)
    (blanked : blankFrom .code t = some b) (run : crunched b = some (P, true))
    (last : lastClose t = some v) : ∃ b' Q, blankFrom .code v = some b' ∧
      crunched b' = some (Q, true) ∧ Q <:+ P ∧ (Q = P → clearFrom .code t = true) ∧
      ∀ q, behindFrom q .code t = true → behindFrom q .code v = true := by
  induction n : t.length using Nat.strong_induction_on generalizing t b P with
  | _ n ih =>
    subst n
    have some_last : (lastClose t).isSome = true := by rw [last]; rfl
    cases t with
    | nil => cases last
    | cons c t =>
      have line : c ≠ '\n' := by
        rintro rfl
        cases last
      cases blank : white c with
      | true =>
        rw [white_blank blank] at blanked
        obtain ⟨b, rest, rfl⟩ := Option.map_eq_some_iff.mp blanked
        rw [crunched_white blank b (fun h => absurd h line)] at run
        rw [white_last blank line] at last
        obtain ⟨b', Q, there, run', inside, clear, keep⟩ := ih t.length (Nat.lt_succ_self _)
          (white_lands blank line lands) rest run last rfl
        refine ⟨b', Q, there, run', inside, ?_, ?_⟩
        · rw [white_clear blank some_last]
          exact clear
        · intro q behind
          rw [white_behind q blank] at behind
          exact keep q behind
      | false =>
        cases opens : opensComment (c :: t) with
        | false =>
          have solid : Solid (c :: t) := ⟨blank, opens⟩
          have piece := samePiece solid (List.cons_ne_nil c t) blanked
          rw [crunched_solid piece.solid piece.nonempty, piece.same] at run
          cases found : pieceLength (c :: t) with
          | none =>
            rw [found] at run
            cases run
          | some k =>
            obtain ⟨p, x, b, shape, rfl, length, passes, rest⟩ := piece.passes k found
            have positive := pieceLength_pos found
            have fewer : x.length < (c :: t).length := by
              rw [shape, List.length_append]
              omega
            subst length
            rw [found] at run
            simp only [List.drop_left, List.take_left, Option.map_eq_some_iff, Prod.mk.injEq] at run
            obtain ⟨⟨P, done⟩, run, rfl, rfl⟩ := run
            rw [shape] at lands some_last last
            obtain ⟨same, lands⟩ := passes.last lands some_last
            obtain ⟨b', Q, there, run', inside, _, keep⟩ :=
              ih x.length fewer lands rest run (same ▸ last) rfl
            refine ⟨b', Q, there, run', inside.trans (List.suffix_cons p P), ?_, ?_⟩
            · rintro rfl
              have := inside.length_le
              simp at this
            · intro q behind
              rw [shape, passes.behind] at behind
              exact keep q behind
        | true =>
          obtain ⟨u, shape⟩ := (opensComment_iff _).mp opens
          have size : (c :: t).length = u.length + 2 := by rw [shape]; rfl
          rw [shape] at lands blanked last some_last
          rw [opened_blank] at blanked
          obtain ⟨b, rest, rfl⟩ := Option.map_eq_some_iff.mp blanked
          obtain ⟨w, first, rest⟩ := Option.bind_eq_some_iff.mp rest
          rw [crunched_white rfl b (fun h => absurd h (by decide))] at run
          obtain ⟨inner, further⟩ := opened_lands some_last first lands
          have shorter := (afterClose_suffix first).length_le
          rw [opened_last inner] at last
          obtain ⟨w', first', behind⟩ := lastClose_first last
          cases first.symm.trans first'
          rw [shape, opened_clear u some_last, inner, first, Option.any_some, Bool.true_and]
          cases more : lastClose w with
          | none =>
            rw [more] at behind
            refine ⟨b, P, behind ▸ rest, run, List.suffix_rfl, ?_, ?_⟩
            · exact fun _ => clear_never more
            · intro q kept
              rw [opened_behind q first, Bool.and_eq_true] at kept
              exact behind ▸ kept.2
          | some v' =>
            rw [more, Option.getD_some] at behind
            subst behind
            obtain ⟨b', Q, there, run', inside, clear, keep⟩ :=
              ih w.length (by omega) (further (by rw [more]; rfl)) rest run more rfl
            refine ⟨b', Q, there, run', inside, clear, ?_⟩
            intro q kept
            rw [opened_behind q first, Bool.and_eq_true] at kept
            exact keep q kept.2

/-- What is emitted is part of what is emitted without the comments, and it is all of that only
if the comments are apart. -/
theorem crunched_landing {t b : LuaString} {P : List LuaString} (lands : landing t = true)
    (blanked : blankFrom .code t = some b) (run : crunched b = some (P, true)) :
    ∃ Q, crunched t = some (Q, true) ∧ Q.Sublist P ∧ (Q = P → apart t = true) := by
  induction n : t.length using Nat.strong_induction_on generalizing t b P with
  | _ n ih =>
    subst n
    cases t with
    | nil =>
      cases blanked
      exact ⟨P, run, .refl P, fun _ => rfl⟩
    | cons c t =>
      cases blank : white c with
      | true =>
        rw [white_blank blank] at blanked
        obtain ⟨b, rest, rfl⟩ := Option.map_eq_some_iff.mp blanked
        have free : c = '\n' → startsDirective b = false := by
          rintro rfl
          cases directive : startsDirective b with
          | false => rfl
          | true =>
            rw [crunched_directive directive] at run
            cases run
        have free' : c = '\n' → startsDirective t = false := fun line =>
          ordinary_blank rest (free line)
        rw [crunched_white blank b free] at run
        rw [crunched_white blank t free', apart, white_behind _ blank]
        rw [landing, white_behind _ blank] at lands
        exact ih t.length (Nat.lt_succ_self _) lands rest run rfl
      | false =>
        cases opens : opensComment (c :: t) with
        | false =>
          have solid : Solid (c :: t) := ⟨blank, opens⟩
          have piece := samePiece solid (List.cons_ne_nil c t) blanked
          rw [crunched_solid piece.solid piece.nonempty, piece.same] at run
          rw [crunched_solid solid (List.cons_ne_nil c t)]
          cases found : pieceLength (c :: t) with
          | none =>
            rw [found] at run
            cases run
          | some k =>
            obtain ⟨p, x, b, shape, rfl, length, passes, rest⟩ := piece.passes k found
            have positive := pieceLength_pos found
            have fewer : x.length < (c :: t).length := by
              rw [shape, List.length_append]
              omega
            subst length
            rw [found] at run
            simp only [List.drop_left, List.take_left, Option.map_eq_some_iff, Prod.mk.injEq] at run
            obtain ⟨⟨P, done⟩, run, rfl, rfl⟩ := run
            rw [shape, landing, passes.behind] at lands
            obtain ⟨Q, run', part, whole⟩ := ih x.length fewer lands rest run rfl
            rw [shape, apart, passes.behind]
            refine ⟨p :: Q, ?_, part.cons_cons p, fun same => whole (List.cons.inj same).2⟩
            simp [run']
        | true =>
          obtain ⟨u, shape⟩ := (opensComment_iff _).mp opens
          have size : (c :: t).length = u.length + 2 := by rw [shape]; rfl
          rw [shape] at lands blanked ⊢
          rw [opened_blank] at blanked
          obtain ⟨b, rest, rfl⟩ := Option.map_eq_some_iff.mp blanked
          obtain ⟨w, first, rest⟩ := Option.bind_eq_some_iff.mp rest
          have shorter := (afterClose_suffix first).length_le
          rw [crunched_white rfl b (fun h => absurd h (by decide))] at run
          rw [landing, opened_behind _ first, Bool.and_eq_true] at lands
          rw [crunched_comment, apart, opened_behind _ first]
          cases last : lastClose u with
          | none =>
            rw [Option.none_or, first]
            exact ih w.length (by omega) lands.2 rest run rfl
          | some v =>
            obtain ⟨w', first', behind⟩ := lastClose_first last
            cases first.symm.trans first'
            have lands_w : landsFrom .code w = true := by simpa [last] using lands.1
            have bounded := (lastClose_suffix last).length_le
            simp only [Option.some_or, Option.isNone_some, Bool.false_or, Bool.and_eq_true]
            cases more : lastClose w with
            | none =>
              rw [more, Option.getD_none] at behind
              obtain ⟨Q, run', part, whole⟩ := ih v.length (by omega) (behind ▸ lands.2)
                (behind ▸ rest) run rfl
              exact ⟨Q, run', part, fun same => ⟨clear_never more, behind ▸ whole same⟩⟩
            | some v' =>
              rw [more, Option.getD_some] at behind
              subst behind
              obtain ⟨b', Q, there, run', inside, clear, keep⟩ := lands_pass lands_w rest run more
              obtain ⟨R, run'', part, whole⟩ :=
                ih v.length (by omega) (keep _ lands.2) there run' rfl
              refine ⟨R, run'', part.trans inside.sublist, ?_⟩
              rintro rfl
              have same : Q = R := inside.sublist.antisymm part
              obtain ⟨_, _, _, _, still⟩ := clear_pass (clear same) rest
              rw [more, Option.getD_some] at still
              exact ⟨clear same, still.trans (whole same.symm)⟩

theorem crunched_isSome {t : LuaString} (undirected : Undirected t) : ∃ o, crunched t = some o := by
  induction n : t.length using Nat.strong_induction_on generalizing t with
  | _ n ih =>
    subst n
    have rest : ∀ u, u <:+ t → u.length < t.length → ∃ o, crunched u = some o :=
      fun u inside fewer => ih u.length fewer (undirected.suffix inside) rfl
    cases t with
    | nil => exact ⟨_, rfl⟩
    | cons c t =>
      cases blank : white c with
      | true =>
        have free : c = '\n' → startsDirective t = false := by
          rintro rfl
          exact undirected t List.suffix_rfl
        rw [crunched_white blank t free]
        exact rest t (List.suffix_cons c t) (Nat.lt_succ_self _)
      | false =>
        cases opens : opensComment (c :: t) with
        | false =>
          have solid : Solid (c :: t) := ⟨blank, opens⟩
          rw [crunched_solid solid (List.cons_ne_nil c t)]
          cases found : pieceLength (c :: t) with
          | none => exact ⟨_, rfl⟩
          | some k =>
            have positive := pieceLength_pos found
            obtain ⟨o, run⟩ := rest ((c :: t).drop k) (List.drop_suffix k _) (by simp; omega)
            exact ⟨_, by simp only [run]; rfl⟩
        | true =>
          obtain ⟨u, shape⟩ := (opensComment_iff _).mp opens
          have size : (c :: t).length = u.length + 2 := by rw [shape]; rfl
          rw [shape, crunched_comment]
          cases close : (lastClose u).or (afterClose u) with
          | none => exact ⟨_, rfl⟩
          | some w =>
            have fewer := closing_shorter close
            have inside : w <:+ u := (Option.or_eq_some_iff.mp close).elim lastClose_suffix
              (fun first => afterClose_suffix first.2)
            refine rest w (inside.trans ?_) (by omega)
            rw [shape]
            exact (List.suffix_cons '*' u).trans (List.suffix_cons '/' _)

theorem sourceText_lines (t : LuaString) : sourceText (LineEdit.lines t) = t := by
  have shape : ∀ (s : LuaString) lines,
      sourceText (s :: lines) = ['\n'].intercalate (s :: lines) := by
    intro s lines
    induction lines generalizing s with
    | nil => simp [sourceText, below]
    | cons l lines ih =>
      rw [List.intercalate_cons_cons, ← ih l, sourceText, below_cons]
      simp [sourceText]
  cases split : LineEdit.lines t with
  | nil => exact absurd split (List.splitOn_ne_nil '\n' t)
  | cons s lines => rw [shape, ← split, LineEdit.lines, List.intercalate_splitOn]

theorem suffix_line {x y s : LuaString} (clean : '\n' ∉ s) (inside : '\n' :: x <:+ s ++ y) :
    '\n' :: x <:+ y := by
  induction s with
  | nil => exact inside
  | cons c s ih =>
    rcases List.suffix_cons_iff.mp inside with same | later
    · exact absurd (List.cons.inj same).1 (List.ne_of_not_mem_cons clean)
    · exact ih (List.not_mem_of_not_mem_cons clean) later

theorem undirected_below {lines : List LuaString} (clean : ∀ l ∈ lines, '\n' ∉ l)
    (plain : ∀ l ∈ lines, (find directivePattern l).isSome = false) : Undirected (below lines) := by
  induction lines with
  | nil =>
    intro x inside
    exact absurd (List.suffix_nil.mp inside) (List.cons_ne_nil _ _)
  | cons s lines ih =>
    intro x inside
    have clean_line := clean s List.mem_cons_self
    rw [below_cons] at inside
    rcases List.suffix_cons_iff.mp inside with same | later
    · rw [(List.cons.inj same).2, startsDirective_line clean_line (below_broken lines)]
      exact plain s List.mem_cons_self
    · exact ih (fun l mem => clean l (List.mem_cons_of_mem s mem))
        (fun l mem => plain l (List.mem_cons_of_mem s mem)) x (suffix_line clean_line later)

theorem undirected_text {lines : List LuaString} (clean : ∀ l ∈ lines, '\n' ∉ l)
    (plain : ∀ l ∈ lines, (find directivePattern l).isSome = false) :
    startsDirective (sourceText lines) = false ∧ Undirected (sourceText lines) := by
  cases lines with
  | nil => exact ⟨rfl, fun x inside => absurd (List.suffix_nil.mp inside) (List.cons_ne_nil _ _)⟩
  | cons s lines =>
    have clean_line := clean s List.mem_cons_self
    have rest := undirected_below (fun l mem => clean l (List.mem_cons_of_mem s mem))
      (fun l mem => plain l (List.mem_cons_of_mem s mem))
    rw [sourceText, startsDirective_line clean_line (below_broken lines)]
    exact ⟨plain s List.mem_cons_self, fun x inside => rest x (suffix_line clean_line inside)⟩

section
variable (directive : List LuaString → LuaString → Run)

/-- A source gives the pieces of the text in which its comments are blanked. -/
def Drops (source : List LuaString) (text : LuaString) : Prop :=
  (crunch directive source).1 = (crunch directive (LineEdit.lines text)).1

variable {directive}

theorem comments_dropped_iff {source : List LuaString} {text : LuaString}
    (clean : ∀ l ∈ source, '\n' ∉ l) (ended : withoutComments (sourceText source) = some text)
    (plain : ∀ l ∈ LineEdit.lines text, (find directivePattern l).isSome = false) :
    (apart (sourceText source) = true → Drops directive source text) ∧
    (landing (sourceText source) = true → (crunch directive (LineEdit.lines text)).2 = .ok [] →
      (Drops directive source text ↔ apart (sourceText source) = true)) := by
  have clean_text : ∀ l ∈ LineEdit.lines text, '\n' ∉ l := LineEdit.avoids_splitOn '\n' text
  obtain ⟨ordinary, undirected⟩ := undirected_text clean_text plain
  obtain ⟨o, run⟩ : ∃ o, crunched (sourceText (LineEdit.lines text)) = some o :=
    crunched_isSome undirected
  have agrees := @crunch_text directive _ clean_text ordinary _ run
  rw [sourceText_lines] at ordinary undirected run
  have ordinary' := ordinary_blank ended ordinary
  have enough : apart (sourceText source) = true → Drops directive source text := by
    intro separate
    have same := crunched_apart separate ended undirected
    rw [run] at same
    rw [Drops, (crunch_text clean ordinary' same).1, agrees.1]
  refine ⟨enough, fun lands accepted => ⟨fun drops => ?_, enough⟩⟩
  obtain ⟨P, done⟩ := o
  have read : done = true := by
    cases done with
    | true => rfl
    | false =>
      obtain ⟨e, failed⟩ := agrees.2
      cases accepted.symm.trans failed
  subst read
  obtain ⟨Q, run', _, whole⟩ := crunched_landing lands ended run
  rw [Drops, (crunch_text clean ordinary' run').1, agrees.1] at drops
  exact whole (List.map_injective_iff.mpr (fun _ _ => Emission.emit.inj) drops)

end

/-- A directive that reads no further line and emits nothing. -/
def passedOver (_ : List LuaString) (_ : LuaString) : Run := ([], .ok [])

theorem comments_around_kept : Drops passedOver ["a/*x*/b/*y".toList, "*/c".toList]
    "a b c".toList := by
  refine (comments_dropped_iff ?_ ?_ ?_).1 ?_ <;> decide +kernel

/-- What stands between two comments of one line is lost. -/
theorem between_comments_lost : ¬ ∀ (directive : List LuaString → LuaString → Run)
    (source : List LuaString) (text : LuaString), (∀ l ∈ source, '\n' ∉ l) →
    withoutComments (sourceText source) = some text →
    (∀ l ∈ LineEdit.lines text, (find directivePattern l).isSome = false) →
    Drops directive source text := by
  intro all
  have same := all passedOver ["/*a*/x/*b*/".toList] " x ".toList (by decide +kernel)
    (by decide +kernel) (by decide +kernel)
  have lost : (crunch passedOver ["/*a*/x/*b*/".toList]).1.length = 0 := by decide +kernel
  have kept : (crunch passedOver (LineEdit.lines " x ".toList)).1.length = 1 := by decide +kernel
  rw [Drops] at same
  rw [← same, lost] at kept
  cases kept

end PrimeMover.Cruncher
