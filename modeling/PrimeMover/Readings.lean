import PrimeMover.Spacing
import PrimeMover.TokenMapper

/-! Where the patterns of ccruncher stop between two characters of a word. -/
namespace PrimeMover.Cruncher
open LuaPattern CTokens

def hexMark (c : Char) : Bool := c == 'x' || c == 'X'

def sized (c : Char) : Bool := c == 'l' || c == 'L' || c == 'u' || c == 'U'

def powerMark (c : Char) : Bool := c == 'e' || c == 'E'

def signed (c : Char) : Bool := c == '-' || c == '+'

/-- What stands in front of a character: nothing of a word, a name, or one of the parts of the
numbers that are read as they are written, `0x1f`, `1L` and `.5e+3`. -/
inductive Reading where
  | free
  | name
  | zero
  | digits
  | size
  | hexMark
  | hex
  | point
  | fraction
  | powerMark
  | sign
  | power

/-- A word goes on, or a number is torn. -/
def Reading.grow : Reading → Char → Option Reading
  | .free, c => some (if c == '0' then .zero else if c.isDigit then .digits else .name)
  | .name, _ => some .name
  | .zero, c =>
    if Cruncher.hexMark c then some .hexMark
    else if c.isDigit then some .digits
    else if sized c then some .size else none
  | .digits, c => if c.isDigit then some .digits else if sized c then some .size else none
  | .size, c => if sized c then some .size else none
  | .hexMark, c | .hex, c => if Cruncher.hex c then some .hex else none
  | .point, c => some (if c.isDigit then .fraction else .name)
  | .fraction, c =>
    if c.isDigit then some .fraction else if Cruncher.powerMark c then some .powerMark else none
  | .powerMark, c | .sign, c | .power, c => if c.isDigit then some .power else none

/-- A word may end here. -/
def Reading.done : Reading → Bool
  | .hexMark | .powerMark | .sign => false
  | _ => true

/-- A word ends, or a number is torn. -/
def Reading.leave : Reading → Char → Option Reading
  | .powerMark, c => if signed c then some .sign else none
  | .hexMark, _ | .sign, _ => none
  | _, c => some (if c == '.' then .point else .free)

def Reading.next (r : Reading) (c : Char) : Option Reading := if word c then r.grow c else r.leave c

theorem Reading.leave_done {r : Reading} (done : r.done = true) (c : Char) :
    r.leave c = some (if c == '.' then .point else .free) := by
  cases r <;> first | rfl | cases done

/-- Every number in code is a run of digits with `l` and `u` behind it, a hexadecimal number, or
one of these up to a point; behind a point stand digits, and behind these an exponent, or there is
no digit, as in `1.` and `1.f`. -/
def untornFrom : Mode → Reading → LuaString → Bool
  | _, r, [] => r.done
  | m, r, c :: t =>
    if m.plain then (r.next c).any (fun r => untornFrom (m.next c t) r t)
    else untornFrom (m.next c t) .free t

def untorn (source : LuaString) : Bool := untornFrom .code .free source

example : ["x1 = 0x1F + 10UL*.5e-3;", "1.5e3", "\"1f\""].all (fun s => untorn s.toList) = true ∧
    ["1e5", "0x1FL", "1.5f", "0x", ".5e+x"].any (fun s => untorn s.toList) = false := by
  decide +kernel

theorem untorn_code {c : Char} {t : LuaString} (r : Reading) (opens : opensComment (c :: t) = false)
    (plain : quote c = false) :
    untornFrom .code r (c :: t) = (r.next c).any (fun r => untornFrom .code r t) := by
  have next : Mode.next .code c t = .code := by
    rw [Mode.next, opens, plain]
    rfl
  rw [untornFrom, next]
  rfl

theorem untorn_joined {c : Char} (joined : joins c = true) (r : Reading) (t : LuaString) :
    untornFrom .code r (c :: t) = (r.next c).any (fun r => untornFrom .code r t) := by
  obtain ⟨_, _, slash, plain⟩ := joins_plain joined
  exact untorn_code r (opens_slash slash) plain

theorem word_joins {c : Char} (h : word c = true) : joins c = true := by
  rw [joins, h]
  rfl

theorem untorn_word {c : Char} (h : word c = true) (r : Reading) (t : LuaString) :
    untornFrom .code r (c :: t) = (r.grow c).any (fun r => untornFrom .code r t) := by
  rw [untorn_joined (word_joins h), Reading.next, if_pos h]

theorem untorn_torn {r : Reading} {c : Char} (torn : r.next c = none) (t : LuaString) :
    untornFrom .code r (c :: t) = false := by
  rw [untornFrom, torn]
  rfl

/-- A run of characters that leave the reading as it is. -/
theorem untorn_run {r : Reading} {p : Char → Bool}
    (stays : ∀ c, p c = true → word c = true ∧ r.grow c = some r) (t : LuaString) :
    untornFrom .code r t = untornFrom .code r (t.dropWhile p) := by
  induction t with
  | nil => rfl
  | cons c t ih =>
    cases fits : p c with
    | false => rw [List.dropWhile_cons_of_neg (by simp [fits])]
    | true =>
      obtain ⟨is_word, same⟩ := stays c fits
      rw [List.dropWhile_cons_of_pos fits, untorn_word is_word, same, Option.any_some, ih]

/-- What comes behind a word that may end: it is torn or it ends. -/
theorem untorn_rest {r : Reading} (done : r.done = true) {x : LuaString}
    (tears : ∀ d u, x = d :: u → word d = true → untornFrom .code r x = false) :
    untornFrom .code r x = (!startsWord x && untornFrom .code .free x) := by
  cases x with
  | nil => exact done
  | cons d u =>
    cases is_word : word d with
    | true =>
      rw [tears d u rfl is_word, startsWord, List.head?_cons, Option.any_some, is_word]
      rfl
    | false =>
      have same : r.next d = Reading.free.next d := by
        rw [Reading.next, Reading.next, is_word, if_neg (by decide), if_neg (by decide),
          Reading.leave_done done, Reading.leave_done rfl]
      have starts : startsWord (d :: u) = false := is_word
      rw [starts, untornFrom, untornFrom, same]
      rfl

theorem letter_digit {c : Char} (first : letter c = true) : c.isDigit = false := by
  cases digit : c.isDigit with
  | false => rfl
  | true =>
    have codes := (digit_codes c).mp digit
    rw [letter, Bool.or_eq_true, beq_iff_eq] at first
    rcases first with alpha | rfl
    · have := (alpha_codes c).mp alpha
      omega
    · cases digit

theorem digit_letter {c : Char} (digit : c.isDigit = true) : letter c = false := by
  cases first : letter c with
  | false => rfl
  | true =>
    rw [letter_digit first] at digit
    cases digit

def hexItems : List Item := [.one (· == '0'), .one hexMark, .plus hex]

def decimalItems : List Item := [.plus Char.isDigit, .star sized]

def exponentItems : List Item := [.opt signed, .plus Char.isDigit]

def powerItems : List Item :=
  .star Char.isDigit :: .one (· == '.') :: .plus Char.isDigit :: .one powerMark :: exponentItems

def fractionItems : List Item := [.star Char.isDigit, .one (· == '.'), .plus Char.isDigit]

theorem piecePatterns_named : piecePatterns = [[.one letter, .star word], hexItems, decimalItems,
    powerItems, fractionItems, [.one operator]] := rfl

/-- What the patterns take off the start of a text, and what that does to the reading of the
text. -/
structure Reads (t : LuaString) (k : Nat) : Prop where
  piece : firstLength piecePatterns t = some k
  rest : untornFrom .code .free t =
    (!(endsWord (t.take k) && startsWord (t.drop k)) && untornFrom .code .free (t.drop k))

theorem matchLength_left {items : List Item} {p x : LuaString} {cs : List Capture}
    (found : matchItems items (p ++ x) [] = some (x, cs)) :
    matchLength items (p ++ x) = some p.length := by
  rw [matchLength, found, Option.map_some, List.length_append, Nat.add_sub_cancel]

theorem reads_left {p x : LuaString} (piece : firstLength piecePatterns (p ++ x) = some p.length)
    (rest : untornFrom .code .free (p ++ x) =
      (!(endsWord p && startsWord x) && untornFrom .code .free x)) :
    Reads (p ++ x) p.length := by
  refine ⟨piece, ?_⟩
  rw [List.take_left, List.drop_left]
  exact rest

theorem starts_stop {p : Char → Bool} {d : Char} {t u : LuaString}
    (shape : t.dropWhile p = d :: u) : p d = false := by
  have stops := List.head?_dropWhile_not p t
  rw [shape] at stops
  simpa using stops

theorem endsWord_append {p q : LuaString} (words : ∀ c ∈ q, word c = true) (nonempty : q ≠ []) :
    endsWord (p ++ q) = true := by
  rw [endsWord, List.getLast?_append_of_ne_nil _ nonempty, List.getLast?_eq_some_getLast nonempty]
  exact words _ (List.getLast_mem nonempty)

theorem read_name {c : Char} (first : letter c = true) (t : LuaString) :
    Reads (c :: t) (c :: t.takeWhile word).length := by
  have shape : c :: t = (c :: t.takeWhile word) ++ t.dropWhile word := by
    rw [List.cons_append, List.takeWhile_append_dropWhile]
  have found : matchItems [.one letter, .star word] (c :: t) [] = some (t.dropWhile word, []) := by
    rw [matchItems, if_pos first, match_rest]
  have ends : endsWord (c :: t.takeWhile word) = true :=
    endsWord_append (p := []) (by
      intro d mem
      rcases List.mem_cons.mp mem with rfl | later
      · exact letter_word first
      · exact List.mem_takeWhile_imp later) (List.cons_ne_nil _ _)
  have other : (c == '0') = false := by
    rw [beq_eq_false_iff_ne]
    rintro rfl
    cases first
  have grows : Reading.grow .free c = some .name := by
    rw [Reading.grow, other, letter_digit first]
    rfl
  rw [shape] at found ⊢
  apply reads_left
  · rw [piecePatterns_named, firstLength, matchLength_left found, Option.some_or]
  · rw [← shape, untorn_word (letter_word first), grows, Option.any_some,
      untorn_run (p := word) (fun c h => ⟨h, rfl⟩), ends, Bool.true_and]
    refine untorn_rest rfl ?_
    intro d u rest is_word
    rw [starts_stop rest] at is_word
    cases is_word

theorem hexMark_cases {c : Char} (h : hexMark c = true) : c = 'x' ∨ c = 'X' := by
  simpa [hexMark] using h

theorem sized_cases {c : Char} (h : sized c = true) : c = 'l' ∨ c = 'L' ∨ c = 'u' ∨ c = 'U' := by
  simpa [sized, or_assoc] using h

theorem powerMark_cases {c : Char} (h : powerMark c = true) : c = 'e' ∨ c = 'E' := by
  simpa [powerMark] using h

theorem sized_word {c : Char} (h : sized c = true) : word c = true ∧ c.isDigit = false := by
  rcases sized_cases h with rfl | rfl | rfl | rfl <;> exact ⟨rfl, rfl⟩

theorem untorn_hex (t : LuaString) : untornFrom .code .hex t =
    (!startsWord (t.dropWhile hex) && untornFrom .code .free (t.dropWhile hex)) := by
  rw [untorn_run (p := hex) (fun c h => ⟨hex_word h, by rw [Reading.grow, if_pos h]⟩)]
  refine untorn_rest rfl ?_
  intro d u rest is_word
  rw [rest, untorn_word is_word, Reading.grow, starts_stop rest]
  rfl

theorem read_hex {m h : Char} (mark : hexMark m = true) (digit : hex h = true) (t : LuaString) :
    Reads ('0' :: m :: h :: t) ('0' :: m :: h :: t.takeWhile hex).length := by
  have shape : '0' :: m :: h :: t = ('0' :: m :: h :: t.takeWhile hex) ++ t.dropWhile hex := by
    simp only [List.cons_append, List.takeWhile_append_dropWhile]
  have found : matchItems hexItems ('0' :: m :: h :: t) [] = some (t.dropWhile hex, []) := by
    have run := match_rest hex t []
    rw [matchItems] at run
    simp only [hexItems, matchItems, beq_self_eq_true, mark, digit, if_true]
    exact run
  have ends : endsWord ('0' :: m :: h :: t.takeWhile hex) = true :=
    endsWord_append (p := ['0', m]) (by
      intro d mem
      rcases List.mem_cons.mp mem with rfl | later
      · exact hex_word digit
      · exact hex_word (List.mem_takeWhile_imp later)) (List.cons_ne_nil _ _)
  have marks : word m = true ∧ Reading.grow .zero m = some .hexMark := by
    rcases hexMark_cases mark with rfl | rfl <;> exact ⟨rfl, rfl⟩
  have other : matchLength [.one letter, .star word] ('0' :: m :: h :: t) = none := rfl
  have reading : untornFrom .code .free ('0' :: m :: h :: t) = untornFrom .code .hex t := by
    rw [untorn_word rfl, show Reading.grow .free '0' = some .zero from rfl, Option.any_some,
      untorn_word marks.1, marks.2, Option.any_some, untorn_word (hex_word digit), Reading.grow,
      if_pos digit, Option.any_some]
  rw [shape] at found other ⊢
  apply reads_left
  · rw [piecePatterns_named, firstLength, firstLength, other, Option.none_or,
      matchLength_left found, Option.some_or]
  · rw [← shape, reading, untorn_hex, ends, Bool.true_and]

theorem untorn_size (t : LuaString) : untornFrom .code .size t =
    (!startsWord (t.dropWhile sized) && untornFrom .code .free (t.dropWhile sized)) := by
  rw [untorn_run (p := sized) (fun c h => ⟨(sized_word h).1, by rw [Reading.grow, if_pos h]⟩)]
  refine untorn_rest rfl ?_
  intro d u rest is_word
  rw [rest, untorn_word is_word, Reading.grow, starts_stop rest]
  rfl

/-- What stands behind a decimal number. -/
def behindNumber (t : LuaString) : LuaString := (t.dropWhile Char.isDigit).dropWhile sized

theorem untorn_digits (t : LuaString) : untornFrom .code .digits t =
    (!startsWord (behindNumber t) && untornFrom .code .free (behindNumber t)) := by
  rw [untorn_run (p := Char.isDigit) (fun c h => ⟨digit_word h, by rw [Reading.grow, if_pos h]⟩),
    behindNumber]
  cases rest : t.dropWhile Char.isDigit with
  | nil => rfl
  | cons d u =>
    have other := starts_stop rest
    cases size : sized d with
    | true =>
      rw [List.dropWhile_cons_of_pos size, untorn_word (sized_word size).1, Reading.grow, other,
        if_neg (by decide), if_pos size, Option.any_some, untorn_size]
    | false =>
      rw [List.dropWhile_cons_of_neg (by simp [size])]
      refine untorn_rest rfl ?_
      rintro d' u' same is_word
      cases same
      rw [untorn_word is_word, Reading.grow, other, size]
      rfl

/-- A hexadecimal number starts. -/
def Hexed : LuaString → Prop
  | z :: m :: h :: _ => z = '0' ∧ hexMark m = true ∧ hex h = true
  | _ => False

theorem untorn_zero {t : LuaString} (decimal : ¬ Hexed ('0' :: t)) : untornFrom .code .zero t =
    (!startsWord (behindNumber t) && untornFrom .code .free (behindNumber t)) := by
  cases t with
  | nil => rfl
  | cons d u =>
    cases digit : d.isDigit with
    | true =>
      have unmarked : hexMark d = false := by
        cases mark : hexMark d with
        | false => rfl
        | true => rcases hexMark_cases mark with rfl | rfl <;> cases digit
      rw [untorn_word (digit_word digit), Reading.grow, unmarked, if_neg (by decide), if_pos digit,
        Option.any_some, untorn_digits, behindNumber, behindNumber,
        List.dropWhile_cons_of_pos digit]
    | false =>
      rw [behindNumber, List.dropWhile_cons_of_neg (by simp [digit])]
      cases size : sized d with
      | true =>
        have unmarked : hexMark d = false := by
          rcases sized_cases size with rfl | rfl | rfl | rfl <;> rfl
        rw [List.dropWhile_cons_of_pos size, untorn_word (sized_word size).1, Reading.grow,
          unmarked, digit, if_neg (by decide), if_neg (by decide), if_pos size, Option.any_some,
          untorn_size]
      | false =>
        rw [List.dropWhile_cons_of_neg (by simp [size])]
        refine untorn_rest rfl ?_
        rintro d' u' same is_word
        cases same
        rw [untorn_word is_word, Reading.grow]
        cases mark : hexMark d with
        | false => simp [digit, size]
        | true =>
          rw [if_pos rfl, Option.any_some]
          -- the mark is no hexadecimal number, so the digits for it are missing
          cases u with
          | nil => rfl
          | cons h u =>
            have missing : hex h = false := by
              cases digits : hex h with
              | false => rfl
              | true => exact absurd ⟨rfl, mark, digits⟩ decimal
            refine untorn_torn ?_ u
            rw [Reading.next, Reading.grow, missing]
            split <;> rfl

theorem hexItems_none {t : LuaString} (decimal : ¬ Hexed t) : matchLength hexItems t = none := by
  rw [matchLength, hexItems]
  rcases t with _ | ⟨z, _ | ⟨m, _ | ⟨h, u⟩⟩⟩
  · rfl
  · cases zero : z == '0' <;> simp [matchItems, zero]
  · cases zero : z == '0' <;> cases mark : hexMark m <;> simp [matchItems, zero, mark]
  · cases zero : z == '0' <;> cases mark : hexMark m <;> cases digit : hex h <;>
      simp [matchItems, zero, mark, digit]
    exact absurd ⟨beq_iff_eq.mp zero, mark, digit⟩ decimal

theorem nameItems_none {c : Char} (other : letter c = false) (t : LuaString) :
    matchLength [.one letter, .star word] (c :: t) = none := by
  rw [matchLength, matchItems, other]
  rfl

theorem read_decimal {c : Char} (digit : c.isDigit = true) {t : LuaString}
    (decimal : ¬ Hexed (c :: t)) : Reads (c :: t) (c :: (t.takeWhile Char.isDigit ++
      (t.dropWhile Char.isDigit).takeWhile sized)).length := by
  have shape : c :: t = (c :: (t.takeWhile Char.isDigit ++
      (t.dropWhile Char.isDigit).takeWhile sized)) ++ behindNumber t := by
    rw [behindNumber, List.cons_append, List.append_assoc, List.takeWhile_append_dropWhile,
      List.takeWhile_append_dropWhile]
  have found : matchItems decimalItems (c :: t) [] = some (behindNumber t, []) := by
    rw [decimalItems, matchItems, if_pos digit, maxExpand_free fun s => by rw [match_rest]; rfl,
      match_rest, behindNumber]
  have ends : endsWord (c :: (t.takeWhile Char.isDigit ++
      (t.dropWhile Char.isDigit).takeWhile sized)) = true :=
    endsWord_append (p := []) (by
      intro d mem
      rcases List.mem_cons.mp mem with rfl | later
      · exact digit_word digit
      · rcases List.mem_append.mp later with first | second
        · exact digit_word (List.mem_takeWhile_imp first)
        · exact (sized_word (List.mem_takeWhile_imp second)).1) (List.cons_ne_nil _ _)
  have reading : untornFrom .code .free (c :: t) =
      (!startsWord (behindNumber t) && untornFrom .code .free (behindNumber t)) := by
    rw [untorn_word (digit_word digit), Reading.grow]
    by_cases zero : c = '0'
    · subst zero
      exact untorn_zero decimal
    · rw [if_neg (by simpa using zero), if_pos digit, Option.any_some, untorn_digits]
  have no_name := nameItems_none (digit_letter digit) t
  have no_hex := hexItems_none decimal
  rw [shape] at found no_name no_hex ⊢
  apply reads_left
  · rw [piecePatterns_named, firstLength, firstLength, firstLength, no_name, no_hex,
      matchLength_left found, Option.none_or, Option.none_or, Option.some_or]
  · rw [← shape, reading, ends, Bool.true_and]

theorem untorn_power (t : LuaString) : untornFrom .code .power t =
    (!startsWord (t.dropWhile Char.isDigit) &&
      untornFrom .code .free (t.dropWhile Char.isDigit)) := by
  rw [untorn_run (p := Char.isDigit) (fun c h => ⟨digit_word h, by rw [Reading.grow, if_pos h]⟩)]
  refine untorn_rest rfl ?_
  intro d u rest is_word
  rw [rest, untorn_word is_word, Reading.grow, starts_stop rest]
  rfl

theorem digits_run {c : Char} (digit : c.isDigit = true) (t : LuaString) :
    matchItems [.plus Char.isDigit] (c :: t) [] = some (t.dropWhile Char.isDigit, []) := by
  have run := match_rest Char.isDigit t []
  rw [matchItems] at run
  rw [matchItems, if_pos digit]
  exact run

/-- An exponent is read, or a number is torn. -/
theorem exponent_cases (u : LuaString) :
    (∃ q x, u = q ++ x ∧ q ≠ [] ∧ endsWord q = true ∧
      matchItems exponentItems u [] = some (x, []) ∧
      untornFrom .code .powerMark u = (!startsWord x && untornFrom .code .free x)) ∨
    (matchItems exponentItems u [] = none ∧ untornFrom .code .powerMark u = false) := by
  have ends : ∀ (c : Char) (v front : LuaString), c.isDigit = true →
      endsWord (front ++ c :: v.takeWhile Char.isDigit) = true := by
    intro c v front digit
    refine endsWord_append ?_ (List.cons_ne_nil _ _)
    intro d mem
    rcases List.mem_cons.mp mem with rfl | later
    · exact digit_word digit
    · exact digit_word (List.mem_takeWhile_imp later)
  cases u with
  | nil => exact .inr ⟨rfl, rfl⟩
  | cons s v =>
    cases digit : s.isDigit with
    | true =>
      refine .inl ⟨s :: v.takeWhile Char.isDigit, v.dropWhile Char.isDigit, ?_,
        List.cons_ne_nil _ _, ends s v [] digit, ?_, ?_⟩
      · rw [List.cons_append, List.takeWhile_append_dropWhile]
      · have unsigned : signed s = false := by
          cases sign : signed s with
          | false => rfl
          | true =>
            simp only [signed, Bool.or_eq_true, beq_iff_eq] at sign
            rcases sign with rfl | rfl <;> cases digit
        simp only [exponentItems, matchItems, unsigned, Bool.false_eq_true, if_false]
        exact digits_run digit v
      · rw [untorn_word (digit_word digit), Reading.grow, if_pos digit, Option.any_some,
          untorn_power]
    | false =>
      cases sign : signed s with
      | false =>
        refine .inr ⟨?_, untorn_torn ?_ v⟩
        · simp [exponentItems, matchItems, sign, digit]
        · simp [Reading.next, Reading.grow, Reading.leave, sign, digit]
      | true =>
        have joined : joins s = true ∧ Reading.next .powerMark s = some .sign := by
          simp only [signed, Bool.or_eq_true, beq_iff_eq] at sign
          rcases sign with rfl | rfl <;> exact ⟨rfl, rfl⟩
        rw [untorn_joined joined.1, joined.2, Option.any_some]
        cases v with
        | nil => exact .inr ⟨by simp [exponentItems, matchItems, sign, digit], rfl⟩
        | cons g w =>
          cases first : g.isDigit with
          | true =>
            refine .inl ⟨s :: g :: w.takeWhile Char.isDigit, w.dropWhile Char.isDigit, ?_,
              List.cons_ne_nil _ _, ends g w [s] first, ?_, ?_⟩
            · simp only [List.cons_append, List.takeWhile_append_dropWhile]
            · exact match_opt sign (digits_run first w)
            · rw [untorn_word (digit_word first), Reading.grow, if_pos first, Option.any_some,
                untorn_power]
          | false =>
            refine .inr ⟨?_, untorn_torn ?_ w⟩
            · simp [exponentItems, matchItems, sign, digit, first]
            · simp [Reading.next, Reading.grow, Reading.leave, first]

theorem point_first (t : LuaString) : matchLength [.one letter, .star word] ('.' :: t) = none ∧
    matchLength hexItems ('.' :: t) = none ∧ matchLength decimalItems ('.' :: t) = none :=
  ⟨rfl, rfl, rfl⟩

theorem untorn_point (t : LuaString) :
    untornFrom .code .free ('.' :: t) = untornFrom .code .point t := by
  rw [untorn_joined rfl]
  rfl

theorem powerItems_point {d : Char} (digit : d.isDigit = true) (t : LuaString) :
    matchItems powerItems ('.' :: d :: t) [] =
      matchItems (.one powerMark :: exponentItems) (t.dropWhile Char.isDigit) [] := by
  have start : matchItems powerItems ('.' :: d :: t) [] =
      maxExpand Char.isDigit (fun s => matchItems (.one powerMark :: exponentItems) s []) t := by
    simp only [powerItems, matchItems, maxExpand, digit]
    rfl
  rw [start]
  refine maxExpand_run ?_ t
  intro c s fits
  have unmarked : powerMark c = false := by
    cases mark : powerMark c with
    | false => rfl
    | true => rcases powerMark_cases mark with rfl | rfl <;> cases fits
  rw [matchItems, unmarked]
  rfl

theorem fractionItems_point {d : Char} (digit : d.isDigit = true) (t : LuaString) :
    matchItems fractionItems ('.' :: d :: t) [] = some (t.dropWhile Char.isDigit, []) := by
  have start : matchItems fractionItems ('.' :: d :: t) [] =
      matchItems [.plus Char.isDigit] (d :: t) [] := by
    simp only [fractionItems, matchItems, maxExpand]
    rfl
  rw [start, digits_run digit]

theorem untorn_fraction {d : Char} (digit : d.isDigit = true) (t : LuaString) :
    untornFrom .code .free ('.' :: d :: t) =
      untornFrom .code .fraction (t.dropWhile Char.isDigit) := by
  rw [untorn_point, untorn_word (digit_word digit), Reading.grow, if_pos digit, Option.any_some,
    untorn_run (p := Char.isDigit) (fun c h => ⟨digit_word h, by rw [Reading.grow, if_pos h]⟩)]

/-- A number that starts with a point. -/
theorem read_fraction {d : Char} (digit : d.isDigit = true) (t : LuaString) :
    ∃ k, Reads ('.' :: d :: t) k := by
  obtain ⟨no_name, no_hex, no_decimal⟩ := point_first (d :: t)
  have power := powerItems_point digit t
  have fraction := fractionItems_point digit t
  have reading := untorn_fraction digit t
  have ends : endsWord ('.' :: d :: t.takeWhile Char.isDigit) = true :=
    endsWord_append (p := ['.']) (by
      intro e mem
      rcases List.mem_cons.mp mem with rfl | later
      · exact digit_word digit
      · exact digit_word (List.mem_takeWhile_imp later)) (List.cons_ne_nil _ _)
  have shape : '.' :: d :: t = ('.' :: d :: t.takeWhile Char.isDigit) ++
      t.dropWhile Char.isDigit := by
    simp only [List.cons_append, List.takeWhile_append_dropWhile]
  generalize behind : t.dropWhile Char.isDigit = r at power fraction reading shape
  have stops : ∀ e u, r = e :: u → e.isDigit = false := fun e u same =>
    starts_stop (behind.trans same)
  generalize t.takeWhile Char.isDigit = ds at ends shape
  -- the number ends in front of the exponent
  have short : matchItems powerItems ('.' :: d :: t) [] = none →
      untornFrom .code .fraction r = (!startsWord r && untornFrom .code .free r) →
      ∃ k, Reads ('.' :: d :: t) k := by
    intro missed rest
    have missed_power : matchLength powerItems ('.' :: d :: t) = none := by
      rw [matchLength, missed]
      rfl
    refine ⟨('.' :: d :: ds).length, ?_⟩
    rw [shape] at fraction no_name no_hex no_decimal missed_power reading ⊢
    apply reads_left
    · rw [piecePatterns_named, firstLength, firstLength, firstLength, firstLength, firstLength,
        no_name, no_hex, no_decimal, missed_power, matchLength_left fraction]
      rfl
    · rw [reading, rest, ends, Bool.true_and]
  cases r with
  | nil => exact short power rfl
  | cons e u =>
    have other := stops e u rfl
    cases mark : powerMark e with
    | false =>
      refine short (by rw [power, matchItems, mark]; rfl) (untorn_rest rfl ?_)
      rintro e' u' same is_word
      cases same
      rw [untorn_word is_word, Reading.grow, other, mark]
      rfl
    | true =>
      have is_word : word e = true := by
        rcases powerMark_cases mark with rfl | rfl <;> rfl
      have grows : untornFrom .code .fraction (e :: u) = untornFrom .code .powerMark u := by
        rw [untorn_word is_word, Reading.grow, other, if_neg (by decide), if_pos mark,
          Option.any_some]
      rw [matchItems, if_pos mark] at power
      rcases exponent_cases u with ⟨q, x, rfl, nonempty, word_end, found, rest⟩ | ⟨missed, torn⟩
      · rw [found] at power
        have whole : '.' :: d :: t = ('.' :: d :: ds ++ e :: q) ++ x := by
          rw [shape]
          simp
        refine ⟨('.' :: d :: ds ++ e :: q).length, ?_⟩
        have last : endsWord ('.' :: d :: ds ++ e :: q) = true := by
          rw [endsWord, List.getLast?_append_of_ne_nil _ (List.cons_ne_nil _ _), ← endsWord,
            endsWord_cons e q nonempty, word_end]
        rw [whole] at power no_name no_hex no_decimal reading ⊢
        apply reads_left
        · rw [piecePatterns_named, firstLength, firstLength, firstLength, firstLength, no_name,
            no_hex, no_decimal, matchLength_left power]
          rfl
        · rw [reading, grows, rest, last, Bool.true_and]
      · refine short (by rw [power, missed]) ?_
        rw [grows, torn, startsWord, List.head?_cons, Option.any_some, is_word]
        rfl

/-- A point that no digit follows. -/
theorem read_point {t : LuaString} (bare : ∀ d, t.head? = some d → d.isDigit = false) :
    Reads ('.' :: t) 1 := by
  obtain ⟨no_name, no_hex, no_decimal⟩ := point_first t
  have no_digits : ∀ items, matchItems (.plus Char.isDigit :: items) t [] = none := by
    intro items
    cases t with
    | nil => rfl
    | cons d u => rw [matchItems, bare d rfl]; rfl
  have no_power : matchLength powerItems ('.' :: t) = none := by
    have start : matchItems powerItems ('.' :: t) [] =
        matchItems (.plus Char.isDigit :: .one powerMark :: exponentItems) t [] := by
      simp only [powerItems, matchItems, maxExpand]
      rfl
    rw [matchLength, start, no_digits]
    rfl
  have no_fraction : matchLength fractionItems ('.' :: t) = none := by
    have start : matchItems fractionItems ('.' :: t) [] =
        matchItems [.plus Char.isDigit] t [] := by
      simp only [fractionItems, matchItems, maxExpand]
      rfl
    rw [matchLength, start, no_digits]
    rfl
  constructor
  · rw [piecePatterns_named, firstLength, firstLength, firstLength, firstLength, firstLength,
      no_name, no_hex, no_decimal, no_power, no_fraction, Option.none_or, Option.none_or,
      Option.none_or, Option.none_or, Option.none_or, operatorPiece]
    rfl
  · rw [untorn_point]
    cases t with
    | nil => rfl
    | cons d u =>
      have digit := bare d rfl
      have other : (d == '0') = false := by
        rw [beq_eq_false_iff_ne]
        rintro rfl
        cases digit
      have same : Reading.point.next d = Reading.free.next d := by
        rw [Reading.next, Reading.next, Reading.grow, Reading.grow, digit, other]
        rfl
      rw [untornFrom, same, List.take_succ_cons, List.drop_succ_cons, List.drop_zero,
        List.take_zero, show endsWord ['.'] = false from rfl]
      rfl

/-- An operator other than a point. -/
theorem read_operator {c : Char} (other : word c = false) (pointless : c ≠ '.')
    (operates : operator c = true) (plain : quote c = false) {t : LuaString}
    (opens : opensComment (c :: t) = false) : Reads (c :: t) 1 := by
  have no_letter : letter c = false := by
    cases first : letter c with
    | false => rfl
    | true =>
      rw [letter_word first] at other
      cases other
  have no_digit : c.isDigit = false := by
    cases digit : c.isDigit with
    | false => rfl
    | true =>
      rw [digit_word digit] at other
      cases other
  have no_zero : (c == '0') = false := by
    rw [beq_eq_false_iff_ne]
    rintro rfl
    cases other
  have no_point : (c == '.') = false := beq_eq_false_iff_ne.mpr pointless
  constructor
  · simp [piecePatterns, firstLength, matchLength, matchItems, maxExpand, no_letter, no_digit,
      no_zero, no_point, operates]
  · have leaves : Reading.free.next c = some .free := by
      rw [Reading.next, other, if_neg (by decide), Reading.leave_done rfl, no_point]
      rfl
    have ends : endsWord [c] = false := other
    rw [untorn_code .free opens plain, leaves, List.take_succ_cons, List.drop_succ_cons,
      List.drop_zero, List.take_zero, ends]
    rfl

theorem untorn_quoted {sep : Char} {t : LuaString} {n : Nat} (ends : QuoteEnds sep t n) :
    untornFrom (.quoted sep) .free t = untornFrom .code .free (t.drop n) := by
  induction ends with
  | close t =>
    have next : Mode.next (.quoted sep) sep t = .code := by simp [Mode.next]
    rw [untornFrom, next]
    rfl
  | @escape d t n other goes_on _ ih =>
    have one : Mode.next (.quoted sep) '\\' (d :: t) = .escaped sep := by
      simp [Mode.next, other.symm]
    have two : Mode.next (.escaped sep) d t = .quoted sep := by simp [Mode.next, goes_on]
    rw [untornFrom, one, untornFrom, two]
    exact ih
  | @plain c t n other no_break plain _ ih =>
    have next : Mode.next (.quoted sep) c t = .quoted sep := by
      simp [Mode.next, no_break, other, plain]
    rw [untornFrom, next]
    exact ih

theorem untorn_literal {c : Char} (quoted : quote c = true) {t : LuaString} {n : Nat}
    (close : quoteEnd c t = some n) :
    untornFrom .code .free (c :: t) = untornFrom .code .free (t.drop n) := by
  have next : Mode.next .code c t = .quoted c := by
    rw [Mode.next, (quote_solid quoted t).2.2, quoted]
    rfl
  have leaves : Reading.free.next c = some .free := by
    simp only [quote, Bool.or_eq_true, beq_iff_eq] at quoted
    rcases quoted with rfl | rfl <;> rfl
  rw [untornFrom, next, leaves, ← untorn_quoted (quoteEnds_of close)]
  rfl

/-- What a piece takes off the start of a text does not change how the rest is read, but that a
word must not go on behind it. -/
theorem untorn_piece {c : Char} {t : LuaString} {k : Nat} (opens : opensComment (c :: t) = false)
    (found : pieceLength (c :: t) = some k) : untornFrom .code .free (c :: t) =
      (!(endsWord ((c :: t).take k) && startsWord ((c :: t).drop k)) &&
        untornFrom .code .free ((c :: t).drop k)) := by
  have reads : ∀ n, Reads (c :: t) n → firstLength piecePatterns (c :: t) = some k →
      untornFrom .code .free (c :: t) = (!(endsWord ((c :: t).take k) &&
        startsWord ((c :: t).drop k)) && untornFrom .code .free ((c :: t).drop k)) := by
    intro n reads length
    cases reads.piece.symm.trans length
    exact reads.rest
  rw [pieceLength_cons] at found
  cases quoted : quote c with
  | true =>
    rw [if_pos quoted] at found
    obtain ⟨n, close, rfl⟩ := Option.map_eq_some_iff.mp found
    rw [untorn_literal quoted close, List.take_succ_cons, List.drop_succ_cons,
      literal_ends quoted (quoteEnds_of close)]
    rfl
  | false =>
    rw [if_neg (by simp [quoted])] at found
    cases first : letter c with
    | true => exact reads _ (read_name first t) found
    | false =>
      cases digit : c.isDigit with
      | true =>
        by_cases hexed : Hexed (c :: t)
        · rcases t with _ | ⟨m, _ | ⟨h, t⟩⟩
          · exact absurd hexed id
          · exact absurd hexed id
          · obtain ⟨rfl, mark, digits⟩ := hexed
            exact reads _ (read_hex mark digits t) found
        · exact reads _ (read_decimal digit hexed) found
      | false =>
        have other : word c = false := by
          cases is_word : word c with
          | false => rfl
          | true =>
            rcases word_cases is_word with is_letter | is_digit
            · rw [is_letter] at first
              cases first
            · rw [is_digit] at digit
              cases digit
        by_cases point : c = '.'
        · subst point
          cases t with
          | nil => exact reads _ (read_point (fun _ none => by cases none)) found
          | cons d t =>
            cases next : d.isDigit with
            | true =>
              obtain ⟨n, fraction⟩ := read_fraction next t
              exact reads n fraction found
            | false => exact reads _ (read_point (fun _ same => by cases same; exact next)) found
        · cases operates : operator c with
          | true => exact reads _ (read_operator other point operates quoted opens) found
          | false =>
            have single : joins c = false := by
              cases joined : joins c with
              | false => rfl
              | true =>
                simp only [joins, Bool.or_eq_true, beq_iff_eq, other, Bool.false_eq_true,
                  false_or] at joined
                rcases joined with (rfl | rfl) | rfl <;> cases operates
            rw [firstLength_dark single, operates] at found
            cases found

/-- Pieces laid out in a text. Each of them is whole if no number of the text is torn. -/
structure Pieced (gap : Bool) (parts : List (Bool × LuaString)) (t : LuaString) : Prop where
  laid : Laid gap parts t
  proper : properFrom .code t = true
  whole : ∀ prev, Whole prev parts ↔
    (prev = true → gap = false → startsWord t = false) ∧ untornFrom .code .free t = true

theorem Pieced.nil (gap : Bool) : Pieced gap [] [] :=
  ⟨.nil gap, rfl, fun _ => ⟨fun _ => ⟨fun _ _ => rfl, rfl⟩, fun _ => trivial⟩⟩

theorem white_other {c : Char} (blank : white c = true) : word c = false := by
  simp only [white, Bool.or_eq_true, beq_iff_eq] at blank
  rcases blank with ((((rfl | rfl) | rfl) | rfl) | rfl) | rfl <;> rfl

theorem Pieced.skip {c : Char} {gap : Bool} {parts : List (Bool × LuaString)} {t : LuaString}
    (blank : white c = true) (rest : Pieced true parts t) : Pieced gap parts (c :: t) := by
  obtain ⟨slash, _, plain⟩ := white_shape blank
  have other := white_other blank
  have pointless : (c == '.') = false := by
    rw [beq_eq_false_iff_ne]
    rintro rfl
    cases blank
  refine ⟨.skip blank rest.laid, ?_, ?_⟩
  · rw [proper_code (opens_slash slash) plain, rest.proper]
  · intro prev
    have starts : startsWord (c :: t) = false := other
    have reading : untornFrom .code .free (c :: t) = untornFrom .code .free t := by
      rw [untorn_code .free (opens_slash slash) plain, Reading.next, other, if_neg (by decide),
        Reading.leave_done rfl, pointless]
      rfl
    rw [rest.whole, starts, reading]
    exact and_congr_left fun _ => ⟨fun _ _ _ => rfl, fun _ _ no => by cases no⟩

theorem Pieced.part {p : LuaString} {gap : Bool} {parts : List (Bool × LuaString)} {t : LuaString}
    (nonempty : p ≠ []) (passes : Passes .code p t) (proper : properFrom .code (p ++ t) = true)
    (reading : untornFrom .code .free (p ++ t) =
      (!(endsWord p && startsWord t) && untornFrom .code .free t))
    (rest : Pieced false parts t) : Pieced gap ((gap, p) :: parts) (p ++ t) := by
  refine ⟨.part nonempty passes rest.laid, proper, ?_⟩
  intro prev
  obtain ⟨c, p, rfl⟩ := List.exists_cons_of_ne_nil nonempty
  rw [Whole, rest.whole, reading]
  refine and_congr Iff.rfl ?_
  cases endsWord (c :: p) <;> cases startsWord t <;> simp

/-- The pieces that ccruncher finds in an accepted text without comments, laid out in it. -/
theorem crunched_laid {t : LuaString} {P : List LuaString} (free : blankFrom .code t = some t)
    (run : crunched t = some (P, true)) (gap : Bool) :
    ∃ parts, parts.map Prod.snd = P ∧ Pieced gap parts t := by
  induction n : t.length using Nat.strong_induction_on generalizing t P gap with
  | _ n ih =>
    subst n
    cases t with
    | nil =>
      cases run
      exact ⟨[], rfl, .nil gap⟩
    | cons c t =>
      cases blank : white c with
      | true =>
        have ordinary : c = '\n' → startsDirective t = false := by
          rintro rfl
          cases directive : startsDirective t with
          | false => rfl
          | true =>
            rw [crunched_directive directive] at run
            cases run
        rw [crunched_white blank t ordinary] at run
        rw [white_blank blank, Option.map_eq_some_iff] at free
        obtain ⟨u, free, same⟩ := free
        rw [(List.cons.inj same).2] at free
        obtain ⟨parts, texts, pieced⟩ := ih t.length (Nat.lt_succ_self _) free run true rfl
        exact ⟨parts, texts, .skip blank pieced⟩
      | false =>
        have opens : opensComment (c :: t) = false := by
          cases opens : opensComment (c :: t) with
          | false => rfl
          | true =>
            obtain ⟨u, shape⟩ := (opensComment_iff _).mp opens
            rw [shape, opened_blank, Option.map_eq_some_iff] at free
            obtain ⟨b, _, same⟩ := free
            cases same
        have solid : Solid (c :: t) := ⟨blank, opens⟩
        have piece := samePiece solid (List.cons_ne_nil c t) free
        rw [crunched_solid solid (List.cons_ne_nil c t)] at run
        cases found : pieceLength (c :: t) with
        | none =>
          rw [found] at run
          cases run
        | some k =>
          obtain ⟨p, x, b', shape, shape', length, passes, rest⟩ := piece.passes k found
          have positive := pieceLength_pos found
          have same : b' = x := List.append_cancel_left (shape'.symm.trans shape)
          subst same
          have split : (c :: t).take k = p ∧ (c :: t).drop k = b' := by
            rw [shape, ← length, List.take_left, List.drop_left]
            exact ⟨rfl, rfl⟩
          rw [found] at run
          simp only [split.1, split.2, Option.map_eq_some_iff, Prod.mk.injEq] at run
          obtain ⟨⟨P, done⟩, run, rfl, rfl⟩ := run
          have fewer : b'.length < (c :: t).length := by
            rw [shape, List.length_append]
            omega
          obtain ⟨parts, texts, pieced⟩ := ih b'.length fewer rest run false rfl
          have nonempty : p ≠ [] := by
            rintro rfl
            rw [← length] at positive
            exact absurd positive (Nat.lt_irrefl 0)
          have reading := untorn_piece opens found
          have proper := piece_proper opens found (split.2 ▸ pieced.proper)
          rw [split.1, split.2, shape] at reading
          rw [shape] at proper ⊢
          exact ⟨(gap, p) :: parts, by rw [List.map_cons, texts],
            .part nonempty passes proper reading pieced⟩

end PrimeMover.Cruncher
