import Mathlib.Data.List.Basic
import Mathlib.Data.List.TakeWhile

/-! The tokens of C90 outside of directives, by maximal munch. Comments are passed over like
white space; a line break ends no comment, but no literal goes over one. -/
namespace CTokens

def white (c : Char) : Bool :=
  c == ' ' || c == '\t' || c == '\n' || c == '\r' || c == Char.ofNat 11 || c == Char.ofNat 12

/-- The characters an identifier starts with. -/
def letter (c : Char) : Bool := c.isAlpha || c == '_'

def word (c : Char) : Bool := c.isAlphanum || c == '_'

theorem letter_word {c : Char} (h : letter c = true) : word c = true := by
  rw [letter, Bool.or_eq_true] at h
  rw [word, Bool.or_eq_true, Char.isAlphanum, Bool.or_eq_true]
  exact h.imp .inl id

theorem digit_word {c : Char} (h : c.isDigit = true) : word c = true := by
  rw [word, Char.isAlphanum, h, Bool.or_true, Bool.true_or]

/-- The length of a literal from behind its opening quote to the closing one. -/
def quoteEnd (sep : Char) : List Char → Option Nat
  | [] => none
  | [c] => if c == sep then some 1 else none
  | c :: d :: s =>
    if c == sep then some 1
    else if c == '\n' then none
    else if c == '\\' then
      if d == '\n' then none else (quoteEnd sep s).map (· + 2)
    else (quoteEnd sep (d :: s)).map (· + 1)

section
variable {sep : Char}

theorem quoteEnd_cons {c : Char} (other : c ≠ sep) (line : c ≠ '\n') (plain : c ≠ '\\')
    (t : List Char) : quoteEnd sep (c :: t) = (quoteEnd sep t).map (· + 1) := by
  cases t with
  | nil => simp [quoteEnd, other]
  | cons d t => simp [quoteEnd, other, line, plain]

/-- Where a literal ends, character by character. -/
inductive QuoteEnds (sep : Char) : List Char → Nat → Prop
  | close (t : List Char) : QuoteEnds sep (sep :: t) 1
  | escape {d : Char} {t : List Char} {n : Nat} (other : sep ≠ '\\') (line : d ≠ '\n')
      (rest : QuoteEnds sep t n) : QuoteEnds sep ('\\' :: d :: t) (n + 2)
  | plain {c : Char} {t : List Char} {n : Nat} (other : c ≠ sep) (line : c ≠ '\n')
      (plain : c ≠ '\\') (rest : QuoteEnds sep t n) : QuoteEnds sep (c :: t) (n + 1)

theorem QuoteEnds.eq {t : List Char} {n : Nat} (ends : QuoteEnds sep t n) :
    quoteEnd sep t = some n := by
  induction ends with
  | close t => cases t <;> simp [quoteEnd]
  | escape other line _ ih => simp [quoteEnd, other.symm, line, ih]
  | plain other line plain _ ih => rw [quoteEnd_cons other line plain, ih]; rfl

theorem quoteEnds_of : ∀ {t : List Char} {n : Nat}, quoteEnd sep t = some n → QuoteEnds sep t n
  | [], _, found => by cases found
  | [c], n, found => by
    simp only [quoteEnd, beq_iff_eq] at found
    split at found
    · rename_i same
      cases found
      exact same ▸ .close []
    · cases found
  | c :: d :: t, n, found => by
    simp only [quoteEnd, beq_iff_eq] at found
    split at found
    · rename_i same
      cases found
      exact same ▸ .close (d :: t)
    · rename_i other
      split at found
      · cases found
      · rename_i no_break
        split at found
        · rename_i backslash
          split at found
          · cases found
          · rename_i goes_on
            obtain ⟨k, later, rfl⟩ := Option.map_eq_some_iff.mp found
            subst backslash
            exact .escape (fun same => other same.symm) goes_on (quoteEnds_of later)
        · rename_i plain
          obtain ⟨k, later, rfl⟩ := Option.map_eq_some_iff.mp found
          exact .plain other no_break plain (quoteEnds_of later)

theorem quoteEnd_le {t : List Char} {n : Nat} (found : quoteEnd sep t = some n) :
    n ≤ t.length := by
  induction quoteEnds_of found with
  | close t => simp
  | escape other line rest ih => simpa using ih rest.eq
  | plain other line plain rest ih => simpa using ih rest.eq

end

/-- The length of a string literal or character constant. -/
def literal : List Char → Option Nat
  | [] => none
  | c :: s => if c == '"' || c == '\'' then (quoteEnd c s).map (· + 1) else none

/-- The character extends a number that ends in `last`. -/
def extends_number (last c : Char) : Bool :=
  word c || c == '.' || ((c == '+' || c == '-') && (last == 'e' || last == 'E'))

def numberTail (last : Char) : List Char → Nat
  | [] => 0
  | c :: s => if extends_number last c then numberTail c s + 1 else 0

def startsNumber (c : Char) (s : List Char) : Bool :=
  c.isDigit || (c == '.' && s.head?.any Char.isDigit)

def operators3 : List (List Char) := ["...".toList, "<<=".toList, ">>=".toList]

def operators2 : List (List Char) :=
  ["->".toList, "++".toList, "--".toList, "<<".toList, ">>".toList, "<=".toList, ">=".toList,
    "==".toList, "!=".toList, "&&".toList, "||".toList, "*=".toList, "/=".toList, "%=".toList,
    "+=".toList, "-=".toList, "&=".toList, "^=".toList, "|=".toList, "##".toList]

def operatorLength (s : List Char) : Nat :=
  if s.take 3 ∈ operators3 then 3 else if s.take 2 ∈ operators2 then 2 else 1

/-- A literal behind the letter of its prefix. -/
def prefixed (c : Char) (s : List Char) : Option Nat := if c == 'L' then literal s else none

/-- The length of the longest token at the start of a text. -/
def munch : List Char → Nat
  | [] => 0
  | c :: s =>
    if letter c then
      match prefixed c s with
      | some n => n + 1
      | none => (s.takeWhile word).length + 1
    else if startsNumber c s then numberTail c s + 1
    else
      match literal (c :: s) with
      | some n => n
      | none => operatorLength (c :: s)

/-- The text behind the first `*/`. -/
def afterComment : List Char → List Char
  | [] => []
  | c :: s => if c == '*' && s.head? == some '/' then s.tail else afterComment s

def opensComment (s : List Char) : Bool := s.take 2 == "/*".toList

def lexFrom : Nat → List Char → List (List Char)
  | 0, _ => []
  | _ + 1, [] => []
  | n + 1, c :: s =>
    if white c then lexFrom n s
    else if opensComment (c :: s) then lexFrom n (afterComment s.tail)
    else (c :: s).take (munch (c :: s)) :: lexFrom n ((c :: s).drop (munch (c :: s)))

/-- The tokens of a text. -/
def lex (s : List Char) : List (List Char) := lexFrom s.length s

example : lex "a+++b /* c */ 0x1F.e+1 L'x' \"s\"".toList =
    ["a".toList, "++".toList, "+".toList, "b".toList, "0x1F.e+1".toList, "L'x'".toList,
      "\"s\"".toList] := by decide +kernel

theorem literal_quoteEnd {s : List Char} {n : Nat} (found : literal s = some n) :
    ∃ c t k, s = c :: t ∧ (c = '"' ∨ c = '\'') ∧ quoteEnd c t = some k ∧ n = k + 1 := by
  cases s with
  | nil => cases found
  | cons c t =>
    rw [literal] at found
    split at found
    · rename_i quoted
      obtain ⟨k, close, rfl⟩ := Option.map_eq_some_iff.mp found
      exact ⟨c, t, k, rfl, by simpa using quoted, close, rfl⟩
    · cases found

theorem literal_le {s : List Char} {n : Nat} (found : literal s = some n) : n ≤ s.length := by
  obtain ⟨c, t, k, rfl, _, close, rfl⟩ := literal_quoteEnd found
  exact Nat.succ_le_succ (quoteEnd_le close)

theorem numberTail_le (last : Char) (s : List Char) : numberTail last s ≤ s.length := by
  induction s generalizing last with
  | nil => exact Nat.le_refl 0
  | cons c s ih =>
    rw [numberTail]
    split
    · exact Nat.succ_le_succ (ih c)
    · exact Nat.zero_le _

theorem operatorLength_cases (s : List Char) : operatorLength s = 3 ∧ s.take 3 ∈ operators3 ∨
    operatorLength s = 2 ∧ s.take 2 ∈ operators2 ∨ operatorLength s = 1 := by
  rw [operatorLength]
  split
  · rename_i three
    exact .inl ⟨rfl, three⟩
  · split
    · rename_i two
      exact .inr (.inl ⟨rfl, two⟩)
    · exact .inr (.inr rfl)

theorem operators_lengths :
    (∀ p ∈ operators3, p.length = 3) ∧ ∀ p ∈ operators2, p.length = 2 := by decide

theorem operatorLength_le {s : List Char} (nonempty : s ≠ []) : operatorLength s ≤ s.length := by
  have positive := List.length_pos_iff.mpr nonempty
  rcases operatorLength_cases s with ⟨same, three⟩ | ⟨same, two⟩ | same
  · have := operators_lengths.1 _ three
    rw [List.length_take] at this
    omega
  · have := operators_lengths.2 _ two
    rw [List.length_take] at this
    omega
  · omega

theorem munch_bounds (c : Char) (s : List Char) :
    0 < munch (c :: s) ∧ munch (c :: s) ≤ (c :: s).length := by
  rw [munch]
  split
  · cases found : prefixed c s with
    | none => exact ⟨Nat.succ_pos _, Nat.succ_le_succ (List.takeWhile_prefix word).length_le⟩
    | some n =>
      rw [prefixed] at found
      split at found
      · exact ⟨Nat.succ_pos n, Nat.succ_le_succ (literal_le found)⟩
      · cases found
  · split
    · exact ⟨Nat.succ_pos _, Nat.succ_le_succ (numberTail_le c s)⟩
    · cases found : literal (c :: s) with
      | some n =>
        obtain ⟨_, _, k, _, _, _, rfl⟩ := literal_quoteEnd found
        exact ⟨Nat.succ_pos k, literal_le found⟩
      | none =>
        refine ⟨?_, operatorLength_le (List.cons_ne_nil c s)⟩
        rcases operatorLength_cases (c :: s) with ⟨same, _⟩ | ⟨same, _⟩ | same <;>
          simp only [same] <;> decide

theorem afterComment_le (s : List Char) : (afterComment s).length ≤ s.length := by
  induction s with
  | nil => exact Nat.le_refl 0
  | cons c s ih =>
    rw [afterComment]
    split
    · rw [List.length_tail, List.length_cons]
      omega
    · exact Nat.le_succ_of_le ih

/-- The fuel does not matter as long as it reaches to the end. -/
theorem lexFrom_fuel (n : Nat) (s : List Char) (enough : s.length ≤ n) : lexFrom n s = lex s := by
  suffices general : ∀ n m (s : List Char), s.length ≤ n → s.length ≤ m →
      lexFrom n s = lexFrom m s from general n s.length s enough (Nat.le_refl _)
  intro n
  induction n with
  | zero =>
    intro m s none _
    rw [List.length_eq_zero_iff.mp (Nat.le_zero.mp none)]
    cases m <;> rfl
  | succ n ih =>
    intro m s less other
    cases s with
    | nil => cases m <;> rfl
    | cons c s =>
      cases m with
      | zero => cases other
      | succ m =>
        simp only [List.length_cons, Nat.succ_le_succ_iff] at less other
        have bounds := munch_bounds c s
        have shorter := afterComment_le s.tail
        rw [List.length_tail] at shorter
        rw [lexFrom, lexFrom, ih m s less other,
          ih m (afterComment s.tail) (by omega) (by omega),
          ih m ((c :: s).drop (munch (c :: s))) (by simp; omega) (by simp; omega)]

theorem lex_white {c : Char} (blank : white c = true) (s : List Char) : lex (c :: s) = lex s := by
  rw [lex, List.length_cons, lexFrom, if_pos blank, lex]

theorem lex_opened {c : Char} {s : List Char} (dark : white c = false)
    (opens : opensComment (c :: s) = true) : lex (c :: s) = lex (afterComment s.tail) := by
  have shorter := afterComment_le s.tail
  rw [List.length_tail] at shorter
  rw [lex, List.length_cons, lexFrom, if_neg (by simp [dark]), if_pos opens]
  exact lexFrom_fuel _ _ (by omega)

theorem lex_token {c : Char} {s : List Char} (dark : white c = false)
    (opens : opensComment (c :: s) = false) : lex (c :: s) =
      (c :: s).take (munch (c :: s)) :: lex ((c :: s).drop (munch (c :: s))) := by
  have bounds := munch_bounds c s
  rw [lex, List.length_cons, lexFrom, if_neg (by simp [dark]), if_neg (by simp [opens])]
  rw [lexFrom_fuel _ _ (by simp; omega)]

end CTokens
