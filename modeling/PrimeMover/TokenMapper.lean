import PrimeMover.Value
import PrimeMover.Numeration

/-! The names that tokenmapper.lua makes up: a letter, then a character that starts no
number suffix, then anything an identifier may hold. -/
namespace PrimeMover
open Numeration

def t1 : LuaString := "abcdefghijklmnopqrstuvwxyz".toList ++ "ABCDEFGHIJKLMNOPQSTUVWXYZ".toList
def lt1 : Nat := t1.length
def t2 : LuaString := "_0123456789".toList
def lt2 : Nat := t2.length
def t3 : LuaString := t1 ++ t2 ++ "R".toList
def lt3 : Nat := t3.length

/-- `string_sub(s, n+1, n+1)` -/
def charof (s : LuaString) (n : Nat) : LuaString := (s.drop n).take 1

theorem carry_lt {n : Nat} (large : lt3 ≤ n) : n / lt3 - 1 < n := by
  have positive : 0 < lt3 := by decide
  have smaller : n / lt3 ≤ n := Nat.div_le_self n lt3
  omega

/-- The loop `while (n >= lt3)`. -/
def higherPlaces (n : Nat) : LuaString :=
  if _large : lt3 ≤ n then
    let m := n / lt3 - 1
    charof t3 (m % lt3) ++ higherPlaces m
  else []
termination_by n
decreasing_by exact carry_lt _large

/-- The token and the new value of `tokennumber`. -/
def gettoken (tokennumber : Nat) : LuaString × Nat :=
  let n := tokennumber
  let s := charof t1 (n % lt1) ++
    if lt1 ≤ n then
      let n := n / lt1 - 1
      charof t2 (n % lt2) ++
        if lt2 ≤ n then
          let n := n / lt2 - 1
          charof t3 (n % lt3) ++ higherPlaces n
        else []
    else []
  (s, tokennumber + 1)

/-- `tokennumber` after the first calls. -/
def numberAfter : Nat → Nat
  | 0 => 0
  | calls + 1 => (gettoken (numberAfter calls)).2

/-- What the call of number n returns, counted from 0. -/
def nthToken (n : Nat) : LuaString := (gettoken (numberAfter n)).1

/-- A letter other than R, alone or followed by one of `_0123456789` and then any letters,
digits or underscores. -/
def TokenShape (s : LuaString) : Prop :=
  ∃ c rest, s = c :: rest ∧ c.isAlpha ∧ c ≠ 'R' ∧
    (rest = [] ∨ ∃ d tail, rest = d :: tail ∧ (d = '_' ∨ d.isDigit) ∧
      ∀ x ∈ tail, x = '_' ∨ x.isAlphanum)

theorem codes_t1 : t1.map Char.toNat =
    List.range' 97 26 ++ (List.range' 65 17 ++ List.range' 83 8) := by
  unfold t1
  repeat rw [String.toList_ofList]
  decide +kernel

theorem codes_t2 : t2.map Char.toNat = 95 :: List.range' 48 10 := by
  unfold t2
  rw [String.toList_ofList]
  decide +kernel

theorem codes_t3 : t3.map Char.toNat = List.range' 97 26 ++ (List.range' 65 17 ++
    List.range' 83 8) ++ 95 :: List.range' 48 10 ++ [82] := by
  rw [t3, List.map_append, List.map_append, codes_t1, codes_t2]
  rfl

theorem t1_distinct : t1.Nodup := by
  apply List.Nodup.of_map Char.toNat
  rw [codes_t1]
  decide +kernel

theorem t2_distinct : t2.Nodup := by
  apply List.Nodup.of_map Char.toNat
  rw [codes_t2]
  decide +kernel

theorem t3_distinct : t3.Nodup := by
  apply List.Nodup.of_map Char.toNat
  rw [codes_t3]
  decide +kernel

theorem t3_nonempty : t3 ≠ [] := by decide

def alphabets : Alphabets Char where
  letters
    | 0 => t1
    | 1 => t2
    | _ + 2 => t3
  nonempty
    | 0 => by decide
    | 1 => by decide
    | _ + 2 => t3_nonempty
  distinct
    | 0 => t1_distinct
    | 1 => t2_distinct
    | _ + 2 => t3_distinct

theorem mem_codes (c : Char) (s : LuaString) : c ∈ s ↔ c.toNat ∈ s.map Char.toNat :=
  (List.mem_map_of_injective fun _ _ => Char.toNat_inj.mp).symm

theorem alpha_codes (c : Char) :
    c.isAlpha ↔ 65 ≤ c.toNat ∧ c.toNat ≤ 90 ∨ 97 ≤ c.toNat ∧ c.toNat ≤ 122 := by
  have shape : c.isAlpha = (decide ('A'.val ≤ c.val ∧ c.val ≤ 'Z'.val) ||
      (decide ('a'.val ≤ c.val) && decide (c.val ≤ 'z'.val))) := rfl
  simp [shape, UInt32.le_iff_toNat_le]

theorem digit_codes (c : Char) : c.isDigit ↔ 48 ≤ c.toNat ∧ c.toNat ≤ 57 := by
  have shape : c.isDigit = (decide ('0'.val ≤ c.val) && decide (c.val ≤ '9'.val)) := rfl
  simp [shape, UInt32.le_iff_toNat_le]

theorem mem_t1 (c : Char) : c ∈ t1 ↔ c.isAlpha ∧ c ≠ 'R' := by
  have other : c ≠ 'R' ↔ c.toNat ≠ 82 := Char.toNat_inj.symm.not
  rw [mem_codes, codes_t1, alpha_codes, other]
  simp only [List.mem_append, List.mem_range'_1]
  omega

theorem mem_t2 (c : Char) : c ∈ t2 ↔ c = '_' ∨ c.isDigit := by
  have score : c = '_' ↔ c.toNat = 95 := Char.toNat_inj.symm
  rw [mem_codes, codes_t2, digit_codes, score]
  simp only [List.mem_cons, List.mem_range'_1]
  omega

theorem mem_t3 (c : Char) : c ∈ t3 ↔ c = '_' ∨ c.isAlphanum := by
  have score : c = '_' ↔ c.toNat = 95 := Char.toNat_inj.symm
  rw [mem_codes, codes_t3, Char.isAlphanum, Bool.or_eq_true, alpha_codes, digit_codes, score]
  simp only [List.mem_append, List.mem_cons, List.mem_range'_1, List.not_mem_nil, or_false]
  omega

theorem charof_get (s : LuaString) (n : Nat) (inside : n < s.length) :
    charof s n = [s.get ⟨n, inside⟩] := by
  rw [charof, List.drop_eq_getElem_cons inside]
  rfl

/-- One place of the numeral, with what the places above it give. -/
theorem place (a : Alphabets Char) (n : Nat) {rest : LuaString}
    (higher : rest = numeralOf a.above (n / a.size 0)) :
    charof (a.letters 0) (n % a.size 0) ++ rest = numeralOf a (n + 1) := by
  have digit : charof (a.letters 0) (n % a.size 0) = [a.digit 0 n] :=
    charof_get _ _ (Nat.mod_lt n (a.size_pos 0))
  rw [numeralOf_succ, higher, digit, List.singleton_append]

/-- The code carries one less than the quotient, or stops when nothing is left. -/
theorem carried (a : Alphabets Char) {l : Nat} (positive : 0 < l) (n : Nat) {f : Nat → LuaString}
    (next : ∀ m, m < n → f m = numeralOf a (m + 1)) :
    (if l ≤ n then f (n / l - 1) else []) = numeralOf a (n / l) := by
  by_cases large : l ≤ n
  · have left : 0 < n / l := Nat.div_pos large positive
    have smaller : n / l ≤ n := Nat.div_le_self n l
    rw [if_pos large, next _ (by omega), Nat.sub_add_cancel left]
  · rw [if_neg large, Nat.div_eq_of_lt (by omega), numeralOf_zero]

theorem higherPlaces_numeral (n : Nat) :
    higherPlaces n = numeralOf alphabets.above.above (n / lt3) := by
  induction n using Nat.strongRecOn with
  | _ n ih =>
    have next : ∀ m, m < n → charof t3 (m % lt3) ++ higherPlaces m =
        numeralOf alphabets.above.above (m + 1) := by
      intro m smaller
      exact place alphabets.above.above m (ih m smaller)
    rw [higherPlaces]
    exact carried alphabets.above.above (by decide) n next

theorem numberAfter_eq (n : Nat) : numberAfter n = n := by
  induction n with
  | zero => rfl
  | succ n ih => simp only [numberAfter, gettoken, ih]

theorem gettoken_nth (n : Nat) : (gettoken n).1 = nthToken n := by
  rw [nthToken, numberAfter_eq]

/-- The n-th token is the numeral of n + 1. -/
theorem nthToken_numeral (n : Nat) : nthToken n = numeralOf alphabets (n + 1) := by
  rw [← gettoken_nth]
  apply place alphabets
  apply carried alphabets.above (f := fun n => charof t2 (n % lt2) ++
    if lt2 ≤ n then charof t3 ((n / lt2 - 1) % lt3) ++ higherPlaces (n / lt2 - 1) else [])
    (by decide) n
  intro m _
  apply place alphabets.above
  apply carried alphabets.above.above (f := fun n => charof t3 (n % lt3) ++ higherPlaces n)
    (by decide) m
  intro k _
  exact place alphabets.above.above k (higherPlaces_numeral k)

theorem spelled_above (s : LuaString) :
    InAlphabets alphabets.above.above s ↔ ∀ x ∈ s, x = '_' ∨ x.isAlphanum := by
  induction s with
  | nil => simp [InAlphabets]
  | cons c s ih =>
    have here : c ∈ alphabets.above.above.letters 0 ↔ c = '_' ∨ c.isAlphanum := mem_t3 c
    have rest : InAlphabets alphabets.above.above.above s ↔ ∀ x ∈ s, x = '_' ∨ x.isAlphanum := ih
    simp only [InAlphabets, here, rest, List.forall_mem_cons]

/-- The shape of the tokens is that of the numerals above 0. -/
theorem tokenShape_iff (s : LuaString) : TokenShape s ↔ s ≠ [] ∧ InAlphabets alphabets s := by
  have first : ∀ c, c ∈ alphabets.letters 0 ↔ c.isAlpha ∧ c ≠ 'R' := mem_t1
  have second : ∀ c, c ∈ alphabets.above.letters 0 ↔ c = '_' ∨ c.isDigit := mem_t2
  cases s with
  | nil => simp [TokenShape]
  | cons c rest =>
    cases rest with
    | nil => simp [TokenShape, InAlphabets, first]
    | cons d tail => simp [TokenShape, InAlphabets, first, second, spelled_above, and_assoc]

theorem nthToken_injective {m n : Nat} (same : nthToken m = nthToken n) : m = n := by
  rw [nthToken_numeral, nthToken_numeral] at same
  exact Nat.succ.inj (numeralOf_injective alphabets same)

/-- No two tokens are the same, every token has the shape, and every string of the shape is
the token of one number. -/
theorem tokens_bijective :
    Function.Injective nthToken ∧ (∀ n, TokenShape (nthToken n)) ∧
    ∀ s, TokenShape s → ∃! n, nthToken n = s := by
  refine ⟨fun m n same => nthToken_injective same, ?_, ?_⟩
  · intro n
    rw [nthToken_numeral, tokenShape_iff]
    exact ⟨by simp [numeralOf_succ], numeralOf_inAlphabets alphabets (n + 1)⟩
  · intro s shape
    obtain ⟨nonempty, spelled⟩ := (tokenShape_iff s).mp shape
    have number := numeralOf_value alphabets s spelled
    cases hv : value alphabets s with
    | zero =>
      rw [hv, numeralOf_zero] at number
      exact absurd number.symm nonempty
    | succ n =>
      rw [hv] at number
      refine ⟨n, (nthToken_numeral n).trans number, ?_⟩
      intro m same
      exact nthToken_injective (same.trans ((nthToken_numeral n).trans number).symm)

end PrimeMover
