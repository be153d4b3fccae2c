import Mathlib.Data.List.Basic
import Mathlib.Data.List.Nodup

/-! Bijective numeration with an alphabet of its own for each place. Every number has one
numeral, the empty one stands for 0, and every string whose letters come from the alphabets
of their places is the numeral of one number. -/
namespace Numeration

/-- An alphabet for each place, the first one for the lowest. -/
structure Alphabets (A : Type) where
  letters : Nat → List A
  nonempty : ∀ k, letters k ≠ []
  distinct : ∀ k, (letters k).Nodup

variable {A : Type}

def Alphabets.size (a : Alphabets A) (k : Nat) : Nat := (a.letters k).length

theorem Alphabets.size_pos (a : Alphabets A) (k : Nat) : 0 < a.size k :=
  List.length_pos_iff.mpr (a.nonempty k)

def Alphabets.digit (a : Alphabets A) (k n : Nat) : A :=
  (a.letters k).get ⟨n % a.size k, Nat.mod_lt n (a.size_pos k)⟩

/-- The alphabets without the one of the lowest place. -/
def Alphabets.above (a : Alphabets A) : Alphabets A where
  letters k := a.letters (k + 1)
  nonempty k := a.nonempty (k + 1)
  distinct k := a.distinct (k + 1)

/-- The numeral of a number, the lowest place first. -/
def numeralOf (a : Alphabets A) : Nat → List A
  | 0 => []
  | n + 1 => a.digit 0 n :: numeralOf a.above (n / a.size 0)
termination_by n => n
decreasing_by exact Nat.lt_succ_of_le (Nat.div_le_self n _)

/-- Every letter stands in the alphabet of its place. -/
def InAlphabets (a : Alphabets A) : List A → Prop
  | [] => True
  | c :: s => c ∈ a.letters 0 ∧ InAlphabets a.above s

def value [DecidableEq A] (a : Alphabets A) : List A → Nat
  | [] => 0
  | c :: s => (a.letters 0).idxOf c + a.size 0 * value a.above s + 1

@[simp] theorem numeralOf_zero (a : Alphabets A) : numeralOf a 0 = [] := by rw [numeralOf]

theorem numeralOf_succ (a : Alphabets A) (n : Nat) :
    numeralOf a (n + 1) = a.digit 0 n :: numeralOf a.above (n / a.size 0) := by rw [numeralOf]

theorem numeralOf_inAlphabets (a : Alphabets A) (n : Nat) : InAlphabets a (numeralOf a n) := by
  induction n using Nat.strongRecOn generalizing a with
  | _ n ih =>
    cases n with
    | zero => simp [InAlphabets]
    | succ n =>
      rw [numeralOf_succ]
      exact ⟨List.get_mem _ _, ih _ (Nat.lt_succ_of_le (Nat.div_le_self n _)) a.above⟩

variable [DecidableEq A]

theorem digit_index (a : Alphabets A) (n : Nat) :
    (a.letters 0).idxOf (a.digit 0 n) = n % a.size 0 :=
  List.get_idxOf (a.distinct 0) ⟨n % a.size 0, Nat.mod_lt n (a.size_pos 0)⟩

theorem value_numeralOf (a : Alphabets A) (n : Nat) : value a (numeralOf a n) = n := by
  induction n using Nat.strongRecOn generalizing a with
  | _ n ih =>
    cases n with
    | zero => simp [value]
    | succ n =>
      have rest := ih _ (Nat.lt_succ_of_le (Nat.div_le_self n (a.size 0))) a.above
      rw [numeralOf_succ]
      simp only [value, digit_index, rest, Nat.mod_add_div]

theorem numeralOf_value (a : Alphabets A) (s : List A) (spelled : InAlphabets a s) :
    numeralOf a (value a s) = s := by
  induction s generalizing a with
  | nil => exact numeralOf_zero a
  | cons c s ih =>
    obtain ⟨here, rest⟩ := spelled
    have low : (a.letters 0).idxOf c < a.size 0 := List.idxOf_lt_length_iff.mpr here
    have lower : ((a.letters 0).idxOf c + a.size 0 * value a.above s) % a.size 0 =
        (a.letters 0).idxOf c := by
      rw [Nat.add_mul_mod_self_left, Nat.mod_eq_of_lt low]
    have upper : ((a.letters 0).idxOf c + a.size 0 * value a.above s) / a.size 0 =
        value a.above s := by
      rw [Nat.add_mul_div_left _ _ (a.size_pos 0), Nat.div_eq_of_lt low, Nat.zero_add]
    rw [value, numeralOf_succ, upper, ih a.above rest]
    have digit : a.digit 0 ((a.letters 0).idxOf c + a.size 0 * value a.above s) = c := by
      simp only [Alphabets.digit, lower]
      exact List.idxOf_get _
    rw [digit]

theorem numeralOf_injective (a : Alphabets A) : Function.Injective (numeralOf a) := by
  intro m n same
  rw [← value_numeralOf a m, ← value_numeralOf a n, same]

end Numeration
