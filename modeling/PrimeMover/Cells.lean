import Mathlib.Data.List.Basic

/-! The array part of a Lua table: cells that may hold nil, and the items a loop over the
array reaches. -/
namespace LuaArray

variable {V : Type}

def cell (cells : List (Option V)) (i : Nat) : Option V := cells[i]?.join

/-- The items before the first nil. -/
def front : List (Option V) → List V
  | some v :: cells => v :: front cells
  | _ => []

/-- `t[i + 1] = v` -/
def put : List (Option V) → Nat → V → List (Option V)
  | [], 0, v => [some v]
  | [], i + 1, v => none :: put [] i v
  | _ :: cells, 0, v => some v :: cells
  | c :: cells, i + 1, v => c :: put cells i v

@[simp] theorem cell_nil (i : Nat) : cell ([] : List (Option V)) i = none := rfl

@[simp] theorem cell_cons_zero (c : Option V) (cells : List (Option V)) : cell (c :: cells) 0 = c := by
  cases c <;> rfl

@[simp] theorem cell_cons_succ (c : Option V) (cells : List (Option V)) (i : Nat) :
    cell (c :: cells) (i + 1) = cell cells i := by
  simp [cell]

theorem cell_put (cells : List (Option V)) (i j : Nat) (v : V) :
    cell (put cells i v) j = if j = i then some v else cell cells j := by
  induction cells generalizing i j with
  | nil =>
    induction i generalizing j with
    | zero => cases j <;> simp [put]
    | succ i ih => cases j <;> simp [put, ih]
  | cons c cells ih =>
    cases i with
    | zero => cases j <;> simp [put]
    | succ i => cases j <;> simp [put, ih]

@[simp] theorem front_some (vs : List V) : front (vs.map some) = vs := by
  induction vs with
  | nil => rfl
  | cons v vs ih => simp [front, ih]

/-- The front is what the cells hold up to the first nil. -/
theorem front_eq_iff (cells : List (Option V)) (vs : List V) :
    front cells = vs ↔ ∀ i, i ≤ vs.length → cell cells i = vs[i]? := by
  induction cells generalizing vs with
  | nil =>
    cases vs with
    | nil => simp [front]
    | cons v vs =>
      simp only [front]
      constructor
      · intro h; cases h
      · intro h; simpa using h 0 (Nat.zero_le _)
  | cons c cells ih =>
    cases c with
    | none =>
      cases vs with
      | nil => simp [front]
      | cons v vs =>
        simp only [front]
        constructor
        · intro h; cases h
        · intro h; simpa using h 0 (Nat.zero_le _)
    | some w =>
      cases vs with
      | nil =>
        simp only [front]
        constructor
        · intro h; cases h
        · intro h; simpa using h 0 (Nat.zero_le _)
      | cons v vs =>
        simp only [front, List.cons.injEq, ih vs]
        constructor
        · rintro ⟨rfl, h⟩ i hi
          cases i with
          | zero => simp
          | succ i => simpa using h i (by simpa using hi)
        · intro h
          refine ⟨by simpa using h 0 (Nat.zero_le _), fun i hi => ?_⟩
          simpa using h (i + 1) (by simpa using hi)

theorem cell_front (cells : List (Option V)) {i : Nat} (inside : i ≤ (front cells).length) :
    cell cells i = (front cells)[i]? :=
  (front_eq_iff cells (front cells)).mp rfl i inside

/-- Items put one after the other, from index `i` on. -/
def putAll (cells : List (Option V)) (i : Nat) : List V → List (Option V)
  | [] => cells
  | v :: vs => putAll (put cells i v) (i + 1) vs

theorem cell_putAll (cells : List (Option V)) (i j : Nat) (vs : List V) :
    cell (putAll cells i vs) j =
      if i ≤ j ∧ j < i + vs.length then vs[j - i]? else cell cells j := by
  induction vs generalizing cells i with
  | nil =>
    have : ¬ (i ≤ j ∧ j < i + ([] : List V).length) := by simp
    rw [if_neg this, putAll]
  | cons v vs ih =>
    rw [putAll, ih, cell_put, List.length_cons]
    rcases Nat.lt_trichotomy j i with low | rfl | high
    · rw [if_neg (by omega), if_neg (by omega), if_neg (by omega)]
    · rw [if_neg (by omega), if_pos rfl, if_pos (by omega), Nat.sub_self]
      rfl
    · have next : j - i = (j - (i + 1)) + 1 := by omega
      by_cases inside : j < i + (vs.length + 1)
      · rw [if_pos (by omega), if_pos (by omega), next, List.getElem?_cons_succ]
      · rw [if_neg (by omega), if_neg (by omega), if_neg (by omega)]

/-- Putting right behind the front extends it, up to what lay behind. -/
theorem front_putAll {cells : List (Option V)} {i : Nat} {vs : List V}
    (behind : i = (front cells).length) (clear : cell cells (i + vs.length) = none) :
    front (putAll cells i vs) = front cells ++ vs := by
  rw [front_eq_iff]
  intro j inside
  rw [cell_putAll, List.length_append] at *
  by_cases low : j < i
  · rw [if_neg (by omega), cell_front cells (by omega), List.getElem?_append_left (by omega)]
  · rw [List.getElem?_append_right (by omega), ← behind]
    by_cases high : j < i + vs.length
    · rw [if_pos (by omega)]
    · have last : j = i + vs.length := by omega
      rw [if_neg (by omega), last, clear, Nat.add_sub_cancel_left, List.getElem?_eq_none (Nat.le_refl _)]

theorem put_map (xs : List V) (v : V) : put (xs.map some) xs.length v = (xs ++ [v]).map some := by
  induction xs with
  | nil => rfl
  | cons x xs ih => simp only [List.map_cons, List.length_cons, put, ih, List.cons_append]

theorem putAll_map (xs vs : List V) :
    putAll (xs.map some) xs.length vs = (xs ++ vs).map some := by
  induction vs generalizing xs with
  | nil => rw [putAll, List.append_nil]
  | cons v vs ih =>
    have next := ih (xs ++ [v])
    rw [List.length_append, List.append_assoc] at next
    rw [putAll, put_map]
    exact next

/-- Where no cell is filled behind the front, only the index right behind it extends it. -/
theorem front_putAll_iff {cells : List (Option V)} {i : Nat} {vs : List V} (some_new : vs ≠ [])
    (whole : cells = (front cells).map some) :
    front (putAll cells i vs) = front cells ++ vs ↔ i = (front cells).length := by
  have holds : ∀ j, cell cells j = (front cells)[j]? := by
    intro j
    rw [whole, front_some, cell, List.getElem?_map]
    cases (front cells)[j]? <;> rfl
  have pos : 0 < vs.length := List.length_pos_iff.mpr some_new
  constructor
  · intro same
    rw [front_eq_iff] at same
    simp only [cell_putAll, holds, List.length_append] at same
    rcases Nat.lt_trichotomy i (front cells).length with low | equal | high
    · have last := same ((front cells).length + vs.length - 1) (by omega)
      rw [if_neg (by omega), List.getElem?_eq_none (by omega),
        List.getElem?_append_right (by omega), List.getElem?_eq_getElem (by omega)] at last
      cases last
    · exact equal
    · have first := same (front cells).length (by omega)
      rw [if_neg (by omega), List.getElem?_eq_none (Nat.le_refl _),
        List.getElem?_append_right (Nat.le_refl _), List.getElem?_eq_getElem (by omega)] at first
      cases first
  · intro behind
    refine front_putAll behind ?_
    rw [holds, List.getElem?_eq_none (by omega)]

end LuaArray
