import Mathlib.Logic.Basic

/-! Programs that take fuel. One that settles has, with any large enough fuel, one and the
same result, and that result is not that the fuel was short. -/
namespace Settling

variable {E A B : Type} {short : E}

def Settles (short : E) (f : Nat → Except E A) : Prop :=
  ∃ n r, r ≠ .error short ∧ ∀ fuel, n ≤ fuel → f fuel = r

/-- The result from some fuel on. -/
def Becomes (f : Nat → Except E A) (r : Except E A) : Prop := ∃ n, ∀ fuel, n ≤ fuel → f fuel = r

theorem Becomes.settles {f : Nat → Except E A} {r : Except E A} (becomes : Becomes f r)
    (enough : r ≠ .error short) : Settles short f := by
  obtain ⟨n, same⟩ := becomes
  exact ⟨n, r, enough, same⟩

theorem Settles.becomes {f : Nat → Except E A} (settles : Settles short f) :
    ∃ r, r ≠ .error short ∧ Becomes f r := by
  obtain ⟨n, r, enough, same⟩ := settles
  exact ⟨r, enough, n, same⟩

theorem Becomes.unique {f : Nat → Except E A} {r r' : Except E A} (first : Becomes f r)
    (second : Becomes f r') : r = r' := by
  obtain ⟨n, same⟩ := first
  obtain ⟨m, same'⟩ := second
  rw [← same (max n m) (Nat.le_max_left n m), same' (max n m) (Nat.le_max_right n m)]

theorem Becomes.const (r : Except E A) : Becomes (fun _ => r) r := ⟨0, fun _ _ => rfl⟩

theorem Settles.const {r : Except E A} (enough : r ≠ .error short) : Settles short fun _ => r :=
  (Becomes.const r).settles enough

theorem Settles.ok (a : A) : Settles short (fun _ => (.ok a : Except E A)) :=
  Settles.const nofun

theorem Becomes.bind_error {f : Nat → Except E A} {e : E} (becomes : Becomes f (.error e))
    (g : Nat → A → Except E B) : Becomes (fun fuel => f fuel >>= g fuel) (.error e) := by
  obtain ⟨n, same⟩ := becomes
  refine ⟨n, fun fuel le => ?_⟩
  change f fuel >>= g fuel = _
  rw [same fuel le]
  rfl

theorem Becomes.bind_ok {f : Nat → Except E A} {a : A} (becomes : Becomes f (.ok a))
    {g : Nat → A → Except E B} {r : Except E B} (rest : Becomes (fun fuel => g fuel a) r) :
    Becomes (fun fuel => f fuel >>= g fuel) r := by
  obtain ⟨n, same⟩ := becomes
  obtain ⟨m, same'⟩ := rest
  refine ⟨max n m, fun fuel le => ?_⟩
  change f fuel >>= g fuel = _
  rw [same fuel (Nat.le_trans (Nat.le_max_left n m) le)]
  exact same' fuel (Nat.le_trans (Nat.le_max_right n m) le)

theorem Settles.bind {f : Nat → Except E A} {g : Nat → A → Except E B} (first : Settles short f)
    (rest : ∀ a, Becomes f (.ok a) → Settles short fun fuel => g fuel a) :
    Settles short fun fuel => f fuel >>= g fuel := by
  obtain ⟨r, enough, becomes⟩ := first.becomes
  cases r with
  | error e => exact (becomes.bind_error g).settles fun same => enough (by cases same; rfl)
  | ok a =>
    obtain ⟨s, enough', becomes'⟩ := (rest a becomes).becomes
    exact (becomes.bind_ok becomes').settles enough'

/-- A round that takes one unit of fuel. -/
theorem Becomes.round {f g : Nat → Except E A} {r : Except E A}
    (step : ∀ fuel, g (fuel + 1) = f fuel) (becomes : Becomes f r) : Becomes g r := by
  obtain ⟨n, same⟩ := becomes
  refine ⟨n + 1, fun fuel le => ?_⟩
  obtain ⟨m, rfl⟩ := Nat.exists_eq_add_of_le' le
  rw [← Nat.add_assoc, step]
  exact same _ (Nat.le_add_left n m)

theorem Settles.round {f g : Nat → Except E A} (step : ∀ fuel, g (fuel + 1) = f fuel)
    (settles : Settles short f) : Settles short g := by
  obtain ⟨r, enough, becomes⟩ := settles.becomes
  exact (becomes.round step).settles enough

/-- What lacks fuel at every amount does not settle. -/
theorem not_settles {f : Nat → Except E A} (always : ∀ fuel, f fuel = .error short) :
    ¬ Settles short f := by
  rintro ⟨n, r, enough, same⟩
  exact enough ((same n (Nat.le_refl n)).symm.trans (always n))

end Settling
