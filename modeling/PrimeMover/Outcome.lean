import Mathlib.Data.List.Basic
import Mathlib.Logic.Relation

/-! Rules for programs with state and early exit. A program either returns or stops,
and in both cases it leaves a state behind. -/
namespace Outcome

variable {E S A B : Type}

@[simp] theorem pure_run (a : A) (s : S) : (pure a : EStateM E S A) s = .ok a s := rfl

@[simp] theorem throw_run (e : E) (s : S) : (throw e : EStateM E S A) s = .error e s := rfl

@[simp] theorem get_run (s : S) : (get : EStateM E S S) s = .ok s s := rfl

@[simp] theorem set_run (s t : S) : (set t : EStateM E S PUnit) s = .ok ⟨⟩ t := rfl

@[simp] theorem modify_run (f : S → S) (s : S) :
    (modify f : EStateM E S PUnit) s = .ok ⟨⟩ (f s) := rfl

theorem bind_run (x : EStateM E S A) (f : A → EStateM E S B) (s : S) :
    (x >>= f) s = match x s with
      | .ok a t => f a t
      | .error e t => .error e t := by
  change EStateM.bind x f s = _
  simp only [EStateM.bind]
  cases x s <;> rfl

theorem bind_ok_run {x : EStateM E S A} {s t : S} {a : A} (h : x s = .ok a t)
    (f : A → EStateM E S B) : (x >>= f) s = f a t := by
  rw [bind_run, h]

theorem bind_error_run {x : EStateM E S A} {s t : S} {e : E} (h : x s = .error e t)
    (f : A → EStateM E S B) : (x >>= f) s = .error e t := by
  rw [bind_run, h]

theorem bind_eq_ok {x : EStateM E S A} {f : A → EStateM E S B} {s u : S} {b : B} :
    (x >>= f) s = .ok b u ↔ ∃ a t, x s = .ok a t ∧ f a t = .ok b u := by
  rw [bind_run]
  cases h : x s with
  | ok a t =>
    constructor
    · intro hf
      exact ⟨a, t, rfl, hf⟩
    · rintro ⟨a', t', he, hf⟩
      cases he
      exact hf
  | error e t =>
    constructor
    · intro hf
      cases hf
    · rintro ⟨a', t', he, _⟩
      cases he

/-- The state a program leaves behind. -/
def final : EStateM.Result E S A → S
  | .ok _ s => s
  | .error _ s => s

/-- From a state with `P` the program returns with `Q` or stops with `R`. -/
def Ensures (P : S → Prop) (x : EStateM E S A) (Q : A → S → Prop) (R : E → S → Prop) : Prop :=
  ∀ s, P s →
    match x s with
    | .ok a t => Q a t
    | .error e t => R e t

theorem Ensures.ok {P : S → Prop} {x : EStateM E S A} {Q : A → S → Prop} {R : E → S → Prop}
    (h : Ensures P x Q R) {s t : S} {a : A} (hs : P s) (run : x s = .ok a t) : Q a t := by
  have := h s hs
  rwa [run] at this

theorem Ensures.error {P : S → Prop} {x : EStateM E S A} {Q : A → S → Prop} {R : E → S → Prop}
    (h : Ensures P x Q R) {s t : S} {e : E} (hs : P s) (run : x s = .error e t) : R e t := by
  have := h s hs
  rwa [run] at this

theorem Ensures.pure {P : S → Prop} {Q : A → S → Prop} {R : E → S → Prop} {a : A}
    (h : ∀ s, P s → Q a s) : Ensures P (pure a : EStateM E S A) Q R :=
  fun s hs => h s hs

theorem Ensures.throw {P : S → Prop} {Q : A → S → Prop} {R : E → S → Prop} {e : E}
    (h : ∀ s, P s → R e s) : Ensures P (throw e : EStateM E S A) Q R :=
  fun s hs => h s hs

theorem Ensures.modify {P : S → Prop} {Q : PUnit → S → Prop} {R : E → S → Prop} {f : S → S}
    (h : ∀ s, P s → Q ⟨⟩ (f s)) : Ensures P (modify f : EStateM E S PUnit) Q R :=
  fun s hs => h s hs

theorem Ensures.bind {P : S → Prop} {x : EStateM E S A} {f : A → EStateM E S B}
    {M : A → S → Prop} {Q : B → S → Prop} {R : E → S → Prop}
    (hx : Ensures P x M R) (hf : ∀ a, Ensures (M a) (f a) Q R) : Ensures P (x >>= f) Q R := by
  intro s hs
  have first := hx s hs
  rw [bind_run]
  cases h : x s with
  | ok a t =>
    rw [h] at first
    exact hf a t first
  | error e t =>
    rw [h] at first
    exact first

/-- A program that reads the state is treated at each state on its own. -/
theorem Ensures.get_bind {s : S} {f : S → EStateM E S B} {Q : B → S → Prop} {R : E → S → Prop}
    (h : Ensures (fun t => t = s) (f s) Q R) : Ensures (fun t => t = s) (get >>= f) Q R := by
  rintro _ rfl
  rw [bind_run, get_run]
  exact h _ rfl

theorem Ensures.final {P Q : S → Prop} {x : EStateM E S A}
    (h : Ensures P x (fun _ => Q) (fun _ => Q)) {s : S} (hs : P s) : Q (final (x s)) := by
  have := h s hs
  cases hx : x s with
  | ok a t =>
    rw [hx] at this
    exact this
  | error e t =>
    rw [hx] at this
    exact this

theorem Ensures.of_final {Q : S → Prop} {x : EStateM E S A} {s : S} (h : Q (Outcome.final (x s))) :
    Ensures (fun t => t = s) x (fun _ => Q) (fun _ => Q) := by
  intro t same
  subst same
  cases hx : x t with
  | ok a u =>
    rw [hx] at h
    exact h
  | error e u =>
    rw [hx] at h
    exact h

theorem Ensures.weaken {P P' : S → Prop} {x : EStateM E S A} {Q Q' : A → S → Prop}
    {R R' : E → S → Prop} (h : Ensures P x Q R) (pre : ∀ s, P' s → P s)
    (post : ∀ a s, Q a s → Q' a s) (stop : ∀ e s, R e s → R' e s) : Ensures P' x Q' R' := by
  intro s hs
  have := h s (pre s hs)
  cases hx : x s with
  | ok a t =>
    rw [hx] at this
    exact post a t this
  | error e t =>
    rw [hx] at this
    exact stop e t this

/-- Every step keeps `P`, wherever the program ends. -/
def Keeps (P : S → Prop) (x : EStateM E S A) : Prop := Ensures P x (fun _ => P) (fun _ => P)

theorem Keeps.pure {P : S → Prop} (a : A) : Keeps P (pure a : EStateM E S A) :=
  fun _ hs => hs

theorem Keeps.throw {P : S → Prop} (e : E) : Keeps P (throw e : EStateM E S A) :=
  fun _ hs => hs

theorem Keeps.modify {P : S → Prop} {f : S → S} (h : ∀ s, P s → P (f s)) :
    Keeps P (modify f : EStateM E S PUnit) :=
  fun s hs => h s hs

theorem Keeps.bind {P : S → Prop} {x : EStateM E S A} {f : A → EStateM E S B}
    (hx : Keeps P x) (hf : ∀ a, Keeps P (f a)) : Keeps P (x >>= f) :=
  Ensures.bind hx hf

theorem Keeps.from {P : S → Prop} {x : EStateM E S A} (h : Keeps P x) {s : S} (hs : P s) :
    Ensures (fun t => t = s) x (fun _ => P) (fun _ => P) := by
  rintro _ rfl
  exact h _ hs

theorem Keeps.get_bind {P : S → Prop} {f : S → EStateM E S B}
    (h : ∀ s, P s → Ensures (fun t => t = s) (f s) (fun _ => P) (fun _ => P)) :
    Keeps P (get >>= f) := by
  intro s hs
  rw [bind_run, get_run]
  exact h s hs s rfl

theorem Keeps.forM {P : S → Prop} {f : A → EStateM E S PUnit} (l : List A)
    (h : ∀ a ∈ l, Keeps P (f a)) : Keeps P (l.forM f) := by
  induction l with
  | nil => exact Keeps.pure PUnit.unit
  | cons a l ih =>
    apply Keeps.bind (h a List.mem_cons_self)
    intro _
    exact ih (fun b hb => h b (List.mem_cons_of_mem a hb))

/-- What a program does from a state is a sequence of `R` steps, wherever it ends. -/
def MovesFrom (R : S → S → Prop) (s : S) (x : EStateM E S A) : Prop :=
  Relation.ReflTransGen R s (final (x s))

def Moves (R : S → S → Prop) (x : EStateM E S A) : Prop := ∀ s, MovesFrom R s x

theorem Moves.pure {R : S → S → Prop} (a : A) : Moves R (pure a : EStateM E S A) :=
  fun _ => Relation.ReflTransGen.refl

theorem Moves.throw {R : S → S → Prop} (e : E) : Moves R (throw e : EStateM E S A) :=
  fun _ => Relation.ReflTransGen.refl

theorem Moves.modify {R : S → S → Prop} {f : S → S} (h : ∀ s, R s (f s)) :
    Moves R (modify f : EStateM E S PUnit) :=
  fun s => Relation.ReflTransGen.single (h s)

theorem MovesFrom.bind {R : S → S → Prop} {s : S} {x : EStateM E S A} {f : A → EStateM E S B}
    (hx : MovesFrom R s x) (hf : ∀ a, Moves R (f a)) : MovesFrom R s (x >>= f) := by
  unfold MovesFrom at hx ⊢
  rw [bind_run]
  cases h : x s with
  | ok a t =>
    rw [h] at hx
    exact hx.trans (hf a t)
  | error e t =>
    rw [h] at hx
    exact hx

theorem MovesFrom.path {R : S → S → Prop} {s t : S} {x : EStateM E S A} {a : A}
    (h : MovesFrom R s x) (run : x s = .ok a t) : Relation.ReflTransGen R s t := by
  rw [MovesFrom, run] at h
  exact h

/-- The second part starts where the first one ended. -/
theorem MovesFrom.bind_ok {R : S → S → Prop} {s : S} {x : EStateM E S A} {f : A → EStateM E S B}
    (hx : MovesFrom R s x) (hf : ∀ a t, x s = .ok a t → MovesFrom R t (f a)) :
    MovesFrom R s (x >>= f) := by
  unfold MovesFrom at hx ⊢
  rw [bind_run]
  cases h : x s with
  | ok a t =>
    rw [h] at hx
    exact hx.trans (hf a t h)
  | error e t =>
    rw [h] at hx
    exact hx

theorem Moves.bind {R : S → S → Prop} {x : EStateM E S A} {f : A → EStateM E S B}
    (hx : Moves R x) (hf : ∀ a, Moves R (f a)) : Moves R (x >>= f) :=
  fun s => (hx s).bind hf

theorem MovesFrom.get_bind {R : S → S → Prop} {s : S} {f : S → EStateM E S B}
    (h : MovesFrom R s (f s)) : MovesFrom R s (get >>= f) := by
  unfold MovesFrom at h ⊢
  rw [bind_run, get_run]
  exact h

theorem Moves.get_bind {R : S → S → Prop} {f : S → EStateM E S B}
    (h : ∀ s, MovesFrom R s (f s)) : Moves R (get >>= f) :=
  fun s => (h s).get_bind

theorem MovesFrom.set {R : S → S → Prop} {s t : S} (h : R s t) :
    MovesFrom R s (set t : EStateM E S PUnit) :=
  Relation.ReflTransGen.single h

theorem Moves.of_still {R : S → S → Prop} {x : EStateM E S A} (h : ∀ s, final (x s) = s) :
    Moves R x := by
  intro s
  unfold MovesFrom
  rw [h]

theorem Moves.mono {R R' : S → S → Prop} {x : EStateM E S A} (h : Moves R x)
    (sub : ∀ s t, R s t → R' s t) : Moves R' x :=
  fun s => Relation.ReflTransGen.mono sub _ _ (h s)

theorem path_keeps {R : S → S → Prop} {P : S → Prop} (step : ∀ s t, R s t → P s → P t) {s t : S}
    (path : Relation.ReflTransGen R s t) (hs : P s) : P t := by
  induction path with
  | refl => exact hs
  | tail _ one ih => exact step _ _ one ih

theorem Moves.keeps {R : S → S → Prop} {x : EStateM E S A} (h : Moves R x) {P : S → Prop}
    (step : ∀ s t, R s t → P s → P t) : Keeps P x := by
  intro s hs
  have last := path_keeps step (h s) hs
  cases hx : x s with
  | ok a t =>
    rw [hx] at last
    exact last
  | error e t =>
    rw [hx] at last
    exact last

end Outcome
