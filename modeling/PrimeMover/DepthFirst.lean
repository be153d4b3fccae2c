import Mathlib.Data.List.Nodup
import Mathlib.Data.Set.Finite.Basic
import Mathlib.Logic.Relation

/-! Depth-first search that marks a node before it looks at it. The graph is given by
the successors of each node and may be infinite: the search returns exactly when
it reaches finitely many nodes. -/
namespace DepthFirst

variable {A : Type}

/-- The nodes marked so far and the nodes whose successors have been listed. -/
structure Trail (A : Type) where
  marked : List A
  scanned : List A

def Trail.mark (t : Trail A) (a : A) : Trail A := { t with marked := t.marked ++ [a] }

def Trail.scan (t : Trail A) (a : A) : Trail A := { t with scanned := t.scanned ++ [a] }

@[simp] theorem Trail.mark_marked (t : Trail A) (a : A) : (t.mark a).marked = t.marked ++ [a] :=
  rfl

@[simp] theorem Trail.mark_scanned (t : Trail A) (a : A) : (t.mark a).scanned = t.scanned := rfl

@[simp] theorem Trail.scan_marked (t : Trail A) (a : A) : (t.scan a).marked = t.marked := rfl

@[simp] theorem Trail.scan_scanned (t : Trail A) (a : A) :
    (t.scan a).scanned = t.scanned ++ [a] := rfl

def Reaches (next : A → List A) : A → A → Prop := Relation.ReflTransGen (fun a b => b ∈ next a)

theorem Reaches.step {next : A → List A} {a b c : A} (one : b ∈ next a) (h : Reaches next b c) :
    Reaches next a c :=
  Relation.ReflTransGen.head one h

/-- What holds of all that is reached is what the successors inherit. -/
theorem reaches_all_iff {next : A → List A} {root : A} {P : A → Prop} (first : P root) :
    (∀ a, Reaches next root a → P a) ↔
      ∀ a, Reaches next root a → P a → ∀ b ∈ next a, P b := by
  constructor
  · intro all a path _ b one
    exact all b (path.tail one)
  · intro inherited a path
    induction path with
    | refl => exact first
    | tail path one ih => exact inherited _ path ih _ one

/-- What a search from `roots` adds to a trail: nodes that were not marked, each of them
scanned, and all their successors. -/
structure Adds (next : A → List A) (roots : List A) (t u : Trail A) (new : List A) : Prop where
  marked : u.marked = t.marked ++ new
  scanned : u.scanned = t.scanned ++ new
  fresh : ∀ b ∈ new, b ∉ t.marked
  distinct : new.Nodup
  reached : ∀ b ∈ new, ∃ a ∈ roots, Reaches next a b
  covered : ∀ a ∈ roots, a ∈ u.marked
  closed : ∀ b ∈ new, ∀ c ∈ next b, c ∈ u.marked

theorem Adds.nil (next : A → List A) (t : Trail A) : Adds next [] t t [] where
  marked := by simp
  scanned := by simp
  fresh := by simp
  distinct := List.nodup_nil
  reached := by simp
  covered := by simp
  closed := by simp

theorem Adds.skip {next : A → List A} {b : A} {bs new : List A} {t u : Trail A}
    (h : Adds next bs t u new) (old : b ∈ t.marked) : Adds next (b :: bs) t u new where
  marked := h.marked
  scanned := h.scanned
  fresh := h.fresh
  distinct := h.distinct
  reached := by
    intro c hc
    obtain ⟨a, ha, path⟩ := h.reached c hc
    exact ⟨a, List.mem_cons_of_mem b ha, path⟩
  covered := by
    intro a ha
    rcases List.mem_cons.mp ha with rfl | ha
    · rw [h.marked]
      exact List.mem_append_left _ old
    · exact h.covered a ha
  closed := h.closed

theorem Adds.enter {next : A → List A} {b : A} {bs below rest : List A} {t v u : Trail A}
    (new : b ∉ t.marked) (first : Adds next (next b) ((t.mark b).scan b) v below)
    (later : Adds next bs v u rest) : Adds next (b :: bs) t u (b :: below ++ rest) := by
  have hv : v.marked = t.marked ++ b :: below := by simp [first.marked]
  have hu : u.marked = t.marked ++ (b :: below ++ rest) := by simp [later.marked, hv]
  have grow : ∀ c ∈ v.marked, c ∈ u.marked := fun c hc => by
    rw [later.marked]
    exact List.mem_append_left _ hc
  refine ⟨hu, ?_, ?_, ?_, ?_, ?_, ?_⟩
  · simp [later.scanned, first.scanned]
  · intro c hc
    rcases List.mem_append.mp hc with hc | hc
    · rcases List.mem_cons.mp hc with same | hc
      · exact same ▸ new
      · exact fun old => first.fresh c hc (by simp [old])
    · exact fun old => later.fresh c hc (by simp [hv, old])
  · refine List.Nodup.append (List.nodup_cons.mpr ⟨?_, first.distinct⟩) later.distinct ?_
    · exact fun hb => first.fresh b hb (by simp)
    · intro c hc again
      exact later.fresh c again (by rw [hv]; exact List.mem_append_right _ hc)
  · intro c hc
    rcases List.mem_append.mp hc with hc | hc
    · refine ⟨b, List.mem_cons_self, ?_⟩
      rcases List.mem_cons.mp hc with rfl | hc
      · exact Relation.ReflTransGen.refl
      · obtain ⟨a, ha, path⟩ := first.reached c hc
        exact path.step ha
    · obtain ⟨a, ha, path⟩ := later.reached c hc
      exact ⟨a, List.mem_cons_of_mem b ha, path⟩
  · intro a ha
    rcases List.mem_cons.mp ha with rfl | ha
    · exact grow _ (by simp [hv])
    · exact later.covered a ha
  · intro c hc d hd
    rcases List.mem_append.mp hc with hc | hc
    · rcases List.mem_cons.mp hc with rfl | hc
      · exact grow d (first.covered d hd)
      · exact grow d (first.closed c hc d hd)
    · exact later.closed c hc d hd

variable [DecidableEq A]

def visitAll (visit : A → Trail A → Option (Trail A)) : List A → Trail A → Option (Trail A)
  | [], t => some t
  | b :: bs, t =>
    if b ∈ t.marked then visitAll visit bs t
    else (visit b (t.mark b)).bind (visitAll visit bs)

/-- The search below a node that is marked already. -/
def visit (next : A → List A) : Nat → A → Trail A → Option (Trail A)
  | 0, _, _ => none
  | fuel + 1, a, t => visitAll (visit next fuel) (next a) (t.scan a)

theorem visitAll_append (search : A → Trail A → Option (Trail A)) (bs cs : List A) (t : Trail A) :
    visitAll search (bs ++ cs) t = (visitAll search bs t).bind (visitAll search cs) := by
  induction bs generalizing t with
  | nil => rfl
  | cons b bs ih =>
    simp only [List.cons_append, visitAll]
    split
    · exact ih t
    · cases search b (t.mark b) with
      | none => rfl
      | some u => exact ih u

theorem visitAll_adds {next : A → List A} {visit : A → Trail A → Option (Trail A)}
    (one : ∀ (a : A) (t u : Trail A), visit a t = some u →
      ∃ new, Adds next (next a) (t.scan a) u new)
    {bs : List A} {t u : Trail A} (run : visitAll visit bs t = some u) :
    ∃ new, Adds next bs t u new := by
  induction bs generalizing t with
  | nil =>
    cases Option.some.inj run
    exact ⟨[], Adds.nil next _⟩
  | cons b bs ih =>
    rw [visitAll] at run
    split at run
    · rename_i old
      obtain ⟨new, h⟩ := ih run
      exact ⟨new, h.skip old⟩
    · rename_i new
      obtain ⟨v, hv, rest⟩ := Option.bind_eq_some_iff.mp run
      obtain ⟨below, first⟩ := one b _ v hv
      obtain ⟨more, later⟩ := ih rest
      exact ⟨_, first.enter new later⟩

theorem visit_adds {next : A → List A} {fuel : Nat} {a : A} {t u : Trail A}
    (run : visit next fuel a t = some u) : ∃ new, Adds next (next a) (t.scan a) u new := by
  induction fuel generalizing a t u with
  | zero => cases run
  | succ fuel ih => exact visitAll_adds (fun _ _ _ => ih) run

/-- A search from a marked root alone marks what the root reaches, and scans each of
these once. -/
theorem visit_exact {next : A → List A} {fuel : Nat} {root : A} {done : List A} {u : Trail A}
    (run : visit next fuel root ⟨[root], done⟩ = some u) :
    u.marked.Nodup ∧ (∀ b, b ∈ u.marked ↔ Reaches next root b) ∧ u.scanned = done ++ u.marked := by
  obtain ⟨new, h⟩ := visit_adds run
  have hm : u.marked = root :: new := h.marked
  refine ⟨?_, fun b => ⟨fun hb => ?_, fun path => ?_⟩, ?_⟩
  · rw [hm]
    exact List.nodup_cons.mpr ⟨fun hr => h.fresh root hr (by simp), h.distinct⟩
  · rcases List.mem_cons.mp (hm ▸ hb) with rfl | hb
    · exact Relation.ReflTransGen.refl
    · obtain ⟨a, ha, path⟩ := h.reached b hb
      exact path.step ha
  · induction path with
    | refl => simp [hm]
    | @tail c d _ one ih =>
      rcases List.mem_cons.mp (hm ▸ ih) with rfl | hc
      · exact h.covered d one
      · exact h.closed c hc d one
  · rw [h.scanned, hm]
    simp

/-- The nodes of `whole` that are still to be marked. -/
def left (whole : List A) (t : Trail A) : Nat := (whole.filter (· ∉ t.marked)).length

theorem left_mono (whole : List A) {t u : Trail A} (more : ∀ a ∈ t.marked, a ∈ u.marked) :
    left whole u ≤ left whole t := by
  apply List.Sublist.length_le
  apply List.monotone_filter_right
  intro a ha
  simp only [decide_eq_true_eq] at ha ⊢
  exact fun old => ha (more a old)

theorem left_mark {whole : List A} {t : Trail A} {a : A} (inside : a ∈ whole)
    (new : a ∉ t.marked) : left whole (t.mark a) < left whole t := by
  have split : whole.filter (· ∉ (t.mark a).marked) =
      (whole.filter (· ∉ t.marked)).filter (· ≠ a) := by
    rw [List.filter_filter]
    congr 1
    funext b
    simp [and_comm]
  rw [left, split]
  apply List.length_filter_lt_length_iff_exists.mpr
  exact ⟨a, by simp [inside, new], by simp⟩

theorem visitAll_total {next : A → List A} {whole : List A} {fuel : Nat}
    (one : ∀ a t, a ∈ whole → left whole t < fuel → (visit next fuel a t).isSome)
    (bs : List A) (t : Trail A) (inside : ∀ b ∈ bs, b ∈ whole) (enough : left whole t ≤ fuel) :
    (visitAll (visit next fuel) bs t).isSome := by
  induction bs generalizing t with
  | nil => rfl
  | cons b bs ih =>
    have hb := inside b List.mem_cons_self
    have hbs := fun c hc => inside c (List.mem_cons_of_mem b hc)
    rw [visitAll]
    split
    · exact ih t hbs enough
    · rename_i new
      have fewer := left_mark hb new
      obtain ⟨v, hv⟩ := Option.isSome_iff_exists.mp (one b (t.mark b) hb (by omega))
      obtain ⟨below, first⟩ := visit_adds hv
      have grown : left whole v ≤ left whole (t.mark b) := by
        apply left_mono
        intro c hc
        rw [first.marked]
        exact List.mem_append_left _ hc
      rw [hv]
      exact ih v hbs (by omega)

theorem visit_total {next : A → List A} {whole : List A} {fuel : Nat}
    (closed : ∀ a ∈ whole, ∀ b ∈ next a, b ∈ whole) (a : A) (t : Trail A) (inside : a ∈ whole)
    (enough : left whole t < fuel) : (visit next fuel a t).isSome := by
  induction fuel generalizing a t with
  | zero => omega
  | succ fuel ih =>
    exact visitAll_total ih (next a) (t.scan a) (closed a inside) (Nat.le_of_lt_succ enough)

/-- The search returns as soon as the fuel exceeds the number of nodes it can reach. -/
theorem visit_returns {next : A → List A} {root : A} (few : {b | Reaches next root b}.Finite) :
    ∃ bound, ∀ fuel, bound ≤ fuel → ∀ done, ∃ u, visit next fuel root ⟨[root], done⟩ = some u := by
  obtain ⟨whole, hw⟩ := few.exists_finset_coe
  have member : ∀ b, b ∈ whole.toList ↔ Reaches next root b := by
    intro b
    rw [Finset.mem_toList, ← Finset.mem_coe, hw]
    rfl
  refine ⟨whole.toList.length + 1, fun fuel enough done => ?_⟩
  apply Option.isSome_iff_exists.mp
  apply visit_total
  · intro a ha b hb
    rw [member] at ha ⊢
    exact ha.tail hb
  · exact (member root).mpr Relation.ReflTransGen.refl
  · exact Nat.lt_of_le_of_lt (List.length_filter_le _ _) enough

/-- Searches from several roots, one after the other. The roots are not marked themselves. -/
def visitRoots (next : A → List A) (fuel : Nat) : List A → Trail A → Option (Trail A)
  | [], t => some t
  | a :: as, t => (visit next fuel a t).bind (visitRoots next fuel as)

/-- What such searches mark. -/
structure RootMarks (next : A → List A) (roots : List A) (t u : Trail A) (new : List A) : Prop where
  marked : u.marked = t.marked ++ new
  fresh : ∀ b ∈ new, b ∉ t.marked
  distinct : new.Nodup
  reached : ∀ b ∈ new, ∃ a ∈ roots, ∃ c ∈ next a, Reaches next c b
  covered : ∀ a ∈ roots, ∀ c ∈ next a, c ∈ u.marked
  closed : ∀ b ∈ new, ∀ c ∈ next b, c ∈ u.marked

theorem visitRoots_marks {next : A → List A} {fuel : Nat} {as : List A} {t u : Trail A}
    (run : visitRoots next fuel as t = some u) : ∃ new, RootMarks next as t u new := by
  induction as generalizing t with
  | nil =>
    cases Option.some.inj run
    exact ⟨[], by simp, by simp, List.nodup_nil, by simp, by simp, by simp⟩
  | cons a as ih =>
    obtain ⟨v, one, rest⟩ := Option.bind_eq_some_iff.mp run
    obtain ⟨new, first⟩ := visit_adds one
    obtain ⟨more, later⟩ := ih rest
    have hv : v.marked = t.marked ++ new := first.marked
    have grow : ∀ c ∈ v.marked, c ∈ u.marked := fun c hc => by
      rw [later.marked]
      exact List.mem_append_left _ hc
    refine ⟨new ++ more, ?_, ?_, ?_, ?_, ?_, ?_⟩
    · rw [later.marked, hv, List.append_assoc]
    · intro b hb
      rcases List.mem_append.mp hb with hb | hb
      · exact first.fresh b hb
      · exact fun old => later.fresh b hb (by simp [hv, old])
    · refine List.Nodup.append first.distinct later.distinct ?_
      intro b hb again
      exact later.fresh b again (by rw [hv]; exact List.mem_append_right _ hb)
    · intro b hb
      rcases List.mem_append.mp hb with hb | hb
      · obtain ⟨c, hc, path⟩ := first.reached b hb
        exact ⟨a, List.mem_cons_self, c, hc, path⟩
      · obtain ⟨a', ha', c, hc, path⟩ := later.reached b hb
        exact ⟨a', List.mem_cons_of_mem a ha', c, hc, path⟩
    · intro a' ha' c hc
      rcases List.mem_cons.mp ha' with rfl | ha'
      · exact grow c (first.covered c hc)
      · exact later.covered a' ha' c hc
    · intro b hb c hc
      rcases List.mem_append.mp hb with hb | hb
      · exact grow c (first.closed b hb c hc)
      · exact later.closed b hb c hc

/-- Started with nothing marked, the searches mark once each successor of a node that one of
the roots reaches. -/
theorem visitRoots_exact {next : A → List A} {fuel : Nat} {as done : List A} {u : Trail A}
    (run : visitRoots next fuel as ⟨[], done⟩ = some u) :
    u.marked.Nodup ∧
      ∀ b, b ∈ u.marked ↔ ∃ a ∈ as, ∃ c, Reaches next a c ∧ b ∈ next c := by
  obtain ⟨new, marks⟩ := visitRoots_marks run
  have hu : u.marked = new := marks.marked
  refine ⟨hu ▸ marks.distinct, fun b => ⟨fun hb => ?_, ?_⟩⟩
  · obtain ⟨a, ha, c, hc, path⟩ := marks.reached b (hu ▸ hb)
    rcases Relation.ReflTransGen.cases_tail path with rfl | ⟨d, before, one⟩
    · exact ⟨a, ha, a, .refl, hc⟩
    · exact ⟨a, ha, d, Reaches.step hc before, one⟩
  · rintro ⟨a, ha, c, path, one⟩
    induction path generalizing b with
    | refl => exact marks.covered a ha b one
    | @tail d e _ step ih => exact marks.closed e (hu ▸ ih e step) b one

theorem visitRoots_total {next : A → List A} {whole : List A} {fuel : Nat}
    (closed : ∀ a ∈ whole, ∀ b ∈ next a, b ∈ whole) (as : List A) (inside : ∀ a ∈ as, a ∈ whole)
    (enough : whole.length < fuel) (t : Trail A) : (visitRoots next fuel as t).isSome := by
  induction as generalizing t with
  | nil => rfl
  | cons a as ih =>
    have few : left whole t < fuel := Nat.lt_of_le_of_lt (List.length_filter_le _ _) enough
    obtain ⟨v, one⟩ := Option.isSome_iff_exists.mp
      (visit_total closed a t (inside a List.mem_cons_self) few)
    rw [visitRoots, one]
    exact ih (fun b hb => inside b (List.mem_cons_of_mem a hb)) v

end DepthFirst
