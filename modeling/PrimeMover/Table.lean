import Mathlib.Data.List.Basic
import Mathlib.Data.List.Nodup
import Mathlib.Data.List.Perm.Basic

/-! Tables kept as their list of entries. -/
namespace AssocTable

variable {K V : Type} [BEq K] [LawfulBEq K]

/-- `t[key] = value`. -/
def setEntry (t : List (K × V)) (key : K) (value : V) : List (K × V) :=
  if (t.lookup key).isSome then t.map (fun e => if e.1 == key then (key, value) else e)
  else t ++ [(key, value)]

omit [LawfulBEq K] in
theorem lookup_cons (e : K × V) (t : List (K × V)) (k : K) :
    (e :: t).lookup k = if k == e.1 then some e.2 else t.lookup k := by
  obtain ⟨a, v⟩ := e
  cases h : k == a <;> simp [List.lookup_cons, h]

theorem lookup_overwrite (t : List (K × V)) (key k : K) (value : V) :
    (t.map (fun e => if e.1 == key then (key, value) else e)).lookup k =
      if k == key then (t.lookup key).map (fun _ => value) else t.lookup k := by
  induction t with
  | nil => simp
  | cons e t ih =>
    rw [List.map_cons, lookup_cons, ih, lookup_cons, lookup_cons]
    by_cases he : e.1 = key
    · by_cases hk : k = key
      · simp [he, hk]
      · simp [he, hk]
    · by_cases hk : k = key
      · have : ¬ key = e.1 := fun h => he h.symm
        simp [he, hk, this]
      · by_cases hke : k = e.1
        · simp [he, hke]
        · simp [he, hk, hke]

@[simp] theorem lookup_setEntry (t : List (K × V)) (key k : K) (value : V) :
    (setEntry t key value).lookup k = if k == key then some value else t.lookup k := by
  unfold setEntry
  split
  · rename_i h
    rw [lookup_overwrite]
    obtain ⟨v, hv⟩ := Option.isSome_iff_exists.mp h
    simp [hv]
  · rename_i h
    rw [List.lookup_append, lookup_cons]
    by_cases hk : k = key
    · subst hk
      simp only [Option.not_isSome_iff_eq_none] at h
      simp [h]
    · simp [hk]

/-- `t[key] = nil`. -/
def dropEntry (t : List (K × V)) (key : K) : List (K × V) := t.filter (fun e => !(e.1 == key))

@[simp] theorem lookup_dropEntry (t : List (K × V)) (key k : K) :
    (dropEntry t key).lookup k = if k == key then none else t.lookup k := by
  induction t with
  | nil => simp [dropEntry]
  | cons e t ih =>
    rw [lookup_cons]
    by_cases he : e.1 = key
    · have dropped : dropEntry (e :: t) key = dropEntry t key := by simp [dropEntry, he]
      rw [dropped, ih, he]
      split <;> rfl
    · have kept : dropEntry (e :: t) key = e :: dropEntry t key := by simp [dropEntry, he]
      rw [kept, lookup_cons, ih]
      by_cases hk : k = e.1
      · simp [hk, he]
      · simp [hk]

omit [LawfulBEq K] in
theorem nodup_dropEntry {t : List (K × V)} (distinct : (t.map Prod.fst).Nodup) (key : K) :
    ((dropEntry t key).map Prod.fst).Nodup :=
  (List.filter_sublist.map Prod.fst).nodup distinct

theorem lookup_of_mem {t : List (K × V)} {k : K} {v : V} (distinct : (t.map Prod.fst).Nodup)
    (member : (k, v) ∈ t) : t.lookup k = some v := by
  induction t with
  | nil => cases member
  | cons e t ih =>
    simp only [List.map_cons, List.nodup_cons] at distinct
    rw [lookup_cons]
    rcases List.mem_cons.mp member with rfl | h
    · simp
    · have hk : k ≠ e.1 := by
        rintro rfl
        exact distinct.1 (List.mem_map.mpr ⟨_, h, rfl⟩)
      simp [hk, ih distinct.2 h]

theorem mem_of_lookup {t : List (K × V)} {k : K} {v : V} (found : t.lookup k = some v) :
    (k, v) ∈ t := by
  induction t with
  | nil => cases found
  | cons e t ih =>
    rw [lookup_cons] at found
    split at found
    · rename_i h
      cases Option.some.inj found
      simp [beq_iff_eq.mp h]
    · exact List.mem_cons_of_mem e (ih found)

theorem lookup_perm {s t : List (K × V)} (distinct : (t.map Prod.fst).Nodup) (same : s.Perm t)
    (k : K) : s.lookup k = t.lookup k := by
  have hs : (s.map Prod.fst).Nodup := (same.map Prod.fst).nodup_iff.mpr distinct
  cases h : t.lookup k with
  | some v => exact lookup_of_mem hs (same.mem_iff.mpr (mem_of_lookup h))
  | none =>
    cases h' : s.lookup k with
    | none => rfl
    | some v =>
      have := lookup_of_mem distinct (same.mem_iff.mp (mem_of_lookup h'))
      rw [h] at this
      cases this

omit [LawfulBEq K] in
theorem setEntry_new {t : List (K × V)} {key : K} {value : V} (fresh : t.lookup key = none) :
    setEntry t key value = t ++ [(key, value)] := by
  simp [setEntry, fresh]

theorem not_mem_keys {t : List (K × V)} {key : K} (distinct : (t.map Prod.fst).Nodup)
    (fresh : t.lookup key = none) : key ∉ t.map Prod.fst := by
  intro h
  obtain ⟨⟨k, v⟩, hm, rfl⟩ := List.mem_map.mp h
  rw [lookup_of_mem distinct hm] at fresh
  cases fresh

theorem nodup_append_new {t : List (K × V)} {key : K} {value : V}
    (distinct : (t.map Prod.fst).Nodup) (fresh : t.lookup key = none) :
    ((t ++ [(key, value)]).map Prod.fst).Nodup := by
  rw [List.map_append, List.nodup_append]
  refine ⟨distinct, by simp, ?_⟩
  intro a ha b hb
  have : b = key := by simpa using hb
  rintro rfl
  exact not_mem_keys distinct fresh (this ▸ ha)

theorem nodup_setEntry {t : List (K × V)} (distinct : (t.map Prod.fst).Nodup) (key : K)
    (value : V) : ((setEntry t key value).map Prod.fst).Nodup := by
  unfold setEntry
  split
  · rw [List.map_map]
    have same : (Prod.fst ∘ fun e : K × V => if e.1 == key then (key, value) else e) = Prod.fst := by
      funext e
      by_cases he : e.1 = key <;> simp [he]
    rwa [same]
  · rename_i h
    exact nodup_append_new distinct (Option.not_isSome_iff_eq_none.mp h)

theorem nodup_foldl_setEntry {U : Type} (f : U → V) (entries : List (K × U)) (t : List (K × V))
    (distinct : (t.map Prod.fst).Nodup) :
    ((entries.foldl (fun t e => setEntry t e.1 (f e.2)) t).map Prod.fst).Nodup := by
  induction entries generalizing t with
  | nil => exact distinct
  | cons e entries ih => exact ih _ (nodup_setEntry distinct e.1 (f e.2))

theorem foldl_setEntry {U : Type} (f : U → V) (entries : List (K × U)) (t : List (K × V))
    (distinct : (entries.map Prod.fst).Nodup) (k : K) :
    (entries.foldl (fun t e => setEntry t e.1 (f e.2)) t).lookup k =
      ((entries.lookup k).map f).or (t.lookup k) := by
  induction entries generalizing t with
  | nil => simp
  | cons e entries ih =>
    simp only [List.map_cons, List.nodup_cons] at distinct
    rw [List.foldl_cons, ih _ distinct.2, lookup_cons]
    by_cases h : k = e.1
    · have : entries.lookup k = none := by
        cases hl : entries.lookup k with
        | none => rfl
        | some u =>
          exact absurd (List.mem_map.mpr ⟨_, mem_of_lookup hl, rfl⟩) (h ▸ distinct.1)
      rw [this, h]
      simp
    · simp [h]

end AssocTable
