import PrimeMover.Links

/-! Path resolution one component at a time, over as many links as there are. The steps
say which entries a way passes by, and so which changes to the tree leave it as it is. -/
namespace PosixTree
open AssocTable

namespace Linked

/-- One component of a path, from where the path has led so far. -/
def next (t : Linked) (l : Location) : List (List Char) → Option (Location × List (List Char))
  | [] => none
  | c :: cs =>
    if t.entry l ≠ some .dir then none
    else if c = [] ∨ c = ".".toList then some (l, cs)
    else if c = "..".toList then some (l.tail, cs)
    else
      match Name.ofText c with
      | none => none
      | some n =>
        match t.entry (n :: l) with
        | none => none
        | some (.link target) =>
          if target = [] then none else some (origin l target, target.splitOn '/' ++ cs)
        | some _ => some (n :: l, cs)

/-- The entry that the next step looks up. -/
def looks (l : Location) : List (List Char) → Option Location
  | [] => none
  | c :: _ => (Name.ofText c).map (· :: l)

/-- So many steps lead from `l` to `m`. -/
inductive LeadsIn (t : Linked) : Nat → Location → List (List Char) → Location → Prop where
  | done (l) : LeadsIn t 0 l [] l
  | step (k l cs l' cs' m) (one : t.next l cs = some (l', cs')) (rest : LeadsIn t k l' cs' m) :
      LeadsIn t (k + 1) l cs m

def Leads (t : Linked) (l : Location) (cs : List (List Char)) (m : Location) : Prop :=
  ∃ k, LeadsIn t k l cs m

/-- The way does not look up the entry `e`. -/
inductive LeadsPast (t : Linked) (e : Location) : Location → List (List Char) → Location → Prop
  where
  | done (l) : LeadsPast t e l [] l
  | step (l cs l' cs' m) (aside : looks l cs ≠ some e) (one : t.next l cs = some (l', cs'))
      (rest : LeadsPast t e l' cs' m) : LeadsPast t e l cs m

/-- The way comes to a step that looks up `e`, with `rest` to go behind it. -/
inductive ComesTo (t : Linked) (e : Location) :
    Location → List (List Char) → List (List Char) → Prop where
  | here (l c rest) (isDir : t.entry l = some .dir) (at_entry : looks l (c :: rest) = some e) :
      ComesTo t e l (c :: rest) rest
  | step (l cs l' cs' rest) (aside : looks l cs ≠ some e) (one : t.next l cs = some (l', cs'))
      (later : ComesTo t e l' cs' rest) : ComesTo t e l cs rest

theorem next_dir {t : Linked} {l l' : Location} {cs cs' : List (List Char)}
    (one : t.next l cs = some (l', cs')) : t.entry l = some .dir := by
  cases cs with
  | nil => cases one
  | cons c cs =>
    rw [next] at one
    split at one
    · cases one
    · rename_i isDir
      exact not_not.mp isDir

theorem next_name {t : Linked} {x : Location} (isDir : t.entry x = some .dir) (n : Name)
    (cs : List (List Char)) : t.next x (n.text :: cs) =
      match t.entry (n :: x) with
      | none => none
      | some (.link target) =>
        if target = [] then none else some (origin x target, target.splitOn '/' ++ cs)
      | some _ => some (n :: x, cs) := by
  rw [next, if_neg (not_not.mpr isDir), if_neg (not_or.mpr ⟨n.nonempty, n.notSelf⟩),
    if_neg n.notParent, n.ofText_text]

theorem next_append {t : Linked} {l l' : Location} {cs cs' : List (List Char)}
    (one : t.next l cs = some (l', cs')) (ds : List (List Char)) :
    t.next l (cs ++ ds) = some (l', cs' ++ ds) := by
  cases cs with
  | nil => cases one
  | cons c cs =>
    rw [next] at one
    rw [List.cons_append, next]
    split at one
    · cases one
    rename_i isDir
    rw [if_neg isDir]
    split at one
    · rename_i self
      cases one
      rw [if_pos self]
    rename_i self
    rw [if_neg self]
    split at one
    · rename_i parent
      cases one
      rw [if_pos parent]
    rename_i parent
    rw [if_neg parent]
    cases named : Name.ofText c with
    | none => simp [named] at one
    | some n =>
      cases found : t.entry (n :: l) with
      | none => simp [named, found] at one
      | some e =>
        simp only [named, found] at one ⊢
        cases e with
        | link target =>
          simp only [Option.ite_none_left_eq_some, Option.some.injEq, Prod.mk.injEq] at one ⊢
          obtain ⟨nonempty, rfl, rfl⟩ := one
          exact ⟨nonempty, rfl, by simp⟩
        | file mtime contents =>
          cases one
          rfl
        | other =>
          cases one
          rfl
        | dir =>
          cases one
          rfl

theorem next_congr {t u : Linked} {l l' : Location} {cs cs' : List (List Char)}
    (one : t.next l cs = some (l', cs')) (here : u.entry l = t.entry l)
    (entry : ∀ m, looks l cs = some m → (t.entry m).isSome → u.entry m = t.entry m) :
    u.next l cs = some (l', cs') := by
  cases cs with
  | nil => cases one
  | cons c cs =>
    rw [next] at one ⊢
    rw [here]
    split at one
    · cases one
    rename_i isDir
    rw [if_neg isDir]
    split at one
    · rename_i self
      rw [if_pos self]
      exact one
    rename_i self
    rw [if_neg self]
    split at one
    · rename_i parent
      rw [if_pos parent]
      exact one
    rename_i parent
    rw [if_neg parent]
    cases named : Name.ofText c with
    | none => simp [named] at one
    | some n =>
      cases found : t.entry (n :: l) with
      | none => simp [named, found] at one
      | some e =>
        have same := entry (n :: l) (by simp [looks, named]) (by rw [found]; rfl)
        rw [named] at one
        dsimp only at one ⊢
        rw [same]
        exact one

theorem LeadsIn.unique {t : Linked} {j k : Nat} {l m p : Location} {cs : List (List Char)}
    (first : LeadsIn t j l cs m) (second : LeadsIn t k l cs p) : j = k ∧ m = p := by
  induction first generalizing k with
  | done l =>
    cases second with
    | done => exact ⟨rfl, rfl⟩
    | step _ _ _ _ _ _ one _ => cases one
  | step _ l cs l' cs' m one _ ih =>
    cases second with
    | done => cases one
    | step _ _ _ _ _ _ one' rest =>
      cases one.symm.trans one'
      obtain ⟨rfl, same⟩ := ih rest
      exact ⟨rfl, same⟩

theorem Leads.unique {t : Linked} {l m p : Location} {cs : List (List Char)}
    (first : t.Leads l cs m) (second : t.Leads l cs p) : m = p :=
  (first.choose_spec.unique second.choose_spec).2

theorem Leads.nil (t : Linked) (l : Location) : t.Leads l [] l := ⟨0, .done l⟩

theorem Leads.cons {t : Linked} {l l' m : Location} {cs cs' : List (List Char)}
    (one : t.next l cs = some (l', cs')) (rest : t.Leads l' cs' m) : t.Leads l cs m := by
  obtain ⟨k, rest⟩ := rest
  exact ⟨k + 1, .step k l cs l' cs' m one rest⟩

theorem Leads.append {t : Linked} {l k m : Location} {cs ds : List (List Char)}
    (first : t.Leads l cs k) (second : t.Leads k ds m) : t.Leads l (cs ++ ds) m := by
  obtain ⟨j, first⟩ := first
  induction first with
  | done l => exact second
  | step j l cs l' cs' k one _ ih => exact .cons (next_append one ds) (ih second)

theorem Leads.congr {t u : Linked} {l m : Location} {cs : List (List Char)}
    (entries : ∀ x e, t.entry x = some e → u.entry x = some e) (leads : t.Leads l cs m) :
    u.Leads l cs m := by
  obtain ⟨j, leads⟩ := leads
  induction leads with
  | done l => exact .nil u l
  | step j l cs l' cs' m one _ ih =>
    have isDir := next_dir one
    refine .cons (next_congr one ((entries l _ isDir).trans isDir.symm) ?_) ih
    intro x _ there
    obtain ⟨e, he⟩ := Option.isSome_iff_exists.mp there
    exact (entries x e he).trans he.symm

/-- What the system finds with a bound on the links is where the way leads. -/
theorem leads_of_walk {t : Linked} {links : Nat} {l m : Location} {cs : List (List Char)}
    (h : t.walk links l cs = some m) : t.Leads l cs m := by
  have general : ∀ f, (∀ l cs, f l cs = some m → t.Leads l cs m) → ∀ l cs,
      t.walkWith f l cs = some m → t.Leads l cs m := by
    intro f behind l cs h
    induction cs generalizing l with
    | nil =>
      cases h
      exact .nil t _
    | cons c cs ih =>
      have go : ∀ l' cs', t.next l (c :: cs) = some (l', cs') → t.Leads l' cs' m →
          t.Leads l (c :: cs) m := fun _ _ one rest => .cons one rest
      rw [walkWith] at h
      rw [next] at go
      split at h
      · cases h
      rename_i isDir
      rw [if_neg isDir] at go
      split at h
      · rename_i self
        rw [if_pos self] at go
        exact go l cs rfl (ih l h)
      rename_i self
      rw [if_neg self] at go
      split at h
      · rename_i parent
        rw [if_pos parent] at go
        exact go l.tail cs rfl (ih l.tail h)
      rename_i parent
      rw [if_neg parent] at go
      cases named : Name.ofText c with
      | none => simp [named] at h
      | some n =>
        cases found : t.entry (n :: l) with
        | none => simp [named, found] at h
        | some e =>
          simp only [named, found] at h go
          cases e with
          | link target =>
            simp only [Option.ite_none_left_eq_some] at h go
            exact go _ _ ⟨h.1, rfl⟩ (behind _ _ h.2)
          | file mtime contents => exact go _ _ rfl (ih _ h)
          | other => exact go _ _ rfl (ih _ h)
          | dir => exact go _ _ rfl (ih _ h)
  induction links generalizing l cs with
  | zero => exact general _ (fun _ _ h => by cases h) l cs h
  | succ links ih => exact general _ (fun _ _ h => ih h) l cs h

/-- A way either does not look up an entry, or comes to it. -/
theorem Leads.past_or_comes {t : Linked} {l m : Location} {cs : List (List Char)}
    (leads : t.Leads l cs m) (e : Location) :
    LeadsPast t e l cs m ∨ ∃ rest, ComesTo t e l cs rest := by
  obtain ⟨k, leads⟩ := leads
  induction leads with
  | done l => exact Or.inl (.done l)
  | step k l cs l' cs' m one _ ih =>
    by_cases aside : looks l cs = some e
    · cases cs with
      | nil => cases one
      | cons c rest => exact Or.inr ⟨rest, .here l c rest (next_dir one) aside⟩
    · rcases ih with past | ⟨rest, comes⟩
      · exact Or.inl (.step l cs l' cs' m aside one past)
      · exact Or.inr ⟨rest, .step l cs l' cs' rest aside one comes⟩

/-- What is not there is on no way. -/
theorem Leads.past_missing {t : Linked} {l m e : Location} {cs : List (List Char)}
    (leads : t.Leads l cs m) (missing : t.entry e = none) : LeadsPast t e l cs m := by
  obtain ⟨k, leads⟩ := leads
  induction leads with
  | done l => exact .done l
  | step k l cs l' cs' m one _ ih =>
    refine .step l cs l' cs' m (fun looked => ?_) one ih
    cases cs with
    | nil => cases one
    | cons c cs =>
      obtain ⟨n, named, rfl⟩ := Option.map_eq_some_iff.mp looked
      have isDir := next_dir one
      rw [Name.text_of_ofText named, next_name isDir n, missing] at one
      cases one

/-- Two trees that differ in one entry, which is no directory in the first. -/
structure ApartFrom (t u : Linked) (e : Location) : Prop where
  plain : t.entry e ≠ some .dir
  entries : ∀ x f, x ≠ e → t.entry x = some f → u.entry x = some f

theorem ApartFrom.next {t u : Linked} {e l l' : Location} {cs cs' : List (List Char)}
    (apart : ApartFrom t u e) (aside : looks l cs ≠ some e) (one : t.next l cs = some (l', cs')) :
    u.next l cs = some (l', cs') := by
  have isDir := next_dir one
  have here : l ≠ e := by
    rintro rfl
    exact apart.plain isDir
  refine next_congr one ((apart.entries l _ here isDir).trans isDir.symm) ?_
  intro x looked there
  obtain ⟨f, hf⟩ := Option.isSome_iff_exists.mp there
  refine (apart.entries x f ?_ hf).trans hf.symm
  rintro rfl
  exact aside looked

theorem LeadsPast.leads {t : Linked} {e l m : Location} {cs : List (List Char)}
    (past : LeadsPast t e l cs m) : t.Leads l cs m := by
  induction past with
  | done l => exact .nil t l
  | step l cs l' cs' m _ one _ ih => exact .cons one ih

theorem LeadsPast.apart {t u : Linked} {e l m : Location} {cs : List (List Char)}
    (past : LeadsPast t e l cs m) (apart : ApartFrom t u e) : u.Leads l cs m := by
  induction past with
  | done l => exact .nil u l
  | step l cs l' cs' m aside one _ ih => exact .cons (apart.next aside one) ih

theorem ComesTo.apart {t u : Linked} {e l : Location} {cs rest : List (List Char)}
    (comes : ComesTo t e l cs rest) (apart : ApartFrom t u e) : ComesTo u e l cs rest := by
  induction comes with
  | here l c rest isDir at_entry =>
    refine .here l c rest (apart.entries l _ ?_ isDir) at_entry
    rintro rfl
    exact apart.plain isDir
  | step l cs l' cs' rest aside one _ ih => exact .step l cs l' cs' rest aside (apart.next aside one) ih

theorem ComesTo.append {t : Linked} {e l : Location} {cs rest : List (List Char)}
    (comes : ComesTo t e l cs rest) (ds : List (List Char)) :
    ComesTo t e l (cs ++ ds) (rest ++ ds) := by
  induction comes with
  | here l c rest isDir at_entry => exact .here l c (rest ++ ds) isDir at_entry
  | step l cs l' cs' rest aside one _ ih =>
    refine .step l (cs ++ ds) l' (cs' ++ ds) (rest ++ ds) ?_ (next_append one ds) ih
    cases cs with
    | nil => cases one
    | cons c cs => exact aside

/-- Behind a link the way goes on with its target. -/
theorem ComesTo.follow {t : Linked} {e l m : Location} {cs rest : List (List Char)} {k : Nat}
    {target : List Char} (comes : ComesTo t e l cs rest)
    (link : t.entry e = some (.link target)) (leads : LeadsIn t k l cs m) :
    ∃ j, j < k ∧ LeadsIn t j (origin e.tail target) (target.splitOn '/' ++ rest) m := by
  induction comes generalizing k with
  | here l c rest isDir at_entry =>
    cases leads with
    | step k _ _ l' cs' _ one later =>
      refine ⟨k, Nat.lt_succ_self k, ?_⟩
      obtain ⟨n, named, rfl⟩ := Option.map_eq_some_iff.mp at_entry
      rw [Name.text_of_ofText named, next_name isDir n] at one
      simp only [link, Option.ite_none_left_eq_some, Option.some.injEq, Prod.mk.injEq] at one
      obtain ⟨_, rfl, rfl⟩ := one
      exact later
  | step l cs l' cs' rest aside one _ ih =>
    cases leads with
    | done => cases one
    | step k _ _ l'' cs'' _ one' later =>
      cases one.symm.trans one'
      obtain ⟨j, less, way⟩ := ih later
      exact ⟨j, by omega, way⟩

/-- A link on the way to its own target is the end of the way. -/
theorem ComesTo.endless {t : Linked} {e m : Location} {target : List Char}
    {rest : List (List Char)} (link : t.entry e = some (.link target))
    (comes : ComesTo t e (origin e.tail target) (target.splitOn '/') rest)
    (ds : List (List Char)) (k : Nat) :
    ¬ LeadsIn t k (origin e.tail target) (target.splitOn '/' ++ ds) m := by
  induction k using Nat.strongRecOn generalizing ds with
  | ind k ih =>
    intro leads
    obtain ⟨j, less, way⟩ := (comes.append ds).follow link leads
    exact ih j less (rest ++ ds) way

theorem Leads.behind {t : Linked} {l k m : Location} {cs ds : List (List Char)}
    (first : t.Leads l cs k) (whole : t.Leads l (cs ++ ds) m) : t.Leads k ds m := by
  obtain ⟨j, first⟩ := first
  induction first with
  | done l => exact whole
  | step j l cs l' cs' k one _ ih =>
    obtain ⟨i, whole⟩ := whole
    have both := next_append one ds
    cases h : cs ++ ds with
    | nil =>
      rw [h] at both
      cases both
    | cons c rest =>
      rw [h] at whole both
      cases whole with
      | step i _ _ l'' cs'' _ one' later =>
        cases both.symm.trans one'
        exact ih ⟨i, later⟩

theorem LeadsPast.comes {t : Linked} {e l k : Location} {cs ds rest : List (List Char)}
    (past : LeadsPast t e l cs k) (comes : ComesTo t e k ds rest) :
    ComesTo t e l (cs ++ ds) rest := by
  induction past with
  | done l => exact comes
  | step l cs l' cs' m aside one _ ih =>
    refine .step l (cs ++ ds) l' (cs' ++ ds) rest ?_ (next_append one ds) (ih comes)
    cases cs with
    | nil => cases one
    | cons c cs => exact aside

theorem LeadsPast.append {t : Linked} {e l k m : Location} {cs ds : List (List Char)}
    (first : LeadsPast t e l cs k) (second : LeadsPast t e k ds m) :
    LeadsPast t e l (cs ++ ds) m := by
  induction first with
  | done l => exact second
  | step l cs l' cs' k aside one _ ih =>
    refine .step l (cs ++ ds) l' (cs' ++ ds) m ?_ (next_append one ds) (ih second)
    cases cs with
    | nil => cases one
    | cons c cs => exact aside

/-- A way past an entry that is no directory does not end at it. -/
theorem LeadsPast.elsewhere {t : Linked} {e l m : Location} {cs : List (List Char)}
    (past : LeadsPast t e l cs m) (plain : t.entry e ≠ some .dir) (start : l ≠ e) : m ≠ e := by
  induction past with
  | done l => exact start
  | step l cs l' cs' m aside one _ ih =>
    apply ih
    rintro rfl
    have isDir := next_dir one
    cases cs with
    | nil => cases one
    | cons c cs =>
      rw [next, if_neg (not_not.mpr isDir)] at one
      split at one
      · cases one
        exact plain isDir
      split at one
      · cases one
        cases l with
        | nil => exact plain t.root
        | cons n l =>
          exact plain (parent_isDir isDir)
      cases named : Name.ofText c with
      | none => simp [named] at one
      | some n =>
        have looked : looks l (c :: cs) = some (n :: l) := by simp [looks, named]
        cases found : t.entry (n :: l) with
        | none => simp [named, found] at one
        | some f =>
          simp only [named, found] at one
          cases f with
          | link target =>
            simp only [Option.ite_none_left_eq_some, Option.some.injEq, Prod.mk.injEq] at one
            obtain ⟨_, rfl, _⟩ := one
            unfold origin at plain
            split at plain
            · exact plain t.root
            · exact plain isDir
          | file mtime contents =>
            cases one
            exact aside looked
          | other =>
            cases one
            exact aside looked
          | dir =>
            cases one
            exact aside looked

/-- The names from the root down to a location, as a path. -/
def below : Location → List Char
  | [] => []
  | n :: l => below l ++ '/' :: n.text

theorem below_past {t : Linked} {e : Location} (plain : t.entry e ≠ some .dir) {l : Location}
    (isDir : t.entry l = some .dir) : LeadsPast t e [] ((below l).splitOn '/') l := by
  induction l with
  | nil =>
    refine .step [] [[]] [] [] [] (by simp [looks, Name.ofText]) ?_ (.done [])
    have root : t.entry [] = some .dir := t.root
    simp [next, root]
  | cons n l ih =>
    have parent := parent_isDir isDir
    rw [below, List.splitOn_append_cons_self, List.splitOn_eq_singleton n.noSlash]
    refine (ih parent).append (.step l [n.text] (n :: l) [] (n :: l) ?_ ?_ (.done _))
    · simp only [looks, n.ofText_text, Option.map_some, ne_eq, Option.some.injEq]
      rintro rfl
      exact plain isDir
    · rw [next_name parent n]
      simp only [isDir]

end Linked

end PosixTree
