import Mathlib.Data.List.Nodup
import Mathlib.Data.List.Infix

/-! Jobs that make files from files, decided by timestamps. The timestamps a builder sees
may be ahead of those on disk, since it notes the time at which a job is done. -/
namespace Make

structure Job (P C : Type) where
  command : C
  inputs : List P
  outs : List P

variable {P C : Type}

/-- The timestamp of the newest of some files, 0 if all are missing. -/
def latest (age : P → Nat) (fs : List P) : Nat := fs.foldr (fun f t => max (age f) t) 0

theorem le_latest {age : P → Nat} {fs : List P} {f : P} (member : f ∈ fs) :
    age f ≤ latest age fs := by
  induction fs with
  | nil => cases member
  | cons g fs ih =>
    simp only [latest, List.foldr_cons] at ih ⊢
    rcases List.mem_cons.mp member with rfl | member
    · exact le_max_left _ _
    · exact (ih member).trans (le_max_right _ _)

theorem latest_attained {age : P → Nat} {fs : List P} (some : latest age fs ≠ 0) :
    ∃ f ∈ fs, age f = latest age fs := by
  induction fs with
  | nil => exact absurd rfl some
  | cons g fs ih =>
    simp only [latest, List.foldr_cons] at ih some ⊢
    rcases le_total (age g) (latest age fs) with h | h
    · have same : max (age g) (latest age fs) = latest age fs := max_eq_right h
      simp only [latest] at same
      rw [same] at some ⊢
      obtain ⟨f, member, hf⟩ := ih some
      exact ⟨f, List.mem_cons_of_mem g member, hf⟩
    · exact ⟨g, List.mem_cons_self, (max_eq_left h).symm⟩

theorem latest_congr {a b : P → Nat} {fs : List P} (same : ∀ f ∈ fs, a f = b f) :
    latest a fs = latest b fs := by
  induction fs with
  | nil => rfl
  | cons g fs ih =>
    simp only [latest, List.foldr_cons] at ih ⊢
    rw [same g List.mem_cons_self, ih fun f hf => same f (List.mem_cons_of_mem g hf)]

theorem latest_mono {a b : P → Nat} {fs : List P} (le : ∀ f ∈ fs, a f ≤ b f) :
    latest a fs ≤ latest b fs := by
  by_cases none : latest a fs = 0
  · omega
  obtain ⟨f, member, hf⟩ := latest_attained none
  rw [← hf]
  exact (le f member).trans (le_latest member)

theorem latest_eq_zero {age : P → Nat} {fs : List P} :
    latest age fs = 0 ↔ ∀ f ∈ fs, age f = 0 := by
  constructor
  · intro none f member
    have newest : age f ≤ latest age fs := le_latest member
    omega
  · intro all
    by_contra some
    obtain ⟨f, member, hf⟩ := latest_attained some
    exact some (hf ▸ all f member)

/-- All outputs are missing or an input is newer than the newest output. -/
def Outdated (age : P → Nat) (inputs outs : List P) : Prop :=
  latest age outs = 0 ∨ ∃ i ∈ inputs, latest age outs < age i

instance (age : P → Nat) (inputs outs : List P) : Decidable (Outdated age inputs outs) :=
  inferInstanceAs (Decidable (_ ∨ _))

theorem Outdated.congr {a b : P → Nat} {inputs outs : List P}
    (same : ∀ f, f ∈ inputs ∨ f ∈ outs → a f = b f) :
    Outdated a inputs outs ↔ Outdated b inputs outs := by
  have outs' : latest a outs = latest b outs := latest_congr fun f hf => same f (Or.inr hf)
  unfold Outdated
  rw [outs']
  refine or_congr_right ?_
  constructor
  · rintro ⟨i, hi, newer⟩
    exact ⟨i, hi, same i (Or.inl hi) ▸ newer⟩
  · rintro ⟨i, hi, newer⟩
    exact ⟨i, hi, (same i (Or.inl hi)).symm ▸ newer⟩

/-- The newest output is there and no input is newer, whatever the builder sees of them:
`age` for the inputs and `real` for the outputs. -/
def Settled (age real : P → Nat) (j : Job P C) : Prop :=
  latest real j.outs ≠ 0 ∧ ∀ i ∈ j.inputs, age i ≤ latest real j.outs

theorem Settled.not_outdated {age real : P → Nat} {j : Job P C} (settled : Settled age real j)
    (ahead : ∀ f, real f ≤ age f) : ¬ Outdated age j.inputs j.outs := by
  have : latest real j.outs ≤ latest age j.outs := latest_mono fun f _ => ahead f
  rintro (none | ⟨i, member, newer⟩)
  · have := settled.1
    omega
  · have := settled.2 i member
    omega

theorem Settled.not_outdated_real {age real : P → Nat} {j : Job P C}
    (settled : Settled age real j) (ahead : ∀ f, real f ≤ age f) :
    ¬ Outdated real j.inputs j.outs := by
  rintro (none | ⟨i, member, newer⟩)
  · exact settled.1 none
  · have := settled.2 i member
    have := ahead i
    omega

/-- What the builder sees of the files, what is on disk, and the time. -/
structure Files (P : Type) where
  age : P → Nat
  real : P → Nat
  clock : Nat

/-- Files at which the builder has not looked yet, none of them from the future. -/
structure Files.Initial (s : Files P) : Prop where
  same : s.age = s.real
  past : ∀ f, s.age f ≤ s.clock
  started : 0 < s.clock

/-- A job has written its outputs, and nothing else. -/
structure Made (j : Job P C) (s t : Files P) : Prop where
  clock : s.clock ≤ t.clock
  written : ∀ f ∈ j.outs, s.clock ≤ t.real f ∧ t.real f ≤ t.clock ∧ t.age f = t.clock
  others : ∀ f, f ∉ j.outs → t.age f = s.age f ∧ t.real f = s.real f

/-- The jobs a builder comes by, those it executes, and the files afterwards. -/
inductive Run (s : Files P) : List (Job P C) → List (Job P C) → Files P → Prop where
  | start : Run s [] [] s
  | wait {js xs t} (c : Nat) (run : Run s js xs t) (later : t.clock ≤ c) :
      Run s js xs { t with clock := c }
  | skip {js xs t} (j : Job P C) (run : Run s js xs t)
      (fresh : ¬ Outdated t.age j.inputs j.outs) : Run s (js ++ [j]) xs t
  | make {js xs t u} (j : Job P C) (run : Run s js xs t)
      (outdated : Outdated t.age j.inputs j.outs) (made : Made j t u) :
      Run s (js ++ [j]) (xs ++ [j]) u

/-- Jobs that share an output are the same job. -/
def Consistent (all : List (Job P C)) : Prop :=
  ∀ u ∈ all, ∀ v ∈ all, ∀ f, f ∈ u.outs → f ∈ v.outs → u = v

/-- An input that a job makes is made by a job that comes earlier. -/
def Ordered (all : List (Job P C)) : Prop :=
  ∀ before j after, all = before ++ j :: after → ∀ i ∈ j.inputs,
    (∃ m ∈ all, i ∈ m.outs) → ∃ m ∈ before, i ∈ m.outs

/-- The jobs of a builder that has begun with `js`. -/
structure Plan (all : List (Job P C)) : Prop where
  consistent : Consistent all
  ordered : Ordered all
  productive : ∀ j ∈ all, j.outs ≠ []

/-- The jobs come by so far are settled, and the other files are as they were. -/
structure Sound (s : Files P) (js xs : List (Job P C)) (t : Files P) : Prop where
  clock : s.clock ≤ t.clock
  ahead : ∀ f, t.real f ≤ t.age f
  past : ∀ f, t.age f ≤ t.clock
  settled : ∀ j ∈ js, Settled t.age t.real j
  executed : ∀ x ∈ xs, x ∈ js
  touched : ∀ f, (∃ x ∈ xs, f ∈ x.outs) → s.clock ≤ t.age f
  untouched : ∀ f, (∀ x ∈ xs, f ∉ x.outs) → t.age f = s.age f ∧ t.real f = s.age f

theorem Sound.start {s : Files P} (initial : s.Initial) : Sound (C := C) s [] [] s where
  clock := le_rfl
  ahead f := by rw [initial.same]
  past := initial.past
  settled := by simp
  executed := by simp
  touched := by simp
  untouched f _ := ⟨rfl, by rw [initial.same]⟩

/-- A job that is executed has not come by before. -/
theorem Sound.new {s t : Files P} {js xs : List (Job P C)} (sound : Sound s js xs t) {j : Job P C}
    (outdated : Outdated t.age j.inputs j.outs) : j ∉ js :=
  fun member => (sound.settled j member).not_outdated sound.ahead outdated

/-- No job that was executed writes an output of a job that has not come by. -/
theorem Sound.untouched_outs {s t : Files P} {js xs after all : List (Job P C)}
    (sound : Sound s js xs t) (plan : Plan all) {j : Job P C} (split : all = js ++ j :: after)
    (new : j ∉ js) : ∀ f ∈ j.outs, t.age f = s.age f ∧ t.real f = s.age f := by
  intro f hf
  apply sound.untouched
  intro x hx out
  have known := sound.executed x hx
  have same := plan.consistent x (by rw [split]; simp [known]) j (by rw [split]; simp) f out hf
  exact new (same ▸ known)

theorem Sound.skip {s t : Files P} {js xs after all : List (Job P C)} (sound : Sound s js xs t)
    (plan : Plan all) {j : Job P C} (split : all = js ++ j :: after)
    (fresh : ¬ Outdated t.age j.inputs j.outs) : Sound s (js ++ [j]) xs t := by
  have settled : Settled t.age t.real j := by
    by_cases known : j ∈ js
    · exact sound.settled j known
    have same : latest t.real j.outs = latest t.age j.outs := by
      apply latest_congr
      intro f hf
      have := sound.untouched_outs plan split known f hf
      rw [this.1, this.2]
    rw [Settled, same]
    refine ⟨fun none => fresh (Or.inl none), fun i hi => ?_⟩
    exact not_lt.mp fun newer => fresh (Or.inr ⟨i, hi, newer⟩)
  refine { sound with
    settled := fun u hu => ?_
    executed := fun x hx => List.mem_append_left _ (sound.executed x hx) }
  rcases List.mem_append.mp hu with hu | hu
  · exact sound.settled u hu
  · cases List.mem_singleton.mp hu
    exact settled

/-- The inputs of a job and of those before it are not its outputs, when it is new. -/
theorem Plan.not_input {all js after : List (Job P C)} (plan : Plan all) {j : Job P C}
    (split : all = js ++ j :: after) (new : j ∉ js) :
    ∀ u ∈ js ++ [j], ∀ i ∈ u.inputs, i ∉ j.outs := by
  intro u hu i hi out
  have member : j ∈ all := by rw [split]; simp
  have earlier : ∃ before rest, all = before ++ u :: rest ∧ ∀ m ∈ before, m ∈ js := by
    rcases List.mem_append.mp hu with hu | hu
    · obtain ⟨before, rest, rfl⟩ := List.append_of_mem hu
      refine ⟨before, rest ++ j :: after, by rw [split]; simp, fun m hm => ?_⟩
      exact List.mem_append_left _ hm
    · cases List.mem_singleton.mp hu
      exact ⟨js, after, split, fun m hm => hm⟩
  obtain ⟨before, rest, whole, known⟩ := earlier
  obtain ⟨m, hm, hout⟩ := plan.ordered before u rest whole i hi ⟨j, member, out⟩
  have same := plan.consistent m (by rw [whole]; simp [hm]) j member i hout out
  exact new (same ▸ known m hm)

theorem Sound.make {s t u : Files P} {js xs after all : List (Job P C)} (sound : Sound s js xs t)
    (plan : Plan all) (started : 0 < s.clock) {j : Job P C} (split : all = js ++ j :: after)
    (outdated : Outdated t.age j.inputs j.outs) (made : Made j t u) :
    Sound s (js ++ [j]) (xs ++ [j]) u := by
  have new := sound.new outdated
  have member : j ∈ all := by rw [split]; simp
  have inputs := plan.not_input split new
  constructor
  · exact sound.clock.trans made.clock
  · intro f
    by_cases out : f ∈ j.outs
    · have := made.written f out
      omega
    · rw [(made.others f out).1, (made.others f out).2]
      exact sound.ahead f
  · intro f
    by_cases out : f ∈ j.outs
    · have := made.written f out
      omega
    · rw [(made.others f out).1]
      exact (sound.past f).trans made.clock
  · intro v hv
    have still : ∀ i ∈ v.inputs, u.age i = t.age i := fun i hi =>
      (made.others i (inputs v hv i hi)).1
    rcases List.mem_append.mp hv with known | known
    · have settled := sound.settled v known
      have same : latest u.real v.outs = latest t.real v.outs := by
        apply latest_congr
        intro f hf
        apply (made.others f _).2
        intro out
        have := plan.consistent v (by rw [split]; simp [known]) j member f hf out
        exact new (this ▸ known)
      rw [Settled, same]
      exact ⟨settled.1, fun i hi => (still i hi).symm ▸ settled.2 i hi⟩
    · cases List.mem_singleton.mp known
      obtain ⟨f, hf⟩ := List.exists_mem_of_ne_nil _ (plan.productive j member)
      have written := (made.written f hf).1
      have newest : u.real f ≤ latest u.real j.outs := le_latest hf
      have := sound.clock
      refine ⟨by omega, fun i hi => ?_⟩
      rw [still i hi]
      have := sound.past i
      omega
  · intro x hx
    rcases List.mem_append.mp hx with hx | hx
    · exact List.mem_append_left _ (sound.executed x hx)
    · exact List.mem_append_right _ hx
  · rintro f ⟨x, hx, hf⟩
    by_cases out : f ∈ j.outs
    · have := made.written f out
      have := sound.clock
      have := made.clock
      omega
    · rw [(made.others f out).1]
      rcases List.mem_append.mp hx with hx | hx
      · exact sound.touched f ⟨x, hx, hf⟩
      · cases List.mem_singleton.mp hx
        exact absurd hf out
  · intro f none
    have out : f ∉ j.outs := none j (by simp)
    rw [(made.others f out).1, (made.others f out).2]
    exact sound.untouched f fun x hx => none x (List.mem_append_left _ hx)

/-- Every run on a plan leaves the jobs it has come by settled. -/
theorem Run.sound {s t : Files P} {js xs all : List (Job P C)} (plan : Plan all)
    (initial : s.Initial) (run : Run s js xs t) (begun : js <+: all) : Sound s js xs t := by
  induction run with
  | start => exact Sound.start initial
  | wait c run later ih =>
    have sound := ih begun
    exact { sound with
      clock := sound.clock.trans later
      past := fun f => (sound.past f).trans later }
  | skip j run fresh ih =>
    obtain ⟨after, split⟩ := begun
    rw [List.append_assoc, List.singleton_append] at split
    exact (ih ⟨_, split⟩).skip plan split.symm fresh
  | make j run outdated made ih =>
    obtain ⟨after, split⟩ := begun
    rw [List.append_assoc, List.singleton_append] at split
    exact (ih ⟨_, split⟩).make plan initial.started split.symm outdated made

/-- A job that has to be executed, by the files before the run. -/
inductive Needs (all : List (Job P C)) (there : P → Prop) (age : P → Nat) : Job P C → Prop where
  | missing {j} (member : j ∈ all) (none : ∀ f ∈ j.outs, ¬ there f) : Needs all there age j
  | newer {j i} (member : j ∈ all) (input : i ∈ j.inputs) (late : latest age j.outs < age i) :
      Needs all there age j
  | remade {j m i} (member : j ∈ all) (input : i ∈ j.inputs) (made : i ∈ m.outs)
      (first : Needs all there age m) : Needs all there age j

theorem Needs.member {all : List (Job P C)} {there : P → Prop} {age : P → Nat} {j : Job P C}
    (needs : Needs all there age j) : j ∈ all := by
  cases needs with
  | missing member none => exact member
  | newer member input late => exact member
  | remade member input made first => exact member

/-- Only which jobs there are matters, and their files. -/
theorem Needs.congr {all all' : List (Job P C)} {there there' : P → Prop} {age age' : P → Nat}
    (jobs : ∀ j ∈ all, j ∈ all')
    (files : ∀ j ∈ all, ∀ f, f ∈ j.inputs ∨ f ∈ j.outs → (there' f → there f) ∧ age f = age' f)
    {j : Job P C} (needs : Needs all there age j) : Needs all' there' age' j := by
  induction needs with
  | @missing j member none =>
    exact .missing (jobs j member) fun f hf => mt (files j member f (Or.inr hf)).1 (none f hf)
  | @newer j i member input late =>
    refine .newer (jobs j member) input ?_
    rwa [← (files j member i (Or.inl input)).2,
      ← latest_congr fun f hf => (files j member f (Or.inr hf)).2]
  | remade member input made _ ih => exact .remade (jobs _ member) input made ih

/-- A run from files that are all older than the clock. -/
structure Strict (there : P → Prop) (s : Files P) : Prop extends s.Initial where
  older : ∀ f, s.age f < s.clock
  positive : ∀ f, there f ↔ 0 < s.age f

/-- What is outdated when its turn comes is what has to be executed. -/
theorem Sound.outdated_iff {s t : Files P} {js xs after all : List (Job P C)}
    (sound : Sound s js xs t) (plan : Plan all) {there : P → Prop} (strict : Strict there s)
    (decided : ∀ j ∈ js, j ∈ xs ↔ Needs all there s.age j) {j : Job P C}
    (split : all = js ++ j :: after) (new : j ∉ js) :
    Outdated t.age j.inputs j.outs ↔ Needs all there s.age j := by
  have member : j ∈ all := by rw [split]; simp
  have outs := sound.untouched_outs plan split new
  have same : latest t.age j.outs = latest s.age j.outs := latest_congr fun f hf => (outs f hf).1
  have absent : (∀ f ∈ j.outs, ¬ there f) ↔ latest s.age j.outs = 0 := by
    rw [latest_eq_zero]
    refine forall₂_congr fun f _ => ?_
    rw [strict.positive]
    omega
  have early : latest s.age j.outs < s.clock := by
    by_cases none : latest s.age j.outs = 0
    · have := strict.started
      omega
    · obtain ⟨f, _, hf⟩ := latest_attained none
      rw [← hf]
      exact strict.older f
  rw [Outdated, same]
  constructor
  · rintro (none | ⟨i, hi, late⟩)
    · exact .missing member (absent.mpr none)
    · by_cases touched : ∃ x ∈ xs, i ∈ x.outs
      · obtain ⟨x, hx, out⟩ := touched
        exact .remade member hi out ((decided x (sound.executed x hx)).mp hx)
      · have := sound.untouched i fun x hx out => touched ⟨x, hx, out⟩
        exact .newer member hi (this.1 ▸ late)
  · intro needs
    cases needs with
    | missing _ none => exact Or.inl (absent.mp none)
    | @newer _ i _ hi late =>
      refine Or.inr ⟨i, hi, ?_⟩
      by_cases touched : ∃ x ∈ xs, i ∈ x.outs
      · have := sound.touched i touched
        omega
      · rw [(sound.untouched i fun x hx out => touched ⟨x, hx, out⟩).1]
        exact late
    | @remade _ m i _ hi out first =>
      refine Or.inr ⟨i, hi, ?_⟩
      obtain ⟨m', hm', out'⟩ := plan.ordered js j after split i hi ⟨m, first.member, out⟩
      have same := plan.consistent m' (by rw [split]; simp [hm']) m first.member i out' out
      subst same
      have := sound.touched i ⟨m', (decided m' hm').mpr first, out⟩
      omega

/-- The jobs that need it are executed, each once, when it comes by first. -/
structure Exact (all js : List (Job P C)) (there : P → Prop) (age : P → Nat)
    (xs : List (Job P C)) : Prop where
  once : xs.Nodup
  decided : ∀ j ∈ js, j ∈ xs ↔ Needs all there age j
  first : ∀ before x after, xs = before ++ x :: after → ∃ earlier rest, js = earlier ++ x :: rest ∧
    x ∉ earlier ∧ ∀ m ∈ earlier, Needs all there age m → m ∈ before

theorem Run.exact {s t : Files P} {js xs all : List (Job P C)} (plan : Plan all)
    {there : P → Prop} (strict : Strict there s) (run : Run s js xs t) (begun : js <+: all) :
    Exact all js there s.age xs := by
  induction run with
  | start => exact ⟨List.nodup_nil, by simp, by simp⟩
  | wait c run later ih => exact ih begun
  | @skip js xs t j run fresh ih =>
    obtain ⟨after, split⟩ := begun
    have shorter : js <+: all := ⟨[j] ++ after, by rw [← List.append_assoc, split]⟩
    rw [List.append_assoc, List.singleton_append] at split
    have exact := ih shorter
    have sound := run.sound plan strict.toInitial shorter
    refine ⟨exact.once, fun u hu => ?_, fun before x after' hx => ?_⟩
    · rcases List.mem_append.mp hu with hu | hu
      · exact exact.decided u hu
      cases List.mem_singleton.mp hu
      by_cases known : j ∈ js
      · exact exact.decided j known
      constructor
      · intro executed
        exact absurd (sound.executed j executed) known
      · intro needs
        have := (sound.outdated_iff plan strict exact.decided split.symm known).mpr needs
        exact absurd this fresh
    · obtain ⟨earlier, rest, hjs, new, done⟩ := exact.first before x after' hx
      exact ⟨earlier, rest ++ [j], by rw [hjs]; simp, new, done⟩
  | @make js xs t u j run outdated made ih =>
    obtain ⟨after, split⟩ := begun
    have shorter : js <+: all := ⟨[j] ++ after, by rw [← List.append_assoc, split]⟩
    rw [List.append_assoc, List.singleton_append] at split
    have exact := ih shorter
    have sound := run.sound plan strict.toInitial shorter
    have new := sound.new outdated
    have needs := (sound.outdated_iff plan strict exact.decided split.symm new).mp outdated
    refine ⟨?_, fun u hu => ?_, fun before x after' hx => ?_⟩
    · rw [List.nodup_append]
      refine ⟨exact.once, List.nodup_singleton j, fun x hx y hy same => ?_⟩
      cases List.mem_singleton.mp hy
      subst same
      exact new (sound.executed x hx)
    · rcases List.mem_append.mp hu with hu | hu
      · rw [List.mem_append, ← exact.decided u hu]
        constructor
        · rintro (executed | same)
          · exact executed
          · cases List.mem_singleton.mp same
            exact absurd hu new
        · exact Or.inl
      · cases List.mem_singleton.mp hu
        exact ⟨fun _ => needs, fun _ => by simp⟩
    · rcases List.eq_nil_or_concat' after' with rfl | ⟨after'', y, rfl⟩
      · obtain ⟨rfl, same⟩ := List.append_inj' hx rfl
        cases same
        exact ⟨js, [], rfl, new, fun m hm needs => (exact.decided m hm).mpr needs⟩
      · rw [← List.cons_append, ← List.append_assoc] at hx
        obtain ⟨hxs, _⟩ := List.append_inj' hx rfl
        obtain ⟨earlier, rest, hjs, new', done⟩ := exact.first before x after'' hxs
        exact ⟨earlier, rest ++ [j], by rw [hjs]; simp, new', done⟩

/-- A job with a file that has changed, or with an input made by such a job. -/
inductive Affected (all : List (Job P C)) (changed : P → Prop) : Job P C → Prop where
  | own {j f} (member : j ∈ all) (file : f ∈ j.inputs ∨ f ∈ j.outs) (other : changed f) :
      Affected all changed j
  | remade {j m i} (member : j ∈ all) (input : i ∈ j.inputs) (made : i ∈ m.outs)
      (first : Affected all changed m) : Affected all changed j

theorem Affected.changed {all : List (Job P C)} {changed : P → Prop} {j : Job P C}
    (affected : Affected all changed j) : ∃ m ∈ all, ∃ f, (f ∈ m.inputs ∨ f ∈ m.outs) ∧ changed f := by
  induction affected with
  | own member file other => exact ⟨_, member, _, file, other⟩
  | remade _ _ _ _ ih => exact ih

theorem Affected.mono {all : List (Job P C)} {changed changed' : P → Prop}
    (also : ∀ f, changed f → changed' f) {j : Job P C} (affected : Affected all changed j) :
    Affected all changed' j := by
  induction affected with
  | own member file other => exact .own member file (also _ other)
  | remade member input made _ ih => exact .remade member input made ih

/-- Where nothing was outdated, only what has changed since has to be executed, and what is
made from that. -/
theorem Needs.affected {all : List (Job P C)} {there : P → Prop} {age before : P → Nat}
    (fresh : ∀ j ∈ all, ¬ Outdated before j.inputs j.outs)
    (absent : ∀ j ∈ all, ∀ f ∈ j.outs, ¬ there f → age f = 0) {j : Job P C}
    (needs : Needs all there age j) : Affected all (fun f => age f ≠ before f) j := by
  have outdated : ∀ j ∈ all, Outdated age j.inputs j.outs →
      Affected all (fun f => age f ≠ before f) j := by
    intro j member old
    by_contra unaffected
    have same : ∀ f, f ∈ j.inputs ∨ f ∈ j.outs → age f = before f := fun f file => by
      by_contra other
      exact unaffected (.own member file other)
    exact fresh j member ((Outdated.congr same).mp old)
  induction needs with
  | missing member none =>
    refine outdated _ member (Or.inl (latest_eq_zero.mpr fun f hf => ?_))
    exact absent _ member f hf (none f hf)
  | newer member input late => exact outdated _ member (Or.inr ⟨_, input, late⟩)
  | remade member input made _ ih => exact .remade member input made ih

end Make
