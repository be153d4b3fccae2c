import PrimeMover.Orders

/-! A run over some targets as a run over jobs, one for each simple node that is reached:
which of them are executed, how often and when. -/
namespace PrimeMover
open Outcome Make

variable {W : Type}

def Visit.job (cfg : Settings W) (v : Visit W) : Job LuaString (List Order) :=
  ⟨v.ordered cfg, v.inputs, v.outs⟩

def simples (vs : List (Visit W)) : List (Visit W) := vs.filter fun v => v.decl.kind = .simple

/-- The jobs that a run comes by, in its order. -/
def jobsOf (cfg : Settings W) (vs : List (Visit W)) : List (Job LuaString (List Order)) :=
  (simples vs).map (Visit.job cfg)

theorem mem_simples {vs : List (Visit W)} {v : Visit W} :
    v ∈ simples vs ↔ v ∈ vs ∧ v.decl.kind = .simple := by
  simp [simples]

theorem mem_jobsOf {cfg : Settings W} {vs : List (Visit W)} {j : Job LuaString (List Order)} :
    j ∈ jobsOf cfg vs ↔ ∃ v ∈ vs, v.decl.kind = .simple ∧ v.job cfg = j := by
  simp [jobsOf, mem_simples, and_assoc]

theorem jobsOf_append {cfg : Settings W} (a b : List (Visit W)) :
    jobsOf cfg (a ++ b) = jobsOf cfg a ++ jobsOf cfg b := by
  simp [jobsOf, simples]

theorem jobsOf_simple {cfg : Settings W} {v : Visit W} (simple : v.decl.kind = .simple) :
    jobsOf cfg [v] = [v.job cfg] := by
  simp [jobsOf, simples, simple]

theorem jobsOf_other {cfg : Settings W} {v : Visit W} (other : v.decl.kind ≠ .simple) :
    jobsOf cfg [v] = [] := by
  simp [jobsOf, simples, other]

/-- A job that comes by is that of a simple node, and comes after those of the nodes before. -/
theorem jobsOf_split {cfg : Settings W} {vs : List (Visit W)} {before after}
    {j : Job LuaString (List Order)} (split : jobsOf cfg vs = before ++ j :: after) :
    ∃ us v ws, vs = us ++ v :: ws ∧ v.decl.kind = .simple ∧ v.job cfg = j ∧
      jobsOf cfg us = before := by
  obtain ⟨a, b, hvs, ha, hb⟩ := List.map_eq_append_iff.mp split
  obtain ⟨us, rest, whole, hus, hrest⟩ := List.filter_eq_append_iff.mp hvs
  obtain ⟨v, b', rfl, rfl, _⟩ := List.map_eq_cons_iff.mp hb
  obtain ⟨others, ws, split', none, simple, _⟩ := List.filter_eq_cons_iff.mp hrest
  refine ⟨us ++ others, v, ws, by rw [whole, split', List.append_assoc], by simpa using simple, rfl, ?_⟩
  have rest : simples others = [] := List.filter_eq_nil_iff.mpr none
  have first : simples us = a := hus
  rw [jobsOf_append]
  simp [jobsOf, rest, first, ha]

/-- What a run is told and promised, beyond being orderly. -/
structure Regular (cfg : Settings W) (s fin : State W) : Prop extends Orderly cfg s fin where
  unseen : Unseen s
  executes : cfg.noExecute = false
  stamped : ∀ f, Named fin f → Present cfg s.sys.world f → mtime cfg s.sys.world f ≠ 0
  older : ∀ f, Named fin f → mtime cfg s.sys.world f < cfg.host.time s.sys.world
  kinds : ∀ v ∈ fin.visits, v.decl.kind ≠ .ith
  productive : ∀ v ∈ simples fin.visits, v.outs ≠ []
  shared : ∀ u ∈ simples fin.visits, ∀ v ∈ simples fin.visits, ∀ f, f ∈ u.outs → f ∈ v.outs →
    u.job cfg = v.job cfg
  sources : ∀ v ∈ fin.visits, v.decl.kind = .file → ∀ f ∈ v.outs.take v.listed,
    ∀ u ∈ simples fin.visits, f ∉ u.outs
  verbatim : ∀ v ∈ fin.visits, v.decl.kind = .file → Verbatim cfg v.mem v.decl.obj v.outs ∧
    v.outs.drop v.listed = v.inputs.drop v.listed
  raw : ∀ v ∈ fin.visits, v.decl.kind = .file → ∀ i ∈ v.inputs, i ∈ v.outs ∨
    mtime cfg s.sys.world i = 0 ∧ ∀ u ∈ simples fin.visits, i ∉ u.outs

section Order

/-- A name that a node before has made, or none makes. -/
def Traced (fin : State W) (vs : List (Visit W)) (p : LuaString) : Prop :=
  (∃ u ∈ simples vs, p ∈ u.outs) ∨ ∀ u ∈ simples fin.visits, p ∉ u.outs

theorem Traced.mono {fin : State W} {vs vs' : List (Visit W)} {p : LuaString}
    (traced : Traced fin vs p) (grows : vs <+: vs') : Traced fin vs' p := by
  rcases traced with ⟨u, hu, out⟩ | none
  · obtain ⟨known, simple⟩ := mem_simples.mp hu
    exact Or.inl ⟨u, mem_simples.mpr ⟨grows.subset known, simple⟩, out⟩
  · exact Or.inr none

/-- Simple nodes come after those that make their inputs. -/
def Sequenced (fin st : State W) : Prop :=
  ∀ before v after, st.visits = before ++ v :: after → v.decl.kind = .simple →
    ∀ i ∈ v.inputs, Traced fin before i

theorem outputs_handed {cfg : Settings W} {decl : Decl} {inputs outs : List LuaString}
    {key : Option LuaString} {s t : State W} (run : outputs cfg decl inputs s = .ok (key, outs) t)
    (kind : decl.kind = .group ∨ decl.kind = .foreach ∨ decl.kind = .deponly) :
    outs = inputs ∨ outs = [] := by
  unfold outputs at run
  rcases kind with kind | kind | kind
  · rw [kind] at run
    cases run
    exact Or.inl rfl
  · rw [kind] at run
    cases run
    exact Or.inl rfl
  · rw [kind] at run
    cases run
    exact Or.inr rfl

theorem kind_cases {k : Kind} (some : k ≠ .ith) :
    k = .simple ∨ k = .file ∨ k = .group ∨ k = .foreach ∨ k = .deponly := by
  cases k <;> simp_all

theorem sequenced_tour {cfg : Settings W} {s fin : State W} (regular : Regular cfg s fin) :
    Tour cfg fin (Sequenced fin) (fun _ => True) (Traced fin) (fun vs fs => ∀ f ∈ fs, Traced fin vs f) where
  nil _ := by simp
  append ha hb f hf := by
    rcases List.mem_append.mp hf with hf | hf
    · exact ha f hf
    · exact hb f hf
  mono ha grows f hf := (ha f hf).mono grows
  one ha hf := ha _ hf
  one_mono traced grows := traced.mono grows
  blind _ _ _ sequenced := sequenced
  stop _ := trivial
  step := by
    intro decl inputs listed first t sequenced fed grows
    cases run : finish cfg decl inputs listed first t with
    | error e u => trivial
    | ok outs u =>
      rw [run] at grows
      obtain ⟨p⟩ := finish_phases run
      have visits := p.visits regular.laws (regular.apart.before grows.log)
      have member : p.visit ∈ u.visits := by rw [visits]; simp
      have known := grows.visits.subset member
      have longer : t.visits <+: u.visits := ⟨[p.visit], visits.symm⟩
      refine ⟨fun before v after split simple i hi => ?_, fun f hf => ?_⟩
      · rw [visits] at split
        rcases List.eq_nil_or_concat' after with rfl | ⟨after, last, rfl⟩
        · obtain ⟨rfl, same⟩ := List.append_inj' split rfl
          cases same
          have simple : decl.kind = .simple := simple
          rw [Fed, if_neg (by rw [simple]; simp)] at fed
          exact fed i hi
        · rw [← List.cons_append, ← List.append_assoc] at split
          obtain ⟨earlier, _⟩ := List.append_inj' split rfl
          exact sequenced before v after earlier simple i hi
      · have kind : decl.kind ≠ .ith := regular.kinds _ known
        rcases kind_cases kind with simple | file | other
        · exact Or.inl ⟨p.visit, mem_simples.mpr ⟨member, simple⟩, hf⟩
        · rw [Fed, if_pos file] at fed
          rw [← List.take_append_drop listed outs] at hf
          rcases List.mem_append.mp hf with hf | hf
          · exact Or.inr (regular.sources _ known file f hf)
          · have same := (regular.verbatim _ known file).2
            exact (fed f (same ▸ hf)).mono longer
        · have notFile : decl.kind ≠ .file := by
            rcases other with h | h | h <;> simp [h]
          rw [Fed, if_neg notFile] at fed
          rcases outputs_handed p.out other with same | none
          · exact (fed f (same ▸ hf)).mono longer
          · rw [none] at hf
            cases hf

/-- The jobs of a run can be done in its order. -/
theorem plan_of_regular {cfg : Settings W} {targets : List Node} {s fin : State W}
    (run : buildTargets cfg targets s = .ok () fin) (regular : Regular cfg s fin) :
    Plan (jobsOf cfg fin.visits) := by
  have leads := ((sequenced_tour regular).buildTargets targets).2.ok
    (fun _ => ⟨by simp [Sequenced, regular.unseen.2], trivial⟩) run
  have sequenced := (leads (Grows.refl fin)).1
  refine ⟨fun a ha b hb f hfa hfb => ?_, fun before j after split i hi made => ?_, fun j hj => ?_⟩
  · obtain ⟨u, hu, simple, rfl⟩ := mem_jobsOf.mp ha
    obtain ⟨v, hv, simple', rfl⟩ := mem_jobsOf.mp hb
    exact regular.shared u (mem_simples.mpr ⟨hu, simple⟩) v (mem_simples.mpr ⟨hv, simple'⟩) f hfa hfb
  · obtain ⟨us, v, ws, whole, simple, rfl, rfl⟩ := jobsOf_split split
    rcases sequenced us v ws whole simple i hi with ⟨u, hu, out⟩ | none
    · exact ⟨u.job cfg, List.mem_map_of_mem hu, out⟩
    · obtain ⟨m, hm, out⟩ := made
      obtain ⟨u, hu, simple', rfl⟩ := mem_jobsOf.mp hm
      exact absurd out (none u (mem_simples.mpr ⟨hu, simple'⟩))
  · obtain ⟨v, hv, simple, rfl⟩ := mem_jobsOf.mp hj
    exact regular.productive v (mem_simples.mpr ⟨hv, simple⟩)

end Order

section Progress

instance (fin : State W) : DecidablePred (Named fin) := fun f =>
  inferInstanceAs (Decidable (∃ v ∈ fin.visits, f ∈ v.inputs ∨ f ∈ v.outs))

/-- The files with names, as a builder sees them. -/
def filesOf (cfg : Settings W) (fin t : State W) : Files LuaString where
  age f := if Named fin f then age cfg t.sys f else 0
  real f := if Named fin f then mtime cfg t.sys.world f else 0
  clock := cfg.host.time t.sys.world

theorem filesOf_outdated {cfg : Settings W} (fin : State W) {t : State W} {inputs outs : List LuaString}
    (names : ∀ f, f ∈ inputs ∨ f ∈ outs → Named fin f) :
    Outdated (filesOf cfg fin t).age inputs outs ↔ Outdated (age cfg t.sys) inputs outs :=
  Outdated.congr fun f hf => if_pos (names f hf)

theorem filesOf_kept {cfg : Settings W} {fin t u : State W}
    (calm : Calm cfg (Named fin) t.sys.world u.sys.world)
    (same : ∀ f, Named fin f → reported cfg u.sys f = reported cfg t.sys f) :
    filesOf cfg fin u = { filesOf cfg fin t with clock := cfg.host.time u.sys.world } := by
  have ages : (filesOf cfg fin u).age = (filesOf cfg fin t).age := by
    funext f
    by_cases hf : Named fin f
    · simp [filesOf, hf, age_congr (same f hf)]
    · simp [filesOf, hf]
  have reals : (filesOf cfg fin u).real = (filesOf cfg fin t).real := by
    funext f
    by_cases hf : Named fin f
    · simp [filesOf, hf, calm.same f hf]
    · simp [filesOf, hf]
  show filesOf cfg fin u = ⟨(filesOf cfg fin t).age, (filesOf cfg fin t).real, _⟩
  rw [← ages, ← reals]
  rfl

/-- A simple node that is executed writes what its job writes, before its installation. -/
theorem filesOf_made {cfg : Settings W} {fin t u : State W} {v : Visit W} {T : Nat}
    (names : ∀ f ∈ v.outs, Named fin f) (later : cfg.host.time t.sys.world ≤ T)
    (early : T < 0x80000000)
    (outs : ∀ f ∈ v.outs, cfg.host.time t.sys.world ≤ mtime cfg u.sys.world f ∧
      mtime cfg u.sys.world f ≤ T ∧ reported cfg u.sys f = luaNumber T)
    (others : ∀ f, Named fin f → f ∉ v.outs →
      mtime cfg u.sys.world f = mtime cfg t.sys.world f ∧
        reported cfg u.sys f = reported cfg t.sys f) :
    Made (v.job cfg) (filesOf cfg fin t) { filesOf cfg fin u with clock := T } := by
  refine ⟨later, fun f hf => ?_, fun f hf => ?_⟩
  · obtain ⟨low, high, noted⟩ := outs f hf
    simpa [filesOf, names f hf, age_early noted early] using ⟨low, high⟩
  · by_cases named : Named fin f
    · have same := others f named hf
      simp [filesOf, named, same.1, age_congr same.2]
    · simp [filesOf, named]

/-- How far a run has come that begins in `s`, when it has executed the jobs `xs`. -/
structure Underway (cfg : Settings W) (s fin t : State W) (xs : List (Job LuaString (List Order))) :
    Prop where
  started : 0 < cfg.host.time t.sys.world
  run : Run (filesOf cfg fin s) (jobsOf cfg t.visits) xs (filesOf cfg fin t)
  log : ordersOf t.sys.log = ordersOf s.sys.log ++ xs.flatMap Job.command
  made : ∀ v ∈ t.visits, v.decl.kind = .simple ∨ v.decl.kind = .file → v.outs = [] ∨
    latest (age cfg t.sys) v.outs ≠ 0
  idle : ∀ f, Named fin f → (∀ u ∈ simples fin.visits, f ∉ u.outs) →
    age cfg t.sys f = mtime cfg s.sys.world f
  sign : ∀ f, Named fin f → 0 ≤ reported cfg t.sys f

/-- Names that are those of whole nodes, of files or of what is made. -/
def Handed (vs : List (Visit W)) (fs : List LuaString) : Prop :=
  ∃ parts : List (List LuaString), fs = parts.flatten ∧ ∀ part ∈ parts, ∃ v ∈ vs,
    (v.decl.kind = .simple ∨ v.decl.kind = .file) ∧ part = v.outs

theorem Handed.mono {vs vs' : List (Visit W)} {fs : List LuaString} (handed : Handed vs fs)
    (grows : vs <+: vs') : Handed vs' fs := by
  obtain ⟨parts, whole, known⟩ := handed
  refine ⟨parts, whole, fun part hp => ?_⟩
  obtain ⟨v, hv, rest⟩ := known part hp
  exact ⟨v, grows.subset hv, rest⟩

theorem Handed.append {vs : List (Visit W)} {a b : List LuaString} (ha : Handed vs a)
    (hb : Handed vs b) : Handed vs (a ++ b) := by
  obtain ⟨parts, rfl, known⟩ := ha
  obtain ⟨parts', rfl, known'⟩ := hb
  refine ⟨parts ++ parts', by simp, fun part hp => ?_⟩
  rcases List.mem_append.mp hp with hp | hp
  · exact known part hp
  · exact known' part hp

/-- Not all files that are handed on are missing. -/
theorem Underway.handed {cfg : Settings W} {s fin t : State W}
    {xs : List (Job LuaString (List Order))} (underway : Underway cfg s fin t xs)
    {fs : List LuaString} (handed : Handed t.visits fs) (none : latest (age cfg t.sys) fs = 0) :
    fs = [] := by
  obtain ⟨parts, rfl, known⟩ := handed
  have absent := latest_eq_zero.mp none
  refine List.flatten_eq_nil_iff.mpr fun part hp => ?_
  obtain ⟨v, hv, kind, rfl⟩ := known part hp
  rcases underway.made v hv kind with nothing | some
  · exact nothing
  · exact absurd (latest_eq_zero.mpr fun f hf => absent f (List.mem_flatten.mpr ⟨_, hp, hf⟩)) some

/-- A node that is not simple is out of date only if it has no outputs. -/
theorem Underway.forwards {cfg : Settings W} {s fin t u : State W}
    {xs : List (Job LuaString (List Order))} (regular : Regular cfg s fin)
    (underway : Underway cfg s fin t xs) {decl : Decl} {inputs outs : List LuaString}
    {listed first : Nat} (p : Phases cfg decl inputs listed first outs t u)
    (apart : Apart cfg (Named fin) u.sys.log) (known : p.visit ∈ fin.visits)
    (other : decl.kind ≠ .simple) (handed : decl.kind ≠ .file → Handed t.visits inputs)
    (old : p.old = true) : outs = [] := by
  have names : ∀ f, f ∈ inputs ∨ f ∈ outs → Named fin f := fun f hf => ⟨p.visit, known, hf⟩
  have verbatim := fun file => (regular.verbatim p.visit known file).1
  have outdated := (p.old_iff regular.laws apart names verbatim).mp old
  have kind : decl.kind ≠ .ith := regular.kinds _ known
  rcases kind_cases kind with simple | file | rest
  · exact absurd simple other
  · obtain ⟨names', dated, _, there⟩ := p.old_dated
    cases dated_verbatim verbatim dated
    rcases outdated with none | ⟨i, hi, newer⟩
    · by_contra some
      obtain ⟨f, hf⟩ := List.exists_mem_of_ne_nil _ some
      refine there file f hf ((p.visit_reported regular.laws apart (names f (Or.inr hf))).trans ?_)
      exact reported_of_age (latest_eq_zero.mp none f hf) (underway.sign f (names f (Or.inr hf)))
    · rcases regular.raw p.visit known file i hi with out | ⟨absent, unmade⟩
      · exact absurd (le_latest out) (not_le.mpr newer)
      · have := underway.idle i (names i (Or.inl hi)) unmade
        omega
  · have notFile : decl.kind ≠ .file := by
      rcases rest with h | h | h <;> simp [h]
    rcases outputs_handed p.out rest with same | none
    · subst same
      rcases outdated with none | ⟨i, hi, newer⟩
      · exact underway.handed (handed notFile) none
      · exact absurd (le_latest hi) (not_le.mpr newer)
    · exact none

/-- A file that the builder has seen is seen after every node. -/
theorem Effect.alive {cfg : Settings W} {F : LuaString → Prop} {v : Visit W} {t u : State W}
    {old : Bool} (effect : Effect cfg F v t u old) (started : 0 < cfg.host.time t.sys.world)
    (early : cfg.host.time u.sys.world < 0x80000000)
    {f : LuaString} (hf : F f) (some : age cfg t.sys f ≠ 0) : age cfg u.sys f ≠ 0 := by
  cases effect with
  | kept calm same => rwa [age_congr (same f hf)]
  | touched other calm T span now outs others =>
    by_cases out : f ∈ v.outs
    · rw [age_early (outs f out) (by omega)]
      omega
    · rwa [age_congr (others f hf out)]
  | made simple T span outs others =>
    by_cases out : f ∈ v.outs
    · rw [age_early (outs f out).2.2 (by omega)]
      omega
    · rwa [age_congr (others f hf out).2]

/-- No file with a name is reported with a negative time after a node. -/
theorem Effect.sign {cfg : Settings W} {F : LuaString → Prop} {v : Visit W} {t u : State W}
    {old : Bool} (effect : Effect cfg F v t u old) (early : cfg.host.time u.sys.world < 0x80000000)
    {f : LuaString} (hf : F f) (sign : 0 ≤ reported cfg t.sys f) : 0 ≤ reported cfg u.sys f := by
  have noted : ∀ T : Nat, T ≤ cfg.host.time u.sys.world → 0 ≤ luaNumber T := fun T upto => by
    rw [luaNumber_of_small (by omega) (by omega)]
    omega
  cases effect with
  | kept calm same => rwa [same f hf]
  | touched other calm T span now outs others =>
    by_cases out : f ∈ v.outs
    · rw [outs f out]
      exact noted T span.2
    · rwa [others f hf out]
  | made simple T span outs others =>
    by_cases out : f ∈ v.outs
    · rw [(outs f out).2.2]
      exact noted T span.2
    · rwa [(others f hf out).2]

/-- What a node that has no outputs to touch leaves as it was. -/
theorem Effect.quiet {cfg : Settings W} {F : LuaString → Prop} {v : Visit W} {t u : State W}
    {old : Bool} (effect : Effect cfg F v t u old) (other : v.decl.kind ≠ .simple)
    (nothing : old = true → v.outs = []) :
    Calm cfg F t.sys.world u.sys.world ∧ ∀ f, F f → reported cfg u.sys f = reported cfg t.sys f := by
  cases effect with
  | kept calm same => exact ⟨calm, same⟩
  | touched _ calm T span now outs others =>
    refine ⟨calm, fun f hf => others f hf ?_⟩
    simp [nothing rfl]
  | made simple => exact absurd simple other

theorem Effect.others {cfg : Settings W} {F : LuaString → Prop} {v : Visit W} {t u : State W}
    {old : Bool} (effect : Effect cfg F v t u old) {f : LuaString} (hf : F f) (out : f ∉ v.outs) :
    reported cfg u.sys f = reported cfg t.sys f := by
  cases effect with
  | kept calm same => exact same f hf
  | touched other calm T span now outs others => exact others f hf out
  | made simple T span outs others => exact (others f hf out).2

section Step

variable {cfg : Settings W} {s fin t u : State W} {xs : List (Job LuaString (List Order))}
  {decl : Decl} {inputs outs : List LuaString} {listed first : Nat}

/-- What is known of the files after a node, whatever it has executed. -/
theorem Underway.next (underway : Underway cfg s fin t xs) {v : Visit W} {old : Bool}
    (effect : Effect cfg (Named fin) v t u old) (early : cfg.host.time u.sys.world < 0x80000000)
    (visits : u.visits = t.visits ++ [v])
    (known : u.visits <+: fin.visits)
    (own : v.decl.kind = .simple ∨ v.decl.kind = .file → v.outs = [] ∨
      latest (age cfg u.sys) v.outs ≠ 0)
    (same : v.decl.kind ≠ .simple → ∀ f, Named fin f → reported cfg u.sys f = reported cfg t.sys f)
    {ys : List (Job LuaString (List Order))}
    (run : Run (filesOf cfg fin s) (jobsOf cfg u.visits) ys (filesOf cfg fin u))
    (log : ordersOf u.sys.log = ordersOf s.sys.log ++ ys.flatMap Job.command) :
    Underway cfg s fin u ys := by
  refine ⟨underway.started.trans_le effect.clock, run, log, fun w hw kind => ?_,
    fun f hf none => ?_, fun f hf => effect.sign early hf (underway.sign f hf)⟩
  · rw [visits] at hw
    rcases List.mem_append.mp hw with hw | hw
    · rcases underway.made w hw kind with nothing | some
      · exact Or.inl nothing
      · refine Or.inr fun gone => some (latest_eq_zero.mpr fun f hf => ?_)
        have member : w ∈ fin.visits :=
          known.subset (by rw [visits]; exact List.mem_append_left _ hw)
        by_contra seen
        exact effect.alive underway.started early ⟨w, member, Or.inr hf⟩ seen
          (latest_eq_zero.mp gone f hf)
    · cases List.mem_singleton.mp hw
      exact own kind
  · rw [← underway.idle f hf none]
    apply age_congr
    by_cases simple : v.decl.kind = .simple
    · refine effect.others hf (none v (mem_simples.mpr ⟨known.subset ?_, simple⟩))
      rw [visits]
      simp
    · exact same simple f hf

variable (regular : Regular cfg s fin) (underway : Underway cfg s fin t xs)
  (p : Phases cfg decl inputs listed first outs t u) (grows : Grows u fin)
  (early : cfg.host.time u.sys.world < 0x80000000)

include regular underway p grows early

theorem Underway.other (other : decl.kind ≠ .simple)
    (handed : decl.kind ≠ .file → Handed t.visits inputs) : Underway cfg s fin u xs := by
  have apart := regular.apart.before grows.log
  have visits := p.visits regular.laws apart
  have member : p.visit ∈ u.visits := by rw [visits]; simp
  have known := grows.visits.subset member
  have names : ∀ f, f ∈ inputs ∨ f ∈ outs → Named fin f := fun f hf => ⟨p.visit, known, hf⟩
  have effect := p.effect regular.laws apart (fun f hf => names f (Or.inr hf))
    (regular.behaves _ known)
  have quiet := effect.quiet other fun old =>
    underway.forwards regular p apart known other handed old
  have jobs : jobsOf cfg u.visits = jobsOf cfg t.visits := by
    rw [visits, jobsOf_append, jobsOf_other other, List.append_nil]
  have own : decl.kind = .simple ∨ decl.kind = .file → outs = [] ∨ latest (age cfg u.sys) outs ≠ 0 := by
    rintro (simple | file)
    · exact absurd simple other
    · obtain ⟨names', dated, _, there⟩ := p.old_dated
      cases dated_verbatim (fun file => (regular.verbatim p.visit known file).1) dated
      refine or_iff_not_imp_left.mpr fun some none => ?_
      obtain ⟨f, hf⟩ := List.exists_mem_of_ne_nil _ some
      have named := names f (Or.inr hf)
      refine there file f hf ((p.visit_reported regular.laws apart named).trans ?_)
      refine reported_of_age ?_ (underway.sign f named)
      rw [← age_congr (quiet.2 f named)]
      exact latest_eq_zero.mp none f hf
  refine underway.next effect early visits grows.visits own (fun _ => quiet.2) ?_ ?_
  · rw [jobs, filesOf_kept quiet.1 quiet.2]
    exact underway.run.wait _ effect.clock
  · rw [p.orders regular.executes, underway.log]
    simp [other]

theorem Underway.simple (simple : decl.kind = .simple) : ∃ ys, Underway cfg s fin u ys := by
  have apart := regular.apart.before grows.log
  have visits := p.visits regular.laws apart
  have member : p.visit ∈ u.visits := by rw [visits]; simp
  have known := grows.visits.subset member
  have names : ∀ f, f ∈ inputs ∨ f ∈ outs → Named fin f := fun f hf => ⟨p.visit, known, hf⟩
  have effect := p.effect regular.laws apart (fun f hf => names f (Or.inr hf))
    (regular.behaves _ known)
  have decided := p.old_iff regular.laws apart names fun file => by rw [simple] at file; cases file
  have jobs : jobsOf cfg u.visits = jobsOf cfg t.visits ++ [p.visit.job cfg] := by
    rw [visits, jobsOf_append, jobsOf_simple simple]
  have orders := p.orders regular.executes
  have some : outs ≠ [] := regular.productive p.visit (mem_simples.mpr ⟨known, simple⟩)
  rw [← filesOf_outdated fin names] at decided
  have keep := underway.next effect early visits grows.visits
  generalize p.old = old at effect decided orders
  cases effect with
  | kept calm same =>
    have fresh : ¬ Outdated (filesOf cfg fin t).age inputs outs := fun outdated => by
      cases decided.mpr outdated
    refine ⟨xs, keep (fun _ => Or.inr ?_) (fun _ => same) ?_ ?_⟩
    · intro none
      refine fresh ((filesOf_outdated fin names).mpr (Or.inl ?_))
      rw [← none]
      exact latest_congr fun f hf => (age_congr (same f (names f (Or.inr hf)))).symm
    · rw [jobs, filesOf_kept calm same]
      exact (underway.run.skip (p.visit.job cfg) fresh).wait _ calm.clock
    · rw [orders, underway.log]
      simp
  | touched other => exact absurd simple other
  | made _ T span written others =>
    refine ⟨xs ++ [p.visit.job cfg], keep (fun _ => Or.inr ?_) (fun other => absurd simple other) ?_ ?_⟩
    · obtain ⟨f, hf⟩ := List.exists_mem_of_ne_nil _ some
      have newest : age cfg u.sys f ≤ latest (age cfg u.sys) p.visit.outs := le_latest hf
      have started := underway.started
      rw [age_early (written f hf).2.2 (by omega)] at newest
      omega
    · have made := filesOf_made (fun f hf => names f (Or.inr hf)) span.1 (by omega) written others
      rw [jobs]
      exact (underway.run.make (p.visit.job cfg) (decided.mp rfl) made).wait _ span.2
    · rw [orders, underway.log]
      simp [simple, Visit.job]

end Step

/-- On the way from `s` time goes on, and as long as Lua has numbers for it the run is under way. -/
def Traveled (cfg : Settings W) (s fin t : State W) : Prop :=
  cfg.host.time s.sys.world ≤ cfg.host.time t.sys.world ∧
    (cfg.host.time t.sys.world < 0x80000000 → ∃ xs, Underway cfg s fin t xs)

theorem underway_tour {cfg : Settings W} {s fin : State W} (regular : Regular cfg s fin) :
    Tour cfg fin (Traveled cfg s fin) (fun _ => True) (fun _ _ => True) Handed where
  nil _ := ⟨[], rfl, by simp⟩
  append ha hb := ha.append hb
  mono ha grows := ha.mono grows
  one _ _ := trivial
  one_mono _ _ := trivial
  blind _ _ _ known := by
    refine ⟨known.1, fun early => ?_⟩
    obtain ⟨xs, underway⟩ := known.2 early
    exact ⟨xs, underway.started, underway.run, underway.log, underway.made, underway.idle,
      underway.sign⟩
  stop _ := trivial
  step := by
    intro decl inputs listed first t known fed grows
    obtain ⟨later, known⟩ := known
    cases run : finish cfg decl inputs listed first t with
    | error e u => trivial
    | ok outs u =>
      rw [run] at grows
      obtain ⟨p⟩ := finish_phases run
      have visits := p.visits regular.laws (regular.apart.before grows.log)
      have member : p.visit ∈ u.visits := by rw [visits]; simp
      have longer : t.visits <+: u.visits := ⟨[p.visit], visits.symm⟩
      have whole : ∀ kind : decl.kind = .simple ∨ decl.kind = .file, Handed u.visits outs :=
        fun kind => ⟨[outs], by simp, by simpa using ⟨p.visit, member, kind, rfl⟩⟩
      have clock := (p.effect regular.laws (regular.apart.before grows.log)
        (fun f hf => ⟨p.visit, grows.visits.subset member, Or.inr hf⟩)
        (regular.behaves _ (grows.visits.subset member))).clock
      by_cases simple : decl.kind = .simple
      · refine ⟨⟨later.trans clock, fun early => ?_⟩, whole (Or.inl simple)⟩
        obtain ⟨xs, underway⟩ := known (clock.trans_lt early)
        exact underway.simple regular p grows early simple
      have handed : decl.kind ≠ .file → Handed t.visits inputs := by
        intro file
        rwa [Fed, if_neg file] at fed
      refine ⟨⟨later.trans clock, fun early => ?_⟩, ?_⟩
      · obtain ⟨xs, underway⟩ := known (clock.trans_lt early)
        exact ⟨xs, underway.other regular p grows early simple handed⟩
      rcases kind_cases (regular.kinds _ (grows.visits.subset member)) with simple' | file | other
      · exact absurd simple' simple
      · exact whole (Or.inr file)
      · have file : decl.kind ≠ .file := by
          rcases other with h | h | h <;> simp [show decl.kind = _ from h]
        rcases outputs_handed p.out other with same | none
        · rw [same]
          exact (handed file).mono longer
        · exact ⟨[], by rw [none]; rfl, by simp⟩

end Progress

theorem Regular.seen {cfg : Settings W} {s fin : State W} (regular : Regular cfg s fin)
    (begun : cfg.host.time s.sys.world < 0x80000000) {f : LuaString} (hf : Named fin f) :
    age cfg s.sys f = mtime cfg s.sys.world f :=
  age_early (reported_unseen (by rw [regular.unseen.1])) ((regular.older f hf).trans begun)

/-- The files with names are older than the run. -/
theorem strict_of_regular {cfg : Settings W} {s fin : State W} (regular : Regular cfg s fin)
    (begun : cfg.host.time s.sys.world < 0x80000000) :
    Strict (fun f => Named fin f ∧ Present cfg s.sys.world f) (filesOf cfg fin s) := by
  have seen := fun f => regular.seen begun (f := f)
  have older : ∀ f, (filesOf cfg fin s).age f < (filesOf cfg fin s).clock := by
    intro f
    by_cases named : Named fin f
    · simpa [filesOf, named, seen f named] using regular.older f named
    · simpa [filesOf, named] using regular.started
  refine ⟨⟨?_, fun f => (older f).le, regular.started⟩, older, fun f => ?_⟩
  · funext f
    by_cases named : Named fin f
    · simp [filesOf, named, seen f named]
    · simp [filesOf, named]
  · by_cases named : Named fin f
    · simp only [filesOf, named, true_and, if_true, seen f named]
      exact ⟨fun there => Nat.pos_of_ne_zero (regular.stamped f named there),
        fun some => present_of_mtime (Nat.pos_iff_ne_zero.mp some)⟩
    · simp [filesOf, named]

/-- What a regular run executes, as a run over its jobs. -/
theorem Regular.underway {cfg : Settings W} {targets : List Node} {s fin : State W}
    (regular : Regular cfg s fin) (run : buildTargets cfg targets s = .ok () fin) :
    cfg.host.time s.sys.world < 0x80000000 ∧ ∃ xs, Underway cfg s fin fin xs := by
  have start : Traveled cfg s fin s := by
    refine ⟨le_rfl, fun begun => ⟨[], regular.started, ?_, by simp, by simp [regular.unseen.2],
      fun f hf _ => regular.seen begun hf, fun f hf => ?_⟩⟩
    · rw [regular.unseen.2]
      exact .start
    · rw [reported_unseen (by rw [regular.unseen.1])]
      have older := regular.older f hf
      rw [luaNumber_of_small (by omega) (by omega)]
      omega
  have leads := ((underway_tour regular).buildTargets targets).2.ok (fun _ => ⟨start, trivial⟩) run
  obtain ⟨later, known⟩ := (leads (Grows.refl fin)).1
  exact ⟨later.trans_lt regular.early, known regular.early⟩

theorem split_unique {A : Type} {a b c d : List A} {x : A} (same : a ++ x :: b = c ++ x :: d)
    (new : x ∉ a) (new' : x ∉ c) : a = c := by
  induction a generalizing c with
  | nil =>
    cases c with
    | nil => rfl
    | cons y c =>
      cases same
      simp at new'
  | cons y a ih =>
    cases c with
    | nil =>
      cases same
      simp at new
    | cons z c =>
      obtain ⟨rfl, rest⟩ := List.cons_eq_cons.mp same
      rw [ih rest (by simp_all) (by simp_all)]

/-- The commands that a run executes are those of the simple nodes that need it, each once,
and when a node is reached first, after those of all nodes that were reached before, and so
of all nodes below it. Which they are depends on what nodes there are, not on their order. -/
theorem needed_executed {cfg : Settings W} {targets : List Node} {s fin : State W}
    (run : buildTargets cfg targets s = .ok () fin) (regular : Regular cfg s fin) :
    ∃ xs : List (Job LuaString (List Order)),
      ordersOf fin.sys.log = ordersOf s.sys.log ++ xs.flatMap Job.command ∧ xs.Nodup ∧
      (∀ all : List (Job LuaString (List Order)), (∀ j, j ∈ all ↔ j ∈ jobsOf cfg fin.visits) →
        ∀ j, j ∈ xs ↔ Needs all (Present cfg s.sys.world) (mtime cfg s.sys.world) j) ∧
      ∀ before v after, fin.visits = before ++ v :: after → v.decl.kind = .simple →
        v.job cfg ∉ jobsOf cfg before → ∀ earlier later, xs = earlier ++ v.job cfg :: later →
        ∀ m ∈ jobsOf cfg before, m ∈ xs → m ∈ earlier := by
  obtain ⟨begun, xs, underway⟩ := regular.underway run
  have plan := plan_of_regular run regular
  have exact := underway.run.exact plan (strict_of_regular regular begun) (List.prefix_refl _)
  have sound := underway.run.sound plan (strict_of_regular regular begun).toInitial
    (List.prefix_refl _)
  have seen : ∀ j ∈ jobsOf cfg fin.visits, ∀ f, f ∈ j.inputs ∨ f ∈ j.outs → Named fin f ∧
      (filesOf cfg fin s).age f = mtime cfg s.sys.world f := by
    intro j hj f hf
    obtain ⟨v, hv, _, rfl⟩ := mem_jobsOf.mp hj
    have named : Named fin f := ⟨v, hv, hf⟩
    exact ⟨named, (if_pos named).trans (regular.seen begun named)⟩
  refine ⟨xs, underway.log, exact.once, fun all same j => ?_, ?_⟩
  · constructor
    · intro executed
      have needs := (exact.decided j (sound.executed j executed)).mp executed
      refine needs.congr (fun j hj => (same j).mpr hj) fun j hj f hf => ?_
      have known := seen j hj f hf
      exact ⟨fun there => ⟨known.1, there⟩, known.2⟩
    · intro needs
      refine (exact.decided j ((same j).mp needs.member)).mpr ?_
      refine needs.congr (fun j hj => (same j).mp hj) fun j hj f hf => ?_
      have known := seen j ((same j).mp hj) f hf
      exact ⟨fun there => there.2, known.2.symm⟩
  · intro before v after split simple new earlier later hxs m hm executed
    obtain ⟨before', rest, hjs, new', done⟩ := exact.first earlier _ later hxs
    have jobs : jobsOf cfg fin.visits = jobsOf cfg before ++ v.job cfg :: jobsOf cfg after := by
      rw [split, ← List.singleton_append, jobsOf_append, jobsOf_append, jobsOf_simple simple]
      rfl
    have same := split_unique (jobs.symm.trans hjs) new new'
    rw [← same] at done
    exact done m hm ((exact.decided m (by rw [jobs]; simp [hm])).mp executed)

section Examples

namespace Desk

/-- The checks of a regular run that begins at a desk, where file nodes name files outright. -/
def regular (shell : LuaString → Effect) (fuel : Nat) (d : Desk) (fin : State Desk) : Bool :=
  let cfg := settings shell (fuel + 1)
  let made := simples fin.visits
  orderly shell fuel d fin &&
    (names fin).all (fun f =>
      let stamp := ((d.files.lookup f).map DeskFile.mtime).getD 0
      decide (stamp < d.clock) && (!((host shell).stat d f).isSome || decide (stamp ≠ 0))) &&
    made.all (fun u => decide (u.outs ≠ []) && made.all fun v => u.outs.all fun f =>
      decide (f ∉ v.outs) ||
        decide (u.ordered cfg = v.ordered cfg ∧ u.inputs = v.inputs ∧ u.outs = v.outs)) &&
    fin.visits.all fun v => decide (v.decl.kind ≠ .ith) && (decide (v.decl.kind ≠ .file) ||
      (v.outs.all (fun f => match expandText cfg v.mem.fields v.mem.scope v.decl.obj f with
          | .ok g => decide (g = f)
          | .error _ => true) &&
        decide (v.outs = v.inputs) &&
        v.outs.all fun f => made.all fun u => decide (f ∉ u.outs)))

theorem regular_of_check (shell : LuaString → Effect) (fuel : Nat) {s fin : State Desk}
    (unseen : Unseen s) (ok : regular shell fuel s.sys.world fin = true) :
    Regular (settings shell (fuel + 1)) s fin := by
  simp only [regular, Bool.and_eq_true, List.all_eq_true, Bool.or_eq_true, decide_eq_true_eq,
    Bool.not_eq_true'] at ok
  obtain ⟨⟨⟨orderly, files⟩, made⟩, nodes⟩ := ok
  refine { orderly_of_check shell fuel unseen orderly with
    unseen := unseen
    executes := rfl
    stamped := fun f hf there => ?_
    older := fun f hf => ?_
    kinds := fun v hv => (nodes v hv).1
    productive := fun v hv => (made v hv).1
    shared := fun u hu v hv f hf hf' => ?_
    sources := fun v hv file f hf u hu => ?_
    verbatim := fun v hv file => ?_
    raw := fun v hv file i hi => ?_ }
  · rw [mtime_eq]
    have there := (present_iff shell fuel _ f).mp there
    rcases (files f (named_iff.mp hf)).2 with none | some
    · rw [there] at none
      cases none
    · exact some
  · rw [mtime_eq]
    exact (files f (named_iff.mp hf)).1
  · rcases (made u hu).2 v hv f hf with apart | ⟨command, inputs, outs⟩
    · exact absurd hf' apart
    · simp only [Visit.job, command, inputs, outs]
  · rcases (nodes v hv).2 with other | ⟨⟨_, _⟩, apart⟩
    · exact absurd file other
    · exact apart f (List.mem_of_mem_take hf) u hu
  · rcases (nodes v hv).2 with other | ⟨⟨text, same⟩, _⟩
    · exact absurd file other
    · refine ⟨fun f hf g expands => ?_, by rw [same]⟩
      have text := text f hf
      rw [expands] at text
      simpa using text
  · rcases (nodes v hv).2 with other | ⟨⟨_, same⟩, _⟩
    · exact absurd file other
    · exact Or.inl (same ▸ hi)

end Desk

def touchShell : LuaString → Desk.Effect
  | ['m', 'a', 'k', 'e', ' ', f] => ⟨0, [([f], [])], []⟩
  | _ => ⟨0, [], []⟩

def maker (id : Nat) (f : LuaString) (children : List Node) : Node :=
  .object ⟨⟨id, [("outputs".toList, strings [f]),
    ("command".toList, strings ["make ".toList ++ f])]⟩, .simple⟩ children none

/-- Two nodes that make `a` from `s`. The second also waits for `d`. -/
def twins : List Node :=
  [maker 1 "a".toList [.string "s".toList],
    maker 2 "a".toList [.string "s".toList,
      .object ⟨⟨3, []⟩, .deponly⟩ [maker 4 "d".toList [.string "s".toList]] none]]

def twinDesk : Desk := ⟨9, [("s".toList, ⟨1, []⟩), (".pm-cache/index".toList, ⟨1, []⟩)], []⟩

def twinRun : EStateM.Result Stop (State Desk) Unit :=
  buildTargets (Desk.settings touchShell 10) twins (start twinDesk sandboxVariables 5)

theorem twins_return : twinRun = .ok () (final twinRun) := Desk.ok_of_returns (by decide +kernel)

theorem twins_regular : Regular (Desk.settings touchShell 10) (start twinDesk sandboxVariables 5)
    (final twinRun) :=
  Desk.regular_of_check touchShell 9 ⟨rfl, rfl⟩ (by decide +kernel)

/-- The two commands of the twins, each once. -/
theorem twins_executed : ∃ xs : List (Job LuaString (List Order)),
    ordersOf (final twinRun).sys.log = ordersOf (start twinDesk sandboxVariables 5).sys.log ++
      xs.flatMap Job.command ∧ xs.Nodup ∧
    (∀ all : List (Job LuaString (List Order)),
      (∀ j, j ∈ all ↔ j ∈ jobsOf (Desk.settings touchShell 10) (final twinRun).visits) →
      ∀ j, j ∈ xs ↔ Needs all (Present (Desk.settings touchShell 10) twinDesk)
        (mtime (Desk.settings touchShell 10) twinDesk) j) ∧
    ∀ before v after, (final twinRun).visits = before ++ v :: after → v.decl.kind = .simple →
      v.job (Desk.settings touchShell 10) ∉ jobsOf (Desk.settings touchShell 10) before →
      ∀ earlier later, xs = earlier ++ v.job (Desk.settings touchShell 10) :: later →
      ∀ m ∈ jobsOf (Desk.settings touchShell 10) before, m ∈ xs → m ∈ earlier :=
  needed_executed twins_return twins_regular

/-- A node of the twins at its place in the run. -/
theorem twin_visit (k : Nat) (kind : Kind) (first : Nat) (orders : List Order) (outs : List LuaString)
    (found : (((final twinRun).visits[k]?).map fun v =>
      (v.decl.kind, v.first, v.ordered (Desk.settings touchShell 10), v.outs)) =
      some (kind, first, orders, outs)) :
    ∃ v, (final twinRun).visits[k]? = some v ∧ v.decl.kind = kind ∧ v.first = first ∧
      v.ordered (Desk.settings touchShell 10) = orders ∧ v.outs = outs := by
  obtain ⟨v, there, same⟩ := Option.map_eq_some_iff.mp found
  simp only [Prod.mk.injEq] at same
  exact ⟨v, there, same⟩

theorem twin_needs {v : Visit Desk} {f : LuaString} (member : v ∈ (final twinRun).visits)
    (simple : v.decl.kind = .simple) (outs : v.outs = [f])
    (none : ((Desk.host touchShell).stat twinDesk f).isSome = false) :
    Needs (jobsOf (Desk.settings touchShell 10) (final twinRun).visits)
      (Present (Desk.settings touchShell 10) twinDesk) (mtime (Desk.settings touchShell 10) twinDesk)
      (v.job (Desk.settings touchShell 10)) := by
  refine .missing (mem_jobsOf.mpr ⟨v, member, simple, rfl⟩) fun g hg there => ?_
  have same : g ∈ v.outs := hg
  rw [outs] at same
  cases List.mem_singleton.mp same
  rw [(Desk.present_iff touchShell 9 _ _).mp there] at none
  cases none

/-- The second node that makes `a` finds it made, before there is `d`, which is below it. -/
theorem twin_before_descendant : ∃ fin u v,
    buildTargets (Desk.settings touchShell 10) twins (start twinDesk sandboxVariables 5) = .ok () fin ∧
    Regular (Desk.settings touchShell 10) (start twinDesk sandboxVariables 5) fin ∧
    fin.visits[4]? = some u ∧ u.decl.kind = .simple ∧ fin.visits[6]? = some v ∧
    v.decl.kind = .simple ∧ v.first ≤ 4 ∧
    (∀ n ∈ [u, v], Needs (jobsOf (Desk.settings touchShell 10) fin.visits)
      (Present (Desk.settings touchShell 10) twinDesk) (mtime (Desk.settings touchShell 10) twinDesk)
      (n.job (Desk.settings touchShell 10))) ∧
    ¬ ∃ a b c, ordersOf fin.sys.log = a ++ u.ordered (Desk.settings touchShell 10) ++ b ++
      v.ordered (Desk.settings touchShell 10) ++ c := by
  obtain ⟨u, hu, usimple, _, uorders, uouts⟩ := twin_visit 4 .simple 3
    [.text "make d".toList] ["d".toList] (by decide +kernel)
  obtain ⟨v, hv, vsimple, vfirst, vorders, vouts⟩ := twin_visit 6 .simple 2
    [.text "make a".toList] ["a".toList] (by decide +kernel)
  have log : ordersOf (final twinRun).sys.log =
      [.text "make a".toList, .text "make d".toList] := by
    decide +kernel
  refine ⟨final twinRun, u, v, twins_return, twins_regular, hu, usimple, hv, vsimple, by omega,
    ?_, ?_⟩
  · intro n hn
    rcases List.mem_pair.mp hn with rfl | rfl
    · exact twin_needs (List.mem_of_getElem? hu) usimple uouts (by decide +kernel)
    · exact twin_needs (List.mem_of_getElem? hv) vsimple vouts (by decide +kernel)
  · rintro ⟨a, b, c, split⟩
    rw [log, uorders, vorders] at split
    have lengths := congrArg List.length split
    simp only [List.length_append, List.length_cons, List.length_nil] at lengths
    obtain rfl : a = [] := List.length_eq_zero_iff.mp (by omega)
    obtain rfl : b = [] := List.length_eq_zero_iff.mp (by omega)
    simp at split

end Examples

end PrimeMover
