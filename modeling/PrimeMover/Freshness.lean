import PrimeMover.Tour
import PrimeMover.Bench

/-! What a node that returns says about its outputs: the newest of them is at least as new
as every input, and all of them are when a command was executed for it. -/
namespace PrimeMover
open Outcome Make

variable {W : Type}

/-- The stat cache is never behind the disk, and since `s` it has only got ahead of it for the
outputs of nodes. -/
structure Honest (cfg : Settings W) (F : LuaString → Prop) (s st : State W) : Prop where
  started : 0 < cfg.host.time st.sys.world
  past : Past cfg F st.sys.world
  grown : s.visits <+: st.visits
  ahead : cfg.host.time st.sys.world < 0x80000000 → ∀ f, F f →
    mtime cfg st.sys.world f ≤ age cfg st.sys f
  exact : ∀ f, F f → age cfg s.sys f = mtime cfg s.sys.world f →
    (∀ v ∈ st.visits.drop s.visits.length, f ∉ v.outs) →
    age cfg st.sys f = mtime cfg st.sys.world f

theorem Honest.start {cfg : Settings W} {s fin : State W} (orderly : Orderly cfg s fin) :
    Honest cfg (Named fin) s s :=
  ⟨orderly.started, orderly.past, List.prefix_refl _, fun _ => orderly.ahead, fun _ _ same _ => same⟩

theorem Honest.effect {cfg : Settings W} {F : LuaString → Prop} {s t u : State W} {v : Visit W}
    {old : Bool} (honest : Honest cfg F s t) (visits : u.visits = t.visits ++ [v])
    (effect : Effect cfg F v t u old) : Honest cfg F s u := by
  have grown : s.visits <+: u.visits := honest.grown.trans ⟨[v], visits.symm⟩
  have since : u.visits.drop s.visits.length = t.visits.drop s.visits.length ++ [v] := by
    rw [visits, List.drop_append_of_le_length honest.grown.length_le]
  have before : ∀ f, (∀ w ∈ u.visits.drop s.visits.length, f ∉ w.outs) →
      (∀ w ∈ t.visits.drop s.visits.length, f ∉ w.outs) ∧ f ∉ v.outs := by
    intro f none
    rw [since] at none
    exact ⟨fun w hw => none w (List.mem_append_left _ hw), none v (by simp)⟩
  have clock := effect.clock
  cases effect with
  | kept calm same =>
    refine ⟨honest.started.trans_le clock, honest.past.calm calm, grown, fun early f hf => ?_,
      fun f hf agrees none => ?_⟩
    · rw [age_congr (same f hf), calm.same f hf]
      exact honest.ahead (by omega) f hf
    · rw [age_congr (same f hf), calm.same f hf]
      exact honest.exact f hf agrees (before f none).1
  | touched other calm T span now outs others =>
    refine ⟨honest.started.trans_le clock, honest.past.calm calm, grown, fun early f hf => ?_,
      fun f hf agrees none => ?_⟩
    · rw [calm.same f hf]
      by_cases out : f ∈ v.outs
      · rw [age_early (outs f out) (by omega)]
        exact (honest.past f hf).trans span.1
      · rw [age_congr (others f hf out)]
        exact honest.ahead (by omega) f hf
    · rw [age_congr (others f hf (before f none).2), calm.same f hf]
      exact honest.exact f hf agrees (before f none).1
  | made simple T span outs others =>
    refine ⟨honest.started.trans_le clock, fun f hf => ?_, grown, fun early f hf => ?_,
      fun f hf agrees none => ?_⟩
    · by_cases out : f ∈ v.outs
      · exact (outs f out).2.1.trans span.2
      · rw [(others f hf out).1]
        exact (honest.past f hf).trans clock
    · by_cases out : f ∈ v.outs
      · rw [age_early (outs f out).2.2 (by omega)]
        exact (outs f out).2.1
      · rw [(others f hf out).1, age_congr (others f hf out).2]
        exact honest.ahead (by omega) f hf
    · rw [(others f hf (before f none).2).1, age_congr (others f hf (before f none).2).2]
      exact honest.exact f hf agrees (before f none).1

/-- The names that visited nodes have put out. -/
def PutOut (vs : List (Visit W)) (f : LuaString) : Prop := ∃ v ∈ vs, f ∈ v.outs

/-- An orderly run keeps the stat cache honest. -/
theorem honest_tour {cfg : Settings W} {s fin : State W} (orderly : Orderly cfg s fin) :
    Tour cfg fin (Honest cfg (Named fin) s) (fun _ => True) (fun _ _ => True)
      (fun vs fs => ∀ f ∈ fs, PutOut (vs.drop s.visits.length) f) where
  nil _ := by simp
  append ha hb f hf := by
    rcases List.mem_append.mp hf with hf | hf
    · exact ha f hf
    · exact hb f hf
  mono := by
    intro vs vs' a ha grows f hf
    obtain ⟨v, hv, out⟩ := ha f hf
    exact ⟨v, (grows.drop _).subset hv, out⟩
  one _ _ := trivial
  one_mono _ _ := trivial
  blind _ _ _ honest :=
    ⟨honest.started, honest.past, honest.grown, honest.ahead, honest.exact⟩
  stop _ := trivial
  step := by
    intro decl inputs listed first t honest _ grows
    cases run : finish cfg decl inputs listed first t with
    | error e u => trivial
    | ok outs u =>
      rw [run] at grows
      obtain ⟨p⟩ := finish_phases run
      have apart := orderly.apart.before grows.log
      have visits := p.visits orderly.laws apart
      have member : p.visit ∈ u.visits := by rw [visits]; simp
      have names : ∀ f ∈ outs, Named fin f := fun f hf =>
        ⟨p.visit, grows.visits.subset member, Or.inr hf⟩
      have effect := p.effect orderly.laws apart names
        (orderly.behaves _ (grows.visits.subset member))
      refine ⟨honest.effect visits effect, fun f hf => ⟨p.visit, ?_, hf⟩⟩
      rw [visits, List.drop_append_of_le_length honest.grown.length_le]
      simp

/-- The commands of a node that stand in the log after the node was recorded. -/
def Executed (fin : State W) (v : Visit W) : Prop :=
  ∃ e ∈ fin.sys.log.drop v.sys.log.length, e.command = some (v.decl.obj.id, .build)

/-- An output is at least as new as every input. -/
def UpToDate (cfg : Settings W) (w : W) (inputs : List LuaString) (p : LuaString) : Prop :=
  Present cfg w p ∧ ∀ i ∈ inputs, mtime cfg w i ≤ mtime cfg w p

theorem installNode_events {cfg : Settings W} {decl : Decl} {inputs outs : List LuaString}
    {s s' : State W} (run : installNode cfg decl inputs outs s = .ok () s') :
    ∃ es, s'.sys.log = s.sys.log ++ es ∧
      ∀ e ∈ es, e.command = none ∨ e.command = some (decl.obj.id, .install) := by
  obtain ⟨v, t, field, rest⟩ := bind_eq_ok.mp run
  cases field
  cases h : truthy (rawget s.mem.fields decl.obj "install".toList) with
  | none =>
    rw [h] at rest
    cases rest
    exact ⟨[], by simp, by simp⟩
  | some v =>
    rw [h] at rest
    obtain ⟨es, hes, own, _⟩ := invoke_reports cfg decl.obj .install inputs outs (commandList v) s
    obtain ⟨r, u, invoked, done⟩ := bind_eq_ok.mp rest
    cases done
    rw [invoked] at hes
    exact ⟨es, hes, own⟩

/-- A node that was found up to date has executed nothing for building. -/
theorem Phases.not_executed {cfg : Settings W} {decl : Decl} {inputs outs : List LuaString}
    {listed first : Nat} {s s' : State W} (p : Phases cfg decl inputs listed first outs s s')
    (fresh : p.old = false) : ¬ Executed s' p.visit := by
  have built : p.built.sys.log = p.named.sys.log := by
    rcases p.built_cases with ⟨_, same⟩ | ⟨old, _⟩
    · rw [same, p.asked_same.2.2.1]
    · rw [fresh] at old
      cases old
  obtain ⟨es, log, own⟩ := installNode_events p.installed
  have logged : p.visit.sys.log = p.built.sys.log := by
    rw [built]
    rfl
  rintro ⟨e, member, command⟩
  rw [logged, log, List.drop_left] at member
  rcases own e member with none | install
  · rw [none] at command
    cases command
  · rw [install] at command
    cases command

/-- What a simple node leaves when the stat cache was honest about its files. -/
theorem up_to_date_of_effect {cfg : Settings W} {F : LuaString → Prop} {s s' : State W} {v : Visit W}
    {old : Bool} (started : 0 < cfg.host.time s.sys.world) (past : Past cfg F s.sys.world)
    (ahead : ∀ f, F f → mtime cfg s.sys.world f ≤ age cfg s.sys f)
    (exact : ∀ f ∈ v.outs, age cfg s.sys f = mtime cfg s.sys.world f)
    (effect : Effect cfg F v s s' old) (simple : v.decl.kind = .simple)
    (names : ∀ f, f ∈ v.inputs ∨ f ∈ v.outs → F f)
    (decided : old = true ↔ Outdated (age cfg s.sys) v.inputs v.outs)
    (apart : ∀ i ∈ v.inputs, i ∉ v.outs) :
    (v.outs ≠ [] → ∃ p ∈ v.outs, UpToDate cfg s'.sys.world v.inputs p) ∧
      (old = true → ∀ p ∈ v.outs, UpToDate cfg s'.sys.world v.inputs p) := by
  cases effect with
  | kept calm same =>
    refine ⟨fun _ => ?_, fun old => by cases old⟩
    have fresh : ¬ Outdated (age cfg s.sys) v.inputs v.outs := fun h => by cases decided.mpr h
    have some : latest (age cfg s.sys) v.outs ≠ 0 := fun none => fresh (Or.inl none)
    obtain ⟨p, hp, newest⟩ := latest_attained some
    have disk : mtime cfg s'.sys.world p = latest (age cfg s.sys) v.outs := by
      rw [calm.same p (names p (Or.inr hp)), ← newest]
      exact (exact p hp).symm
    refine ⟨p, hp, present_of_mtime (disk ▸ some), fun i hi => ?_⟩
    have older : age cfg s.sys i ≤ latest (age cfg s.sys) v.outs :=
      not_lt.mp fun newer => fresh (Or.inr ⟨i, hi, newer⟩)
    rw [disk, calm.same i (names i (Or.inl hi))]
    exact (ahead i (names i (Or.inl hi))).trans older
  | touched other => exact absurd simple other
  | made _ T span outs others =>
    have all : ∀ p ∈ v.outs, UpToDate cfg s'.sys.world v.inputs p := by
      intro p hp
      have written := (outs p hp).1
      refine ⟨present_of_mtime (by omega), fun i hi => ?_⟩
      rw [(others i (names i (Or.inl hi)) (apart i hi)).1]
      exact (past i (names i (Or.inl hi))).trans written
    refine ⟨fun some => ?_, fun _ => all⟩
    obtain ⟨p, hp⟩ := List.exists_mem_of_ne_nil _ some
    exact ⟨p, hp, all p hp⟩

/-- The part of a build that comes before the node itself is finished. -/
theorem build_parts {cfg : Settings W} {decl : Decl} {children : List Node} {rule : Option Node}
    {i : Option LuaString} {s s' : State W} {outs : List LuaString} (simple : decl.kind = .simple)
    (run : build cfg (.object decl children rule) i s = .ok outs s') :
    ∃ decl' t inputs u, instantiate decl children.length rule.isSome i s = .ok decl' t ∧
      decl'.kind = .simple ∧
      (enclose decl'.obj do
        let a ← buildAll cfg decl'.kind children
        let b ← collect (buildString cfg decl'.kind 0) i.toList
        if decl'.kind = .foreach then collect (buildRule cfg rule) (a ++ b) else pure (a ++ b)) t =
          .ok inputs u ∧
      finish cfg decl' inputs 0 s.visits.length u = .ok outs s' := by
  rw [build] at run
  obtain ⟨first, t0, count, run⟩ := bind_eq_ok.mp run
  cases count
  obtain ⟨decl', t, made, run⟩ := bind_eq_ok.mp run
  have kind : decl'.kind = decl.kind := by
    cases i with
    | none =>
      cases made
      rfl
    | some i =>
      obtain ⟨_, _, _, made⟩ := bind_eq_ok.mp made
      obtain ⟨_, _, _, made⟩ := bind_eq_ok.mp made
      obtain ⟨_, _, _, made⟩ := bind_eq_ok.mp made
      cases made
      rfl
  have file : decl'.kind ≠ .file := by
    rw [kind, simple]
    simp
  rw [if_neg file] at run
  obtain ⟨inputs, u, inner, outer⟩ := bind_eq_ok.mp run
  exact ⟨decl', t, inputs, u, made, kind.trans simple, inner, outer⟩

/-- A simple node that is built when the stat cache is exact about its outputs and not behind the
disk elsewhere. No node below it puts out a file that it puts out itself. -/
theorem build_up_to_date {cfg : Settings W} {decl : Decl} {children : List Node}
    {rule : Option Node} {i : Option LuaString} {s s' : State W} {outs : List LuaString}
    (simple : decl.kind = .simple)
    (run : build cfg (.object decl children rule) i s = .ok outs s') (orderly : Orderly cfg s s')
    (exact : ∀ f ∈ outs, age cfg s.sys f = mtime cfg s.sys.world f)
    (alone : ∀ u ∈ (s'.visits.drop s.visits.length).dropLast, ∀ f ∈ u.outs, f ∉ outs) :
    ∃ v, s'.visits = s'.visits.dropLast ++ [v] ∧ v.outs = outs ∧
      (outs ≠ [] → ∃ p ∈ outs, UpToDate cfg s'.sys.world v.inputs p) ∧
      (Executed s' v → ∀ p ∈ outs, UpToDate cfg s'.sys.world v.inputs p) := by
  obtain ⟨decl', t, inputs, u, made, kind, inner, outer⟩ := build_parts simple run
  have tour := honest_tour orderly
  have grows : Grows u s' := by
    have := grows_of_moves (finish_moves cfg decl' inputs 0 s.visits.length) u
    rwa [outer] at this
  have below : Honest cfg (Named s') s u ∧
      ∀ f ∈ inputs, PutOut (u.visits.drop s.visits.length) f := by
    have instantiated := (tour.of_local (instantiate_local decl children.length rule.isSome i)
      (fun _ => True)).2.ok (fun _ => ⟨Honest.start orderly, trivial⟩) made
    have children := tour.inputs_leads decl' children rule i (tour.buildAll decl'.kind children)
      (fun s => tour.buildRule rule s)
    exact children.2.ok (fun grows => ⟨(instantiated grows).1, fun _ _ => trivial⟩) inner grows
  obtain ⟨p⟩ := finish_phases outer
  have visits := p.visits orderly.laws orderly.apart
  have last : s'.visits.dropLast = u.visits := by rw [visits, List.dropLast_concat]
  have since : (s'.visits.drop s.visits.length).dropLast = u.visits.drop s.visits.length := by
    rw [visits, List.drop_append_of_le_length below.1.grown.length_le, List.dropLast_concat]
  rw [since] at alone
  rw [last]
  have member : p.visit ∈ s'.visits := by rw [visits]; simp
  have names : ∀ f, f ∈ inputs ∨ f ∈ outs → Named s' f := fun f hf => ⟨p.visit, member, hf⟩
  have effect := p.effect orderly.laws orderly.apart (fun f hf => names f (Or.inr hf))
    (orderly.behaves _ member)
  have decided := p.old_iff orderly.laws orderly.apart names
    fun file => by rw [kind] at file; cases file
  have apart : ∀ i ∈ inputs, i ∉ outs := by
    intro i hi
    obtain ⟨v, hv, out⟩ := below.2 i hi
    exact alone v hv i out
  have early := effect.clock.trans_lt orderly.early
  have seen : ∀ f ∈ outs, age cfg u.sys f = mtime cfg u.sys.world f := fun f hf =>
    below.1.exact f (names f (Or.inr hf)) (exact f hf) fun w hw out => alone w hw f out hf
  obtain ⟨newest, all⟩ := up_to_date_of_effect below.1.started below.1.past (below.1.ahead early)
    seen effect kind names decided apart
  refine ⟨p.visit, visits, rfl, newest, fun executed => all ?_⟩
  by_contra fresh
  exact p.not_executed (Bool.eq_false_iff.mpr fresh) executed

section Examples

/-- A command that writes two files. -/
def pairShell : LuaString → Desk.Effect
  | _ => ⟨0, [("a".toList, []), ("b".toList, [])], []⟩

def pair : Node :=
  .object ⟨⟨1, [("outputs".toList, strings ["a".toList, "b".toList]),
    ("command".toList, strings ["make".toList])]⟩, .simple⟩ [.string "s".toList] none

/-- The first output is there and newer than the source, the second is missing. -/
def pairDesk : Desk :=
  ⟨9, [("s".toList, ⟨1, []⟩), ("a".toList, ⟨5, []⟩), (".pm-cache/index".toList, ⟨1, []⟩)], []⟩

def pairRun : EStateM.Result Stop (State Desk) (List LuaString) :=
  build (Desk.settings pairShell 10) pair none (start pairDesk sandboxVariables 2)

theorem pair_returns : pairRun = .ok ["a".toList, "b".toList] (final pairRun) :=
  Desk.ok_of_returns (by decide +kernel)

theorem pair_orderly : Orderly (Desk.settings pairShell 10) (start pairDesk sandboxVariables 2)
    (final pairRun) :=
  Desk.orderly_of_check pairShell 9 ⟨rfl, rfl⟩ (by decide +kernel)

theorem pair_exact : ∀ f ∈ ["a".toList, "b".toList],
    age (Desk.settings pairShell 10) (start pairDesk sandboxVariables 2).sys f =
      mtime (Desk.settings pairShell 10) pairDesk f := by
  decide +kernel

theorem pair_alone : ∀ u ∈ ((final pairRun).visits.drop 0).dropLast,
    ∀ f ∈ u.outs, f ∉ ["a".toList, "b".toList] := by
  have all : ((final pairRun).visits.drop 0).dropLast.all
      (fun u => u.outs.all fun f => decide (f ∉ ["a".toList, "b".toList])) = true := by
    decide +kernel
  simpa only [List.all_eq_true, decide_eq_true_eq] using all

/-- The pair is found up to date by its first output. -/
theorem pair_up_to_date : ∃ v, (final pairRun).visits = (final pairRun).visits.dropLast ++ [v] ∧
    v.outs = ["a".toList, "b".toList] ∧
    (["a".toList, "b".toList] ≠ [] → ∃ p ∈ ["a".toList, "b".toList],
      UpToDate (Desk.settings pairShell 10) (final pairRun).sys.world v.inputs p) ∧
    (Executed (final pairRun) v → ∀ p ∈ ["a".toList, "b".toList],
      UpToDate (Desk.settings pairShell 10) (final pairRun).sys.world v.inputs p) :=
  build_up_to_date rfl pair_returns pair_orderly pair_exact pair_alone

/-- The second output is still missing when the build returns. -/
theorem missing_sibling : ∃ outs s', build (Desk.settings pairShell 10) pair none
      (start pairDesk sandboxVariables 2) = .ok outs s' ∧
    Orderly (Desk.settings pairShell 10) (start pairDesk sandboxVariables 2) s' ∧
    ¬ ∀ p ∈ outs, Present (Desk.settings pairShell 10) s'.sys.world p := by
  refine ⟨["a".toList, "b".toList], final pairRun, pair_returns, pair_orderly, fun all => ?_⟩
  have there := (Desk.present_iff pairShell 9 _ _).mp (all "b".toList (by simp))
  have missing : ((Desk.host pairShell).stat (final pairRun).sys.world "b".toList).isSome = false := by
    decide +kernel
  rw [missing] at there
  cases there

end Examples

end PrimeMover
