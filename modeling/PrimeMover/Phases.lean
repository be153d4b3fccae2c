import PrimeMover.Walk
import PrimeMover.View

/-! A node from the collation of its inputs to its installation, phase by phase, and what
each phase does to the files that have names in the tree. -/
namespace PrimeMover
open Outcome Make

variable {W : Type}

/-- The record of a run only grows. -/
structure Grows (s t : State W) : Prop where
  visits : s.visits <+: t.visits
  log : s.sys.log <+: t.sys.log

theorem Grows.refl (s : State W) : Grows s s := ⟨List.prefix_refl _, List.prefix_refl _⟩

theorem Grows.of_same {s t : State W} (visits : t.visits = s.visits)
    (log : t.sys.log = s.sys.log) : Grows s t :=
  ⟨visits ▸ List.prefix_refl _, log ▸ List.prefix_refl _⟩

theorem Grows.trans {s t u : State W} (first : Grows s t) (second : Grows t u) : Grows s u :=
  ⟨first.visits.trans second.visits, first.log.trans second.log⟩

theorem Naming.grows {cfg : Settings W} {self : Obj} {s t : State W} (step : Naming cfg self s t) :
    Grows s t := by
  cases step with
  | field key v => exact Grows.of_same rfl rfl
  | look => exact Grows.of_same rfl rfl
  | issue key n => exact ⟨List.prefix_refl _, List.prefix_append _ _⟩
  | save text w written => exact ⟨List.prefix_refl _, List.prefix_refl _⟩
  | mkdir d w made => exact ⟨List.prefix_refl _, List.prefix_append _ _⟩

theorem Invoking.grows {cfg : Settings W} {self : Obj} {s t : State W}
    (step : Invoking cfg self s t) : Grows s t := by
  cases step with
  | look => exact Grows.of_same rfl rfl
  | mkdir d w made => exact ⟨List.prefix_refl _, List.prefix_append _ _⟩
  | trace text => exact ⟨List.prefix_refl _, List.prefix_append _ _⟩
  | execute phase command code w run => exact ⟨List.prefix_refl _, List.prefix_append _ _⟩
  | call w => exact Grows.of_same rfl rfl
  | result phase f r => exact ⟨List.prefix_refl _, List.prefix_append _ _⟩
  | place w => exact Grows.of_same rfl rfl

theorem Action.grows {cfg : Settings W} {self : Obj} {s t : State W} (step : Action cfg self s t) :
    Grows s t := by
  cases step with
  | naming _ step => exact step.grows
  | stamping _ step => exact Grows.of_same step.still.visits step.still.log
  | invoking _ step => exact step.grows
  | visit v => exact ⟨List.prefix_append _ _, List.prefix_refl _⟩
  | touch fs => exact Grows.of_same rfl rfl

theorem grows_of_moves {cfg : Settings W} {self : Obj} {A : Type} {x : PM W A}
    (moves : Moves (Action cfg self) x) (s : State W) : Grows s (final (x s)) :=
  path_keeps (P := fun t => Grows s t) (fun _ _ step grows => grows.trans step.grows)
    (moves s) (Grows.refl s)

theorem grows_bind {A B : Type} {x : PM W A} {f : A → PM W B} (hx : ∀ s, Grows s (final (x s)))
    (hf : ∀ a s, Grows s (final (f a s))) (s : State W) : Grows s (final ((x >>= f) s)) := by
  have first := hx s
  rw [bind_run]
  cases h : x s with
  | ok a t =>
    rw [h] at first
    exact first.trans (hf a t)
  | error e t =>
    rw [h] at first
    exact first

theorem grows_walk (cfg : Settings W) :
    Walk cfg (fun {A} (x : PM W A) => ∀ s, Grows s (final (x s))) where
  pure _ s := Grows.refl s
  throw _ s := Grows.refl s
  bind hx hf := grows_bind hx hf
  visitCount s := Grows.refl s
  local_steps := by
    rintro A x ⟨g, hg⟩ s
    rw [hg]
    cases g (s.mem.fields, s.mem.objects) <;> exact ⟨List.prefix_refl _, List.prefix_refl _⟩
  pushScope _ s := Grows.of_same rfl rfl
  popScope s := Grows.of_same rfl rfl
  finish decl inputs listed first s := grows_of_moves (finish_moves cfg decl inputs listed first) s

/-- The state in which a node has its outputs and is on record. -/
def State.reach (named : State W) (decl : Decl) (key : Option LuaString)
    (inputs outs : List LuaString) (listed first : Nat) : State W :=
  let t := named.setField decl.obj "out".toList (strings outs)
  { t with visits := t.visits ++ [⟨decl, t.mem, t.sys, key, inputs, outs, listed, first⟩] }

theorem finish_run (cfg : Settings W) (decl : Decl) (inputs : List LuaString)
    (listed first : Nat) (s : State W) :
    finish cfg decl inputs listed first s =
      match outputs cfg decl inputs (s.setField decl.obj "in".toList (strings inputs)) with
      | .ok (key, outs) t => (do settle cfg decl inputs outs; pure outs)
          (t.reach decl key inputs outs listed first)
      | .error e t => .error e t := by
  unfold finish
  rw [bind_ok_run (setField_run decl.obj _ _ s), bind_run]
  cases outputs cfg decl inputs (s.setField decl.obj "in".toList (strings inputs)) with
  | ok named t => rfl
  | error e t => rfl

theorem settle_grows (cfg : Settings W) (decl : Decl) (inputs outs : List LuaString)
    (s : State W) :
    Grows s (final ((do settle cfg decl inputs outs; pure outs : PM W (List LuaString)) s)) := by
  refine grows_bind (fun s => grows_of_moves (settle_moves cfg decl inputs outs) s) (fun _ t => ?_) s
  exact Grows.refl t

/-- The phases of a node that returns. -/
structure Phases (cfg : Settings W) (decl : Decl) (inputs : List LuaString) (listed first : Nat)
    (outs : List LuaString) (s s' : State W) where
  key : Option LuaString
  named : State W
  out : outputs cfg decl inputs (s.setField decl.obj "in".toList (strings inputs)) =
    .ok (key, outs) named
  old : Bool
  asked : State W
  judged : judge cfg decl inputs outs (named.reach decl key inputs outs listed first) =
    .ok old asked
  built : State W
  rebuilt : rebuild cfg decl inputs outs old asked = .ok () built
  installed : installNode cfg decl inputs outs built = .ok () s'

theorem finish_phases {cfg : Settings W} {decl : Decl} {inputs outs : List LuaString}
    {listed first : Nat} {s s' : State W}
    (run : finish cfg decl inputs listed first s = .ok outs s') :
    Nonempty (Phases cfg decl inputs listed first outs s s') := by
  obtain ⟨_, s1, set, run1⟩ := bind_eq_ok.mp run
  cases set
  obtain ⟨⟨key, outs'⟩, named, out, run2⟩ := bind_eq_ok.mp run1
  obtain ⟨_, s2, set, run3⟩ := bind_eq_ok.mp run2
  cases set
  obtain ⟨_, s3, set, run4⟩ := bind_eq_ok.mp run3
  cases set
  obtain ⟨_, s4, settled, run5⟩ := bind_eq_ok.mp run4
  cases run5
  obtain ⟨t, s5, stamped, run6⟩ := bind_eq_ok.mp settled
  obtain ⟨old, asked, decided, run7⟩ := bind_eq_ok.mp run6
  obtain ⟨_, built, rebuilt, installed⟩ := bind_eq_ok.mp run7
  exact ⟨⟨key, named, out, old, asked, bind_eq_ok.mpr ⟨t, s5, stamped, decided⟩, built, rebuilt,
    installed⟩⟩

/-- The world is later, and the files with names are as they were. -/
structure Calm (cfg : Settings W) (F : LuaString → Prop) (w w' : W) : Prop where
  clock : cfg.host.time w ≤ cfg.host.time w'
  same : ∀ f, F f → mtime cfg w' f = mtime cfg w f

theorem Calm.refl (cfg : Settings W) (F : LuaString → Prop) (w : W) : Calm cfg F w w :=
  ⟨le_rfl, fun _ _ => rfl⟩

theorem Calm.trans {cfg : Settings W} {F : LuaString → Prop} {w w' w'' : W}
    (first : Calm cfg F w w') (second : Calm cfg F w' w'') : Calm cfg F w w'' :=
  ⟨first.clock.trans second.clock, fun f hf => (second.same f hf).trans (first.same f hf)⟩

/-- No file with a name is from the future. -/
def Past (cfg : Settings W) (F : LuaString → Prop) (w : W) : Prop :=
  ∀ f, F f → mtime cfg w f ≤ cfg.host.time w

theorem Past.calm {cfg : Settings W} {F : LuaString → Prop} {w w' : W} (past : Past cfg F w)
    (calm : Calm cfg F w w') : Past cfg F w' :=
  fun f hf => calm.same f hf ▸ (past f hf).trans calm.clock

/-- The outputs are written at the current time, and no other file with a name. -/
structure Writes (cfg : Settings W) (F : LuaString → Prop) (outs : List LuaString) (w w' : W) :
    Prop where
  clock : cfg.host.time w ≤ cfg.host.time w'
  written : ∀ f ∈ outs, cfg.host.time w ≤ mtime cfg w' f ∧ mtime cfg w' f ≤ cfg.host.time w'
  others : ∀ f, F f → f ∉ outs → mtime cfg w' f = mtime cfg w f

/-- Making a directory and saving the index leave the other files alone. -/
structure Laws (cfg : Settings W) (F : LuaString → Prop) : Prop where
  mkdir : ∀ w d w', cfg.host.mkdir w d = some w' →
    Calm cfg (fun f => F f ∧ f ≠ d) w w'
  save : ∀ w text w', cfg.host.writeFile w (indexFile cfg) text = some w' →
    Calm cfg (fun f => F f ∧ f ≠ indexFile cfg) w w'

/-- Whatever is executed for a node writes its outputs, if it is for building, and nothing
else that has a name. -/
structure Behaves (cfg : Settings W) (F : LuaString → Prop) (v : Visit W) : Prop where
  builds : ∀ s s', s.mem = v.mem →
    simpleDobuild cfg v.decl.obj v.inputs v.outs s = .ok () s' → v.decl.kind = .simple →
    Writes cfg F v.outs s.sys.world s'.sys.world
  installs : ∀ s s', s.mem = v.mem → installNode cfg v.decl v.inputs v.outs s = .ok () s' →
    Calm cfg F s.sys.world s'.sys.world

/-- The names that are neither directories that a run makes nor the index. -/
def Apart (cfg : Settings W) (F : LuaString → Prop) (log : List Event) : Prop :=
  ¬ F (indexFile cfg) ∧ ∀ d, .mkdir d ∈ log → ¬ F d

theorem Apart.before {cfg : Settings W} {F : LuaString → Prop} {log log' : List Event}
    (apart : Apart cfg F log') (earlier : log <+: log') : Apart cfg F log :=
  ⟨apart.1, fun d hd => apart.2 d (earlier.subset hd)⟩

/-- The names of the inputs and outputs of a run. -/
def Named (st : State W) (f : LuaString) : Prop := ∃ v ∈ st.visits, f ∈ v.inputs ∨ f ∈ v.outs

/-- A state in which nothing has been looked at and nothing visited. -/
def Unseen (st : State W) : Prop := st.sys.stattedFiles = (fun _ => none) ∧ st.visits = []

/-- The commands of a run write their own outputs and nothing else among the files `F`,
which contain all that has a name. -/
structure Confined (cfg : Settings W) (F : LuaString → Prop) (fin : State W) : Prop where
  named : ∀ f, Named fin f → F f
  laws : Laws cfg F
  apart : Apart cfg F fin.sys.log
  behaves : ∀ v ∈ fin.visits, Behaves cfg F v

/-- A confined run whose times are positive numbers of Lua. It begins at a time after that of
every file, with a stat cache that is not behind the disk. -/
structure Orderly (cfg : Settings W) (s fin : State W) : Prop
    extends Confined cfg (Named fin) fin where
  started : 0 < cfg.host.time s.sys.world
  early : cfg.host.time fin.sys.world < 0x80000000
  past : Past cfg (Named fin) s.sys.world
  ahead : ∀ f, Named fin f → mtime cfg s.sys.world f ≤ age cfg s.sys f

/-- Nothing with a name changes, on disk or in the stat cache. -/
structure Aside (cfg : Settings W) (F : LuaString → Prop) (s t : State W) : Prop where
  calm : Calm cfg F s.sys.world t.sys.world
  cache : t.sys.stattedFiles = s.sys.stattedFiles
  visits : t.visits = s.visits

theorem Aside.reported {cfg : Settings W} {F : LuaString → Prop} {s t : State W}
    (aside : Aside cfg F s t) {f : LuaString} (hf : F f) :
    reported cfg t.sys f = reported cfg s.sys f := by
  rw [PrimeMover.reported, PrimeMover.reported, aside.cache, aside.calm.same f hf]

theorem Naming.aside {cfg : Settings W} {F : LuaString → Prop} (laws : Laws cfg F) {self : Obj}
    {s t : State W} (step : Naming cfg self s t) (apart : Apart cfg F t.sys.log) :
    Aside cfg F s t := by
  cases step with
  | field key v => exact ⟨Calm.refl _ _ _, rfl, rfl⟩
  | look => exact ⟨Calm.refl _ _ _, rfl, rfl⟩
  | issue key n => exact ⟨Calm.refl _ _ _, rfl, rfl⟩
  | save text w written =>
    have calm := laws.save _ text w written
    refine ⟨⟨calm.clock, fun f hf => calm.same f ⟨hf, ?_⟩⟩, rfl, rfl⟩
    rintro rfl
    exact apart.1 hf
  | mkdir d w made =>
    have calm := laws.mkdir _ d w made
    refine ⟨⟨calm.clock, fun f hf => calm.same f ⟨hf, ?_⟩⟩, rfl, rfl⟩
    rintro rfl
    exact apart.2 f (by simp) hf

theorem aside_of_path {cfg : Settings W} {F : LuaString → Prop} (laws : Laws cfg F) {self : Obj}
    {s t : State W} (path : Relation.ReflTransGen (Naming cfg self) s t)
    (apart : Apart cfg F t.sys.log) : Aside cfg F s t := by
  induction path with
  | refl => exact ⟨Calm.refl _ _ _, rfl, rfl⟩
  | tail _ step ih =>
    have last := step.aside laws apart
    have earlier := ih (apart.before step.grows.log)
    exact ⟨earlier.calm.trans last.calm, last.cache.trans earlier.cache,
      last.visits.trans earlier.visits⟩

theorem aside_of_moves {cfg : Settings W} {F : LuaString → Prop} (laws : Laws cfg F) {self : Obj}
    {A : Type} {x : PM W A} (moves : Moves (Naming cfg self) x) {s t : State W} {a : A}
    (run : x s = .ok a t) (apart : Apart cfg F t.sys.log) : Aside cfg F s t := by
  have path := moves s
  unfold MovesFrom at path
  rw [run] at path
  exact aside_of_path laws path apart

/-- What a command list or an install list does not touch. -/
structure Outside (s t : State W) : Prop where
  mem : t.mem = s.mem
  cache : t.sys.stattedFiles = s.sys.stattedFiles
  visits : t.visits = s.visits

theorem outside_of_moves {cfg : Settings W} {self : Obj} {A : Type} {x : PM W A}
    (moves : Moves (Invoking cfg self) x) {s t : State W} {a : A} (run : x s = .ok a t) :
    Outside s t := by
  have path := path_keeps (P := fun u => Outside s u) ?_ (moves s) ⟨rfl, rfl, rfl⟩
  · rwa [run] at path
  · intro u v step earlier
    have one : Outside u v := by cases step <;> exact ⟨rfl, rfl, rfl⟩
    exact ⟨one.mem.trans earlier.mem, one.cache.trans earlier.cache,
      one.visits.trans earlier.visits⟩

/-- What a node does to the files with names, by its decision. The time `T` is noted for
its outputs. -/
inductive Effect (cfg : Settings W) (F : LuaString → Prop) (v : Visit W) (s s' : State W) :
    Bool → Prop where
  | kept (calm : Calm cfg F s.sys.world s'.sys.world)
      (same : ∀ f, F f → reported cfg s'.sys f = reported cfg s.sys f) : Effect cfg F v s s' false
  | touched (other : v.decl.kind ≠ .simple)
      (calm : Calm cfg F s.sys.world s'.sys.world) (T : Nat)
      (span : cfg.host.time s.sys.world ≤ T ∧ T ≤ cfg.host.time s'.sys.world)
      (now : T = cfg.host.time v.sys.world)
      (outs : ∀ f ∈ v.outs, reported cfg s'.sys f = luaNumber T)
      (others : ∀ f, F f → f ∉ v.outs → reported cfg s'.sys f = reported cfg s.sys f) :
      Effect cfg F v s s' true
  | made (simple : v.decl.kind = .simple) (T : Nat)
      (span : cfg.host.time s.sys.world ≤ T ∧ T ≤ cfg.host.time s'.sys.world)
      (outs : ∀ f ∈ v.outs, cfg.host.time s.sys.world ≤ mtime cfg s'.sys.world f ∧
        mtime cfg s'.sys.world f ≤ T ∧ reported cfg s'.sys f = luaNumber T)
      (others : ∀ f, F f → f ∉ v.outs →
        mtime cfg s'.sys.world f = mtime cfg s.sys.world f ∧
          reported cfg s'.sys f = reported cfg s.sys f) :
      Effect cfg F v s s' true

theorem Effect.clock {cfg : Settings W} {F : LuaString → Prop} {v : Visit W} {t u : State W}
    {old : Bool} (effect : Effect cfg F v t u old) :
    cfg.host.time t.sys.world ≤ cfg.host.time u.sys.world := by
  cases effect with
  | kept calm => exact calm.clock
  | touched other calm => exact calm.clock
  | made simple T span => exact span.1.trans span.2

theorem rebuild_fresh {cfg : Settings W} {decl : Decl} {inputs outs : List LuaString}
    {s t : State W} (run : rebuild cfg decl inputs outs false s = .ok () t) : t = s := by
  cases run
  rfl

theorem rebuild_old {cfg : Settings W} {decl : Decl} {inputs outs : List LuaString}
    {s t : State W} (run : rebuild cfg decl inputs outs true s = .ok () t) :
    ∃ u, dobuild cfg decl inputs outs s = .ok () u ∧ t = { u with sys := { u.sys with
      stattedFiles := fun g =>
        if g ∈ outs then some (luaNumber (cfg.host.time u.sys.world))
        else u.sys.stattedFiles g } } := by
  obtain ⟨_, u, done, touched⟩ := bind_eq_ok.mp run
  cases touched
  exact ⟨u, done, rfl⟩

theorem dobuild_simple {cfg : Settings W} {decl : Decl} (simple : decl.kind = .simple)
    (inputs outs : List LuaString) :
    dobuild cfg decl inputs outs = simpleDobuild cfg decl.obj inputs outs := by
  simp only [dobuild, simple]

theorem dobuild_other {cfg : Settings W} {decl : Decl} (other : decl.kind ≠ .simple)
    (inputs outs : List LuaString) : dobuild cfg decl inputs outs = pure () := by
  unfold dobuild
  split
  · rename_i simple
    exact absurd simple other
  · rfl

namespace Phases

variable {cfg : Settings W} {F : LuaString → Prop} {decl : Decl} {inputs outs : List LuaString}
  {listed first : Nat} {s s' : State W} (p : Phases cfg decl inputs listed first outs s s')

/-- The record of the node. -/
def visit : Visit W :=
  let t := p.named.setField decl.obj "out".toList (strings outs)
  ⟨decl, t.mem, t.sys, p.key, inputs, outs, listed, first⟩

/-- The decision, by what the node sees when it has its outputs. -/
theorem old_dated : ∃ names, dated cfg p.visit.mem decl outs = .ok names ∧
    (p.old = true ↔ Outdated (age cfg p.visit.sys) inputs names) ∧
    (decl.kind = .file → ∀ f ∈ names, reported cfg p.visit.sys f ≠ 0) :=
  (judge_value p.judged).2

theorem asked_same : p.asked.mem = p.visit.mem ∧ p.asked.sys.world = p.named.sys.world ∧
    p.asked.sys.log = p.named.sys.log ∧ p.asked.visits = p.named.visits ++ [p.visit] ∧
    ∀ f, reported cfg p.asked.sys f = reported cfg p.named.sys f := by
  have moves : Moves (Stamping cfg decl.obj) (judge cfg decl inputs outs) :=
    (timestamp_moves cfg decl outs).bind fun t => outdated_moves cfg decl.obj t inputs
  have still := still_of_run moves p.judged
  exact ⟨still.mem, still.world, still.log, still.visits, still.reported⟩

/-- The state after the commands, before the outputs are noted in the stat cache. -/
theorem built_cases :
    (p.old = false ∧ p.built = p.asked) ∨
    p.old = true ∧ ∃ u : State W, Outside p.asked u ∧ p.asked.sys.log <+: u.sys.log ∧
      (if decl.kind = .simple then simpleDobuild cfg decl.obj inputs outs p.asked = .ok () u
        else u = p.asked) ∧
      p.built = { u with sys := { u.sys with
        stattedFiles := fun g =>
          if g ∈ outs then some (luaNumber (cfg.host.time u.sys.world))
          else u.sys.stattedFiles g } } := by
  have run := p.rebuilt
  cases old : p.old with
  | false =>
    rw [old] at run
    exact Or.inl ⟨rfl, rebuild_fresh run⟩
  | true =>
    rw [old] at run
    obtain ⟨u, done, touched⟩ := rebuild_old run
    refine Or.inr ⟨rfl, u, ?_⟩
    split
    · rename_i simple
      rw [dobuild_simple simple] at done
      have moves := simpleDobuild_moves cfg decl.obj inputs outs
      have grows := grows_of_moves (Moves.invoking cfg decl.obj moves) p.asked
      rw [done] at grows
      exact ⟨outside_of_moves moves done, grows.log, done, touched⟩
    · rename_i other
      rw [dobuild_other other] at done
      cases done
      exact ⟨⟨rfl, rfl, rfl⟩, List.prefix_refl _, rfl, touched⟩

theorem built_same : p.built.mem = p.visit.mem ∧ p.named.sys.log <+: p.built.sys.log ∧
    p.built.visits = p.named.visits ++ [p.visit] := by
  obtain ⟨mem, _, log, visits, _⟩ := p.asked_same
  rcases p.built_cases with ⟨_, same⟩ | ⟨_, u, out, grows, _, same⟩
  · rw [same]
    exact ⟨mem, log ▸ List.prefix_refl _, visits⟩
  · rw [same]
    exact ⟨out.mem.trans mem, log ▸ grows, out.visits.trans visits⟩

theorem installed_outside : Outside p.built s' :=
  outside_of_moves (installNode_moves cfg decl inputs outs) p.installed

theorem installed_log : p.built.sys.log <+: s'.sys.log := by
  have grows := grows_of_moves (Moves.invoking cfg decl.obj
    (installNode_moves cfg decl inputs outs)) p.built
  rw [p.installed] at grows
  exact grows.log

theorem log_named : p.named.sys.log <+: s'.sys.log :=
  p.built_same.2.1.trans p.installed_log

theorem aside_named (laws : Laws cfg F) (apart : Apart cfg F s'.sys.log) :
    Aside cfg F s p.named := by
  have set : Aside cfg F s (s.setField decl.obj "in".toList (strings inputs)) :=
    ⟨Calm.refl _ _ _, rfl, rfl⟩
  have out := aside_of_moves laws (outputs_moves cfg decl inputs) p.out (apart.before p.log_named)
  exact ⟨set.calm.trans out.calm, out.cache, out.visits⟩

theorem visits (laws : Laws cfg F) (apart : Apart cfg F s'.sys.log) :
    s'.visits = s.visits ++ [p.visit] := by
  rw [p.installed_outside.visits, p.built_same.2.2, (p.aside_named laws apart).visits]

theorem visit_reported (laws : Laws cfg F) (apart : Apart cfg F s'.sys.log) {f : LuaString}
    (hf : F f) : reported cfg p.visit.sys f = reported cfg s.sys f :=
  (p.aside_named laws apart).reported hf

theorem visit_age (laws : Laws cfg F) (apart : Apart cfg F s'.sys.log) {f : LuaString}
    (hf : F f) : age cfg p.visit.sys f = age cfg s.sys f :=
  age_congr (p.visit_reported laws apart hf)

/-- The decision, by what the node sees before it has its outputs. -/
theorem old_iff (laws : Laws cfg F) (apart : Apart cfg F s'.sys.log)
    (names : ∀ f, f ∈ inputs ∨ f ∈ outs → F f)
    (text : decl.kind = .file → Verbatim cfg p.visit.mem decl.obj outs) :
    p.old = true ↔ Outdated (age cfg s.sys) inputs outs := by
  obtain ⟨same, dated, old, _⟩ := p.old_dated
  cases dated_verbatim text dated
  rw [old, Outdated.congr fun f hf => p.visit_age laws apart (names f hf)]

/-- What a node that returns has done to the files with names. -/
theorem effect (laws : Laws cfg F) (apart : Apart cfg F s'.sys.log)
    (names : ∀ f ∈ outs, F f) (behaves : Behaves cfg F p.visit) : Effect cfg F p.visit s s' p.old := by
  have aside := p.aside_named laws apart
  obtain ⟨mem, world, _, _, ages⟩ := p.asked_same
  have install := behaves.installs _ _ p.built_same.1 p.installed
  have cache := p.installed_outside.cache
  have quiet : ∀ f, F f → reported cfg p.asked.sys f = reported cfg s.sys f := fun f hf =>
    (ages f).trans (aside.reported hf)
  have calm : Calm cfg F s.sys.world p.asked.sys.world := world ▸ aside.calm
  have later : ∀ f, F f → reported cfg s'.sys f = reported cfg p.built.sys f := fun f hf => by
    rw [reported, reported, cache, install.same f hf]
  rcases p.built_cases with ⟨fresh, same⟩ | ⟨outdated, u, out, _, done, same⟩
  · rw [same] at install later
    rw [fresh]
    exact .kept (calm.trans install) fun f hf => (later f hf).trans (quiet f hf)
  · rw [outdated]
    have touched : ∀ f ∈ outs, reported cfg s'.sys f = luaNumber (cfg.host.time u.sys.world) :=
      fun f hf => by
        rw [later f (names f hf), same]
        simp [reported, hf]
    have uworld : p.built.sys.world = u.sys.world := by rw [same]
    rw [uworld] at install
    split at done
    · rename_i simple
      have writes := behaves.builds _ _ mem done simple
      refine .made simple (cfg.host.time u.sys.world)
        ⟨calm.clock.trans writes.clock, install.clock⟩ (fun f hf => ?_) fun f hf other => ?_
      · have written := writes.written f hf
        rw [install.same f (names f hf)]
        exact ⟨calm.clock.trans written.1, written.2, touched f hf⟩
      · have unwritten := writes.others f hf other
        refine ⟨?_, ?_⟩
        · rw [install.same f hf, unwritten, calm.same f hf]
        · rw [later f hf, ← quiet f hf, same]
          have other' : f ∉ outs := other
          simp only [reported, if_neg other', out.cache, unwritten]
    · rename_i other
      subst done
      refine .touched other (calm.trans install) (cfg.host.time p.asked.sys.world)
        ⟨calm.clock, install.clock⟩ (by rw [world]; rfl) touched fun f hf none => ?_
      rw [later f hf, ← quiet f hf, same]
      have none' : f ∉ outs := none
      simp only [reported, if_neg none']

end Phases

end PrimeMover
