import PrimeMover.Identity
import PrimeMover.Walk

/-! Two runs over the same nodes, side by side. What a node is called, reads and hands on comes
from the definitions and the ids alone: the files, the clock and the results of the commands
decide only what is executed. -/
namespace PrimeMover
open Outcome AssocTable

variable {W : Type}

/-- The records of one node in two runs. -/
structure Twin (u v : Visit W) : Prop where
  decl : v.decl = u.decl
  fields : v.mem.fields = u.mem.fields
  scope : v.mem.scope = u.mem.scope
  inputs : v.inputs = u.inputs
  outs : v.outs = u.outs
  key : v.key = u.key
  listed : v.listed = u.listed
  first : v.first = u.first

/-- Two runs that have come equally far. The table of the second one stays what it is. -/
structure Beside (cache : List (LuaString × Id)) (count : Option Id) (s t : State W) : Prop where
  fields : t.mem.fields = s.mem.fields
  scope : t.mem.scope = s.mem.scope
  objects : t.mem.objects = s.mem.objects
  visits : List.Forall₂ Twin s.visits t.visits
  cache : t.mem.intermediateCache = cache
  count : t.mem.intermediateCacheCount = count

/-- A table gives every key of a run the id that it has there. -/
def Knows (cache : List (LuaString × Id)) (s : State W) : Prop :=
  ∀ key u, s.mem.intermediateCache.lookup key = some u →
    ∃ u', cache.lookup key = some u' ∧ u'.text = u.text

/-- A program that gives the same in both runs, if both return and the ids are known. -/
structure Lockstep (cache : List (LuaString × Id)) (count : Option Id) {A : Type} (x : PM W A) :
    Prop where
  keeps : ∀ s key u, s.mem.intermediateCache.lookup key = some u →
    (final (x s)).mem.intermediateCache.lookup key = some u
  agrees : ∀ {s s' t t' a b}, Beside cache count s t → x s = .ok a s' → x t = .ok b t' →
    Knows cache s' → b = a ∧ Beside cache count s' t'

/-- Steps that leave the memory and the record alone. -/
structure Quiet (s t : State W) : Prop where
  mem : t.mem = s.mem
  visits : t.visits = s.visits

theorem quiet_of_moves {A : Type} {x : PM W A} (moves : Moves Quiet x) (s : State W) :
    Quiet s (final (x s)) :=
  path_keeps (P := fun t => Quiet s t)
    (fun _ _ step before => ⟨step.mem.trans before.mem, step.visits.trans before.visits⟩)
    (moves s) ⟨rfl, rfl⟩

namespace Lockstep

variable {cache : List (LuaString × Id)} {count : Option Id} {A B : Type}

theorem pure (a : A) : Lockstep cache count (pure a : PM W A) where
  keeps _ _ _ known := known
  agrees beside run run' _ := by
    cases run
    cases run'
    exact ⟨rfl, beside⟩

theorem throw (e : Stop) : Lockstep cache count (throw e : PM W A) where
  keeps _ _ _ known := known
  agrees _ run _ _ := by cases run

theorem bind {x : PM W A} {f : A → PM W B} (hx : Lockstep cache count x)
    (hf : ∀ a, Lockstep cache count (f a)) : Lockstep cache count (x >>= f) where
  keeps s key u known := by
    have first := hx.keeps s key u known
    rw [bind_run]
    cases run : x s with
    | ok a t =>
      rw [run] at first
      exact (hf a).keeps t key u first
    | error e t =>
      rw [run] at first
      exact first
  agrees beside run run' knows := by
    obtain ⟨a, s1, first, second⟩ := bind_eq_ok.mp run
    obtain ⟨b, t1, first', second'⟩ := bind_eq_ok.mp run'
    have knows1 : Knows cache s1 := by
      intro key u known
      have later := (hf a).keeps s1 key u known
      rw [second] at later
      exact knows key u later
    obtain ⟨rfl, beside1⟩ := hx.agrees beside first first' knows1
    exact (hf b).agrees beside1 second second' knows

theorem of_quiet {x : PM W A} (moves : Moves Quiet x)
    (value : ∀ {s s' t t' a b}, Beside cache count s t → x s = .ok a s' → x t = .ok b t' → b = a) :
    Lockstep cache count x where
  keeps s key u known := by
    rw [(quiet_of_moves moves s).mem]
    exact known
  agrees {s s' t t' a b} beside run run' _ := by
    have quiet := quiet_of_moves moves s
    have quiet' := quiet_of_moves moves t
    rw [run] at quiet
    rw [run'] at quiet'
    have mem : s'.mem = s.mem := quiet.mem
    have mem' : t'.mem = t.mem := quiet'.mem
    refine ⟨value beside run run', ?_⟩
    exact ⟨by rw [mem, mem', beside.fields], by rw [mem, mem', beside.scope],
      by rw [mem, mem', beside.objects],
      by rw [show s'.visits = _ from quiet.visits, show t'.visits = _ from quiet'.visits]
         exact beside.visits,
      by rw [mem', beside.cache], by rw [mem', beside.count]⟩

theorem unit {x : PM W Unit} (moves : Moves Quiet x) : Lockstep cache count x :=
  of_quiet moves fun _ _ _ => rfl

theorem of_local {x : PM W A} (h : Local x) : Lockstep cache count x := by
  obtain ⟨g, hg⟩ := h
  constructor
  · intro s key u known
    rw [hg]
    cases g (s.mem.fields, s.mem.objects) <;> exact known
  · intro s s' t t' a b beside run run' _
    rw [hg] at run run'
    rw [beside.fields, beside.objects] at run'
    cases value : g (s.mem.fields, s.mem.objects) with
    | error e m =>
      rw [value] at run
      cases run
    | ok c m =>
      rw [value] at run run'
      cases run
      cases run'
      exact ⟨rfl, rfl, beside.scope, rfl, beside.visits, beside.cache, beside.count⟩

theorem except (r : Except Stop A) : Lockstep cache count (except r : PM W A) := by
  cases r with
  | ok a => exact pure a
  | error e => exact throw e

theorem collect {f : A → PM W (List B)} (l : List A) (h : ∀ a ∈ l, Lockstep cache count (f a)) :
    Lockstep cache count (collect f l) := by
  induction l with
  | nil => exact pure []
  | cons a l ih =>
    refine (h a List.mem_cons_self).bind fun _ => Lockstep.bind ?_ fun _ => pure _
    exact ih fun b hb => h b (List.mem_cons_of_mem a hb)

variable (cfg : Settings W) (self : Obj)

/-- A text is expanded with the definitions alone. -/
theorem expand (text : LuaString) : Lockstep cache count (expand cfg self text) := by
  refine of_quiet (Moves.expand cfg self text fun _ => ⟨rfl, rfl⟩) ?_
  intro s s' t t' a b beside run run'
  rw [expand_run] at run run'
  rw [beside.fields, beside.scope] at run'
  cases value : expandText cfg s.mem.fields s.mem.scope self text with
  | ok c =>
    rw [value] at run run'
    cases run
    cases run'
    rfl
  | error e =>
    rw [value] at run
    cases run

theorem outputTemplate (make : Bool) (template : Value) :
    Lockstep cache count (outputTemplate cfg self make template) := by
  refine ((except _).bind fun text => expand cfg self text).bind fun i => ?_
  have append : Lockstep cache count (appendOut self i : PM W Unit) :=
    of_local ((Local.getField self _).bind fun _ => Local.setField self _ _)
  have rest : Lockstep cache count (do appendOut self i; Pure.pure [i] : PM W _) :=
    append.bind fun _ => pure _
  cases make with
  | false => exact rest
  | true => exact (unit (Moves.container cfg i fun _ _ _ _ => ⟨rfl, rfl⟩)).bind fun _ => rest

/-- An id that the first run finds or gives is known to the second. -/
theorem request (key : LuaString) {f : LuaString → PM W B} (hf : ∀ text, Lockstep cache count (f text)) :
    Lockstep cache count (do f (← createIntermediateCacheKey cfg key).text) := by
  have found : ∀ s, (∀ k u, s.mem.intermediateCache.lookup k = some u →
      (final (createIntermediateCacheKey cfg key s)).mem.intermediateCache.lookup k = some u) ∧
      ∀ id s', createIntermediateCacheKey cfg key s = .ok id s' →
        s'.mem.intermediateCache.lookup key = some id := by
    intro s
    cases known : s.mem.intermediateCache.lookup key with
    | some u =>
      rw [createKey_known cfg known]
      refine ⟨fun _ _ h => h, fun id s' run => ?_⟩
      cases run
      exact known
    | none =>
      have kept : ∀ k u n, s.mem.intermediateCache.lookup k = some u →
          (s.mem.issue key n).intermediateCache.lookup k = some u := by
        intro k u n h
        rw [Mem.issue, lookup_setEntry]
        split
        · rename_i same
          rw [beq_iff_eq.mp same, known] at h
          cases h
        · exact h
      cases counted : s.mem.intermediateCacheCount.bind Id.number with
      | none =>
        constructor
        · intro k u h
          simp only [createIntermediateCacheKey, bind_run, get_run, known, counted]
          exact h
        · intro id s' run
          simp only [createIntermediateCacheKey, bind_run, get_run, known, counted] at run
          cases run
      | some n =>
        rw [createKey_new cfg known counted]
        dsimp only
        split
        · exact ⟨fun k u => kept k u _, fun _ _ no => by cases no⟩
        · refine ⟨fun k u => kept k u _, fun id s' run => ?_⟩
          cases run
          rw [Mem.issue, lookup_setEntry]
          simp
  constructor
  · intro s k u known
    have first := (found s).1 k u known
    rw [bind_run]
    cases run : createIntermediateCacheKey cfg key s with
    | ok id t =>
      rw [run] at first
      exact (hf id.text).keeps t k u first
    | error e t =>
      rw [run] at first
      exact first
  · intro s s' t t' a b beside run run' knows
    obtain ⟨id, s1, first, second⟩ := bind_eq_ok.mp run
    have later := (hf id.text).keeps s1 key id ((found s).2 id s1 first)
    rw [second] at later
    obtain ⟨id', there, text⟩ := knows key id later
    have frame := createKey_frame cfg key s
    rw [first] at frame
    have mem : s1.mem = s.mem.withIds s1.mem.intermediateCache s1.mem.intermediateCacheCount :=
      frame.1
    have visits : s1.visits = s.visits := frame.2.1
    rw [← beside.cache] at there
    rw [bind_ok_run (createKey_known cfg there), text] at run'
    refine (hf id.text).agrees ⟨?_, ?_, ?_, ?_, beside.cache, beside.count⟩ second run' knows
    · rw [mem, beside.fields]
      rfl
    · rw [mem, beside.scope]
      rfl
    · rw [mem, beside.objects]
      rfl
    · rw [visits]
      exact beside.visits

theorem simpleOutputs (inputs : List LuaString) :
    Lockstep cache count (simpleOutputs cfg self inputs) := by
  have set : ∀ key v, Lockstep cache count (setField self key v : PM W Unit) :=
    fun key v => of_local (Local.setField self key v)
  have get : ∀ key, Lockstep cache count (getField self key : PM W _) :=
    fun key => of_local (Local.getField self key)
  have templates : ∀ make (vs : List Value),
      Lockstep cache count (PrimeMover.collect (PrimeMover.outputTemplate cfg self make) vs) :=
    fun make vs => collect vs fun v _ => outputTemplate cfg self make v
  refine (set _ _).bind fun _ => (set _ _).bind fun _ => (set _ _).bind fun _ => ?_
  refine (get _).bind fun _ => (except _).bind fun vs => (templates false vs).bind fun _ => ?_
  refine (get _).bind fun _ => (except _).bind fun _ => (except _).bind fun joined => ?_
  refine (expand cfg self joined).bind fun key => ?_
  refine request cfg key (f := fun text => do
    setField self "U".toList (.str (cfg.intermediateCacheDir ++ text))
    setField self "out".toList (.list [])
    let outs ← PrimeMover.collect (PrimeMover.outputTemplate cfg self true) vs
    Pure.pure (key, outs)) fun text => ?_
  exact (set _ _).bind fun _ => (set _ _).bind fun _ => (templates true vs).bind fun _ => pure _

theorem fileOutputs (inputs : List LuaString) :
    Lockstep cache count (fileOutputs cfg self inputs) := by
  have each : ∀ is : List LuaString, Lockstep cache count
      (PrimeMover.collect (fun i => do Pure.pure [← PrimeMover.expand cfg self i]) is) :=
    fun is => collect is fun i _ => (expand cfg self i).bind fun _ => pure _
  refine (of_local (Local.getField self _)).bind fun v => ?_
  split
  · exact each inputs
  · split
    · split
      · exact each _
      · exact (each inputs).bind fun _ => throw _
    · exact throw _

theorem ithOutputs (inputs : List LuaString) :
    Lockstep cache count (ithOutputs self inputs : PM W _) := by
  have bound : ∀ key default, Lockstep cache count (ithBound self key default : PM W _) := by
    intro key default
    refine (of_local (Local.getField self _)).bind fun v => ?_
    split
    · exact pure _
    · split
      · exact pure _
      · exact throw _
    · exact throw _
  refine (bound _ _).bind fun start => (bound _ _).bind fun stop => ?_
  split
  · exact of_local (Local.failNode self _)
  · exact pure _

theorem outputs (decl : Decl) (inputs : List LuaString) :
    Lockstep cache count (outputs cfg decl inputs) := by
  unfold PrimeMover.outputs
  split
  · exact (fileOutputs cfg decl.obj inputs).bind fun _ => pure _
  · exact pure _
  · exact pure _
  · exact (ithOutputs decl.obj inputs).bind fun _ => pure _
  · exact pure _
  · exact (simpleOutputs cfg decl.obj inputs).bind fun _ => pure _

theorem visit (decl : Decl) (key : Option LuaString) (inputs outs : List LuaString)
    (listed first : Nat) :
    Lockstep cache count (visit decl key inputs outs listed first : PM W Unit) where
  keeps _ _ _ known := known
  agrees beside run run' _ := by
    cases run
    cases run'
    refine ⟨rfl, beside.fields, beside.scope, beside.objects, ?_, beside.cache, beside.count⟩
    refine List.rel_append beside.visits (.cons ?_ .nil)
    exact ⟨rfl, beside.fields, beside.scope, rfl, rfl, rfl, rfl, rfl⟩

/-- What a node does when it has its outputs is up to the files, but it changes no definition. -/
theorem settle (decl : Decl) (inputs outs : List LuaString) :
    Lockstep cache count (settle cfg decl inputs outs) := by
  have stamps : ∀ {B : Type} {x : PM W B}, Moves (Stamping cfg decl.obj) x → Moves Quiet x :=
    fun moves => moves.mono fun _ _ step => by cases step <;> exact ⟨rfl, rfl⟩
  have invokes : ∀ {B : Type} {x : PM W B}, Moves (Invoking cfg decl.obj) x → Moves Quiet x :=
    fun moves => moves.mono fun _ _ step => by cases step <;> exact ⟨rfl, rfl⟩
  refine unit ?_
  refine (stamps (timestamp_moves cfg decl outs)).bind fun t => ?_
  refine (stamps (outdated_moves cfg decl.obj t inputs)).bind fun old => Moves.bind ?_ fun _ => ?_
  · cases old with
    | false => exact Moves.pure _
    | true =>
      refine (invokes (dobuild_moves cfg decl inputs outs)).bind fun _ => ?_
      exact fun s => Relation.ReflTransGen.single ⟨rfl, rfl⟩
  · exact invokes (installNode_moves cfg decl inputs outs)

theorem finish (decl : Decl) (inputs : List LuaString) (listed first : Nat) :
    Lockstep cache count (finish cfg decl inputs listed first) := by
  refine (of_local (Local.setField _ _ _)).bind fun _ => (outputs cfg decl inputs).bind fun named => ?_
  refine (of_local (Local.setField _ _ _)).bind fun _ => ?_
  refine (visit decl named.1 inputs named.2 listed first).bind fun _ => ?_
  exact (settle cfg decl inputs named.2).bind fun _ => pure _

end Lockstep

theorem lockstep_walk (cfg : Settings W) (cache : List (LuaString × Id)) (count : Option Id) :
    Walk cfg (Lockstep cache count) where
  pure := Lockstep.pure
  throw := Lockstep.throw
  bind := Lockstep.bind
  visitCount :=
    { keeps := fun _ _ _ known => known
      agrees := fun beside run run' _ => by
        cases run
        cases run'
        exact ⟨beside.visits.length_eq.symm, beside⟩ }
  local_steps := Lockstep.of_local
  pushScope self :=
    { keeps := fun _ _ _ known => known
      agrees := fun beside run run' _ => by
        cases run
        cases run'
        exact ⟨rfl, beside.fields, congrArg (self :: ·) beside.scope, beside.objects, beside.visits,
          beside.cache, beside.count⟩ }
  popScope :=
    { keeps := fun _ _ _ known => known
      agrees := fun beside run run' _ => by
        cases run
        cases run'
        exact ⟨rfl, beside.fields, congrArg List.tail beside.scope, beside.objects, beside.visits,
          beside.cache, beside.count⟩ }
  finish := Lockstep.finish cfg

end PrimeMover
