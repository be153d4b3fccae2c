import PrimeMover.Node

/-! What a node can do to the state of a run in its own steps, action by action. Every
fact about what a step leaves alone is read off the actions. -/
namespace PrimeMover
open LuaPattern AssocTable Outcome

variable {W : Type}

def State.setField (st : State W) (o : Obj) (key : LuaString) (v : Value) : State W :=
  { st with mem := { st.mem with
    fields := fun i k => if i = o.id ∧ k = key then some v else st.mem.fields i k } }

def State.look (st : State W) (self : Obj) : State W :=
  { st with lookups := st.lookups ++ [(self, st.mem.scope)] }

/-- The actions of `__outputs`. -/
inductive Naming (cfg : Settings W) (self : Obj) : State W → State W → Prop where
  | field (st : State W) (key : LuaString) (v : Value) : Naming cfg self st (st.setField self key v)
  | look (st : State W) : Naming cfg self st (st.look self)
  | issue (st : State W) (key : LuaString) (n : Int) : Naming cfg self st
      { st with
        mem := st.mem.issue key n
        sys := { st.sys with log := st.sys.log ++ [.issue key n] } }
  | save (st : State W) (text : LuaString) (w : W)
      (written : cfg.host.writeFile st.sys.world (indexFile cfg) text = some w) :
      Naming cfg self st { st with sys := { st.sys with world := w } }
  | mkdir (st : State W) (d : LuaString) (w : W)
      (made : cfg.host.mkdir st.sys.world d = some w) : Naming cfg self st
      { st with sys := { st.sys with world := w, log := st.sys.log ++ [.mkdir d] } }

/-- The actions that read timestamps. -/
inductive Stamping (cfg : Settings W) (self : Obj) : State W → State W → Prop where
  | look (st : State W) : Stamping cfg self st (st.look self)
  | cache (st : State W) (f : LuaString) (t : Int) (unseen : st.sys.stattedFiles f = none)
      (found : stamp cfg.host cfg.fuel st.sys.world f = some t) : Stamping cfg self st
      { st with sys := { st.sys with
        stattedFiles := fun g => if g = f then some t else st.sys.stattedFiles g } }

/-- The actions of a command list or an install list. -/
inductive Invoking (cfg : Settings W) (self : Obj) : State W → State W → Prop where
  | look (st : State W) : Invoking cfg self st (st.look self)
  | mkdir (st : State W) (d : LuaString) (w : W)
      (made : cfg.host.mkdir st.sys.world d = some w) : Invoking cfg self st
      { st with sys := { st.sys with world := w, log := st.sys.log ++ [.mkdir d] } }
  | trace (st : State W) (text : LuaString) : Invoking cfg self st
      { st with sys := { st.sys with log := st.sys.log ++ [.trace text] } }
  | execute (st : State W) (phase : Phase) (command : LuaString) (code : Int) (w : W)
      (run : cfg.host.execute st.sys.world command = (code, w)) : Invoking cfg self st
      { st with sys := { st.sys with
        world := w
        log := st.sys.log ++ [.execute self.id phase command code] } }
  | call (st : State W) (w : W) : Invoking cfg self st
      { st.look self with sys := { st.sys with world := w } }
  | result (st : State W) (phase : Phase) (f : Nat) (r : Option Int) : Invoking cfg self st
      { st with sys := { st.sys with log := st.sys.log ++ [.call self.id phase f r] } }
  | place (st : State W) (w : W) : Invoking cfg self st
      { st with sys := { st.sys with world := w } }

/-- The actions of a node from the collation of its inputs to its installation. -/
inductive Action (cfg : Settings W) (self : Obj) : State W → State W → Prop where
  | naming (st st' : State W) (step : Naming cfg self st st') : Action cfg self st st'
  | stamping (st st' : State W) (step : Stamping cfg self st st') : Action cfg self st st'
  | invoking (st st' : State W) (step : Invoking cfg self st st') : Action cfg self st st'
  | visit (st : State W) (v : Visit W) : Action cfg self st { st with visits := st.visits ++ [v] }
  | touch (st : State W) (fs : List LuaString) : Action cfg self st
      { st with sys := { st.sys with
        stattedFiles := fun g =>
          if g ∈ fs then some (luaNumber (cfg.host.time st.sys.world))
          else st.sys.stattedFiles g } }

theorem setField_run (o : Obj) (key : LuaString) (v : Value) (st : State W) :
    setField o key v st = .ok () (st.setField o key v) := rfl

theorem getField_run (o : Obj) (key : LuaString) (st : State W) :
    getField o key st = .ok (rawget st.mem.fields o key) st := rfl

theorem expand_run (cfg : Settings W) (self : Obj) (s : LuaString) (st : State W) :
    expand cfg self s st = except (expandText cfg st.mem.fields st.mem.scope self s)
      (st.look self) := rfl

theorem final_except {S A : Type} (r : Except Stop A) (s : S) : final (except r s) = s := by
  cases r <;> rfl

section Moves

variable {R : State W → State W → Prop}

theorem Moves.except {A : Type} (r : Except Stop A) : Moves R (except r : PM W A) :=
  Moves.of_still (final_except r)

theorem Moves.getField (o : Obj) (key : LuaString) : Moves R (getField o key : PM W _) :=
  Moves.of_still (fun _ => rfl)

theorem Moves.failNode {A : Type} (self : Obj) (message : LuaString) :
    Moves R (failNode self message : PM W A) :=
  Moves.of_still (fun _ => rfl)

theorem Moves.collect {A B : Type} {f : A → PM W (List B)} (l : List A)
    (h : ∀ a ∈ l, Moves R (f a)) : Moves R (collect f l) := by
  induction l with
  | nil => exact Moves.pure _
  | cons a l ih =>
    refine (h a List.mem_cons_self).bind fun _ => Moves.bind ?_ fun _ => Moves.pure _
    exact ih (fun b hb => h b (List.mem_cons_of_mem a hb))

theorem Moves.lift {A : Type} {Q : Sys W → Sys W → Prop} {x : SysM W A} (h : Moves Q x)
    (sub : ∀ (st : State W) (s t : Sys W), Q s t → R { st with sys := s } { st with sys := t }) :
    Moves R (lift x) := by
  intro st
  have path := h st.sys
  unfold MovesFrom at path ⊢
  have whole : final (PrimeMover.lift x st) = { st with sys := final (x st.sys) } := by
    unfold PrimeMover.lift
    cases x st.sys <;> rfl
  rw [whole]
  exact Relation.ReflTransGen.lift (fun s => { st with sys := s }) (fun s t => sub st s t) _ _ path

end Moves

theorem mkcontainerdir_moves (host : Host W) (fuel : Nat) (f : LuaString) :
    Moves (fun s t => ∃ d w, host.mkdir s.world d = some w ∧
      t = { s with world := w, log := s.log ++ [.mkdir d] }) (mkcontainerdir host fuel f) := by
  induction fuel generalizing f with
  | zero => exact Moves.throw _
  | succ fuel ih =>
    apply Moves.get_bind
    intro s
    split
    · refine (ih _ s).bind fun _ => Moves.get_bind fun t => ?_
      split
      · exact Moves.throw _ t
      · rename_i w hw
        exact Relation.ReflTransGen.single ⟨_, w, hw, rfl⟩
    · exact Moves.pure _ s

theorem Moves.expand {R : State W → State W → Prop} (cfg : Settings W) (self : Obj) (s : LuaString)
    (look : ∀ st, R st (st.look self)) : Moves R (expand cfg self s) := by
  intro st
  unfold MovesFrom
  rw [expand_run, final_except]
  exact Relation.ReflTransGen.single (look st)

theorem Moves.container {R : State W → State W → Prop} (cfg : Settings W) (f : LuaString)
    (mkdir : ∀ st d w, cfg.host.mkdir st.sys.world d = some w →
      R st { st with sys := { st.sys with world := w, log := st.sys.log ++ [.mkdir d] } }) :
    Moves R (PrimeMover.lift (mkcontainerdir cfg.host cfg.fuel f)) := by
  apply Moves.lift (mkcontainerdir_moves cfg.host cfg.fuel f)
  rintro st s _ ⟨d, w, made, rfl⟩
  exact mkdir { st with sys := s } d w made

theorem Moves.fileOutputs {R : State W → State W → Prop} (cfg : Settings W) (self : Obj)
    (look : ∀ st, R st (st.look self)) (inputs : List LuaString) :
    Moves R (fileOutputs cfg self inputs) := by
  have each : ∀ is : List LuaString, Moves R
      (PrimeMover.collect (fun i => do pure [← PrimeMover.expand cfg self i]) is) :=
    fun is => Moves.collect is fun i _ => (Moves.expand cfg self i look).bind fun _ => Moves.pure _
  refine (Moves.getField self _).bind fun v => ?_
  split
  · exact each inputs
  · split
    · split
      · exact each _
      · exact (each inputs).bind fun _ => Moves.throw _
    · exact Moves.throw _

theorem Moves.ithOutputs {R : State W → State W → Prop} (self : Obj) (inputs : List LuaString) :
    Moves R (ithOutputs self inputs) := by
  have bound : ∀ key default, Moves R (ithBound self key default) := by
    intro key default
    refine (Moves.getField self _).bind fun v => ?_
    split
    · exact Moves.pure _
    · split
      · exact Moves.pure _
      · exact Moves.throw _
    · exact Moves.throw _
  refine (bound _ _).bind fun start => (bound _ _).bind fun stop => ?_
  split
  · exact Moves.failNode self _
  · exact Moves.pure _

/-- The outputs of a node that is not simple are named by expansions alone. -/
theorem Moves.outputs_other {R : State W → State W → Prop} (cfg : Settings W) {decl : Decl}
    (other : decl.kind ≠ .simple) (look : ∀ st, R st (st.look decl.obj))
    (inputs : List LuaString) : Moves R (outputs cfg decl inputs) := by
  unfold outputs
  split
  · exact (Moves.fileOutputs cfg decl.obj look inputs).bind fun _ => Moves.pure _
  · exact Moves.pure _
  · exact Moves.pure _
  · exact (Moves.ithOutputs decl.obj inputs).bind fun _ => Moves.pure _
  · exact Moves.pure _
  · rename_i simple
    exact absurd simple other

section Naming

variable (cfg : Settings W) (self : Obj)

theorem expand_moves (s : LuaString) : Moves (Naming cfg self) (expand cfg self s) :=
  Moves.expand cfg self s .look

theorem setField_moves (key : LuaString) (v : Value) :
    Moves (Naming cfg self) (setField self key v) :=
  Moves.modify fun st => .field st key v

theorem container_moves (f : LuaString) :
    Moves (Naming cfg self) (lift (mkcontainerdir cfg.host cfg.fuel f)) :=
  Moves.container cfg f .mkdir

theorem expandValue_moves (v : Value) : Moves (Naming cfg self) (expandValue cfg self v) :=
  (Moves.except _).bind fun s => expand_moves cfg self s

theorem appendOut_moves (i : LuaString) : Moves (Naming cfg self) (appendOut self i) :=
  (Moves.getField self _).bind fun _ => setField_moves cfg self _ _

theorem outputTemplate_moves (make : Bool) (template : Value) :
    Moves (Naming cfg self) (outputTemplate cfg self make template) := by
  refine (expandValue_moves cfg self template).bind fun i => ?_
  have rest : Moves (Naming cfg self) (do appendOut self i; pure [i]) :=
    (appendOut_moves cfg self i).bind fun _ => Moves.pure _
  cases make with
  | true => exact (container_moves cfg self i).bind fun _ => rest
  | false => exact rest

theorem createKey_moves (key : LuaString) :
    Moves (Naming cfg self) (createIntermediateCacheKey cfg key) := by
  intro st
  unfold MovesFrom
  cases known : st.mem.intermediateCache.lookup key with
  | some u =>
    rw [createKey_known cfg known]
    exact Relation.ReflTransGen.refl
  | none =>
    cases count : st.mem.intermediateCacheCount.bind Id.number with
    | none =>
      have run : final (createIntermediateCacheKey cfg key st) = st := by
        simp only [createIntermediateCacheKey, bind_run, get_run, known, count]
        rfl
      rw [run]
    | some n =>
      rw [createKey_new cfg known count]
      have one : Naming cfg self st _ := .issue st key (luaNumber (n + 1))
      have issued := Relation.ReflTransGen.single one
      dsimp only
      split
      · exact issued
      · rename_i w hw
        exact issued.tail (.save _ _ w hw)

theorem simpleOutputs_moves (inputs : List LuaString) :
    Moves (Naming cfg self) (simpleOutputs cfg self inputs) := by
  refine (setField_moves cfg self _ _).bind fun _ => ?_
  refine (setField_moves cfg self _ _).bind fun _ => ?_
  refine (setField_moves cfg self _ _).bind fun _ => ?_
  refine (Moves.getField self _).bind fun _ => (Moves.except _).bind fun templates => ?_
  refine (Moves.collect templates fun v _ => outputTemplate_moves cfg self false v).bind fun _ => ?_
  refine (Moves.getField self _).bind fun _ => (Moves.except _).bind fun commands => ?_
  refine (Moves.except _).bind fun key => (expand_moves cfg self key).bind fun key => ?_
  refine (createKey_moves cfg self key).bind fun id => ?_
  refine (setField_moves cfg self _ _).bind fun _ => ?_
  refine (setField_moves cfg self _ _).bind fun _ => ?_
  refine (Moves.collect templates fun v _ => outputTemplate_moves cfg self true v).bind fun _ => ?_
  exact Moves.pure _

end Naming

theorem outputs_moves (cfg : Settings W) (decl : Decl) (inputs : List LuaString) :
    Moves (Naming cfg decl.obj) (outputs cfg decl inputs) := by
  by_cases simple : decl.kind = .simple
  · simp only [outputs, simple]
    exact (simpleOutputs_moves cfg decl.obj inputs).bind fun _ => Moves.pure _
  · exact Moves.outputs_other cfg simple .look inputs

section Stamping

variable (cfg : Settings W) (self : Obj)

theorem filetime_moves (f : LuaString) :
    Moves (Stamping cfg self) (lift (filetime cfg.host cfg.fuel f)) := by
  apply Moves.lift (Q := fun s t => ∃ t', s.stattedFiles f = none ∧
    stamp cfg.host cfg.fuel s.world f = some t' ∧
    t = { s with stattedFiles := fun g => if g = f then some t' else s.stattedFiles g })
  · apply Moves.get_bind
    intro s
    split
    · exact Moves.pure _ s
    · rename_i unseen
      apply MovesFrom.get_bind
      split
      · exact Moves.throw _ s
      · rename_i t found
        refine MovesFrom.bind ?_ fun _ => Moves.pure _
        exact Relation.ReflTransGen.single ⟨t, unseen, found, rfl⟩
  · rintro st s _ ⟨t, unseen, found, rfl⟩
    exact .cache { st with sys := s } f t unseen found

theorem lift_bind {A B : Type} (x : SysM W A) (f : A → SysM W B) (st : State W) :
    lift (x >>= f) st = (lift x >>= fun a => lift (f a)) st := by
  simp only [lift, bind_run]
  cases x st.sys <;> rfl

theorem Moves.lift_bind {A B : Type} {R : State W → State W → Prop} {x : SysM W A}
    {f : A → SysM W B} (hx : Moves R (PrimeMover.lift x))
    (hf : ∀ a, Moves R (PrimeMover.lift (f a))) : Moves R (PrimeMover.lift (x >>= f)) := by
  intro st
  unfold MovesFrom
  rw [PrimeMover.lift_bind]
  exact (hx st).bind hf

theorem newest_moves (fs : List LuaString) (t : Int) :
    Moves (Stamping cfg self) (lift (newest cfg.host cfg.fuel fs t)) := by
  induction fs generalizing t with
  | nil => exact Moves.of_still fun _ => rfl
  | cons f fs ih => exact Moves.lift_bind (filetime_moves cfg self f) fun _ => ih _

theorem newerThan_moves (t : Int) (fs : List LuaString) :
    Moves (Stamping cfg self) (lift (newerThan cfg.host cfg.fuel t fs)) := by
  induction fs with
  | nil => exact Moves.of_still fun _ => rfl
  | cons f fs ih =>
    refine Moves.lift_bind (filetime_moves cfg self f) fun tt => ?_
    split
    · exact Moves.of_still fun _ => rfl
    · exact ih

theorem fileTimestamp_moves (fs : List LuaString) (t : Int) :
    Moves (Stamping cfg self) (fileTimestamp cfg self fs t) := by
  induction fs generalizing t with
  | nil => exact Moves.pure _
  | cons f fs ih =>
    refine (Moves.expand cfg self f .look).bind fun f => (filetime_moves cfg self f).bind fun tt => ?_
    split
    · exact Moves.failNode self _
    · exact ih _

end Stamping

theorem timestamp_moves (cfg : Settings W) (decl : Decl) (outs : List LuaString) :
    Moves (Stamping cfg decl.obj) (timestamp cfg decl outs) := by
  unfold timestamp
  split
  · exact fileTimestamp_moves cfg decl.obj outs 0
  · exact newest_moves cfg decl.obj outs 0

theorem outdated_moves (cfg : Settings W) (self : Obj) (t : Int) (inputs : List LuaString) :
    Moves (Stamping cfg self) (outdated cfg t inputs) := by
  unfold outdated
  split
  · exact Moves.pure _
  · exact newerThan_moves cfg self t inputs

section Invoking

variable (cfg : Settings W) (self : Obj)

theorem place_moves (w : State W → W) :
    Moves (Invoking cfg self)
      (modify fun st => { st with sys := { st.sys with world := w st } } : PM W Unit) :=
  Moves.modify fun st => .place st (w st)

theorem doInstall_moves (src dest : LuaString) :
    Moves (Invoking cfg self) (doInstall cfg self src dest) := by
  refine (Moves.expand cfg self src .look).bind fun src => ?_
  refine Moves.get_bind fun st => MovesFrom.bind ?_ fun dest => Moves.get_bind fun st => ?_
  · exact Moves.expand cfg self dest .look st
  · refine MovesFrom.bind (Moves.container cfg _ .mkdir st) fun _ => Moves.get_bind fun st => ?_
    split
    · rename_i w _
      exact place_moves cfg self (fun _ => w) st
    · apply MovesFrom.get_bind
      split
      · exact MovesFrom.get_bind (Moves.failNode self _ st)
      · rename_i w _
        refine (place_moves cfg self (fun _ => w) st).bind fun _ => Moves.get_bind fun st => ?_
        split
        · rename_i w _
          exact place_moves cfg self (fun _ => w) st
        · exact MovesFrom.get_bind (Moves.failNode self _ st)

theorem install_moves (src : LuaString) (dest : Option LuaString) (outs : List LuaString) :
    Moves (Invoking cfg self) (install cfg self src dest outs) := by
  unfold install
  split
  · exact doInstall_moves cfg self _ _
  · split
    · exact doInstall_moves cfg self _ _
    · exact Moves.failNode self _

theorem callFunction_moves (phase : Phase) (f : Nat) (inputs outs : List LuaString) :
    Moves (Invoking cfg self) (callFunction cfg self phase f inputs outs) := by
  apply Moves.get_bind
  intro st
  refine MovesFrom.bind (MovesFrom.set (.call st _)) fun _ => (Moves.except _).bind fun r => ?_
  exact Moves.bind (Moves.modify fun st => .result st phase f r) fun _ => Moves.pure _

theorem execute_moves (phase : Phase) (command : LuaString) :
    Moves (Invoking cfg self) (lift (osExecute cfg.host self.id phase command)) := by
  intro st
  exact Relation.ReflTransGen.single (.execute st phase command _ _ rfl)

theorem trace_moves (text : LuaString) : Moves (Invoking cfg self) (traceoutput cfg text) := by
  unfold traceoutput
  split
  · exact Moves.pure _
  · exact fun st => Relation.ReflTransGen.single (.trace st text)

theorem invoke_moves (phase : Phase) (inputs outs : List LuaString) (commands : List Value) :
    Moves (Invoking cfg self) (invoke cfg self phase inputs outs commands) := by
  induction commands with
  | nil => exact Moves.pure _
  | cons v rest ih =>
    cases v with
    | str s =>
      refine (Moves.expand cfg self s .look).bind fun s => ?_
      refine (trace_moves cfg self s).bind fun _ => ?_
      split
      · exact ih
      · refine (execute_moves cfg self phase s).bind fun r => ?_
        split
        · exact Moves.pure _
        · exact ih
    | func f =>
      refine (callFunction_moves cfg self phase f inputs outs).bind fun r => ?_
      cases r with
      | some r => exact Moves.pure _
      | none => exact ih
    | install src dest => exact (install_moves cfg self src dest outs).bind fun _ => ih
    | num t => exact ih
    | bool b => exact ih
    | list vs => exact ih
    | parent => exact ih
    | empty => exact ih
    | redirect => exact ih

theorem simpleDobuild_moves (inputs outs : List LuaString) :
    Moves (Invoking cfg self) (simpleDobuild cfg self inputs outs) := by
  refine (Moves.getField self _).bind fun command => ?_
  cases command with
  | none => exact Moves.throw _
  | some command =>
    refine (invoke_moves cfg self .build inputs outs _).bind fun r => ?_
    cases r with
    | none => exact Moves.pure _
    | some r => exact (invoke_moves cfg self .cleanup [] [] _).bind fun _ => Moves.failNode self _

end Invoking

theorem installNode_moves (cfg : Settings W) (decl : Decl) (inputs outs : List LuaString) :
    Moves (Invoking cfg decl.obj) (installNode cfg decl inputs outs) := by
  refine (Moves.getField decl.obj _).bind fun v => ?_
  split
  · exact Moves.pure _
  · exact (invoke_moves cfg decl.obj .install inputs outs _).bind fun _ => Moves.pure _

section Action

variable (cfg : Settings W) (self : Obj)

theorem Moves.naming {A : Type} {x : PM W A} (h : Moves (Naming cfg self) x) :
    Moves (Action cfg self) x :=
  h.mono fun st st' step => .naming st st' step

theorem Moves.stamping {A : Type} {x : PM W A} (h : Moves (Stamping cfg self) x) :
    Moves (Action cfg self) x :=
  h.mono fun st st' step => .stamping st st' step

theorem Moves.invoking {A : Type} {x : PM W A} (h : Moves (Invoking cfg self) x) :
    Moves (Action cfg self) x :=
  h.mono fun st st' step => .invoking st st' step

end Action

theorem settle_moves (cfg : Settings W) (decl : Decl) (inputs outs : List LuaString) :
    Moves (Action cfg decl.obj) (settle cfg decl inputs outs) := by
  have builds : ∀ old, Moves (Action cfg decl.obj) (rebuild cfg decl inputs outs old) := by
    intro old
    cases old with
    | false => exact Moves.pure _
    | true =>
      refine Moves.bind ?_ fun _ => fun st => Relation.ReflTransGen.single (.touch st outs)
      unfold dobuild
      split
      · exact Moves.invoking cfg decl.obj (simpleDobuild_moves cfg decl.obj inputs outs)
      · exact Moves.pure _
  refine (Moves.stamping cfg decl.obj (timestamp_moves cfg decl outs)).bind fun t => ?_
  refine (Moves.stamping cfg decl.obj (outdated_moves cfg decl.obj t inputs)).bind fun old => ?_
  refine (builds old).bind fun _ => ?_
  exact Moves.invoking cfg decl.obj (installNode_moves cfg decl inputs outs)

theorem finish_moves (cfg : Settings W) (decl : Decl) (inputs : List LuaString)
    (listed first : Nat) :
    Moves (Action cfg decl.obj) (finish cfg decl inputs listed first) := by
  refine (Moves.naming cfg decl.obj (setField_moves cfg decl.obj _ _)).bind fun _ => ?_
  refine (Moves.naming cfg decl.obj (outputs_moves cfg decl inputs)).bind fun named => ?_
  refine (Moves.naming cfg decl.obj (setField_moves cfg decl.obj _ _)).bind fun _ => ?_
  refine Moves.bind (fun st => Relation.ReflTransGen.single (.visit st _)) fun _ => ?_
  exact (settle_moves cfg decl inputs named.2).bind fun _ => Moves.pure _

/-- The part of the memory that constructors work on. -/
def State.withFields (st : State W) (m : Fields × Nat) : State W :=
  { st with mem := { st.mem with fields := m.1, objects := m.2 } }

/-- A result on the fields, as a result on the state. -/
def onState {A : Type} (st : State W) :
    EStateM.Result Stop (Fields × Nat) A → EStateM.Result Stop (State W) A
  | .ok a m => .ok a (st.withFields m)
  | .error e m => .error e (st.withFields m)

/-- A program that reads and writes fields and makes objects, and does nothing else. -/
def Local {A : Type} (x : PM W A) : Prop :=
  ∃ g : Fields × Nat → EStateM.Result Stop (Fields × Nat) A,
    ∀ st, x st = onState st (g (st.mem.fields, st.mem.objects))

namespace Local

variable {A B : Type}

theorem pure (a : A) : Local (pure a : PM W A) :=
  ⟨fun m => .ok a m, fun _ => rfl⟩

theorem throw (e : Stop) : Local (throw e : PM W A) :=
  ⟨fun m => .error e m, fun _ => rfl⟩

theorem bind {x : PM W A} {f : A → PM W B} (hx : Local x) (hf : ∀ a, Local (f a)) :
    Local (x >>= f) := by
  obtain ⟨g, hg⟩ := hx
  choose k hk using hf
  refine ⟨fun m =>
    match g m with
    | .ok a n => k a n
    | .error e n => .error e n, fun st => ?_⟩
  rw [bind_run, hg]
  cases h : g (st.mem.fields, st.mem.objects) with
  | ok a n =>
    simp only [onState, hk, h]
    rfl
  | error e n => simp only [onState, h]

theorem getField (o : Obj) (key : LuaString) : Local (getField o key : PM W _) :=
  ⟨fun m => .ok (rawget m.1 o key) m, fun _ => rfl⟩

theorem setField (o : Obj) (key : LuaString) (v : Value) : Local (setField o key v : PM W _) :=
  ⟨fun m => .ok () (fun i k => if i = o.id ∧ k = key then some v else m.1 i k, m.2),
    fun _ => rfl⟩

theorem failNode (o : Obj) (message : LuaString) : Local (failNode o message : PM W A) :=
  ⟨fun m => .error (nodeError m.1 o message) m, fun _ => rfl⟩

theorem fieldsOf (o : Obj) : Local (fieldsOf o : PM W _) :=
  ⟨fun m => .ok (m.1 o.id) m, fun _ => rfl⟩

theorem newObject (props : List (LuaString × Value)) (fields : LuaString → Option Value) :
    Local (newObject props fields : PM W _) :=
  ⟨fun m => .ok ⟨m.2, props⟩ (fun i => if i = m.2 then fields else m.1 i, m.2 + 1), fun _ => rfl⟩

end Local

theorem initInstall_local (self : Obj) : Local (initInstall self : PM W Unit) := by
  refine (Local.getField self _).bind fun v => ?_
  split
  · exact Local.pure ()
  · split
    · exact Local.setField self _ _
    · exact Local.setField self _ _
    · exact Local.setField self _ _
    · split
      · exact Local.failNode self _
      · exact Local.pure ()

theorem initSimple_local (self : Obj) : Local (initSimple self : PM W Unit) := by
  refine Local.bind ?_ fun _ => ?_
  · refine (Local.getField self _).bind fun v => ?_
    split
    · exact Local.failNode self _
    · split
      · exact Local.failNode self _
      · exact Local.pure ()
  · refine (Local.getField self _).bind fun v => ?_
    split
    · exact Local.failNode self _
    · exact Local.setField self _ _
    · split
      · exact Local.failNode self _
      · exact Local.pure ()

theorem ensureNumber_local (self : Obj) (key : LuaString) :
    Local (ensureNumber self key : PM W Unit) := by
  refine (Local.getField self _).bind fun v => ?_
  split
  · exact Local.pure ()
  · exact Local.pure ()
  · exact Local.failNode self _

theorem initIth_local (self : Obj) : Local (initIth self : PM W Unit) := by
  have only : Local (ensureOnlyI self : PM W Unit) := by
    refine (Local.getField self _).bind fun start => (Local.getField self _).bind fun stop => ?_
    split
    · exact Local.failNode self _
    · exact Local.pure ()
  refine Local.bind ?_ fun _ =>
    (ensureNumber_local self _).bind fun _ => ensureNumber_local self _
  refine (Local.getField self _).bind fun v => ?_
  split
  · exact Local.pure ()
  · refine only.bind fun _ => (ensureNumber_local self _).bind fun _ => ?_
    exact (Local.setField self _ _).bind fun _ => Local.setField self _ _

theorem initInstance_local (self : Obj) (kind : Kind) (n : Nat) (rule : Bool) :
    Local (initInstance self kind n rule : PM W Unit) := by
  refine Local.bind ?_ fun _ => (initInstall_local self).bind fun _ => ?_
  · refine (Local.getField self _).bind fun v => ?_
    split
    · exact Local.pure ()
    · split
      · exact Local.throw _
      · exact Local.pure ()
    · exact Local.throw _
  · split
    · exact initSimple_local self
    · exact initIth_local self
    · split
      · exact Local.failNode self _
      · exact Local.pure ()
    · exact Local.pure ()

theorem instantiate_local (decl : Decl) (n : Nat) (rule : Bool) (i : Option LuaString) :
    Local (instantiate decl n rule i : PM W Decl) := by
  cases i with
  | none => exact Local.pure decl
  | some i =>
    refine (Local.fieldsOf decl.obj).bind fun fields => ?_
    refine (Local.newObject _ fields).bind fun self => ?_
    exact (initInstance_local self decl.kind (n + 1) rule).bind fun _ => Local.pure _

end PrimeMover
