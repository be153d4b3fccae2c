import PrimeMover.Names
import PrimeMover.Registry
import PrimeMover.Tour
import PrimeMover.Bench

/-! What the id of a simple node stands for, over all runs that share a cache: the text of
its commands, joined and expanded with U = 0. -/
namespace PrimeMover
open LineReader Outcome

variable {W : Type}

/-- The key does not depend on the variables that the naming of the outputs sets. -/
theorem workKey_marked (cfg : Settings W) {m m' : Mem} {self : Obj} (inputs : List LuaString)
    (scope : m'.scope = m.scope)
    (same : ∀ J out V, (m'.mark self J out V).fields = (m.mark self J out V).fields)
    (templates : rawget m'.fields self "outputs".toList = rawget m.fields self "outputs".toList)
    (command : rawget m'.fields self "command".toList = rawget m.fields self "command".toList) :
    workKey cfg m' self inputs = workKey cfg m self inputs := by
  unfold workKey
  simp only [templates, command, scope, same, expandTemplates_marked cfg scope (same _ · _)]

/-- How the outputs of a simple node were named. -/
structure NamedWork (cfg : Settings W) (decl : Decl) (inputs : List LuaString) (s : State W)
    (outs : List LuaString) (t : State W) where
  key : LuaString
  id : Id
  templates : List Value
  asked : State W
  prepared : prepareWork cfg decl.obj inputs s = .ok (key, templates) asked
  given : State W
  issued : createIntermediateCacheKey cfg key asked = .ok id given
  found : workKey cfg s.mem decl.obj inputs = .ok key
  mem : t.mem = (s.mem.withIds given.mem.intermediateCache given.mem.intermediateCacheCount).mark
    decl.obj (basename (inputs.headD [])) outs (.str (cfg.intermediateCacheDir ++ id.text))

theorem outputs_simple {cfg : Settings W} {decl : Decl} (simple : decl.kind = .simple)
    (inputs : List LuaString) : outputs cfg decl inputs = (do
      let named ← simpleOutputs cfg decl.obj inputs
      pure (some named.1, named.2)) := by
  simp only [outputs, simple]

theorem outputs_work {cfg : Settings W} {decl : Decl} (simple : decl.kind = .simple)
    {inputs outs : List LuaString} {key : Option LuaString} {s t : State W}
    (run : outputs cfg decl inputs s = .ok (key, outs) t) :
    ∃ work : NamedWork cfg decl inputs s outs t, key = some work.key := by
  rw [outputs_simple simple, simpleOutputs_eq, bind_assoc] at run
  obtain ⟨named, t1, first, run⟩ := bind_eq_ok.mp run
  rw [bind_assoc] at run
  obtain ⟨outs', t2, loop, run⟩ := bind_eq_ok.mp run
  cases run
  obtain ⟨work, u, v, id, prepared, rfl, issued, mem, _⟩ := nameWork_ok first
  obtain ⟨_, last, _⟩ := templates_ok mem loop
  exact ⟨⟨work.key, id, work.templates, u, prepared, v, issued, work.workKey_eq, last⟩, rfl⟩

namespace NamedWork

variable {cfg : Settings W} {decl : Decl} {inputs outs : List LuaString} {s t : State W}

theorem workKey_mem (work : NamedWork cfg decl inputs s outs t) :
    workKey cfg t.mem decl.obj inputs = .ok work.key := by
  rw [← work.found, work.mem]
  refine workKey_marked cfg inputs ?_ ?_ ?_ ?_
  · rfl
  · intro J out V
    rw [mark_mark]
    rfl
  · exact mark_other _ _ _ _ _ (by decide) (by decide) (by decide) _
  · exact mark_other _ _ _ _ _ (by decide) (by decide) (by decide) _

theorem unique_mem (work : NamedWork cfg decl inputs s outs t) :
    rawget t.mem.fields decl.obj "U".toList =
      some (.str (cfg.intermediateCacheDir ++ work.id.text)) := by
  rw [work.mem]
  simp only [rawget, Mem.mark, and_self, if_true]

end NamedWork

/-- The work that a registry has on record under an id. -/
def Recorded (cfg : Settings W) (r : Registry) (v : Visit W) : Prop :=
  ∃ key n, workKey cfg v.mem v.decl.obj v.inputs = .ok key ∧ (key, n) ∈ r.ids ∧
    rawget v.mem.fields v.decl.obj "U".toList =
      some (.str (cfg.intermediateCacheDir ++ decimal n))

/-- A state whose index stores a registry that has grown from `first`. -/
structure Filed (cfg : Settings W) (first : Registry) (s : State W) (r : Registry) : Prop where
  grown : first.Extends r
  stored : Stored cfg s.sys.world r
  lines : ∀ e ∈ r.ids, LineText e.1
  small : r.count < 0x80000000
  recorded : ∀ v ∈ s.visits, v.decl.kind = .simple → Recorded cfg r v

def Represented (s : State W) (r : Registry) : Prop :=
  Represents s.mem.intermediateCacheCount s.mem.intermediateCache r

theorem Recorded.extends {cfg : Settings W} {r r' : Registry} {v : Visit W}
    (recorded : Recorded cfg r v) (grown : r.Extends r') : Recorded cfg r' v := by
  obtain ⟨key, n, found, member, unique⟩ := recorded
  exact ⟨key, n, found, grown.2 _ member, unique⟩

/-- Steps that leave the table and its file alone. -/
structure Aloof (cfg : Settings W) (s t : State W) : Prop where
  cache : t.mem.intermediateCache = s.mem.intermediateCache
  count : t.mem.intermediateCacheCount = s.mem.intermediateCacheCount
  file : cfg.host.readFile t.sys.world (indexFile cfg) =
    cfg.host.readFile s.sys.world (indexFile cfg)
  visits : t.visits = s.visits

namespace Aloof

variable {cfg : Settings W} {s t u : State W}

theorem refl (s : State W) : Aloof cfg s s := ⟨rfl, rfl, rfl, rfl⟩

theorem trans (first : Aloof cfg s t) (second : Aloof cfg t u) : Aloof cfg s u :=
  ⟨second.cache.trans first.cache, second.count.trans first.count, second.file.trans first.file,
    second.visits.trans first.visits⟩

theorem of_path (path : Relation.ReflTransGen (Aloof cfg) s t) : Aloof cfg s t :=
  path_keeps (P := fun t => Aloof cfg s t) (fun _ _ step before => before.trans step) path (refl s)

theorem represented {r : Registry} (aloof : Aloof cfg s t) (h : Represented s r) :
    Represented t r := by
  unfold Represented
  rwa [aloof.cache, aloof.count]

theorem filed {first r : Registry} (aloof : Aloof cfg s t) (filed : Filed cfg first s r) :
    Filed cfg first t r :=
  ⟨filed.grown, filed.stored.elsewhere aloof.file, filed.lines, filed.small,
    aloof.visits ▸ filed.recorded⟩

end Aloof

section Naming

variable {cfg : Settings W} (laws : CacheLaws cfg)
  (mkdirs : ∀ w w' d, cfg.host.mkdir w d = some w' →
    cfg.host.readFile w' (indexFile cfg) = cfg.host.readFile w (indexFile cfg))

theorem look_aloof (s : State W) (self : Obj) : Aloof cfg s (s.look self) := ⟨rfl, rfl, rfl, rfl⟩

theorem setField_aloof (o : Obj) (key : LuaString) (v : Value) :
    Moves (Aloof cfg) (setField o key v : PM W Unit) :=
  Moves.modify fun _ => ⟨rfl, rfl, rfl, rfl⟩

theorem expand_aloof (self : Obj) (text : LuaString) :
    Moves (Aloof cfg) (expand cfg self text) :=
  Moves.expand cfg self text fun s => look_aloof s self

include mkdirs in
theorem template_aloof (self : Obj) (make : Bool) (template : Value) :
    Moves (Aloof cfg) (outputTemplate cfg self make template) := by
  refine ((Moves.except _).bind fun text => expand_aloof self text).bind fun i => ?_
  have rest : Moves (Aloof cfg) (do appendOut self i; pure [i]) :=
    ((Moves.getField self _).bind fun _ => setField_aloof self _ _).bind fun _ => Moves.pure _
  cases make with
  | false => exact rest
  | true =>
    refine Moves.bind ?_ fun _ => rest
    exact Moves.container cfg i fun s d w made => ⟨rfl, rfl, mkdirs _ w d made, rfl⟩

include mkdirs in
theorem prepareWork_aloof (self : Obj) (inputs : List LuaString) :
    Moves (Aloof cfg) (prepareWork cfg self inputs) := by
  refine (setField_aloof self _ _).bind fun _ => (setField_aloof self _ _).bind fun _ => ?_
  refine (setField_aloof self _ _).bind fun _ => (Moves.getField self _).bind fun _ => ?_
  refine (Moves.except _).bind fun templates => Moves.bind ?_ fun _ => ?_
  · exact Moves.collect templates fun v _ => template_aloof mkdirs self false v
  · refine (Moves.getField self _).bind fun _ => (Moves.except _).bind fun commands => ?_
    exact (Moves.except _).bind fun joined => (expand_aloof self joined).bind fun _ => Moves.pure _

/-- Behind the greatest number comes the least one. -/
theorem next_small {n : Nat} (small : n < 0x80000000) (positive : 0 < luaNumber (n + 1)) :
    n + 1 < 0x80000000 := by
  by_contra last
  have greatest : n = 0x80000000 - 1 := by omega
  subst greatest
  exact absurd positive (by decide)

/-- A key that is new to the table is reported. -/
theorem request_asked {key : LuaString} {s : State W} {r : Registry} (rep : Represented s r)
    (lines : ∀ e ∈ r.ids, LineText e.1) (small : r.count < 0x80000000)
    (asked : ∀ k n, .issue k n ∈ (final (createIntermediateCacheKey cfg key s)).sys.log →
      LineText k ∧ 0 < n) :
    (∀ e ∈ (r.request key).1.ids, LineText e.1) ∧ (r.request key).1.count < 0x80000000 := by
  have same := rep.ids key
  cases hr : r.ids.lookup key with
  | some n =>
    rw [Registry.request_known hr]
    exact ⟨lines, small⟩
  | none =>
    rw [hr] at same
    have absent : s.mem.intermediateCache.lookup key = none := by simpa using same
    obtain ⟨c, hc, text⟩ := Option.map_eq_some_iff.mp rep.count
    have reported : .issue key (luaNumber (r.count + 1)) ∈
        (final (createIntermediateCacheKey cfg key s)).sys.log := by
      rw [createKey_new cfg absent (by rw [hc, Option.bind_some, number_of_text text])]
      dsimp only
      split <;> exact List.mem_append_right _ (List.mem_singleton.mpr rfl)
    obtain ⟨line, positive⟩ := asked _ _ reported
    refine ⟨r.request_lines lines line, ?_⟩
    rw [Registry.request_new hr]
    exact next_small small positive

include laws in
theorem createKey_filed {first r : Registry} (key : LuaString) {s : State W}
    (rep : Represented s r) (filed : Filed cfg first s r)
    (asked : ∀ k n, .issue k n ∈ (final (createIntermediateCacheKey cfg key s)).sys.log →
      LineText k ∧ 0 < n) :
    match createIntermediateCacheKey cfg key s with
    | .ok u t => ∃ r', Represented t r' ∧ Filed cfg first t r' ∧
        ∃ n, u.text = decimal n ∧ (key, n) ∈ r'.ids
    | .error _ t => Filed cfg first t r := by
  obtain ⟨lines, few⟩ := request_asked rep filed.lines filed.small asked
  have visits := (createKey_frame cfg key s).2.1
  have run := request_run cfg laws.toIndexLaws r key lines few s ⟨rep, filed.stored⟩
  cases h : createIntermediateCacheKey cfg key s with
  | error e t =>
    rw [h] at run visits
    have visits : t.visits = s.visits := visits
    exact ⟨filed.grown, run, filed.lines, filed.small, visits ▸ filed.recorded⟩
  | ok u t =>
    rw [h] at run visits
    have visits : t.visits = s.visits := visits
    have grown := r.request_extends key
    refine ⟨(r.request key).1, run.2.1, ⟨filed.grown.trans grown, run.2.2, lines, few, ?_⟩,
      (r.request key).2, run.1, r.request_mem key⟩
    rw [visits]
    exact fun v hv simple => (filed.recorded v hv simple).extends grown

/-- The part of `outputs` for a simple node after the request. -/
def giveOutputs (cfg : Settings W) (self : Obj) (work : LuaString × List Value) (id : Id) :
    PM W (Option LuaString × List LuaString) := do
  setField self "U".toList (.str (cfg.intermediateCacheDir ++ id.text))
  setField self "out".toList (.list [])
  let outs ← collect (outputTemplate cfg self true) work.2
  pure (some work.1, outs)

theorem outputs_eq {decl : Decl} (simple : decl.kind = .simple) (inputs : List LuaString) :
    outputs cfg decl inputs = (do
      let work ← prepareWork cfg decl.obj inputs
      let id ← createIntermediateCacheKey cfg work.1
      giveOutputs cfg decl.obj work id) := by
  simp only [outputs_simple simple, simpleOutputs_eq, nameWork, giveOutputs, bind_assoc, pure_bind]

theorem giveOutputs_grows (cfg : Settings W) (self : Obj) (work : LuaString × List Value) (id : Id) (s : State W) :
    Grows s (final (giveOutputs cfg self work id s)) := by
  have moves : Moves (Naming cfg self) (giveOutputs cfg self work id) := by
    refine (setField_moves cfg self _ _).bind fun _ => (setField_moves cfg self _ _).bind fun _ => ?_
    refine Moves.bind (Moves.collect work.2 fun v _ => ?_) fun _ => Moves.pure _
    exact outputTemplate_moves cfg self true v
  exact grows_of_moves (Moves.naming cfg self moves) s

include mkdirs in
theorem giveOutputs_aloof (self : Obj) (work : LuaString × List Value) (id : Id) :
    Moves (Aloof cfg) (giveOutputs cfg self work id) := by
  refine (setField_aloof self _ _).bind fun _ => (setField_aloof self _ _).bind fun _ => ?_
  refine Moves.bind (Moves.collect work.2 fun v _ => ?_) fun _ => Moves.pure _
  exact template_aloof mkdirs self true v

theorem aloof_of_moves {A : Type} {x : PM W A} (moves : Moves (Aloof cfg) x) (s : State W) :
    Aloof cfg s (final (x s)) :=
  Aloof.of_path (moves s)

include laws mkdirs in
/-- The naming of the outputs files the key of a simple node. -/
theorem outputs_filed {first r : Registry} (decl : Decl) (inputs : List LuaString) {s : State W}
    (rep : Represented s r) (filed : Filed cfg first s r)
    (asked : ∀ k n, .issue k n ∈ (final (outputs cfg decl inputs s)).sys.log →
      LineText k ∧ 0 < n) :
    match outputs cfg decl inputs s with
    | .ok named t => ∃ r', Represented t r' ∧ Filed cfg first t r' ∧ (decl.kind = .simple →
        ∃ key n, workKey cfg t.mem decl.obj inputs = .ok key ∧ (key, n) ∈ r'.ids ∧
          rawget t.mem.fields decl.obj "U".toList =
            some (.str (cfg.intermediateCacheDir ++ decimal n)) ∧
          (t.setField decl.obj "out".toList (strings named.2)).mem = t.mem)
    | .error _ t => ∃ r', Filed cfg first t r' := by
  by_cases simple : decl.kind = .simple
  · have prepared := aloof_of_moves (prepareWork_aloof mkdirs decl.obj inputs) s
    have work := fun outs key t (run : outputs cfg decl inputs s = .ok (key, outs) t) =>
      outputs_work simple run
    rw [outputs_eq simple] at asked work ⊢
    rw [bind_run] at asked work ⊢
    cases h1 : prepareWork cfg decl.obj inputs s with
    | error e t =>
      rw [h1] at prepared
      exact ⟨r, prepared.filed filed⟩
    | ok named u =>
      rw [h1] at prepared asked work
      have prepared : Aloof cfg s u := prepared
      dsimp only at asked work ⊢
      rw [bind_run] at asked work ⊢
      have request := fun key =>
        createKey_filed laws key (prepared.represented rep) (prepared.filed filed)
      have request := request named.1
      cases h2 : createIntermediateCacheKey cfg named.1 u with
      | error e t =>
        rw [h2] at request asked
        exact ⟨r, request asked⟩
      | ok id v =>
        rw [h2] at request asked work
        dsimp only at asked work ⊢
        have grows := (giveOutputs_grows cfg decl.obj named id v).log
        obtain ⟨r', rep', filed', n, text, member⟩ := request fun k m hk =>
          asked k m (grows.subset hk)
        have aloof := aloof_of_moves (giveOutputs_aloof mkdirs decl.obj named id) v
        cases h3 : giveOutputs cfg decl.obj named id v with
        | error e t =>
          rw [h3] at aloof
          exact ⟨r', aloof.filed filed'⟩
        | ok pair t =>
          rw [h3] at aloof
          refine ⟨r', aloof.represented rep', aloof.filed filed', fun _ => ?_⟩
          obtain ⟨whole, _⟩ := work pair.2 pair.1 t h3
          cases h1.symm.trans whole.prepared
          cases h2.symm.trans whole.issued
          refine ⟨whole.key, n, whole.workKey_mem, member, ?_, ?_⟩
          · rw [whole.unique_mem, text]
          · exact (setField_marked_out whole.mem pair.2).trans whole.mem.symm
  · have moves : Moves (Aloof cfg) (outputs cfg decl inputs) :=
      Moves.outputs_other cfg simple (fun s => look_aloof s decl.obj) inputs
    have aloof := aloof_of_moves moves s
    cases h : outputs cfg decl inputs s with
    | error e t =>
      rw [h] at aloof
      exact ⟨r, aloof.filed filed⟩
    | ok named t =>
      rw [h] at aloof
      exact ⟨r, aloof.represented rep, aloof.filed filed, fun same => absurd same simple⟩

end Naming

/-- What is executed for a node leaves the index alone. -/
structure Undisturbed (cfg : Settings W) (v : Visit W) : Prop where
  builds : ∀ s : State W, s.mem = v.mem →
    cfg.host.readFile (final (dobuild cfg v.decl v.inputs v.outs s)).sys.world (indexFile cfg) =
      cfg.host.readFile s.sys.world (indexFile cfg)
  installs : ∀ s : State W, s.mem = v.mem →
    cfg.host.readFile (final (installNode cfg v.decl v.inputs v.outs s)).sys.world (indexFile cfg) =
      cfg.host.readFile s.sys.world (indexFile cfg)

theorem aloof_of_invoking {cfg : Settings W} {self : Obj} {A : Type} {x : PM W A}
    (moves : Moves (Invoking cfg self) x) (s : State W)
    (file : cfg.host.readFile (final (x s)).sys.world (indexFile cfg) =
      cfg.host.readFile s.sys.world (indexFile cfg)) :
    Aloof cfg s (final (x s)) ∧ (final (x s)).mem = s.mem := by
  have same := path_keeps (P := fun t : State W => t.mem = s.mem ∧ t.visits = s.visits)
    (fun _ _ step before => by cases step <;> exact before) (moves s) ⟨rfl, rfl⟩
  exact ⟨⟨congrArg Mem.intermediateCache same.1, congrArg Mem.intermediateCacheCount same.1, file,
    same.2⟩, same.1⟩

theorem dobuild_moves (cfg : Settings W) (decl : Decl) (inputs outs : List LuaString) :
    Moves (Invoking cfg decl.obj) (dobuild cfg decl inputs outs) := by
  unfold dobuild
  split
  · exact simpleDobuild_moves cfg decl.obj inputs outs
  · exact Moves.pure _

/-- A node on record settles without touching the table or its file. -/
theorem settle_aloof {cfg : Settings W} {v : Visit W} (undisturbed : Undisturbed cfg v) {s : State W}
    (mem : s.mem = v.mem) : Aloof cfg s (final (settle cfg v.decl v.inputs v.outs s)) := by
  have still : ∀ {A : Type} {x : PM W A}, Moves (Stamping cfg v.decl.obj) x → ∀ s,
      Aloof cfg s (final (x s)) ∧ (final (x s)).mem = s.mem := by
    intro A x moves s
    have still := still_of_moves moves s
    exact ⟨⟨congrArg Mem.intermediateCache still.mem, congrArg Mem.intermediateCacheCount still.mem,
      by rw [still.world], still.visits⟩, still.mem⟩
  have step : ∀ {A B : Type} {x : PM W A} {f : A → PM W B} {s : State W}, s.mem = v.mem →
      (Aloof cfg s (final (x s)) ∧ (final (x s)).mem = s.mem) →
      (∀ a t, t.mem = v.mem → Aloof cfg t (final (f a t)) ∧ (final (f a t)).mem = t.mem) →
      Aloof cfg s (final ((x >>= f) s)) ∧ (final ((x >>= f) s)).mem = s.mem := by
    intro A B x f s mem hx hf
    rw [bind_run]
    cases h : x s with
    | error e t =>
      rw [h] at hx
      exact hx
    | ok a t =>
      rw [h] at hx
      obtain ⟨aloof, same⟩ := hf a t (Eq.trans hx.2 mem)
      exact ⟨hx.1.trans aloof, same.trans hx.2⟩
  have install : ∀ u : State W, u.mem = v.mem →
      Aloof cfg u (final (installNode cfg v.decl v.inputs v.outs u)) ∧
        (final (installNode cfg v.decl v.inputs v.outs u)).mem = u.mem := fun u here =>
    aloof_of_invoking (installNode_moves cfg v.decl v.inputs v.outs) u (undisturbed.installs u here)
  refine (step mem (still (timestamp_moves cfg v.decl v.outs) s) fun t u here => ?_).1
  refine step here (still (outdated_moves cfg v.decl.obj t v.inputs) u) fun old w here => ?_
  refine step here ?_ fun _ u here => install u here
  cases old with
  | false => exact ⟨Aloof.refl w, rfl⟩
  | true =>
    have built := aloof_of_invoking (dobuild_moves cfg v.decl v.inputs v.outs) w
      (undisturbed.builds w here)
    exact step here built fun _ u here => ⟨⟨rfl, rfl, rfl, rfl⟩, rfl⟩

/-- A run whose keys are lines, whose ids have not come round to the negative numbers, and which
executes nothing that changes the index. -/
structure IndexSafe (cfg : Settings W) (fin : State W) : Prop where
  issued : ∀ k n, .issue k n ∈ fin.sys.log → LineText k ∧ 0 < n
  undisturbed : ∀ v ∈ fin.visits, Undisturbed cfg v

/-- Making a directory leaves the index alone. -/
structure SharedLaws (cfg : Settings W) : Prop extends CacheLaws cfg where
  mkdirs : ∀ w w' d, cfg.host.mkdir w d = some w' →
    cfg.host.readFile w' (indexFile cfg) = cfg.host.readFile w (indexFile cfg)

/-- One node: its key is filed, and it goes on record with its id. -/
theorem finish_filed {cfg : Settings W} (laws : SharedLaws cfg) {fin : State W}
    (safe : IndexSafe cfg fin) {first r : Registry} {decl : Decl} {inputs : List LuaString}
    {listed start : Nat} {s : State W} (rep : Represented s r) (filed : Filed cfg first s r)
    (grows : Grows (final (finish cfg decl inputs listed start s)) fin) :
    match finish cfg decl inputs listed start s with
    | .ok _ t => ∃ r', Represented t r' ∧ Filed cfg first t r'
    | .error _ t => ∃ r', Filed cfg first t r' := by
  have set : Aloof cfg s (s.setField decl.obj "in".toList (strings inputs)) := ⟨rfl, rfl, rfl, rfl⟩
  have named := outputs_filed laws.toCacheLaws laws.mkdirs decl inputs (set.represented rep)
    (set.filed filed)
  rw [finish_run] at grows ⊢
  cases h : outputs cfg decl inputs (s.setField decl.obj "in".toList (strings inputs)) with
  | error e t =>
    rw [h] at named grows
    exact named fun k n hk => safe.issued k n (grows.log.subset hk)
  | ok found t =>
    obtain ⟨key, outs⟩ := found
    rw [h] at named grows
    dsimp only at grows ⊢
    let u := t.reach decl key inputs outs listed start
    let v : Visit W := ⟨decl, u.mem, u.sys, key, inputs, outs, listed, start⟩
    have later := (settle_grows cfg decl inputs outs u).trans grows
    obtain ⟨r', rep', filed', work⟩ := named fun k n hk => safe.issued k n (later.log.subset hk)
    have member : v ∈ fin.visits := later.visits.subset (by simp [u, v, State.reach])
    have settled := settle_aloof (safe.undisturbed v member) (s := u) rfl
    have recorded : ∀ x ∈ u.visits, x.decl.kind = .simple → Recorded cfg r' x := by
      intro x hx simple
      rcases List.mem_append.mp hx with hx | hx
      · exact filed'.recorded x hx simple
      · cases List.mem_singleton.mp hx
        obtain ⟨k, n, found, known, unique, same⟩ := work simple
        have here : (t.setField decl.obj "out".toList (strings outs)).mem = t.mem := same
        refine ⟨k, n, ?_, known, ?_⟩
        · rw [← found, ← here]
        · rw [← unique, ← here]
    have reached : Represented u r' ∧ Filed cfg first u r' :=
      ⟨rep', filed'.grown, filed'.stored, filed'.lines, filed'.small, recorded⟩
    rw [bind_run]
    cases k : settle cfg decl inputs outs u with
    | error e w =>
      rw [show settle cfg v.decl v.inputs v.outs u = _ from k] at settled
      exact ⟨r', settled.filed reached.2⟩
    | ok _ w =>
      rw [show settle cfg v.decl v.inputs v.outs u = _ from k] at settled
      exact ⟨r', settled.represented reached.1, settled.filed reached.2⟩

theorem filed_tour {cfg : Settings W} (laws : SharedLaws cfg) {fin : State W}
    (safe : IndexSafe cfg fin) (first : Registry) :
    Tour cfg fin (fun s => ∃ r, Represented s r ∧ Filed cfg first s r)
      (fun s => ∃ r, Filed cfg first s r) (fun _ _ => True) (fun _ _ => True) where
  nil _ := trivial
  append _ _ := trivial
  mono _ _ := trivial
  one _ _ := trivial
  one_mono _ _ := trivial
  blind := by
    rintro s fields scope objects ⟨r, rep, filed⟩
    exact ⟨r, rep, filed.grown, filed.stored, filed.lines, filed.small, filed.recorded⟩
  stop := by
    rintro s ⟨r, _, filed⟩
    exact ⟨r, filed⟩
  step := by
    rintro decl inputs listed start s ⟨r, rep, filed⟩ _ grows
    have step := finish_filed laws safe rep filed grows
    cases h : finish cfg decl inputs listed start s with
    | error e t =>
      rw [h] at step
      exact step
    | ok outs t =>
      rw [h] at step
      exact ⟨step, trivial⟩

theorem run_filed {cfg : Settings W} (laws : SharedLaws cfg) {targets : List Node} {w : W}
    {sandbox : Obj} {objects : Nat} {first : Registry}
    (safe : IndexSafe cfg (final (driver cfg false targets (start w sandbox objects))))
    (stored : Stored cfg w first) (lines : ∀ e ∈ first.ids, LineText e.1)
    (small : first.count < 0x80000000) :
    ∃ r, Filed cfg first (final (driver cfg false targets (start w sandbox objects))) r := by
  have loaded := load_run cfg laws.toCacheLaws first w sandbox objects stored
  have visits : (final (loadIntermediateCache cfg (start w sandbox objects))).visits = [] :=
    setupCache_visits cfg false (start w sandbox objects)
  have run : driver cfg false targets (start w sandbox objects) =
      (loadIntermediateCache cfg >>= fun _ => buildTargets cfg targets)
        (start w sandbox objects) := rfl
  rw [run, bind_run] at safe ⊢
  cases h : loadIntermediateCache cfg (start w sandbox objects) with
  | error e t =>
    rw [h] at loaded visits
    have visits : t.visits = [] := visits
    exact ⟨first, Registry.Extends.refl first, loaded, lines, small, by simp [final, visits]⟩
  | ok _ t =>
    rw [h] at loaded visits safe
    have visits : t.visits = [] := visits
    have begun : Filed cfg first t first :=
      ⟨Registry.Extends.refl first, loaded.2, lines, small, by simp [visits]⟩
    have tour := ((filed_tour laws safe first).buildTargets targets).2 t fun _ =>
      ⟨⟨first, loaded.1, begun⟩, trivial⟩
    cases k : buildTargets cfg targets t with
    | error e u =>
      dsimp only at tour ⊢
      rw [k] at tour ⊢
      exact tour (Grows.refl u)
    | ok _ u =>
      dsimp only at tour ⊢
      rw [k] at tour ⊢
      obtain ⟨⟨r, _, filed⟩, _⟩ := tour (Grows.refl u)
      exact ⟨r, filed⟩

/-- Runs over one cache directory, one after the other. -/
structure History (W : Type) where
  world : W
  built : List (Settings W × Visit W)

/-- Settings for the same cache on the same system. -/
structure SameCache (cfg cfg' : Settings W) : Prop where
  host : cfg'.host = cfg.host
  directory : cfg'.intermediateCacheDir = cfg.intermediateCacheDir

/-- The history begins without an index. Then there are runs, and anything else that leaves
the index alone. -/
inductive Happens (cfg : Settings W) : History W → Prop where
  | fresh (w : W) (unread : cfg.host.readFile w (indexFile cfg) = none) : Happens cfg ⟨w, []⟩
  | run (h : History W) (before : Happens cfg h) (cfg' : Settings W) (same : SameCache cfg cfg')
      (targets : List Node) (sandbox : Obj) (objects : Nat) (fin : State W)
      (run : final (driver cfg' false targets (start h.world sandbox objects)) = fin)
      (safe : IndexSafe cfg' fin) :
      Happens cfg ⟨fin.sys.world, h.built ++ fin.visits.map fun v => (cfg', v)⟩
  | elsewhere (h : History W) (before : Happens cfg h) (w : W)
      (same : cfg.host.readFile w (indexFile cfg) = cfg.host.readFile h.world (indexFile cfg)) :
      Happens cfg ⟨w, h.built⟩

theorem SameCache.file {cfg cfg' : Settings W} (same : SameCache cfg cfg') :
    indexFile cfg' = indexFile cfg := by
  rw [indexFile, indexFile, same.directory]

theorem SameCache.laws {cfg cfg' : Settings W} (same : SameCache cfg cfg')
    (laws : SharedLaws cfg) : SharedLaws cfg' where
  pairs_perm := by simpa only [same.host] using laws.pairs_perm
  read_write := by simpa only [same.host, same.file] using laws.read_write
  mkdir_unread := by simpa only [same.host, same.file] using laws.mkdir_unread
  unlink_unread := by simpa only [same.host, same.file] using laws.unlink_unread
  rmdir_unread := by simpa only [same.host, same.file] using laws.rmdir_unread
  mkdirs := by simpa only [same.host, same.file] using laws.mkdirs

theorem SameCache.stored {cfg cfg' : Settings W} (same : SameCache cfg cfg') (w : W)
    (r : Registry) : Stored cfg' w r ↔ Stored cfg w r := by
  unfold Stored
  rw [same.host, same.file]

/-- The unique name that a node was given, U: the directory of the cache and the id. -/
def Visit.uniqueName (v : Visit W) : Option LuaString :=
  match rawget v.mem.fields v.decl.obj "U".toList with
  | some (.str s) => some s
  | _ => none

/-- The registry behind a history. -/
structure Behind (cfg : Settings W) (h : History W) (r : Registry) : Prop where
  stored : Stored cfg h.world r
  lines : ∀ e ∈ r.ids, LineText e.1
  small : r.count < 0x80000000
  cache : ∀ a ∈ h.built, SameCache cfg a.1
  recorded : ∀ a ∈ h.built, a.2.decl.kind = .simple → Recorded a.1 r a.2

theorem happens_behind {cfg : Settings W} (laws : SharedLaws cfg) {h : History W}
    (happens : Happens cfg h) : ∃ r, Behind cfg h r := by
  induction happens with
  | fresh w unread =>
    refine ⟨Registry.empty, ?_, by simp [Registry.empty], by decide, by simp, by simp⟩
    unfold Stored
    rw [unread]
  | run h before cfg' same targets sandbox objects fin run safe ih =>
    obtain ⟨r, behind⟩ := ih
    subst run
    obtain ⟨r', filed⟩ := run_filed (same.laws laws) safe ((same.stored _ r).mpr behind.stored)
      behind.lines behind.small
    refine ⟨r', (same.stored _ r').mp filed.stored, filed.lines, filed.small, ?_, ?_⟩
    · intro a ha
      rcases List.mem_append.mp ha with ha | ha
      · exact behind.cache a ha
      · obtain ⟨v, _, rfl⟩ := List.mem_map.mp ha
        exact same
    · intro a ha simple
      rcases List.mem_append.mp ha with ha | ha
      · exact (behind.recorded a ha simple).extends filed.grown
      · obtain ⟨v, hv, rfl⟩ := List.mem_map.mp ha
        exact filed.recorded v hv simple
  | elsewhere h before w same ih =>
    obtain ⟨r, behind⟩ := ih
    exact ⟨r, behind.stored.elsewhere same, behind.lines, behind.small, behind.cache,
      behind.recorded⟩

/-- The text that a node is known by: its commands, joined and expanded with U = 0. -/
def Visit.workKey (cfg : Settings W) (v : Visit W) : Except Stop LuaString :=
  PrimeMover.workKey cfg v.mem v.decl.obj v.inputs

/-- Two simple nodes have the same id just when their commands, joined and expanded with
U = 0, are the same text. -/
def IdentifiesWork (h : History W) : Prop :=
  ∀ a ∈ h.built, ∀ b ∈ h.built, a.2.decl.kind = .simple → b.2.decl.kind = .simple →
    ∃ id id' key key', a.2.uniqueName = some id ∧ b.2.uniqueName = some id' ∧
      a.2.workKey a.1 = .ok key ∧ b.2.workKey b.1 = .ok key' ∧ (id = id' ↔ key = key')

theorem ids_identify_work (cfg : Settings W) (laws : SharedLaws cfg) (h : History W)
    (happens : Happens cfg h) : IdentifiesWork h := by
  obtain ⟨r, behind⟩ := happens_behind laws happens
  intro a ha b hb simple simple'
  obtain ⟨key, n, found, known, unique⟩ := behind.recorded a ha simple
  obtain ⟨key', n', found', known', unique'⟩ := behind.recorded b hb simple'
  rw [(behind.cache a ha).directory] at unique
  rw [(behind.cache b hb).directory] at unique'
  refine ⟨cfg.intermediateCacheDir ++ decimal n, cfg.intermediateCacheDir ++ decimal n', key, key',
    by rw [Visit.uniqueName, unique], by rw [Visit.uniqueName, unique'], found, found', ?_⟩
  constructor
  · intro same
    have same := decimal_inj (List.append_cancel_left same)
    subst same
    exact r.id_unique known known'
  · rintro rfl
    rw [r.key_unique known known']

section Examples

/-- A desk whose shell does nothing. -/
def still : Settings Desk := Desk.settings (fun _ => ⟨0, [], []⟩) 10

theorem Desk.sharedLaws (shell : LuaString → Desk.Effect) (fuel : Nat) :
    SharedLaws (Desk.settings shell fuel) where
  toCacheLaws := deskCacheLaws shell fuel
  mkdirs := by
    intro d d' f made
    show (d'.files.lookup _).map DeskFile.contents = _
    rw [(Desk.mkdir_files made).1]
    rfl

section Still

variable {cfg : Settings Desk}
  (quiet : ∀ d c, cfg.host.readFile (cfg.host.execute d c).2 (indexFile cfg) =
    cfg.host.readFile d (indexFile cfg))

include quiet

theorem still_invoke (text : Option LuaString) (self : Obj) (phase : Phase)
    (inputs outs : List LuaString) {commands : List Value} (strings : ∀ c ∈ commands, IsString c) :
    Keeps (fun s : State Desk => cfg.host.readFile s.sys.world (indexFile cfg) = text)
      (invoke cfg self phase inputs outs commands) := by
  induction commands with
  | nil => exact Keeps.pure _
  | cons c rest ih =>
    obtain ⟨command, rfl⟩ := strings c List.mem_cons_self
    have later := ih fun c hc => strings c (List.mem_cons_of_mem _ hc)
    have look : Moves (fun s t : State Desk => t.sys.world = s.sys.world) (expand cfg self command) :=
      Moves.expand cfg self command fun _ => rfl
    refine (look.keeps fun s t step same => step ▸ same).bind fun t => Keeps.bind ?_ fun _ => ?_
    · intro s same
      obtain ⟨u, traced, _, world, _⟩ := traceoutput_run cfg t s
      rw [traced]
      show cfg.host.readFile u.sys.world (indexFile cfg) = text
      rw [world]
      exact same
    · split
      · exact later
      · refine Keeps.bind ?_ fun r => ?_
        · exact fun s same => (quiet s.sys.world t).trans same
        · split
          · exact Keeps.pure _
          · exact later

theorem still_dobuild {v : Visit Desk} (commands : ∀ c ∈ v.commands, IsString c) {s : State Desk}
    (mem : s.mem = v.mem) :
    cfg.host.readFile (final (dobuild cfg v.decl v.inputs v.outs s)).sys.world (indexFile cfg) =
      cfg.host.readFile s.sys.world (indexFile cfg) := by
  by_cases simple : v.decl.kind = .simple
  · rw [dobuild_simple simple]
    unfold simpleDobuild
    rw [bind_ok_run (getField_run v.decl.obj _ s)]
    unfold Visit.commands at commands
    rw [← mem] at commands
    cases field : rawget s.mem.fields v.decl.obj "command".toList with
    | none => rfl
    | some command =>
      rw [field] at commands
      have cleanup : ∀ c ∈ [Value.str "%RM% %out%".toList], IsString c := by
        simp [IsString]
      let text := cfg.host.readFile s.sys.world (indexFile cfg)
      have build := still_invoke quiet text v.decl.obj .build v.inputs v.outs commands
      have clean := still_invoke quiet text v.decl.obj .cleanup [] [] cleanup
      refine Ensures.final (P := fun t : State Desk => cfg.host.readFile t.sys.world _ = text)
        (Q := fun t : State Desk => cfg.host.readFile t.sys.world _ = text)
        (Keeps.bind build fun r => ?_) rfl
      cases r with
      | none => exact Keeps.pure _
      | some r =>
        refine Keeps.bind clean fun _ => ?_
        exact (Moves.failNode (R := fun _ _ => False) v.decl.obj _).keeps fun _ _ => False.elim
  · rw [dobuild_other simple]
    rfl

end Still

theorem install_nothing {cfg : Settings Desk} {v : Visit Desk} (nothing : v.install = [])
    {s : State Desk} (mem : s.mem = v.mem) :
    final (installNode cfg v.decl v.inputs v.outs s) = s := by
  unfold installNode
  rw [bind_ok_run (getField_run v.decl.obj _ s)]
  unfold Visit.install at nothing
  rw [← mem] at nothing
  cases field : truthy (rawget s.mem.fields v.decl.obj "install".toList) with
  | none => rfl
  | some list =>
    rw [field] at nothing
    dsimp only [Option.map_some, Option.getD_some] at nothing ⊢
    rw [nothing]
    rfl

theorem undisturbed_of_quiet {cfg : Settings Desk} (quiet : ∀ d c,
    cfg.host.readFile (cfg.host.execute d c).2 (indexFile cfg) = cfg.host.readFile d (indexFile cfg))
    {v : Visit Desk} (commands : ∀ c ∈ v.commands, IsString c) (nothing : v.install = []) :
    Undisturbed cfg v where
  builds _ mem := still_dobuild quiet commands mem
  installs s mem := by rw [install_nothing nothing mem]

def isText : Value → Bool
  | .str _ => true
  | _ => false

theorem isString_of_check {commands : List Value} (ok : commands.all isText = true) :
    ∀ c ∈ commands, IsString c := by
  intro c hc
  have text := List.all_eq_true.mp ok c hc
  cases c with
  | str s => exact ⟨s, rfl⟩
  | _ => cases text

def Event.isLine : Event → Bool
  | .issue key id => decide (LineText key ∧ 0 < id)
  | _ => true

/-- The checks of a run on this desk. -/
def stillSafe (fin : State Desk) : Bool :=
  fin.sys.log.all Event.isLine &&
    fin.visits.all fun v => v.commands.all isText && v.install.isEmpty

theorem indexSafe_of_quiet {cfg : Settings Desk} (quiet : ∀ d c,
    cfg.host.readFile (cfg.host.execute d c).2 (indexFile cfg) = cfg.host.readFile d (indexFile cfg))
    {fin : State Desk} (ok : stillSafe fin = true) : IndexSafe cfg fin := by
  simp only [stillSafe, Bool.and_eq_true, List.all_eq_true (p := Event.isLine),
    List.all_eq_true (l := fin.visits)] at ok
  constructor
  · intro k n hk
    exact of_decide_eq_true (ok.1 _ hk)
  · intro v hv
    exact undisturbed_of_quiet quiet (isString_of_check (ok.2 v hv).1)
      (List.isEmpty_iff.mp (ok.2 v hv).2)

theorem indexSafe_of_check {fin : State Desk} (ok : stillSafe fin = true) : IndexSafe still fin :=
  indexSafe_of_quiet (fun _ _ => rfl) ok

def job (id : Nat) (commands : List LuaString) : Node :=
  .object ⟨⟨id, [("outputs".toList, strings ["%U%".toList]), ("command".toList, strings commands)]⟩,
    .simple⟩ [] none

def emptyDesk : Desk := ⟨5, [], []⟩

def noRun : History Desk := ⟨emptyDesk, []⟩

/-- One run, then another one over the same cache. -/
def firstRun : State Desk :=
  final (driver still false [job 1 ["cc".toList]] (start noRun.world sandboxVariables 3))

def oneRun : History Desk :=
  ⟨firstRun.sys.world, noRun.built ++ firstRun.visits.map fun v => (still, v)⟩

def secondRun : State Desk :=
  final (driver still false [job 1 ["ld %out%".toList], job 2 ["cc".toList]]
    (start oneRun.world sandboxVariables 3))

def twoRuns : History Desk :=
  ⟨secondRun.sys.world, oneRun.built ++ secondRun.visits.map fun v => (still, v)⟩

theorem runs_safe : stillSafe firstRun = true ∧ stillSafe secondRun = true := by decide +kernel

theorem noRun_unread : still.host.readFile noRun.world (indexFile still) = none := by
  decide +kernel

theorem oneRun_happens : Happens still oneRun := by
  have run : final (driver still false [job 1 ["cc".toList]]
      (start noRun.world sandboxVariables 3)) = firstRun := by
    unfold firstRun
    rfl
  unfold oneRun
  exact Happens.run noRun (.fresh emptyDesk noRun_unread) still ⟨rfl, rfl⟩ _ _ _ firstRun run
    (indexSafe_of_check runs_safe.1)

theorem twoRuns_happens : Happens still twoRuns := by
  have run : final (driver still false [job 1 ["ld %out%".toList], job 2 ["cc".toList]]
      (start oneRun.world sandboxVariables 3)) = secondRun := by
    unfold secondRun
    rfl
  unfold twoRuns
  exact Happens.run oneRun oneRun_happens still ⟨rfl, rfl⟩ _ _ _ secondRun run
    (indexSafe_of_check runs_safe.2)

theorem twoRuns_identified : IdentifiesWork twoRuns :=
  ids_identify_work still (Desk.sharedLaws _ _) twoRuns twoRuns_happens

/-- The strings that a node executes. -/
def Visit.executed (cfg : Settings W) (v : Visit W) : Option (List LuaString) :=
  (v.texts cfg).toOption

/-- What an id would have to tell to identify the commands. -/
def IdentifiesCommands (h : History W) : Prop :=
  ∀ a ∈ h.built, ∀ b ∈ h.built, a.2.decl.kind = .simple → b.2.decl.kind = .simple →
    a.2.uniqueName = b.2.uniqueName → a.2.executed a.1 = b.2.executed b.1

/-- A run with one command of two parts, then one with two commands. -/
def joinedRun : State Desk :=
  final (driver still false [job 1 ["make && check".toList]] (start noRun.world sandboxVariables 3))

def joined : History Desk :=
  ⟨joinedRun.sys.world, noRun.built ++ joinedRun.visits.map fun v => (still, v)⟩

def splitRun : State Desk :=
  final (driver still false [job 1 ["make".toList, "check".toList]]
    (start joined.world sandboxVariables 3))

def split : History Desk :=
  ⟨splitRun.sys.world, joined.built ++ splitRun.visits.map fun v => (still, v)⟩

theorem split_safe : stillSafe joinedRun = true ∧ stillSafe splitRun = true := by decide +kernel

theorem split_built :
    (split.built.map fun a => (a.2.decl.kind, a.2.uniqueName, a.2.executed a.1)) =
      [(.simple, some ".pm-cache/1".toList, some ["make && check".toList]),
        (.simple, some ".pm-cache/1".toList, some ["make".toList, "check".toList])] := by
  decide +kernel

theorem split_happens : Happens still split := by
  have first : final (driver still false [job 1 ["make && check".toList]]
      (start noRun.world sandboxVariables 3)) = joinedRun := by
    unfold joinedRun
    rfl
  have second : final (driver still false [job 1 ["make".toList, "check".toList]]
      (start joined.world sandboxVariables 3)) = splitRun := by
    unfold splitRun
    rfl
  have before : Happens still joined := by
    unfold joined
    exact Happens.run noRun (.fresh emptyDesk noRun_unread) still ⟨rfl, rfl⟩ _ _ _ joinedRun first
      (indexSafe_of_check split_safe.1)
  unfold split
  exact Happens.run joined before still ⟨rfl, rfl⟩ _ _ _ splitRun second
    (indexSafe_of_check split_safe.2)

/-- Both have the same key, so one id stands for both lists. -/
theorem ids_join_commands : ∃ h, Happens still h ∧ ¬ IdentifiesCommands h := by
  refine ⟨split, split_happens, fun identifies => ?_⟩
  obtain ⟨a, rest, built, one, more⟩ := List.map_eq_cons_iff.mp split_built
  obtain ⟨b, _, built', two, _⟩ := List.map_eq_cons_iff.mp more
  simp only [Prod.mk.injEq] at one two
  have found : a ∈ split.built := by simp [built]
  have found' : b ∈ split.built := by simp [built, built']
  have same := identifies a found b found' one.1 two.1 (one.2.1.trans two.2.1.symm)
  rw [one.2.2, two.2.2] at same
  revert same
  decide

end Examples

end PrimeMover
