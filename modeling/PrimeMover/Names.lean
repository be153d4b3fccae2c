import PrimeMover.View

/-! What `simple.__outputs` names: the outputs expanded with U = 0, the key of the commands,
and the outputs expanded once more with the id of the key. -/
namespace PrimeMover
open Outcome

variable {W : Type}

/-- The memory with the variables that `simple.__outputs` sets on its node. -/
def Mem.mark (m : Mem) (self : Obj) (I : LuaString) (out : List LuaString) (U : Value) : Mem :=
  { m with fields := fun i k =>
      if i = self.id ∧ k = "U".toList then some U
      else if i = self.id ∧ k = "out".toList then some (strings out)
      else if i = self.id ∧ k = "I".toList then some (.str I)
      else m.fields i k }

section Mark

variable (m : Mem) (self : Obj) (I : LuaString) (out : List LuaString) (U : Value)

@[simp] theorem mark_scope : (m.mark self I out U).scope = m.scope := rfl

@[simp] theorem mark_cache :
    (m.mark self I out U).intermediateCache = m.intermediateCache := rfl

@[simp] theorem mark_count :
    (m.mark self I out U).intermediateCacheCount = m.intermediateCacheCount := rfl

theorem mark_out : rawget (m.mark self I out U).fields self "out".toList = some (strings out) := by
  have other : "out".toList ≠ "U".toList := by decide
  simp only [rawget, Mem.mark, other, and_false, if_false, and_self, if_true]

theorem mark_other {key : LuaString} (hI : key ≠ "I".toList) (hout : key ≠ "out".toList)
    (hU : key ≠ "U".toList) (o : Obj) :
    rawget (m.mark self I out U).fields o key = rawget m.fields o key := by
  simp only [rawget, Mem.mark, hI, hout, hU, and_false, if_false]

end Mark

theorem State.setField_mem (s : State W) (o : Obj) (key : LuaString) (v : Value) :
    (s.setField o key v).mem = { s.mem with
      fields := fun i k => if i = o.id ∧ k = key then some v else s.mem.fields i k } := rfl

theorem setField_marked_out {s : State W} {m : Mem} {self : Obj} {I : LuaString}
    {out : List LuaString} {U : Value} (marked : s.mem = m.mark self I out U)
    (more : List LuaString) :
    (s.setField self "out".toList (strings more)).mem = m.mark self I more U := by
  have other : "out".toList ≠ "U".toList := by decide
  rw [State.setField_mem, marked]
  simp only [Mem.mark, Mem.mk.injEq, true_and, and_true]
  funext i k
  by_cases hout : i = self.id ∧ k = "out".toList
  · simp only [hout, and_self, if_true, other, and_false, if_false]
  · simp only [hout, if_false]

theorem setField_marked_U {s : State W} {m : Mem} {self : Obj} {I : LuaString}
    {out : List LuaString} {U : Value} (marked : s.mem = m.mark self I out U) (V : Value) :
    (s.setField self "U".toList V).mem = m.mark self I out V := by
  rw [State.setField_mem, marked]
  simp only [Mem.mark, Mem.mk.injEq, true_and, and_true]
  funext i k
  by_cases hU : i = self.id ∧ k = "U".toList
  · simp only [hU, and_self, if_true]
  · simp only [hU, if_false]

/-- The outputs of a node for a value of U: a template sees the outputs before it. -/
def expandTemplates (cfg : Settings W) (m : Mem) (self : Obj) (I : LuaString) (U : Value) :
    List LuaString → List Value → Except Stop (List LuaString)
  | _, [] => .ok []
  | out, v :: rest => do
    let text ← argument "gsub".toList v
    let i ← expandText cfg (m.mark self I out U).fields m.scope self text
    let more ← expandTemplates cfg m self I U (out ++ [i]) rest
    .ok (i :: more)

theorem appendOut_marked {s : State W} {m : Mem} {self : Obj} {I : LuaString}
    {out : List LuaString} {U : Value} (marked : s.mem = m.mark self I out U) (i : LuaString) :
    ∃ t, appendOut self i s = .ok () t ∧ t.mem = m.mark self I (out ++ [i]) U ∧ t.sys = s.sys ∧
      t.visits = s.visits ∧ t.lookups = s.lookups := by
  have now : ((rawget s.mem.fields self "out".toList).bind Value.items).getD [] ++ [.str i] =
      (out ++ [i]).map .str := by
    rw [marked, mark_out]
    simp [strings, Value.items]
  refine ⟨s.setField self "out".toList (strings (out ++ [i])), ?_, ?_, rfl, rfl, rfl⟩
  · unfold appendOut
    rw [bind_ok_run (getField_run self _ s), now]
    rfl
  · exact setField_marked_out marked _

theorem except_ok {S A : Type} {r : Except Stop A} {s t : S} {a : A}
    (run : except r s = .ok a t) : r = .ok a ∧ s = t := by
  cases r with
  | ok b =>
    cases run
    exact ⟨rfl, rfl⟩
  | error e => cases run

theorem outputTemplate_ok {cfg : Settings W} {s t : State W} {m : Mem} {self : Obj} {I : LuaString}
    {out : List LuaString} {U : Value} {make : Bool} {template : Value} {is : List LuaString}
    (marked : s.mem = m.mark self I out U)
    (run : outputTemplate cfg self make template s = .ok is t) :
    ∃ text i, argument "gsub".toList template = .ok text ∧
      expandText cfg (m.mark self I out U).fields m.scope self text = .ok i ∧ is = [i] ∧
      t.mem = m.mark self I (out ++ [i]) U ∧ t.visits = s.visits ∧
      (make = false → t.sys = s.sys) := by
  obtain ⟨i, s1, expanded, rest⟩ := bind_eq_ok.mp run
  obtain ⟨text, _, checked, expansion⟩ := bind_eq_ok.mp expanded
  obtain ⟨read, rfl⟩ := except_ok checked
  obtain ⟨same, rfl⟩ := expand_ok expansion
  rw [marked] at same
  have before : (s.look self).mem = m.mark self I out U := marked
  have append : ∀ {u : State W}, u.mem = m.mark self I out U → u.visits = s.visits →
      (appendOut self i >>= fun _ => pure [i]) u = .ok is t →
      is = [i] ∧ t.mem = m.mark self I (out ++ [i]) U ∧ t.visits = s.visits ∧ t.sys = u.sys := by
    intro u here visits run
    obtain ⟨v, appended, mem, sys, same, _⟩ := appendOut_marked here i
    rw [bind_ok_run appended] at run
    cases run
    exact ⟨rfl, mem, same.trans visits, sys⟩
  cases make with
  | false =>
    obtain ⟨hi, mem, visits, sys⟩ := append before rfl rest
    exact ⟨text, i, read, same, hi, mem, visits, fun _ => sys⟩
  | true =>
    obtain ⟨_, u, made, rest⟩ := bind_eq_ok.mp rest
    have kept := lift_mem (mkcontainerdir cfg.host cfg.fuel i) (s.look self)
    rw [made] at kept
    obtain ⟨hi, mem, visits, _⟩ := append (kept.1.trans before) kept.2.1 rest
    exact ⟨text, i, read, same, hi, mem, visits, nofun⟩

theorem collect_cons_ok {A B S : Type} {f : A → EStateM Stop S (List B)} {a : A} {l : List A}
    {r : List B} {s t : S} (run : collect f (a :: l) s = .ok r t) :
    ∃ b u bs, f a s = .ok b u ∧ collect f l u = .ok bs t ∧ r = b ++ bs := by
  obtain ⟨b, u, first, run⟩ := bind_eq_ok.mp run
  obtain ⟨bs, v, rest, last⟩ := bind_eq_ok.mp run
  cases last
  exact ⟨b, u, bs, first, rest, rfl⟩

theorem templates_ok {cfg : Settings W} {s t : State W} {m : Mem} {self : Obj} {I : LuaString}
    {out : List LuaString} {U : Value} {make : Bool} {templates : List Value}
    {outs : List LuaString} (marked : s.mem = m.mark self I out U)
    (run : collect (outputTemplate cfg self make) templates s = .ok outs t) :
    expandTemplates cfg m self I U out templates = .ok outs ∧
      t.mem = m.mark self I (out ++ outs) U ∧ t.visits = s.visits ∧
      (make = false → t.sys = s.sys) := by
  induction templates generalizing s out outs with
  | nil =>
    cases run
    exact ⟨rfl, by rw [List.append_nil, marked], rfl, fun _ => rfl⟩
  | cons template rest ih =>
    obtain ⟨is, u, more, first, later, rfl⟩ := collect_cons_ok run
    obtain ⟨text, i, read, same, rfl, mem, visits, sys⟩ := outputTemplate_ok marked first
    obtain ⟨names, last, all, quiet⟩ := ih mem later
    refine ⟨?_, ?_, all.trans visits, fun off => (quiet off).trans (sys off)⟩
    · simp only [expandTemplates, bind, Except.bind, read, same, names, List.singleton_append]
    · rw [last, List.append_assoc]

/-- `simple.__outputs` up to the request for an id: the key, and the templates, which have
been expanded with U = 0. -/
def prepareWork (cfg : Settings W) (self : Obj) (inputs : List LuaString) :
    PM W (LuaString × List Value) := do
  setField self "I".toList (.str (basename (inputs.headD [])))
  setField self "out".toList (.list [])
  setField self "U".toList (.num "0".toList)
  let templates ← except (ipairs (← getField self "outputs".toList))
  let _ ← collect (outputTemplate cfg self false) templates
  let commands ← except (ipairs (← getField self "command".toList))
  let cachekey ← expand cfg self (← except (concatCommand commands))
  pure (cachekey, templates)

/-- `simple.__outputs` up to the loop that makes the containers. -/
def nameWork (cfg : Settings W) (self : Obj) (inputs : List LuaString) :
    PM W (LuaString × List Value) := do
  let work ← prepareWork cfg self inputs
  let id ← createIntermediateCacheKey cfg work.1
  setField self "U".toList (.str (cfg.intermediateCacheDir ++ id.text))
  setField self "out".toList (.list [])
  pure work

theorem simpleOutputs_eq (cfg : Settings W) (self : Obj) (inputs : List LuaString) :
    simpleOutputs cfg self inputs = (do
      let named ← nameWork cfg self inputs
      let outs ← collect (outputTemplate cfg self true) named.2
      pure (named.1, outs)) := by
  simp only [simpleOutputs, nameWork, prepareWork, bind_assoc, pure_bind]

/-- What has been found out about a simple node when its id is asked for: `zero` are the
outputs with U = 0. -/
structure Work (cfg : Settings W) (m : Mem) (o : Obj) (inputs : List LuaString) where
  templates : List Value
  listed : ipairs (rawget m.fields o "outputs".toList) = .ok templates
  zero : List LuaString
  expanded : expandTemplates cfg m o (basename (inputs.headD [])) (.num "0".toList) []
    templates = .ok zero
  commands : List Value
  command : ipairs (rawget m.fields o "command".toList) = .ok commands
  joined : LuaString
  concat : concatCommand commands = .ok joined
  key : LuaString
  text : expandText cfg
    (m.mark o (basename (inputs.headD [])) zero (.num "0".toList)).fields m.scope o joined =
      .ok key

/-- The memory when the id is asked for. -/
def Work.mem {cfg : Settings W} {m : Mem} {self : Obj} {inputs : List LuaString}
    (work : Work cfg m self inputs) : Mem :=
  m.mark self (basename (inputs.headD [])) work.zero (.num "0".toList)

/-- The key of a node: its commands in one text, expanded with U = 0. -/
def workKey (cfg : Settings W) (m : Mem) (self : Obj) (inputs : List LuaString) :
    Except Stop LuaString := do
  let I := basename (inputs.headD [])
  let templates ← ipairs (rawget m.fields self "outputs".toList)
  let zero ← expandTemplates cfg m self I (.num "0".toList) [] templates
  let commands ← ipairs (rawget m.fields self "command".toList)
  let joined ← concatCommand commands
  expandText cfg (m.mark self I zero (.num "0".toList)).fields m.scope self joined

theorem Work.workKey_eq {cfg : Settings W} {m : Mem} {self : Obj} {inputs : List LuaString}
    (work : Work cfg m self inputs) : workKey cfg m self inputs = .ok work.key := by
  simp only [workKey, bind, Except.bind, work.listed, work.expanded, work.command, work.concat,
    work.text]

theorem prepareWork_ok {cfg : Settings W} {self : Obj} {inputs : List LuaString} {s t : State W}
    {named : LuaString × List Value} (run : prepareWork cfg self inputs s = .ok named t) :
    ∃ work : Work cfg s.mem self inputs, named = (work.key, work.templates) ∧ t.mem = work.mem ∧
      t.sys = s.sys ∧ t.visits = s.visits ∧
      t.lookups.getLast? = some (self, s.mem.scope) := by
  let I := basename (inputs.headD [])
  let s3 := ((s.setField self "I".toList (.str I)).setField self "out".toList (.list [])).setField
    self "U".toList (.num "0".toList)
  have marked : s3.mem = s.mem.mark self I [] (.num "0".toList) := rfl
  unfold prepareWork at run
  rw [bind_ok_run (setField_run self _ _ s), bind_ok_run (setField_run self _ _ _),
    bind_ok_run (setField_run self _ _ _), bind_ok_run (getField_run self _ s3)] at run
  obtain ⟨templates, _, checked, run⟩ := bind_eq_ok.mp run
  obtain ⟨listed, rfl⟩ := except_ok checked
  obtain ⟨zero, u, loop, run⟩ := bind_eq_ok.mp run
  obtain ⟨expanded, mem, visits, quiet⟩ := templates_ok marked loop
  rw [bind_ok_run (getField_run self _ u)] at run
  obtain ⟨commands, _, checked, run⟩ := bind_eq_ok.mp run
  obtain ⟨command, rfl⟩ := except_ok checked
  obtain ⟨joined, _, checked, run⟩ := bind_eq_ok.mp run
  obtain ⟨concat, rfl⟩ := except_ok checked
  obtain ⟨key, _, expansion, run⟩ := bind_eq_ok.mp run
  obtain ⟨text, rfl⟩ := expand_ok expansion
  cases run
  rw [List.nil_append] at mem
  rw [marked, mark_other s.mem self I [] _ (by decide) (by decide) (by decide)] at listed
  rw [mem, mark_other s.mem self I zero _ (by decide) (by decide) (by decide)] at command
  rw [mem] at text
  refine ⟨⟨templates, listed, zero, expanded, commands, command, joined, concat, key, text⟩,
    rfl, mem, quiet rfl, visits, ?_⟩
  show (u.lookups ++ [(self, u.mem.scope)]).getLast? = _
  rw [List.getLast?_append, mem]
  rfl

/-- The memory with another id table. -/
def Mem.withIds (m : Mem) (cache : List (LuaString × Id)) (count : Option Id) : Mem :=
  { m with intermediateCache := cache, intermediateCacheCount := count }

theorem createKey_frame (cfg : Settings W) (key : LuaString) (s : State W) :
    let t := final (createIntermediateCacheKey cfg key s)
    t.mem = s.mem.withIds t.mem.intermediateCache t.mem.intermediateCacheCount ∧
      t.visits = s.visits ∧ t.lookups = s.lookups := by
  cases known : s.mem.intermediateCache.lookup key with
  | some u =>
    rw [createKey_known cfg known]
    exact ⟨rfl, rfl, rfl⟩
  | none =>
    cases count : s.mem.intermediateCacheCount.bind Id.number with
    | none =>
      have run : final (createIntermediateCacheKey cfg key s) = s := by
        simp only [createIntermediateCacheKey, bind_run, get_run, known, count]
        rfl
      rw [run]
      exact ⟨rfl, rfl, rfl⟩
    | some n =>
      rw [createKey_new cfg known count]
      dsimp only
      split <;> exact ⟨rfl, rfl, rfl⟩

theorem nameWork_ok {cfg : Settings W} {self : Obj} {inputs : List LuaString} {s t : State W}
    {named : LuaString × List Value} (run : nameWork cfg self inputs s = .ok named t) :
    ∃ (work : Work cfg s.mem self inputs) (u v : State W) (id : Id),
      prepareWork cfg self inputs s = .ok named u ∧ named = (work.key, work.templates) ∧
      createIntermediateCacheKey cfg work.key u = .ok id v ∧
      t.mem = (s.mem.withIds v.mem.intermediateCache v.mem.intermediateCacheCount).mark self
        (basename (inputs.headD [])) [] (.str (cfg.intermediateCacheDir ++ id.text)) ∧
      t.sys = v.sys ∧ t.visits = s.visits ∧ t.lookups.getLast? = some (self, s.mem.scope) := by
  let I := basename (inputs.headD [])
  unfold nameWork at run
  obtain ⟨_, u, prepared, run⟩ := bind_eq_ok.mp run
  obtain ⟨work, rfl, mem, _, visits, last⟩ := prepareWork_ok prepared
  obtain ⟨id, v, issued, run⟩ := bind_eq_ok.mp run
  rw [bind_ok_run (setField_run self _ _ v), bind_ok_run (setField_run self _ _ _)] at run
  cases run
  have frame := createKey_frame cfg work.key u
  rw [issued] at frame
  obtain ⟨same, kept, looked⟩ := frame
  have ids : v.mem = (s.mem.withIds v.mem.intermediateCache v.mem.intermediateCacheCount).mark self
      I work.zero (.num "0".toList) :=
    same.trans (congrArg (fun m : Mem =>
      m.withIds v.mem.intermediateCache v.mem.intermediateCacheCount) mem)
  refine ⟨work, u, v, id, prepared, rfl, issued, ?_, rfl, kept.trans visits, ?_⟩
  · exact setField_marked_out (setField_marked_U ids _) []
  · exact (congrArg List.getLast? looked).trans last

theorem mark_mark (m : Mem) (self : Obj) (I J : LuaString) (out out' : List LuaString)
    (U V : Value) : (m.mark self I out U).mark self J out' V = m.mark self J out' V := by
  simp only [Mem.mark, Mem.mk.injEq, true_and, and_true]
  funext i k
  split_ifs <;> rfl

theorem expandTemplates_marked (cfg : Settings W) {m m' : Mem} {self : Obj} {J : LuaString}
    {V : Value} (scope : m'.scope = m.scope)
    (same : ∀ out, (m'.mark self J out V).fields = (m.mark self J out V).fields)
    (out : List LuaString) (templates : List Value) :
    expandTemplates cfg m' self J V out templates = expandTemplates cfg m self J V out templates := by
  induction templates generalizing out with
  | nil => rfl
  | cons template rest ih => simp only [expandTemplates, ih, same, scope]

end PrimeMover
