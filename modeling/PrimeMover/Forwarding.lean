import PrimeMover.Tour
import PrimeMover.Bench
import PrimeMover.Percent

/-! Nodes that only hand on names: `file`, `group`, `deponly`, `ith` and `foreach`. They go
through the same decision as the others, and note the time for their outputs when it goes
against them, although building does nothing. -/
namespace PrimeMover
open Outcome Make

variable {W : Type}

/-- A bound of `ith`, by the properties of the node. -/
def ithNumber (fields : Fields) (self : Obj) (key : LuaString) (default : Int) : Option Int :=
  match truthy (rawget fields self key) with
  | none => some default
  | some (.num text) => tointeger text
  | some _ => none

/-- The inputs that `ith` picks. -/
def ithPart (fields : Fields) (self : Obj) (inputs : List LuaString) : Option (List LuaString) := do
  let start ← ithNumber fields self "from".toList 1
  let stop ← ithNumber fields self "to".toList inputs.length
  if start < 1 ∨ inputs.length < stop then none
  else some ((inputs.take stop.toNat).drop (start.toNat - 1))

/-- The names that a node hands on. A simple node makes its own. -/
def handedOn (cfg : Settings W) (m : Mem) (decl : Decl) (inputs : List LuaString) :
    Option (List LuaString) :=
  match decl.kind with
  | .file => (filePart m.fields decl.obj inputs).bind fun names =>
    (names.mapM (expandText cfg m.fields m.scope decl.obj)).toOption
  | .group | .foreach => some inputs
  | .deponly => some []
  | .ith => ithPart m.fields decl.obj inputs
  | .simple => none

/-- The node is not older than its inputs, or those of its outputs that are in `E` carry
the present time already. -/
def Passes (cfg : Settings W) (E : LuaString → Prop) (m : Mem) (sys : Sys W) (decl : Decl)
    (inputs outs : List LuaString) : Prop :=
  ∀ names, dated cfg m decl outs = .ok names → Outdated (age cfg sys) inputs names →
    ∀ f ∈ outs, E f → reported cfg sys f = luaNumber (cfg.host.time sys.world)

/-- The same of a node that comes by in a state, with the names that it is going to hand on. -/
def State.Passes (cfg : Settings W) (E : LuaString → Prop) (s : State W) (decl : Decl)
    (inputs : List LuaString) : Prop :=
  let t := s.setField decl.obj "in".toList (strings inputs)
  ∀ outs, handedOn cfg t.mem decl inputs = some outs →
    PrimeMover.Passes cfg E (t.setField decl.obj "out".toList (strings outs)).mem s.sys decl inputs
      outs

/-- The same of a node on record. -/
def Visit.Passes (cfg : Settings W) (E : LuaString → Prop) (v : Visit W) : Prop :=
  PrimeMover.Passes cfg E v.mem v.sys v.decl v.inputs v.outs

/-- A simple node that was found out of date. -/
def Visit.Rebuilt (cfg : Settings W) (v : Visit W) : Prop :=
  v.decl.kind = .simple ∧ Outdated (age cfg v.sys) v.inputs v.outs

theorem ithBound_value {self : Obj} {key : LuaString} {default n : Int} {s t : State W}
    (run : ithBound self key default s = .ok n t) :
    ithNumber s.mem.fields self key default = some n ∧ t = s := by
  obtain ⟨v, u, field, rest⟩ := bind_eq_ok.mp run
  cases field
  unfold ithNumber
  cases h : truthy (rawget s.mem.fields self key) with
  | none =>
    rw [h] at rest
    cases rest
    exact ⟨rfl, rfl⟩
  | some v =>
    rw [h] at rest
    cases v with
    | num text =>
      dsimp only at rest ⊢
      cases number : tointeger text with
      | none =>
        rw [number] at rest
        cases rest
      | some m =>
        rw [number] at rest
        cases rest
        exact ⟨rfl, rfl⟩
    | _ => cases rest

theorem ithOutputs_value {self : Obj} {inputs outs : List LuaString} {s t : State W}
    (run : ithOutputs self inputs s = .ok outs t) : ithPart s.mem.fields self inputs = some outs := by
  obtain ⟨start, u, first, rest⟩ := bind_eq_ok.mp run
  obtain ⟨low, rfl⟩ := ithBound_value first
  obtain ⟨stop, v, second, last⟩ := bind_eq_ok.mp rest
  obtain ⟨high, rfl⟩ := ithBound_value second
  simp only [ithPart, low, high, bind, Option.bind]
  by_cases outside : start < 1 ∨ inputs.length < stop
  · rw [if_pos outside] at last
    cases last
  · rw [if_neg outside] at last ⊢
    cases last
    rfl

/-- The outputs of a node that is not simple are the names it hands on. -/
theorem outputs_value {cfg : Settings W} {decl : Decl} (other : decl.kind ≠ .simple)
    {inputs outs : List LuaString} {key : Option LuaString} {s t : State W}
    (run : outputs cfg decl inputs s = .ok (key, outs) t) :
    handedOn cfg s.mem decl inputs = some outs := by
  unfold outputs at run
  unfold handedOn
  cases kind : decl.kind with
  | simple => exact absurd kind other
  | file =>
    rw [kind] at run
    obtain ⟨_, _, named, done⟩ := bind_eq_ok.mp run
    cases done
    obtain ⟨⟨names, part, values⟩, _⟩ := fileOutputs_value named
    simp only [part, Option.bind_some, values]
    rfl
  | ith =>
    rw [kind] at run
    obtain ⟨_, _, picked, done⟩ := bind_eq_ok.mp run
    cases done
    exact ithOutputs_value picked
  | group | foreach | deponly =>
    rw [kind] at run
    cases run
    rfl

namespace Phases

variable {cfg : Settings W} {decl : Decl} {inputs outs : List LuaString} {listed first : Nat}
  {s s' : State W} (p : Phases cfg decl inputs listed first outs s s')

include p

theorem named_same (other : decl.kind ≠ .simple) : p.named.sys = s.sys ∧
    p.named.mem = (s.setField decl.obj "in".toList (strings inputs)).mem := by
  have moves : Moves (fun t u : State W => u.sys = t.sys ∧ u.mem = t.mem)
      (outputs cfg decl inputs) := by
    apply Moves.outputs_other cfg other
    intro st
    exact ⟨rfl, rfl⟩
  let t := s.setField decl.obj "in".toList (strings inputs)
  have path := path_keeps (P := fun u : State W => u.sys = t.sys ∧ u.mem = t.mem)
    (fun _ _ step same => ⟨step.1.trans same.1, step.2.trans same.2⟩) (moves t) ⟨rfl, rfl⟩
  rwa [p.out] at path

/-- A node on record passes when it does in the state in which it comes by. -/
theorem passes_iff (other : decl.kind ≠ .simple) (E : LuaString → Prop) :
    s.Passes cfg E decl inputs ↔ p.visit.Passes cfg E := by
  obtain ⟨sys, mem⟩ := p.named_same other
  have handed := outputs_value other p.out
  have record : p.visit.mem = ((s.setField decl.obj "in".toList (strings inputs)).setField decl.obj
      "out".toList (strings outs)).mem := by
    change (p.named.setField decl.obj "out".toList (strings outs)).mem = _
    rw [State.setField, State.setField, mem]
  have same : p.visit.sys = s.sys := sys
  unfold State.Passes Visit.Passes
  rw [record, same]
  constructor
  · exact fun passes => passes outs handed
  · intro passes t outs' handed'
    cases Option.some.inj (handed.symm.trans handed')
    exact passes

/-- What a node that is not simple and installs nothing has done to a timestamp. -/
theorem forwarded (other : decl.kind ≠ .simple) (nothing : p.visit.install = []) (f : LuaString) :
    reported cfg s'.sys f = if p.old = true ∧ f ∈ outs then luaNumber (cfg.host.time s.sys.world)
      else reported cfg s.sys f := by
  have named := (p.named_same other).1
  have asked := p.asked_same
  have installed := congrArg (fun t : State W => reported cfg t.sys f)
    (installNode_nothing nothing p.built_same.1 p.installed)
  rw [installed]
  rcases p.built_cases with ⟨fresh, same⟩ | ⟨old, u, _, _, done, same⟩
  · rw [same, fresh, asked.2.2.2.2 f, named]
    simp
  · rw [if_neg other] at done
    subst done
    rw [same, old]
    by_cases out : f ∈ outs
    · simp [reported, out, asked.2.1, named]
    · rw [if_neg (fun h => out h.2), ← named, ← asked.2.2.2.2 f]
      simp [reported, out]

end Phases

/-- One node: it changes no timestamp of `E` exactly when it passes. -/
theorem forward_step {cfg : Settings W} {decl : Decl} {inputs outs : List LuaString}
    {listed first : Nat} {s s' : State W} (E : LuaString → Prop)
    (p : Phases cfg decl inputs listed first outs s s') (other : decl.kind ≠ .simple)
    (nothing : p.visit.install = []) :
    (∀ f, E f → reported cfg s'.sys f = reported cfg s.sys f) ↔ p.visit.Passes cfg E := by
  have sys : p.visit.sys = s.sys := (p.named_same other).1
  obtain ⟨names, dated, old, _⟩ := p.old_dated
  rw [sys] at old
  constructor
  · intro same names' dated' outdated f hf he
    cases Except.ok.inj (dated.symm.trans dated')
    rw [sys] at outdated ⊢
    have now := p.forwarded other nothing f
    rw [if_pos ⟨old.mpr outdated, hf⟩, same f he] at now
    exact now
  · intro passes f he
    rw [p.forwarded other nothing f]
    split
    · rename_i touched
      have := passes names dated (sys ▸ old.mp touched.1) f touched.2 he
      rw [sys] at this
      exact this.symm
    · rfl

/-- The timestamps of the files of `E` that no rebuilt simple node puts out. -/
def Untouched (cfg : Settings W) (F E : LuaString → Prop) (s t : State W) : Prop :=
  ∀ f, F f → E f → (∀ v ∈ t.visits, v.Rebuilt cfg → f ∉ v.outs) →
    reported cfg t.sys f = reported cfg s.sys f

theorem untouched_tour {cfg : Settings W} {F E : LuaString → Prop} {s fin : State W}
    (confined : Confined cfg F fin)
    (passes : ∀ v ∈ fin.visits, v.decl.kind ≠ .simple → v.Passes cfg E) :
    Tour cfg fin (Untouched cfg F E s) (fun _ => True) (fun _ _ => True) (fun _ _ => True) where
  nil _ := trivial
  append _ _ := trivial
  mono _ _ := trivial
  one _ _ := trivial
  one_mono _ _ := trivial
  blind _ _ _ untouched := untouched
  stop _ := trivial
  step := by
    intro decl inputs listed first t untouched _ grows
    cases run : finish cfg decl inputs listed first t with
    | error e u => trivial
    | ok outs u =>
      rw [run] at grows
      refine ⟨fun f hf he rest => ?_, trivial⟩
      obtain ⟨p⟩ := finish_phases run
      have apart := confined.apart.before grows.log
      have visits := p.visits confined.laws apart
      have member : p.visit ∈ u.visits := by rw [visits]; simp
      have known := grows.visits.subset member
      have effect := p.effect confined.laws apart
        (fun f hf => confined.named f ⟨p.visit, known, Or.inr hf⟩) (confined.behaves _ known)
      have before := untouched f hf he fun v hv =>
        rest v (by rw [visits]; exact List.mem_append_left _ hv)
      have seen := p.visit_reported confined.laws apart hf
      obtain ⟨names, dated, old, _⟩ := p.old_dated
      rw [← before]
      generalize decision : p.old = b at effect
      cases effect with
      | kept calm same => exact same f hf
      | touched other calm T span now outs others =>
        by_cases out : f ∈ p.visit.outs
        · rw [outs f out, now, ← seen]
          exact (passes _ known other names dated (old.mp decision) f out he).symm
        · exact others f hf out
      | made simple T span outs others =>
        have none : names = p.visit.outs := dated_verbatim (fun file => by
          cases file.symm.trans simple) dated
        have rebuilt : p.visit.Rebuilt cfg := ⟨simple, none ▸ old.mp decision⟩
        exact (others f hf (rest p.visit member rebuilt)).2

/-- A node that only hands on names and installs nothing changes no timestamp that `filetime`
reports, exactly when it passes in the state it comes by; and a tree in which all such nodes pass
changes none but those of the outputs of rebuilt simple nodes. -/
theorem forwarding_nodes (cfg : Settings W) (E : LuaString → Prop) :
    (∀ (decl : Decl) (inputs : List LuaString) (listed first : Nat) (s s' : State W)
      (outs : List LuaString), decl.kind ≠ .simple →
      finish cfg decl inputs listed first s = .ok outs s' →
      ((truthy (rawget s.mem.fields decl.obj "install".toList)).map commandList).getD [] = [] →
      ((∀ f, E f → reported cfg s'.sys f = reported cfg s.sys f) ↔ s.Passes cfg E decl inputs)) ∧
    ∀ (F : LuaString → Prop) (n : Node) (i : Option LuaString) (s s' : State W)
      (outs : List LuaString), build cfg n i s = .ok outs s' → Confined cfg F s' →
      (∀ v ∈ s'.visits, v.decl.kind ≠ .simple → v.Passes cfg E) → ∀ f, F f → E f →
      (∀ v ∈ s'.visits, v.Rebuilt cfg → f ∉ v.outs) →
      reported cfg s'.sys f = reported cfg s.sys f := by
  constructor
  · intro decl inputs listed first s s' outs other run nothing
    obtain ⟨p⟩ := finish_phases run
    rw [p.passes_iff other E]
    refine forward_step E p other ?_
    rw [← nothing]
    change ((truthy (rawget (p.named.setField decl.obj "out".toList (strings outs)).mem.fields
      decl.obj "install".toList)).map commandList).getD [] = _
    rw [State.setField, (p.named_same other).2]
    simp [rawget, State.setField]
  · intro F n i s s' outs run confined passes
    have tour := untouched_tour (s := s) confined passes
    have leads := (tour.build n i).2.ok (s := s) (fun _ => ⟨fun _ _ _ _ => rfl, fun _ _ => trivial⟩)
      run
    exact (leads (Grows.refl s')).1

section Examples

def idleShell : LuaString → Desk.Effect
  | _ => ⟨0, [], []⟩

def twoSources : Desk := ⟨9, [("a".toList, ⟨1, []⟩), ("b".toList, ⟨5, []⟩)], []⟩

def source (id : Nat) (name : LuaString) : Node := .object ⟨⟨id, []⟩, .file⟩ [.string name] none

def sources : List Node := [source 1 "a".toList, source 2 "b".toList]

def forwardRun (decl : Decl) : EStateM.Result Stop (State Desk) (List LuaString) :=
  build (Desk.settings idleShell 10) (.object decl sources none) none
    (start twoSources sandboxVariables 4)

def bothSources : Decl := ⟨⟨3, []⟩, .group⟩

/-- `ith { i = 1, a, b }`. -/
def firstSource : Decl :=
  ⟨⟨3, [("i".toList, .num "1".toList), ("from".toList, .num "1".toList),
    ("to".toList, .num "1".toList)]⟩, .ith⟩

theorem group_returns :
    forwardRun bothSources = .ok ["a".toList, "b".toList] (final (forwardRun bothSources)) :=
  Desk.ok_of_returns (by decide +kernel)

theorem group_confined : Confined (Desk.settings idleShell 10)
    (Named (final (forwardRun bothSources))) (final (forwardRun bothSources)) :=
  (Desk.orderly_of_check idleShell 9 ⟨rfl, rfl⟩ (by decide +kernel) :
    Orderly _ (start twoSources sandboxVariables 4) _).toConfined

/-- Whether a node hands on names and is not older than its inputs. -/
def handsOn (v : Visit Desk) : Bool :=
  decide (v.decl.kind ≠ .simple) &&
    match dated (Desk.settings idleShell 10) v.mem v.decl v.outs with
    | .ok names => !decide (Outdated (age (Desk.settings idleShell 10) v.sys) v.inputs names)
    | .error _ => true

theorem passes_of_handsOn {v : Visit Desk} (ok : handsOn v = true) (E : LuaString → Prop) :
    v.decl.kind ≠ .simple ∧ v.Passes (Desk.settings idleShell 10) E := by
  simp only [handsOn, Bool.and_eq_true, decide_eq_true_eq] at ok
  refine ⟨ok.1, fun names dated outdated => ?_⟩
  have fresh := ok.2
  rw [dated] at fresh
  simp [outdated] at fresh

theorem group_handsOn : (final (forwardRun bothSources)).visits.all handsOn = true := by
  decide +kernel

/-- A group of two sources leaves their timestamps alone. -/
theorem group_touches_nothing : ∀ f, Named (final (forwardRun bothSources)) f →
    reported (Desk.settings idleShell 10) (final (forwardRun bothSources)).sys f =
      reported (Desk.settings idleShell 10) (start twoSources sandboxVariables 4).sys f := by
  have all := List.all_eq_true.mp group_handsOn
  intro f hf
  refine (forwarding_nodes (Desk.settings idleShell 10) fun _ => True).2 _ _ _ _ _ _ group_returns
    group_confined (fun v hv _ => (passes_of_handsOn (all v hv) _).2) f hf trivial fun v hv rebuilt => ?_
  exact absurd rebuilt.1 (passes_of_handsOn (all v hv) fun _ => True).1

/-- The source that `ith` picks gets the time of the build, because the one that it does not
pick is newer. -/
theorem ith_touches_source : ∃ s', forwardRun firstSource = .ok ["a".toList] s' ∧
    (∀ v ∈ s'.visits, v.decl.kind ≠ .simple) ∧
    Present (Desk.settings idleShell 10) twoSources "a".toList ∧
    reported (Desk.settings idleShell 10) s'.sys "a".toList ≠
      reported (Desk.settings idleShell 10) (start twoSources sandboxVariables 4).sys "a".toList := by
  refine ⟨final (forwardRun firstSource), Desk.ok_of_returns (by decide +kernel), ?_, ?_, ?_⟩
  · have all : (final (forwardRun firstSource)).visits.all
        (fun v => decide (v.decl.kind ≠ .simple)) = true := by
      decide +kernel
    simpa only [List.all_eq_true, decide_eq_true_eq] using all
  · exact (Desk.present_iff idleShell 9 _ _).mpr (by decide +kernel)
  · decide +kernel

end Examples

end PrimeMover
