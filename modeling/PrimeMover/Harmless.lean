import PrimeMover.Commands
import PrimeMover.Names

/-! Command lists of a run that is told not to execute anything. The option is looked at
where a string of a list is executed; functions of the pmfile and the closures of
`pm.install` run all the same. -/
namespace PrimeMover
open Outcome

variable {W : Type}

def Event.shell : Event → Option LuaString
  | .execute _ _ command _ => some command
  | _ => none

/-- The texts that a closure of `pm.install` links, and the link. -/
def linkNames (cfg : Settings W) (mem : Mem) (self : Obj) (outs : List LuaString) (w : W)
    (src : LuaString) (dest : Option LuaString) : Except Stop (LuaString × LuaString) := do
  let (src, dest) ←
    match dest, outs with
    | some dest, _ => Except.ok (src, dest)
    | none, out :: _ => Except.ok (out, src)
    | none, [] => Except.error (nodeError mem.fields self
        "pm.install needs a string or an object for an input".toList)
  let src ← expandText cfg mem.fields mem.scope self src
  let dest ← expandText cfg mem.fields mem.scope self dest
  .ok (absname cfg.host w src, absname cfg.host w dest)

/-- A command list that changes no file when no string of it is executed: the functions that
are called leave the files alone, and no link of `pm.install` can be placed. -/
def Harmless (cfg : Settings W) (mem : Mem) (self : Obj) (inputs outs : List LuaString) (w : W) :
    List Value → Prop
  | [] => True
  | .str s :: rest =>
    ∀ text, expandText cfg mem.fields mem.scope self s = .ok text →
      Harmless cfg mem self inputs outs w rest
  | .func f :: rest =>
    let r := cfg.functions f (expandText cfg mem.fields mem.scope self) inputs outs w
    r.2 = w ∧ (r.1 = .ok none → Harmless cfg mem self inputs outs w rest)
  | .install src dest :: _ =>
    ∀ link, linkNames cfg mem self outs w src dest = .ok link →
      (cfg.host.stat w (dirname link.2)).isSome ∧ cfg.host.symlink w link.1 link.2 = none ∧
        cfg.host.unlink w link.2 = none
  | _ :: rest => Harmless cfg mem self inputs outs w rest

/-- What a node would run, by the decision that its timestamps lead to, changes no file. -/
def Visit.Harmless (cfg : Settings W) (v : Visit W) : Prop :=
  ∀ s old t, s.mem = v.mem → s.sys = v.sys → judge cfg v.decl v.inputs v.outs s = .ok old t →
    PrimeMover.Harmless cfg v.mem v.decl.obj v.inputs v.outs v.sys.world
      ((if old = true ∧ v.decl.kind = .simple then v.commands else []) ++ v.install)

/-- Nothing happens but expansions, reads and reports, none of them of a shell command. -/
structure Unmoved (s t : State W) : Prop where
  mem : t.mem = s.mem
  world : t.sys.world = s.sys.world
  grows : Grows s t
  quiet : ∀ e ∈ t.sys.log, e.shell ≠ none → e ∈ s.sys.log

namespace Unmoved

theorem refl (s : State W) : Unmoved s s := ⟨rfl, rfl, Grows.refl s, fun _ he _ => he⟩

theorem trans {s t u : State W} (first : Unmoved s t) (second : Unmoved t u) : Unmoved s u :=
  ⟨second.mem.trans first.mem, second.world.trans first.world, first.grows.trans second.grows,
    fun e he run => first.quiet e (second.quiet e he run) run⟩

theorem look (s : State W) (self : Obj) : Unmoved s (s.look self) :=
  ⟨rfl, rfl, Grows.of_same rfl rfl, fun _ he _ => he⟩

theorem of_still {cfg : Settings W} {s t : State W} (still : Still cfg s t) : Unmoved s t :=
  ⟨still.mem, still.world, Grows.of_same still.visits still.log, fun _ he _ => still.log ▸ he⟩

theorem report (s : State W) (e : Event) (silent : e.shell = none) :
    Unmoved s { s with sys := { s.sys with log := s.sys.log ++ [e] } } := by
  refine ⟨rfl, rfl, ⟨List.prefix_refl _, List.prefix_append _ _⟩, fun f hf run => ?_⟩
  rcases List.mem_append.mp hf with old | new
  · exact old
  · cases List.mem_singleton.mp new
    exact absurd silent run

theorem bind {A B : Type} {x : PM W A} {f : A → PM W B} {s : State W}
    (first : Unmoved s (final (x s)))
    (rest : ∀ a t, x s = .ok a t → Unmoved t (final (f a t))) :
    Unmoved s (final ((x >>= f) s)) := by
  rw [bind_run]
  cases h : x s with
  | ok a t =>
    rw [h] at first
    exact first.trans (rest a t h)
  | error e t =>
    rw [h] at first
    exact first

theorem expand (cfg : Settings W) (self : Obj) (text : LuaString) (s : State W) :
    Unmoved s (final (expand cfg self text s)) := by
  rw [expand_run, final_except]
  exact look s self

end Unmoved

theorem trace_unmoved (cfg : Settings W) (text : LuaString) (s : State W) :
    Unmoved s (final (traceoutput cfg text s)) := by
  unfold traceoutput
  split
  · exact Unmoved.refl s
  · exact Unmoved.report s _ rfl

theorem mkcontainerdir_there (host : Host W) (fuel : Nat) (f : LuaString) (s : Sys W)
    (there : (host.stat s.world (dirname f)).isSome) :
    mkcontainerdir host fuel f s = .error .diverges s ∨ mkcontainerdir host fuel f s = .ok () s := by
  cases fuel with
  | zero => exact Or.inl rfl
  | succ fuel =>
    have present : (host.stat s.world (dirname f)).isNone = false := by
      rw [← Option.not_isSome, there, Bool.not_true]
    unfold mkcontainerdir
    rw [bind_run, get_run]
    simp only [present]
    exact Or.inr rfl

theorem doInstall_stuck {cfg : Settings W} {self : Obj} {src dest : LuaString} {s : State W}
    (stuck : ∀ a b, expandText cfg s.mem.fields s.mem.scope self src = .ok a →
      expandText cfg s.mem.fields s.mem.scope self dest = .ok b →
      (cfg.host.stat s.sys.world (dirname (absname cfg.host s.sys.world b))).isSome ∧
        cfg.host.symlink s.sys.world (absname cfg.host s.sys.world a)
          (absname cfg.host s.sys.world b) = none ∧
        cfg.host.unlink s.sys.world (absname cfg.host s.sys.world b) = none) :
    ∃ e t, doInstall cfg self src dest s = .error e t ∧ Unmoved s t := by
  have look := Unmoved.look s self
  unfold doInstall
  rw [bind_run, expand_run]
  cases first : expandText cfg s.mem.fields s.mem.scope self src with
  | error e => exact ⟨e, _, rfl, look⟩
  | ok a =>
    simp only [except, pure_run, bind_run, get_run, expand_run]
    have same : (s.look self).mem = s.mem := rfl
    rw [same]
    cases second : expandText cfg s.mem.fields s.mem.scope self dest with
    | error e => exact ⟨e, _, rfl, look.trans (Unmoved.look _ self)⟩
    | ok b =>
      obtain ⟨there, unlinked, kept⟩ := stuck a b first second
      have looks := look.trans (Unmoved.look _ self)
      have here : ((s.look self).look self).sys = s.sys := rfl
      have before : (s.look self).sys = s.sys := rfl
      simp only [pure_run, lift, here, before]
      rcases mkcontainerdir_there cfg.host cfg.fuel (absname cfg.host s.sys.world b) s.sys there
        with h | h
      · rw [h]
        exact ⟨_, _, rfl, looks⟩
      · rw [h]
        simp only [unlinked, bind_run, get_run, kept]
        exact ⟨_, _, rfl, looks⟩

theorem install_stuck {cfg : Settings W} {self : Obj} {src : LuaString} {dest : Option LuaString}
    {outs : List LuaString} {s : State W}
    (stuck : ∀ link, linkNames cfg s.mem self outs s.sys.world src dest = .ok link →
      (cfg.host.stat s.sys.world (dirname link.2)).isSome ∧
        cfg.host.symlink s.sys.world link.1 link.2 = none ∧
        cfg.host.unlink s.sys.world link.2 = none) :
    ∃ e t, install cfg self src dest outs s = .error e t ∧ Unmoved s t := by
  cases dest with
  | some dest =>
    apply doInstall_stuck
    intro a b first second
    apply stuck (absname cfg.host s.sys.world a, absname cfg.host s.sys.world b)
    simp only [linkNames, bind, Except.bind, first, second]
  | none =>
    cases outs with
    | nil => exact ⟨_, s, rfl, Unmoved.refl s⟩
    | cons out outs =>
      apply doInstall_stuck
      intro a b first second
      apply stuck (absname cfg.host s.sys.world a, absname cfg.host s.sys.world b)
      simp only [linkNames, bind, Except.bind, first, second]

theorem Harmless.append {cfg : Settings W} {mem : Mem} {self : Obj} {inputs outs : List LuaString}
    {w : W} {a b : List Value} (harmless : Harmless cfg mem self inputs outs w (a ++ b)) :
    Harmless cfg mem self inputs outs w a := by
  induction a with
  | nil => trivial
  | cons c rest ih =>
    cases c with
    | str s => exact fun text expanded => ih (harmless text expanded)
    | func f => exact ⟨harmless.1, fun passed => ih (harmless.2 passed)⟩
    | install src dest => exact harmless
    | num t => exact ih harmless
    | bool b => exact ih harmless
    | list vs => exact ih harmless
    | parent => exact ih harmless
    | empty => exact ih harmless
    | redirect => exact ih harmless

/-- What comes after a list that ran to its end. -/
theorem Harmless.after {cfg : Settings W} (dry : cfg.noExecute = true) {self : Obj} {phase : Phase}
    {inputs outs : List LuaString} {a b : List Value} {s t : State W}
    (harmless : Harmless cfg s.mem self inputs outs s.sys.world (a ++ b))
    (run : invoke cfg self phase inputs outs a s = .ok none t) :
    Harmless cfg s.mem self inputs outs s.sys.world b := by
  induction a generalizing s with
  | nil => exact harmless
  | cons c rest ih =>
    cases c with
    | str text =>
      obtain ⟨r, s1, expanded, run⟩ := bind_eq_ok.mp run
      obtain ⟨same, rfl⟩ := expand_ok expanded
      obtain ⟨_, s2, traced, run⟩ := bind_eq_ok.mp run
      have quiet := trace_unmoved cfg r (s.look self)
      rw [traced] at quiet
      have mem : s2.mem = s.mem := quiet.mem
      have world : s2.sys.world = s.sys.world := quiet.world
      rw [if_pos dry] at run
      rw [← mem, ← world]
      apply ih _ run
      rw [mem, world]
      exact harmless r same
    | func f =>
      obtain ⟨kept, later⟩ := harmless
      obtain ⟨result, s1, called, run⟩ := bind_eq_ok.mp run
      rw [callFunction_run] at called
      generalize cfg.functions f (expandText cfg s.mem.fields s.mem.scope self) inputs outs
        s.sys.world = r at called kept later
      obtain ⟨answer, w⟩ := r
      dsimp only at kept
      subst kept
      cases answer with
      | error e => cases called
      | ok answer =>
        cases called
        cases result with
        | some code => cases run
        | none =>
          have next : Harmless cfg (s.look self).mem self inputs outs (s.look self).sys.world
              (rest ++ b) := later rfl
          exact ih (s := { s.look self with sys := { s.sys with
            log := s.sys.log ++ [.call self.id phase f none] } }) next run
    | install src dest =>
      obtain ⟨e, u, stuck, _⟩ := install_stuck harmless
      unfold invoke at run
      rw [bind_error_run stuck] at run
      cases run
    | num t => exact ih harmless run
    | bool b => exact ih harmless run
    | list vs => exact ih harmless run
    | parent => exact ih harmless run
    | empty => exact ih harmless run
    | redirect => exact ih harmless run

end PrimeMover
