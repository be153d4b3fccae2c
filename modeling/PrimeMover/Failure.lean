import PrimeMover.Walk

/-! What happens after a command has failed. The result of a command list ends the run,
the result of an install list is dropped. -/
namespace PrimeMover
open Outcome

variable {W : Type}

namespace Event

/-- The object and the phase of a shell command or a function call. -/
def command : Event → Option (Nat × Phase)
  | .execute owner phase _ _ => some (owner, phase)
  | .call owner phase _ _ => some (owner, phase)
  | _ => none

/-- A command that returned something else than zero. -/
def Nonzero : Event → Prop
  | .execute _ _ _ code => code ≠ 0
  | .call _ _ _ (some r) => r ≠ 0
  | _ => False

/-- A failed command of a command list or an install list. -/
def Failed (e : Event) : Prop := e.Nonzero ∧ ∀ owner, e.command ≠ some (owner, .cleanup)

/-- A failed command of an install list. -/
def InstallFailed (e : Event) : Prop := e.Nonzero ∧ ∃ owner, e.command = some (owner, .install)

end Event

/-- After a failed command of a node only the clean-up of that node is executed. -/
def Halts (es : List Event) : Prop :=
  ∀ before e after, es = before ++ e :: after → e.Failed →
    ∀ f ∈ after, ∀ owner phase, f.command = some (owner, phase) →
      phase = .cleanup ∧ ∃ p, e.command = some (owner, p)

theorem Halts.of_none {es : List Event} (none : ∀ e ∈ es, ¬ e.Failed) : Halts es := by
  rintro before e after rfl failed
  exact absurd failed (none e (by simp))

theorem Halts.append {es fs : List Event} (none : ∀ e ∈ es, ¬ e.Failed) (halts : Halts fs) :
    Halts (es ++ fs) := by
  intro before e after split failed
  rcases List.append_eq_append_iff.mp split with ⟨mid, rfl, h⟩ | ⟨mid, rfl, h⟩
  · exact halts mid e after h failed
  · cases mid with
    | nil => exact halts [] e after h.symm failed
    | cons f mid =>
      cases h
      exact absurd failed (none e (by simp))

/-- A program that executes nothing. -/
def Silent {A : Type} (x : PM W A) : Prop :=
  ∀ st, ∃ es, (final (x st)).sys.log = st.sys.log ++ es ∧ ∀ e ∈ es, e.command = none

theorem not_failed {e : Event} (silent : e.command = none) : ¬ e.Failed := by
  rintro ⟨nonzero, _⟩
  cases e with
  | trace text => exact nonzero
  | execute owner phase command code => cases silent
  | call owner phase f r => cases silent
  | issue key id => exact nonzero
  | mkdir d => exact nonzero

namespace Silent

variable {A B : Type}

theorem of_still {x : PM W A} (still : ∀ st, (final (x st)).sys.log = st.sys.log) : Silent x :=
  fun st => ⟨[], by simp [still st], by simp⟩

theorem bind {x : PM W A} {f : A → PM W B} (hx : Silent x) (hf : ∀ a, Silent (f a)) :
    Silent (x >>= f) := by
  intro st
  obtain ⟨es, hes, quiet⟩ := hx st
  rw [bind_run]
  cases h : x st with
  | error e t =>
    rw [h] at hes
    exact ⟨es, hes, quiet⟩
  | ok a t =>
    rw [h] at hes
    obtain ⟨fs, hfs, quiet'⟩ := hf a t
    refine ⟨es ++ fs, ?_, ?_⟩
    · rw [← List.append_assoc, ← hes]
      exact hfs
    · intro e he
      rcases List.mem_append.mp he with he | he
      · exact quiet e he
      · exact quiet' e he

theorem of_moves {R : State W → State W → Prop} {x : PM W A} (h : Moves R x)
    (quiet : ∀ s t, R s t → ∃ es, t.sys.log = s.sys.log ++ es ∧ ∀ e ∈ es, e.command = none) :
    Silent x := by
  intro st
  refine path_keeps (P := fun s => ∃ es, s.sys.log = st.sys.log ++ es ∧ ∀ e ∈ es, e.command = none)
    ?_ (h st) ⟨[], by simp, by simp⟩
  rintro s t step ⟨es, hes, none⟩
  obtain ⟨fs, hfs, none'⟩ := quiet s t step
  refine ⟨es ++ fs, by rw [hfs, hes, List.append_assoc], fun e he => ?_⟩
  rcases List.mem_append.mp he with he | he
  · exact none e he
  · exact none' e he

theorem of_local {x : PM W A} (h : Local x) : Silent x := by
  obtain ⟨g, hg⟩ := h
  apply of_still
  intro st
  rw [hg]
  cases g (st.mem.fields, st.mem.objects) <;> rfl

theorem of_naming {cfg : Settings W} {self : Obj} {x : PM W A} (h : Moves (Naming cfg self) x) :
    Silent x := by
  apply of_moves h
  intro s t step
  cases step with
  | field key v => exact ⟨[], by simp [State.setField], by simp⟩
  | look => exact ⟨[], by simp [State.look], by simp⟩
  | issue key n => exact ⟨[.issue key n], rfl, by simp [Event.command]⟩
  | save text w written => exact ⟨[], by simp, by simp⟩
  | mkdir d w made => exact ⟨[.mkdir d], rfl, by simp [Event.command]⟩

theorem of_stamping {cfg : Settings W} {self : Obj} {x : PM W A}
    (h : Moves (Stamping cfg self) x) : Silent x := by
  apply of_moves h
  intro s t step
  cases step with
  | look => exact ⟨[], by simp [State.look], by simp⟩
  | cache f t unseen found => exact ⟨[], by simp, by simp⟩

theorem traceoutput (cfg : Settings W) (text : LuaString) : Silent (traceoutput cfg text) := by
  unfold PrimeMover.traceoutput
  split
  · exact of_still fun _ => rfl
  · exact fun st => ⟨[.trace text], rfl, by simp [Event.command]⟩

end Silent

/-- The expansion of the clean-up of a node that is being built does not end. -/
def Loops (cfg : Settings W) (st : State W) : Prop :=
  ∃ self, (self, st.mem.scope) ∈ st.lookups ∧
    expandText cfg st.mem.fields st.mem.scope self "%RM% %out%".toList = .error .diverges

/-- Whether the clean-up can be expanded, or fails to, on behalf of every node so far. -/
def tidies (cfg : Settings W) (st : State W) : Bool :=
  st.lookups.all fun p =>
    match expandText cfg st.mem.fields st.mem.scope p.1 "%RM% %out%".toList with
    | .error .diverges => false
    | _ => true

theorem not_loops {cfg : Settings W} {st : State W} (tidy : tidies cfg st = true) :
    ¬ Loops cfg st := by
  rintro ⟨self, member, loops⟩
  have := List.all_eq_true.mp tidy _ member
  rw [loops] at this
  cases this

/-- What a run stops with after a failed command. -/
def Exits (cfg : Settings W) (e : Stop) (st : State W) : Prop :=
  (∃ message, e = .exit message) ∨ Loops cfg st

/-- What a program leaves in the log: no failed command if it returns, and if it stops,
nothing but a clean-up after the first. -/
def Careful (cfg : Settings W) {A : Type} (x : PM W A) : Prop :=
  ∀ st, ∃ es, (final (x st)).sys.log = st.sys.log ++ es ∧
    ((∀ e ∈ es, ¬ e.InstallFailed) →
      match x st with
      | .ok _ _ => ∀ e ∈ es, ¬ e.Failed
      | .error stop t => Halts es ∧ ((∃ e ∈ es, e.Failed) → Exits cfg stop t))

namespace Careful

variable {cfg : Settings W} {A B : Type}

theorem of_silent {x : PM W A} (silent : Silent x) : Careful cfg x := by
  intro st
  obtain ⟨es, hes, quiet⟩ := silent st
  have none : ∀ e ∈ es, ¬ e.Failed := fun e he => not_failed (quiet e he)
  refine ⟨es, hes, fun _ => ?_⟩
  cases x st with
  | ok a t => exact none
  | error e t => exact ⟨Halts.of_none none, fun ⟨e, he, failed⟩ => absurd failed (none e he)⟩

/-- What follows a part in which no command failed. -/
theorem after {st t : State W} {x : PM W A} {es : List Event} (log : t.sys.log = st.sys.log ++ es)
    (none : (∀ e ∈ es, ¬ e.InstallFailed) → ∀ e ∈ es, ¬ e.Failed) (hx : Careful cfg x) :
    ∃ es, (final (x t)).sys.log = st.sys.log ++ es ∧
      ((∀ e ∈ es, ¬ e.InstallFailed) →
        match x t with
        | .ok _ _ => ∀ e ∈ es, ¬ e.Failed
        | .error stop t => Halts es ∧ ((∃ e ∈ es, e.Failed) → Exits cfg stop t)) := by
  obtain ⟨fs, hfs, second⟩ := hx t
  refine ⟨es ++ fs, by rw [hfs, log, List.append_assoc], fun installed => ?_⟩
  have none := none fun e he => installed e (List.mem_append_left _ he)
  have rest := second fun e he => installed e (List.mem_append_right _ he)
  cases h : x t with
  | ok b u =>
    rw [h] at rest
    intro e he
    rcases List.mem_append.mp he with he | he
    · exact none e he
    · exact rest e he
  | error e u =>
    rw [h] at rest
    refine ⟨Halts.append none rest.1, fun ⟨f, hf, failed⟩ => ?_⟩
    rcases List.mem_append.mp hf with hf | hf
    · exact absurd failed (none f hf)
    · exact rest.2 ⟨f, hf, failed⟩

theorem bind {x : PM W A} {f : A → PM W B} (hx : Careful cfg x) (hf : ∀ a, Careful cfg (f a)) :
    Careful cfg (x >>= f) := by
  intro st
  obtain ⟨es, hes, first⟩ := hx st
  cases h : x st with
  | error e t =>
    rw [bind_error_run h]
    rw [h] at hes first
    exact ⟨es, hes, first⟩
  | ok a t =>
    rw [bind_ok_run h]
    rw [h] at hes first
    exact after hes first (hf a)

end Careful

/-- The commands of a list, in one phase of a node: none of them has failed but the last,
and that one only if the list has a result. -/
def Reports (self : Obj) (phase : Phase) (x : PM W (Option Int)) : Prop :=
  ∀ st, ∃ es, (final (x st)).sys.log = st.sys.log ++ es ∧
    (∀ e ∈ es, e.command = none ∨ e.command = some (self.id, phase)) ∧
    match x st with
    | .ok (some _) _ => ∃ before last, es = before ++ [last] ∧ ∀ e ∈ before, ¬ e.Nonzero
    | _ => ∀ e ∈ es, ¬ e.Nonzero

namespace Reports

variable {self : Obj} {phase : Phase}

theorem none : Reports self phase (pure none : PM W (Option Int)) :=
  fun _ => ⟨[], by simp [final], by simp, by simp⟩

theorem after_silent {A : Type} {x : PM W A} {f : A → PM W (Option Int)} (hx : Silent x)
    (hf : ∀ a, Reports self phase (f a)) : Reports self phase (x >>= f) := by
  intro st
  obtain ⟨es, hes, quiet⟩ := hx st
  have zero : ∀ e ∈ es, ¬ e.Nonzero := fun e he nonzero =>
    not_failed (quiet e he) ⟨nonzero, fun owner => by simp [quiet e he]⟩
  cases h : x st with
  | error e t =>
    rw [bind_error_run h]
    rw [h] at hes
    exact ⟨es, hes, fun e he => Or.inl (quiet e he), zero⟩
  | ok a t =>
    rw [bind_ok_run h]
    rw [h] at hes
    obtain ⟨fs, hfs, own, ends⟩ := hf a t
    refine ⟨es ++ fs, ?_, ?_, ?_⟩
    · rw [← List.append_assoc, ← hes]
      exact hfs
    · intro e he
      rcases List.mem_append.mp he with he | he
      · exact Or.inl (quiet e he)
      · exact own e he
    · revert ends
      split
      · rintro ⟨before, last, rfl, zero'⟩
        refine ⟨es ++ before, last, by rw [List.append_assoc], fun e he => ?_⟩
        rcases List.mem_append.mp he with he | he
        · exact zero e he
        · exact zero' e he
      · intro zero' e he
        rcases List.mem_append.mp he with he | he
        · exact zero e he
        · exact zero' e he

/-- A shell command or a function call before the rest of its list. -/
theorem step {x rest : PM W (Option Int)} (hrest : Reports self phase rest)
    (runs : ∀ st, (∃ e t, x st = .error e t ∧ t.sys.log = st.sys.log) ∨
      ∃ e t, e.command = some (self.id, phase) ∧ t.sys.log = st.sys.log ++ [e] ∧
        ((∃ r, x st = .ok (some r) t) ∨ x st = rest t ∧ ¬ e.Nonzero)) :
    Reports self phase x := by
  intro st
  obtain ⟨e, t, stops, ht⟩ | ⟨e, t, own, ht, ⟨r, stops⟩ | ⟨goes, zero⟩⟩ := runs st
  · rw [stops]
    exact ⟨[], by simp [final, ht], by simp, by simp⟩
  · rw [stops]
    exact ⟨[e], ht, by simp [own], [], e, rfl, by simp⟩
  · rw [goes]
    obtain ⟨es, hes, owns, ends⟩ := hrest t
    refine ⟨e :: es, ?_, ?_, ?_⟩
    · rw [hes, ht, List.append_assoc, List.singleton_append]
    · simpa [own] using owns
    · revert ends
      split
      · rintro ⟨before, last, rfl, zero'⟩
        exact ⟨e :: before, last, rfl, by simpa [zero] using zero'⟩
      · intro zero'
        simpa [zero] using zero'

end Reports

/-- A command list whose result ends the run after a clean-up. -/
theorem Reports.careful {cfg : Settings W} {A : Type} {self : Obj} {x : PM W (Option Int)}
    {f : Option Int → PM W A} (hx : Reports self .build x) (succeeds : Careful cfg (f Option.none))
    (fails : ∀ r st, ∃ e t fs, f (some r) st = .error e t ∧ t.sys.log = st.sys.log ++ fs ∧
      (∀ e ∈ fs, e.command = Option.none ∨ e.command = some (self.id, .cleanup)) ∧ Exits cfg e t) :
    Careful cfg (x >>= f) := by
  intro st
  obtain ⟨es, hes, own, ends⟩ := hx st
  cases h : x st with
  | error e t =>
    rw [bind_error_run h]
    rw [h] at hes ends
    have none : ∀ e ∈ es, ¬ e.Failed := fun e he failed => ends e he failed.1
    exact ⟨es, hes, fun _ =>
      ⟨Halts.of_none none, fun ⟨e, he, failed⟩ => absurd failed (none e he)⟩⟩
  | ok result t =>
    rw [bind_ok_run h]
    rw [h] at hes ends
    cases result with
    | none => exact Careful.after hes (fun _ e he failed => ends e he failed.1) succeeds
    | some r =>
      obtain ⟨before, last, rfl, zero⟩ := ends
      obtain ⟨e, u, fs, stops, hu, cleanup, exits⟩ := fails r t
      rw [stops]
      refine ⟨before ++ [last] ++ fs, ?_, fun _ => ⟨?_, fun _ => exits⟩⟩
      · rw [← List.append_assoc, ← hes]
        exact hu
      rw [List.append_assoc, List.singleton_append]
      refine Halts.append (fun e he failed => zero e he failed.1) ?_
      have none : ∀ e ∈ fs, ¬ e.Failed := by
        intro e he failed
        rcases cleanup e he with silent | tidy
        · exact not_failed silent failed
        · exact failed.2 _ tidy
      intro before' e' after split failed
      cases before' with
      | nil =>
        cases split
        intro g hg owner phase command
        rcases own last (by simp) with silent | build
        · exact absurd failed (not_failed silent)
        rcases cleanup g hg with silent | tidy
        · rw [silent] at command
          cases command
        · rw [tidy] at command
          cases command
          exact ⟨rfl, .build, build⟩
      | cons g before' =>
        cases split
        exact absurd failed (none e' (by simp))

section Node

variable (cfg : Settings W)

theorem doInstall_silent (self : Obj) (src dest : LuaString) :
    Silent (doInstall cfg self src dest) := by
  have place : ∀ w : W, Silent
      (modify fun st : State W => { st with sys := { st.sys with world := w } } : PM W Unit) :=
    fun w => Silent.of_still fun _ => rfl
  have failed : ∀ message, Silent (failNode self message : PM W Unit) :=
    fun message => Silent.of_still fun _ => rfl
  have world : ∀ {B : Type} {f : State W → PM W B}, (∀ st, Silent (f st)) → Silent (get >>= f) :=
    fun h => Silent.bind (Silent.of_still fun _ => rfl) h
  refine (Silent.of_naming (expand_moves cfg self src)).bind fun src => world fun st => ?_
  refine (Silent.of_naming (expand_moves cfg self dest)).bind fun dest => world fun st => ?_
  refine (Silent.of_naming (container_moves cfg self _)).bind fun _ => world fun st => ?_
  split
  · exact place _
  · refine world fun st => ?_
    split
    · exact world fun st => failed _
    · refine (place _).bind fun _ => world fun st => ?_
      split
      · exact place _
      · exact world fun st => failed _

theorem install_silent (self : Obj) (src : LuaString) (dest : Option LuaString)
    (outs : List LuaString) : Silent (install cfg self src dest outs) := by
  unfold install
  split
  · exact doInstall_silent cfg self _ _
  · split
    · exact doInstall_silent cfg self _ _
    · exact Silent.of_still fun _ => rfl

theorem osExecute_run (self : Obj) (phase : Phase) (command : LuaString) (st : State W) :
    lift (osExecute cfg.host self.id phase command) st =
      let r := cfg.host.execute st.sys.world command
      .ok r.1 { st with sys := { st.sys with
        world := r.2
        log := st.sys.log ++ [.execute self.id phase command r.1] } } := rfl

theorem callFunction_run (self : Obj) (phase : Phase) (f : Nat) (inputs outs : List LuaString)
    (st : State W) :
    callFunction cfg self phase f inputs outs st =
      let r := cfg.functions f (expandText cfg st.mem.fields st.mem.scope self) inputs outs
        st.sys.world
      let t : State W := { st.look self with sys := { st.sys with world := r.2 } }
      match r.1 with
      | .error e => .error e t
      | .ok result => .ok result { t with sys := { t.sys with
          log := st.sys.log ++ [.call self.id phase f result] } } := by
  simp only [callFunction, bind_run, get_run, set_run]
  cases (cfg.functions f (expandText cfg st.mem.fields st.mem.scope self) inputs outs
    st.sys.world).1 <;> rfl

theorem invoke_reports (self : Obj) (phase : Phase) (inputs outs : List LuaString)
    (commands : List Value) : Reports self phase (invoke cfg self phase inputs outs commands) := by
  induction commands with
  | nil => exact Reports.none
  | cons v rest ih =>
    cases v with
    | str s =>
      refine Reports.after_silent (Silent.of_naming (expand_moves cfg self s)) fun s => ?_
      refine Reports.after_silent (Silent.traceoutput cfg s) fun _ => ?_
      split
      · exact ih
      · refine Reports.step ih fun st => Or.inr ?_
        rw [bind_run, osExecute_run]
        generalize cfg.host.execute st.sys.world s = r
        refine ⟨.execute self.id phase s r.1, { st with sys := { st.sys with
          world := r.2
          log := st.sys.log ++ [.execute self.id phase s r.1] } }, rfl, rfl, ?_⟩
        dsimp only
        split
        · exact Or.inl ⟨_, rfl⟩
        · rename_i zero
          exact Or.inr ⟨rfl, zero⟩
    | func f =>
      refine Reports.step ih fun st => ?_
      rw [invoke, bind_run, callFunction_run]
      generalize cfg.functions f (expandText cfg st.mem.fields st.mem.scope self) inputs outs
        st.sys.world = r
      obtain ⟨r, w⟩ := r
      cases r with
      | error e => exact Or.inl ⟨e, _, rfl, rfl⟩
      | ok result =>
        refine Or.inr ⟨.call self.id phase f result, { st.look self with sys := { st.sys with
          world := w
          log := st.sys.log ++ [.call self.id phase f result] } }, rfl, rfl, ?_⟩
        cases result with
        | none => exact Or.inr ⟨rfl, fun h => h⟩
        | some r => exact Or.inl ⟨r, rfl⟩
    | install src dest =>
      exact Reports.after_silent (install_silent cfg self src dest outs) fun _ => ih
    | num t => exact ih
    | bool b => exact ih
    | list vs => exact ih
    | parent => exact ih
    | empty => exact ih
    | redirect => exact ih

/-- The clean-up ends, unless its text cannot be expanded. -/
theorem cleanup_run (self : Obj) (st : State W) :
    (∃ r t, invoke cfg self .cleanup [] [] [.str "%RM% %out%".toList] st = .ok r t) ∨
      ∃ e, invoke cfg self .cleanup [] [] [.str "%RM% %out%".toList] st = .error e (st.look self) ∧
        expandText cfg st.mem.fields st.mem.scope self "%RM% %out%".toList = .error e := by
  rw [invoke, bind_run, expand_run]
  cases expandText cfg st.mem.fields st.mem.scope self "%RM% %out%".toList with
  | error e => exact Or.inr ⟨e, rfl, rfl⟩
  | ok s =>
    left
    have traced : ∃ u, traceoutput cfg s (st.look self) = .ok () u := by
      unfold traceoutput
      split <;> exact ⟨_, rfl⟩
    obtain ⟨u, hu⟩ := traced
    show ∃ r t, (traceoutput cfg s >>= fun _ => _) (st.look self) = _
    rw [bind_ok_run hu]
    split
    · exact ⟨_, _, rfl⟩
    · rw [bind_run, osExecute_run]
      dsimp only
      split <;> exact ⟨_, _, rfl⟩

theorem simpleDobuild_careful (self : Obj) (inputs outs : List LuaString) :
    Careful cfg (simpleDobuild cfg self inputs outs) := by
  refine (Careful.of_silent (Silent.of_still fun _ => rfl)).bind fun command => ?_
  cases command with
  | none => exact Careful.of_silent (Silent.of_still fun _ => rfl)
  | some command =>
    refine Reports.careful (invoke_reports cfg self .build inputs outs _)
      (Careful.of_silent (Silent.of_still fun _ => rfl)) ?_
    intro r st
    obtain ⟨fs, hfs, own, _⟩ := invoke_reports cfg self .cleanup [] [] [.str "%RM% %out%".toList] st
    dsimp only
    rw [bind_run]
    obtain ⟨a, t, h⟩ | ⟨e, h, expanded⟩ := cleanup_run cfg self st
    · rw [h] at hfs ⊢
      exact ⟨_, t, fs, rfl, hfs, own, Or.inl ⟨_, rfl⟩⟩
    · rw [h] at hfs ⊢
      refine ⟨e, _, fs, rfl, hfs, own, ?_⟩
      cases e with
      | exit message => exact Or.inl ⟨message, rfl⟩
      | diverges => exact Or.inr ⟨self, by simp [State.look], expanded⟩

theorem rebuild_careful (decl : Decl) (inputs outs : List LuaString) (old : Bool) :
    Careful cfg (rebuild cfg decl inputs outs old) := by
  cases old with
  | false => exact Careful.of_silent (Silent.of_still fun _ => rfl)
  | true =>
    refine Careful.bind ?_ fun _ => Careful.of_silent (Silent.of_still fun _ => rfl)
    unfold dobuild
    split
    · exact simpleDobuild_careful cfg decl.obj inputs outs
    · exact Careful.of_silent (Silent.of_still fun _ => rfl)

theorem installNode_careful (decl : Decl) (inputs outs : List LuaString) :
    Careful cfg (installNode cfg decl inputs outs) := by
  refine (Careful.of_silent (Silent.of_still fun _ => rfl)).bind fun v => ?_
  split
  · exact Careful.of_silent (Silent.of_still fun _ => rfl)
  · rename_i v _
    refine Careful.bind ?_ fun _ => Careful.of_silent (Silent.of_still fun _ => rfl)
    intro st
    obtain ⟨es, hes, own, _⟩ := invoke_reports cfg decl.obj .install inputs outs (commandList v) st
    refine ⟨es, hes, fun installed => ?_⟩
    have none : ∀ e ∈ es, ¬ e.Failed := by
      intro e he failed
      rcases own e he with silent | command
      · exact not_failed silent failed
      · exact installed e he ⟨failed.1, _, command⟩
    cases invoke cfg decl.obj .install inputs outs (commandList v) st with
    | ok a t => exact none
    | error e t => exact ⟨Halts.of_none none, fun ⟨e, he, failed⟩ => absurd failed (none e he)⟩

theorem finish_careful (decl : Decl) (inputs : List LuaString) (listed first : Nat) :
    Careful cfg (finish cfg decl inputs listed first) := by
  have field : ∀ key v, Careful cfg (setField decl.obj key v : PM W Unit) := fun key v =>
    Careful.of_silent (Silent.of_naming (setField_moves cfg decl.obj key v))
  refine (field _ _).bind fun _ => ?_
  refine (Careful.of_silent (Silent.of_naming (outputs_moves cfg decl inputs))).bind fun named => ?_
  refine (field _ _).bind fun _ => ?_
  refine (Careful.of_silent (Silent.of_still fun _ => rfl)).bind fun _ => ?_
  refine Careful.bind ?_ fun _ => Careful.of_silent (Silent.of_still fun _ => rfl)
  refine (Careful.of_silent (Silent.of_stamping (timestamp_moves cfg decl _))).bind fun t => ?_
  refine (Careful.of_silent (Silent.of_stamping
    (outdated_moves cfg decl.obj t inputs))).bind fun old => ?_
  exact (rebuild_careful cfg decl inputs _ old).bind fun _ => installNode_careful cfg decl inputs _

theorem careful_walk : Walk cfg (Careful cfg) where
  pure _ := Careful.of_silent (Silent.of_still fun _ => rfl)
  throw _ := Careful.of_silent (Silent.of_still fun _ => rfl)
  bind := Careful.bind
  visitCount := Careful.of_silent (Silent.of_still fun _ => rfl)
  local_steps h := Careful.of_silent (Silent.of_local h)
  pushScope _ := Careful.of_silent (Silent.of_still fun _ => rfl)
  popScope := Careful.of_silent (Silent.of_still fun _ => rfl)
  finish := finish_careful cfg

end Node

theorem setupCache_silent (cfg : Settings W) (purge : Bool) : Silent (setupCache cfg purge) := by
  have create : Silent (lift (createIntermediateCache cfg) : PM W Unit) := by
    intro st
    let Quiet (s : Sys W) : Prop :=
      ∃ es, s.log = st.sys.log ++ es ∧ ∀ e ∈ es, e.command = none
    have mkdir : ∀ s w f, cfg.host.mkdir s.world f = some w → Quiet s →
        Quiet { s with world := w, log := s.log ++ [.mkdir f] } := by
      rintro s w f _ ⟨es, hes, none⟩
      refine ⟨es ++ [.mkdir f], by simp [hes], fun e he => ?_⟩
      rcases List.mem_append.mp he with he | he
      · exact none e he
      · cases List.mem_singleton.mp he
        rfl
    have keeps : Keeps Quiet (createIntermediateCache cfg) := by
      apply Keeps.get_bind
      intro s hs
      split
      · refine (Keeps.bind (mkcontainerdir_keeps _ Quiet mkdir _ _) fun _ =>
          Keeps.get_bind ?_).from hs
        intro u hu
        split
        · exact (Keeps.throw _).from hu
        · rename_i w hw
          apply Ensures.modify
          rintro _ rfl
          exact mkdir _ w _ hw hu
      · refine (rmdir_keeps _ Quiet (fun _ => True) (fun _ => True) ?_ ?_ _ _ trivial).from hs
        · intros
          exact ⟨trivial, trivial⟩
        · rintro t w _ ht _ _
          exact ht
    have last : Quiet (final (createIntermediateCache cfg st.sys)) :=
      Ensures.final keeps ⟨[], by simp, by simp⟩
    have whole : (final (lift (createIntermediateCache cfg) st)).sys =
        final (createIntermediateCache cfg st.sys) := by
      unfold lift
      cases createIntermediateCache cfg st.sys <;> rfl
    rwa [whole]
  unfold setupCache
  split
  · exact create
  · intro st
    cases h : cfg.host.readFile st.sys.world (indexFile cfg) with
    | none =>
      have run : loadIntermediateCache cfg st = lift (createIntermediateCache cfg) st := by
        simp only [loadIntermediateCache, bind_run, get_run, h]
      rw [run]
      exact create st
    | some text =>
      refine ⟨[], ?_, by simp⟩
      simp only [loadIntermediateCache, bind_run, get_run, h, set_run, final, List.append_nil]

/-- After a failed command of a node pm stops with an error, and executes nothing more but
the clean-up of that node. -/
def StopsAfterFailure (r : EStateM.Result Stop (State W) Unit) : Prop :=
  ∀ before e after, (final r).sys.log = before ++ e :: after → e.Failed →
    (∃ message t, r = .error (.exit message) t) ∧
      ∀ f ∈ after, ∀ owner phase, f.command = some (owner, phase) →
        phase = .cleanup ∧ ∃ p, e.command = some (owner, p)

theorem failed_command_stops (cfg : Settings W) (purge : Bool) (targets : List Node) (w : W)
    (sandbox : Obj) (objects : Nat)
    (installs : ∀ e ∈ (final (driver cfg purge targets (start w sandbox objects))).sys.log,
      ¬ e.InstallFailed)
    (ends : ¬ Loops cfg (final (driver cfg purge targets (start w sandbox objects)))) :
    StopsAfterFailure (driver cfg purge targets (start w sandbox objects)) := by
  have careful : Careful cfg (driver cfg purge targets) :=
    (Careful.of_silent (setupCache_silent cfg purge)).bind fun _ =>
      (careful_walk cfg).buildTargets targets
  obtain ⟨es, hes, result⟩ := careful (start w sandbox objects)
  rw [show (start w sandbox objects).sys.log = [] from rfl, List.nil_append] at hes
  rw [hes] at installs
  have result := result installs
  intro before e after split failed
  rw [hes] at split
  have member : e ∈ es := by rw [split]; simp
  cases h : driver cfg purge targets (start w sandbox objects) with
  | ok a t =>
    rw [h] at result
    exact absurd failed (result e member)
  | error stop t =>
    rw [h] at result ends
    refine ⟨?_, result.1 before e after split failed⟩
    rcases result.2 ⟨e, member, failed⟩ with ⟨message, rfl⟩ | loops
    · exact ⟨message, t, rfl⟩
    · exact absurd loops ends

section Examples

/-- Every command fails but the clean-up. -/
def brokenShell : LuaString → Desk.Effect
  | 'r' :: _ => ⟨0, [], []⟩
  | _ => ⟨1, [], []⟩

def compiler (id : Nat) : Node :=
  .object ⟨⟨id, [("outputs".toList, strings ["%U%".toList]), ("command".toList, strings ["cc".toList])]⟩,
    .simple⟩ [] none

/-- Two targets that a broken compiler should make. -/
def brokenRun : EStateM.Result Stop (State Desk) Unit :=
  driver (Desk.settings brokenShell 10) false [compiler 1, compiler 2]
    (start ⟨5, [], []⟩ sandboxVariables 3)

theorem broken_log : (final brokenRun).sys.log =
    [.mkdir ".pm-cache".toList, .issue "cc".toList 1, .execute 1 .build "cc".toList 1,
      .execute 1 .cleanup "rm -f \".pm-cache/1\"".toList 0] := by
  decide +kernel

theorem broken_ends : ¬ Loops (Desk.settings brokenShell 10) (final brokenRun) :=
  not_loops (by decide +kernel)

/-- The second target is not attempted. -/
theorem broken_compiler_stops : StopsAfterFailure brokenRun := by
  have installs : ∀ e ∈ (final brokenRun).sys.log, ¬ e.InstallFailed := by
    rw [broken_log]
    simp [Event.InstallFailed, Event.Nonzero, Event.command]
  have ends := broken_ends
  unfold brokenRun at installs ends ⊢
  exact failed_command_stops _ _ _ _ _ _ installs ends

/-- A group with one install command, which fails. -/
def failingInstall : Node :=
  .object ⟨⟨1, [("install".toList, strings ["cp".toList])]⟩, .group⟩ [] none

def installRun : EStateM.Result Stop (State Desk) Unit :=
  driver (Desk.settings brokenShell 10) false [failingInstall]
    (start ⟨5, [], []⟩ sandboxVariables 2)

theorem install_log : (final installRun).sys.log =
    [.mkdir ".pm-cache".toList] ++ .execute 1 .install "cp".toList 1 :: [] := by
  decide +kernel

theorem install_returns : (match installRun with | .ok _ _ => true | .error _ _ => false) = true := by
  decide +kernel

/-- A failed command of an install list goes unnoticed. -/
theorem install_failure_ignored : ¬ StopsAfterFailure installRun := by
  intro stops
  have failed : Event.Failed (.execute 1 .install "cp".toList 1) := by
    constructor
    · exact Int.one_ne_zero
    · simp [Event.command]
  obtain ⟨⟨message, t, run⟩, _⟩ := stops _ _ _ install_log failed
  have returns := install_returns
  rw [run] at returns
  cases returns

end Examples

end PrimeMover
