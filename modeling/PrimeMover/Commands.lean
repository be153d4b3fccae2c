import PrimeMover.Failure
import PrimeMover.Phases

/-! Command lists of strings: the texts they expand to, and the runs of these texts. -/
namespace PrimeMover
open Outcome

variable {W : Type}

/-- The strings of a command list, expanded in a fixed memory. -/
def commandTexts (cfg : Settings W) (mem : Mem) (self : Obj) :
    List Value → Except Stop (List LuaString)
  | [] => .ok []
  | .str s :: rest => do
    let text ← expandText cfg mem.fields mem.scope self s
    let texts ← commandTexts cfg mem self rest
    .ok (text :: texts)
  | _ :: rest => commandTexts cfg mem self rest

/-- The command list of a node, as `simple.__dobuild` reads it. -/
def Visit.commands (v : Visit W) : List Value :=
  ((rawget v.mem.fields v.decl.obj "command".toList).map commandList).getD []

/-- The install list of a node. -/
def Visit.install (v : Visit W) : List Value :=
  ((truthy (rawget v.mem.fields v.decl.obj "install".toList)).map commandList).getD []

def Visit.texts (cfg : Settings W) (v : Visit W) : Except Stop (List LuaString) :=
  commandTexts cfg v.mem v.decl.obj v.commands

def IsString (v : Value) : Prop := ∃ s, v = .str s

/-- The world after some commands, whatever their codes. -/
def runTexts (host : Host W) (texts : List LuaString) (w : W) : W :=
  texts.foldl (fun w c => (host.execute w c).2) w

/-- The commands and calls of a log. -/
def commandsOf (log : List Event) : List Event := log.filter (fun e => e.command.isSome)

theorem commandsOf_append (a b : List Event) : commandsOf (a ++ b) = commandsOf a ++ commandsOf b :=
  List.filter_append ..

theorem traceoutput_run (cfg : Settings W) (text : LuaString) (s : State W) :
    ∃ t, traceoutput cfg text s = .ok () t ∧ t.mem = s.mem ∧ t.sys.world = s.sys.world ∧
      commandsOf t.sys.log = commandsOf s.sys.log := by
  unfold traceoutput
  split
  · exact ⟨s, rfl, rfl, rfl, rfl⟩
  · refine ⟨{ s with sys := { s.sys with log := s.sys.log ++ [.trace text] } }, rfl, rfl, rfl, ?_⟩
    rw [commandsOf_append]
    simp [commandsOf, Event.command]

/-- A list of strings that returns nothing was executed to its end, each command with the
code zero. -/
theorem invoke_strings {cfg : Settings W} {self : Obj} {phase : Phase} {inputs outs : List LuaString}
    (executes : cfg.noExecute = false) {commands : List Value}
    (strings : ∀ c ∈ commands, IsString c) {s s' : State W}
    (run : invoke cfg self phase inputs outs commands s = .ok none s') :
    ∃ texts, commandTexts cfg s.mem self commands = .ok texts ∧
      s'.sys.world = runTexts cfg.host texts s.sys.world ∧
      commandsOf s'.sys.log =
        commandsOf s.sys.log ++ texts.map (fun c => .execute self.id phase c 0) := by
  induction commands generalizing s with
  | nil =>
    cases run
    exact ⟨[], rfl, rfl, by simp⟩
  | cons c rest ih =>
    obtain ⟨source, rfl⟩ := strings c List.mem_cons_self
    have strings' : ∀ c ∈ rest, IsString c := fun c hc => strings c (List.mem_cons_of_mem _ hc)
    obtain ⟨text, s1, expanded, run⟩ := bind_eq_ok.mp run
    obtain ⟨same, rfl⟩ := expand_ok expanded
    obtain ⟨_, s2, traced, run⟩ := bind_eq_ok.mp run
    obtain ⟨t, traced', mem, world, log⟩ := traceoutput_run cfg text (s.look self)
    rw [traced'] at traced
    cases traced
    rw [executes] at run
    obtain ⟨r, s3, executed, run⟩ := bind_eq_ok.mp run
    rw [osExecute_run] at executed
    cases executed
    dsimp only at run
    split at run
    · cases run
    · rename_i zero
      rw [not_not] at zero
      obtain ⟨texts, all, last, logged⟩ := ih strings' run
      have mem' : s2.mem = s.mem := mem
      refine ⟨text :: texts, ?_, ?_, ?_⟩
      · rw [← mem']
        rw [← mem'] at same
        simp only [commandTexts, same, all]
        rfl
      · rw [last]
        simp only [runTexts, List.foldl_cons, world]
        rfl
      · rw [logged]
        simp only [commandsOf_append, List.map_cons, zero]
        rw [log]
        simp [commandsOf, Event.command, State.look]

/-- A node whose command list is made of strings. -/
theorem dobuild_strings {cfg : Settings W} {v : Visit W} {s s' : State W}
    (executes : cfg.noExecute = false) (strings : ∀ c ∈ v.commands, IsString c)
    (mem : s.mem = v.mem)
    (run : simpleDobuild cfg v.decl.obj v.inputs v.outs s = .ok () s') :
    ∃ texts, v.texts cfg = .ok texts ∧ s'.sys.world = runTexts cfg.host texts s.sys.world ∧
      commandsOf s'.sys.log =
        commandsOf s.sys.log ++ texts.map (fun c => .execute v.decl.obj.id .build c 0) := by
  obtain ⟨command, t, field, run⟩ := bind_eq_ok.mp run
  cases field
  unfold Visit.texts
  unfold Visit.commands at strings ⊢
  rw [← mem] at strings ⊢
  cases h : rawget s.mem.fields v.decl.obj "command".toList with
  | none =>
    rw [h] at run
    cases run
  | some command =>
    rw [h] at run strings
    obtain ⟨r, t, invoked, run⟩ := bind_eq_ok.mp run
    cases r with
    | some r =>
      obtain ⟨_, u, _, run⟩ := bind_eq_ok.mp run
      cases run
    | none =>
      cases run
      exact invoke_strings executes strings invoked

theorem installNode_nothing {cfg : Settings W} {v : Visit W} (nothing : v.install = [])
    {s s' : State W} (mem : s.mem = v.mem)
    (run : installNode cfg v.decl v.inputs v.outs s = .ok () s') : s' = s := by
  obtain ⟨field, t, read, rest⟩ := bind_eq_ok.mp run
  cases read
  unfold Visit.install at nothing
  rw [← mem] at nothing
  cases h : truthy (rawget s.mem.fields v.decl.obj "install".toList) with
  | none =>
    rw [h] at rest
    cases rest
    rfl
  | some list =>
    rw [h] at rest nothing
    dsimp only [Option.map_some, Option.getD_some] at nothing rest
    rw [nothing] at rest
    cases rest
    rfl

end PrimeMover
