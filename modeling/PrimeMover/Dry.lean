import PrimeMover.Harmless

/-! The nodes of a run that is told not to execute anything: what is left of them is the care
of the index and the directories for outputs. -/
namespace PrimeMover
open Outcome

variable {W : Type}

/-- The directories that `mkcontainerdir` makes for a file. -/
def Above (d f : LuaString) : Prop := ∃ n, d = dirname^[n + 1] f

theorem Above.trans {d f : LuaString} (above : Above d (dirname f)) : Above d f := by
  obtain ⟨n, rfl⟩ := above
  exact ⟨n + 1, rfl⟩

/-- The calls of the nodes of a run without execution: the index is saved, and directories
with `P` are made. -/
inductive Housekeeping (cfg : Settings W) (P : LuaString → Prop) (w w' : W) : Prop where
  | index (text : LuaString) (saved : cfg.host.writeFile w (indexFile cfg) text = some w')
  | container (d : LuaString) (holds : P d) (made : cfg.host.mkdir w d = some w')

theorem Housekeeping.mono {cfg : Settings W} {P Q : LuaString → Prop} {w w' : W}
    (sub : ∀ d, P d → Q d) (call : Housekeeping cfg P w w') : Housekeeping cfg Q w w' := by
  cases call with
  | index text saved => exact .index text saved
  | container d holds made => exact .container d (sub d holds) made

/-- No shell command is reported, and the files are changed by housekeeping alone. -/
structure Dry (cfg : Settings W) (P : LuaString → Prop) (s t : State W) : Prop where
  grows : Grows s t
  quiet : ∀ e ∈ t.sys.log, e.shell ≠ none → e ∈ s.sys.log
  calls : Relation.ReflTransGen (Housekeeping cfg P) s.sys.world t.sys.world

namespace Dry

variable {cfg : Settings W} {P Q : LuaString → Prop} {A B : Type}

theorem of_same {s t : State W} (visits : t.visits = s.visits) (sys : t.sys = s.sys) :
    Dry cfg P s t :=
  ⟨Grows.of_same visits (congrArg Sys.log sys), fun _ he _ => sys ▸ he,
    sys ▸ Relation.ReflTransGen.refl⟩

theorem of_unmoved {s t : State W} (quiet : Unmoved s t) : Dry cfg P s t :=
  ⟨quiet.grows, quiet.quiet, quiet.world ▸ Relation.ReflTransGen.refl⟩

theorem trans {s t u : State W} (first : Dry cfg P s t) (second : Dry cfg P t u) : Dry cfg P s u :=
  ⟨first.grows.trans second.grows, fun e he run => first.quiet e (second.quiet e he run) run,
    first.calls.trans second.calls⟩

theorem mono {s t : State W} (dry : Dry cfg P s t) (sub : ∀ d, P d → Q d) : Dry cfg Q s t :=
  ⟨dry.grows, dry.quiet, Relation.ReflTransGen.mono (fun _ _ call => call.mono sub) _ _ dry.calls⟩

theorem bind {x : PM W A} {f : A → PM W B} (hx : ∀ s, Dry cfg P s (final (x s)))
    (hf : ∀ a s, Dry cfg P s (final (f a s))) (s : State W) :
    Dry cfg P s (final ((x >>= f) s)) := by
  have first := hx s
  rw [bind_run]
  cases h : x s with
  | ok a t =>
    rw [h] at first
    exact first.trans (hf a t)
  | error e t =>
    rw [h] at first
    exact first

theorem pure (a : A) (s : State W) : Dry cfg P s (final ((pure a : PM W A) s)) := of_same rfl rfl

theorem except (r : Except Stop A) (s : State W) : Dry cfg P s (final (except r s)) := by
  rw [final_except]
  exact of_same rfl rfl

theorem getField (o : Obj) (key : LuaString) (s : State W) :
    Dry cfg P s (final (getField o key s)) := of_same rfl rfl

theorem setField (o : Obj) (key : LuaString) (v : Value) (s : State W) :
    Dry cfg P s (final (setField o key v s)) := of_same rfl rfl

theorem expand (self : Obj) (text : LuaString) (s : State W) :
    Dry cfg P s (final (expand cfg self text s)) := of_unmoved (Unmoved.expand cfg self text s)

theorem collect {f : A → PM W (List B)} (l : List A) (h : ∀ a s, Dry cfg P s (final (f a s)))
    (s : State W) : Dry cfg P s (final (collect f l s)) := by
  induction l generalizing s with
  | nil => exact pure _ s
  | cons a l ih => exact bind (h a) (fun _ => bind ih fun _ => pure _) s

end Dry

section Naming

variable (cfg : Settings W) (self : Obj)

end Naming

section Templates

variable (cfg : Settings W) {self : Obj} {m : Mem} {I : LuaString} {U : Value}

end Templates

end PrimeMover
