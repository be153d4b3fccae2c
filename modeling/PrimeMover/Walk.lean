import PrimeMover.Actions
import PrimeMover.Driver

/-! What holds of every step of the walk over the tree holds of the walk. -/
namespace PrimeMover
open Outcome

variable {W : Type}

/-- A property of programs that a build has when the steps of each node have it. -/
structure Walk (cfg : Settings W) (C : ∀ {A : Type}, PM W A → Prop) : Prop where
  pure : ∀ {A : Type} (a : A), C (pure a : PM W A)
  throw : ∀ {A : Type} (e : Stop), C (throw e : PM W A)
  bind : ∀ {A B : Type} {x : PM W A} {f : A → PM W B}, C x → (∀ a, C (f a)) → C (x >>= f)
  visitCount : C (visitCount : PM W Nat)
  local_steps : ∀ {A : Type} {x : PM W A}, Local x → C x
  pushScope : ∀ self, C (pushScope self : PM W Unit)
  popScope : C (popScope : PM W Unit)
  finish : ∀ decl inputs listed first, C (finish cfg decl inputs listed first)

namespace Walk

variable {cfg : Settings W} {C : ∀ {A : Type}, PM W A → Prop}

theorem except (walk : Walk cfg C) {A : Type} (r : Except Stop A) : C (except r : PM W A) := by
  cases r with
  | ok a => exact walk.pure a
  | error e => exact walk.throw e

theorem collect (walk : Walk cfg C) {A B : Type} {f : A → PM W (List B)} (l : List A)
    (h : ∀ a ∈ l, C (f a)) : C (collect f l) := by
  induction l with
  | nil => exact walk.pure []
  | cons a l ih =>
    refine walk.bind (h a List.mem_cons_self) fun _ => walk.bind ?_ fun _ => walk.pure _
    exact ih fun b hb => h b (List.mem_cons_of_mem a hb)

theorem enclose (walk : Walk cfg C) {A : Type} (self : Obj) {x : PM W A} (h : C x) :
    C (enclose self x) :=
  walk.bind (walk.pushScope self) fun _ =>
    walk.bind h fun a => walk.bind walk.popScope fun _ => walk.pure a

theorem buildString (walk : Walk cfg C) (kind : Kind) (listed : Nat) (s : LuaString) :
    C (buildString cfg kind listed s) := by
  unfold PrimeMover.buildString
  split
  · refine walk.bind (walk.local_steps (Local.newObject _ _)) fun self => ?_
    exact walk.bind walk.visitCount fun first => walk.finish _ _ _ _
  · exact walk.throw _

end Walk

mutual

theorem Walk.build {cfg : Settings W} {C : ∀ {A : Type}, PM W A → Prop} (walk : Walk cfg C) :
    ∀ (n : Node) (i : Option LuaString), C (build cfg n i)
  | .string _, _ => by
    rw [PrimeMover.build]
    exact walk.throw _
  | .object decl children rule, i => by
    rw [PrimeMover.build]
    refine walk.bind walk.visitCount fun first => ?_
    refine walk.bind (walk.local_steps (instantiate_local decl _ _ i)) fun decl' => ?_
    split
    · exact walk.bind (walk.except _) fun inputs => walk.finish _ _ _ _
    · refine walk.bind (walk.enclose decl'.obj ?_) fun inputs => walk.finish _ _ _ _
      refine walk.bind (walk.buildAll decl'.kind children) fun a => ?_
      refine walk.bind (walk.collect _ fun s _ => walk.buildString decl'.kind 0 s) fun b => ?_
      split
      · exact walk.collect _ fun s _ => walk.buildRule rule s
      · exact walk.pure _

theorem Walk.buildAll {cfg : Settings W} {C : ∀ {A : Type}, PM W A → Prop} (walk : Walk cfg C)
    (kind : Kind) : ∀ children : List Node, C (buildAll cfg kind children)
  | [] => by
    rw [PrimeMover.buildAll]
    exact walk.pure []
  | child :: rest => by
    cases child with
    | string s =>
      rw [PrimeMover.buildAll]
      refine walk.bind (walk.buildString kind 1 s) fun a => ?_
      exact walk.bind (walk.buildAll kind rest) fun b => walk.pure _
    | object decl children rule =>
      rw [PrimeMover.buildAll]
      refine walk.bind (walk.build (.object decl children rule) none) fun a => ?_
      exact walk.bind (walk.buildAll kind rest) fun b => walk.pure _

theorem Walk.buildRule {cfg : Settings W} {C : ∀ {A : Type}, PM W A → Prop} (walk : Walk cfg C) :
    ∀ (rule : Option Node) (i : LuaString), C (buildRule cfg rule i)
  | none, _ => by
    rw [PrimeMover.buildRule]
    exact walk.throw _
  | some rule, i => by
    rw [PrimeMover.buildRule]
    exact walk.build rule (some i)

end

theorem Walk.buildTargets {cfg : Settings W} {C : ∀ {A : Type}, PM W A → Prop} (walk : Walk cfg C)
    (targets : List Node) : C (buildTargets cfg targets) := by
  induction targets with
  | nil => exact walk.pure ()
  | cons o rest ih => exact walk.bind (walk.build o none) fun _ => ih

end PrimeMover
