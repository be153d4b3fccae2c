import PrimeMover.Freshness

/-! What nodes are told to do: the command lists with their texts expanded, and what the log
of a run says of them. -/
namespace PrimeMover
open Outcome

variable {W : Type}

/-- A command of a node, with its text expanded. -/
inductive Order where
  | text (s : LuaString)
  | function (f : Nat)
  deriving DecidableEq

/-- The orders of a command list in a fixed memory. What is neither a string nor a function of
the pmfile executes nothing. -/
def ordersIn (cfg : Settings W) (mem : Mem) (self : Obj) : List Value → Except Stop (List Order)
  | [] => .ok []
  | .str s :: rest => do
    let text ← expandText cfg mem.fields mem.scope self s
    let orders ← ordersIn cfg mem self rest
    .ok (.text text :: orders)
  | .func f :: rest => do
    let orders ← ordersIn cfg mem self rest
    .ok (.function f :: orders)
  | _ :: rest => ordersIn cfg mem self rest

def Visit.orders (cfg : Settings W) (v : Visit W) : Except Stop (List Order) :=
  ordersIn cfg v.mem v.decl.obj v.commands

def Event.order : Event → Option Order
  | .execute _ .build text _ => some (.text text)
  | .call _ .build f _ => some (.function f)
  | _ => none

/-- What has been executed for building. -/
def ordersOf (log : List Event) : List Order := log.filterMap Event.order

theorem ordersOf_append (a b : List Event) : ordersOf (a ++ b) = ordersOf a ++ ordersOf b :=
  List.filterMap_append ..

theorem order_none {e : Event} (other : ∀ owner, e.command ≠ some (owner, .build)) :
    e.order = none := by
  cases e with
  | trace text => rfl
  | execute owner phase text code =>
    cases phase with
    | build => exact absurd rfl (other owner)
    | cleanup => rfl
    | install => rfl
  | call owner phase f r =>
    cases phase with
    | build => exact absurd rfl (other owner)
    | cleanup => rfl
    | install => rfl
  | issue key id => rfl
  | mkdir d => rfl

theorem ordersOf_none {es : List Event}
    (other : ∀ e ∈ es, ∀ owner, e.command ≠ some (owner, .build)) : ordersOf es = [] :=
  List.filterMap_eq_nil_iff.mpr fun e he => order_none (other e he)

theorem Silent.orders {A : Type} {x : PM W A} (silent : Silent x) (s : State W) :
    ordersOf (final (x s)).sys.log = ordersOf s.sys.log := by
  obtain ⟨es, log, quiet⟩ := silent s
  have none : ordersOf es = [] := ordersOf_none fun e he owner => by simp [quiet e he]
  rw [log, ordersOf_append, none, List.append_nil]

theorem Silent.orders_ok {A : Type} {x : PM W A} (silent : Silent x) {s t : State W} {a : A}
    (run : x s = .ok a t) : ordersOf t.sys.log = ordersOf s.sys.log := by
  have same := silent.orders s
  rwa [run] at same

section Lists

variable {cfg : Settings W} {self : Obj} {inputs outs : List LuaString}

/-- A command list that is executed to its end. -/
theorem invoke_orders (executes : cfg.noExecute = false) {commands : List Value} {s s' : State W}
    (run : invoke cfg self .build inputs outs commands s = .ok none s') :
    ∃ os, ordersIn cfg s.mem self commands = .ok os ∧
      ordersOf s'.sys.log = ordersOf s.sys.log ++ os := by
  induction commands generalizing s with
  | nil =>
    cases run
    exact ⟨[], rfl, by simp⟩
  | cons c rest ih =>
    cases c with
    | str source =>
      obtain ⟨text, s1, expanded, run⟩ := bind_eq_ok.mp run
      obtain ⟨same, rfl⟩ := expand_ok expanded
      obtain ⟨_, s2, traced, run⟩ := bind_eq_ok.mp run
      have quiet := (Silent.traceoutput cfg text).orders_ok traced
      have mem : s2.mem = s.mem := by
        obtain ⟨t, traced', mem, _, _⟩ := traceoutput_run cfg text (s.look self)
        cases traced.symm.trans traced'
        exact mem
      rw [executes] at run
      obtain ⟨r, s3, executed, run⟩ := bind_eq_ok.mp run
      rw [osExecute_run] at executed
      cases executed
      dsimp only at run
      split at run
      · cases run
      · obtain ⟨os, all, last⟩ := ih run
        refine ⟨.text text :: os, ?_, ?_⟩
        · rw [← mem] at same ⊢
          simp only [ordersIn, same, all]
          rfl
        · rw [last, ordersOf_append, quiet]
          simp [ordersOf, Event.order, State.look]
    | func f =>
      obtain ⟨r, s1, called, run⟩ := bind_eq_ok.mp run
      rw [callFunction_run] at called
      dsimp only at called
      split at called
      · cases called
      · cases called
        cases r with
        | some r => cases run
        | none =>
          obtain ⟨os, all, last⟩ := ih run
          refine ⟨.function f :: os, ?_, ?_⟩
          · have all : ordersIn cfg s.mem self rest = .ok os := all
            simp only [ordersIn, all]
            rfl
          · rw [last]
            simp [ordersOf, Event.order]
    | install src dest =>
      obtain ⟨_, s1, placed, run⟩ := bind_eq_ok.mp run
      have quiet := (install_silent cfg self src dest outs).orders_ok placed
      have mem := (outside_of_moves (install_moves cfg self src dest outs) placed).mem
      obtain ⟨os, all, last⟩ := ih run
      rw [mem] at all
      exact ⟨os, all, by rw [last, quiet]⟩
    | num t => exact ih run
    | bool b => exact ih run
    | list vs => exact ih run
    | parent => exact ih run
    | empty => exact ih run
    | redirect => exact ih run

end Lists

theorem dobuild_orders {cfg : Settings W} (executes : cfg.noExecute = false) {v : Visit W}
    {s s' : State W} (mem : s.mem = v.mem)
    (run : simpleDobuild cfg v.decl.obj v.inputs v.outs s = .ok () s') :
    ∃ os, v.orders cfg = .ok os ∧ ordersOf s'.sys.log = ordersOf s.sys.log ++ os := by
  obtain ⟨command, t, field, run⟩ := bind_eq_ok.mp run
  cases field
  unfold Visit.orders Visit.commands
  rw [← mem]
  cases h : rawget s.mem.fields v.decl.obj "command".toList with
  | none =>
    rw [h] at run
    cases run
  | some command =>
    rw [h] at run
    obtain ⟨r, t, invoked, run⟩ := bind_eq_ok.mp run
    cases r with
    | some r =>
      obtain ⟨_, u, _, run⟩ := bind_eq_ok.mp run
      cases run
    | none =>
      cases run
      exact invoke_orders executes invoked

/-- The orders of a node, none if they cannot be expanded. -/
def Visit.ordered (cfg : Settings W) (v : Visit W) : List Order := (v.orders cfg).toOption.getD []

theorem Phases.named_orders {cfg : Settings W} {decl : Decl} {inputs outs : List LuaString}
    {listed first : Nat} {s s' : State W} (p : Phases cfg decl inputs listed first outs s s') :
    ordersOf p.named.sys.log = ordersOf s.sys.log := by
  have silent := (Silent.of_naming (outputs_moves cfg decl inputs)).orders_ok p.out
  exact silent

theorem Phases.installed_orders {cfg : Settings W} {decl : Decl} {inputs outs : List LuaString}
    {listed first : Nat} {s s' : State W} (p : Phases cfg decl inputs listed first outs s s') :
    ordersOf s'.sys.log = ordersOf p.built.sys.log := by
  obtain ⟨es, log, own⟩ := installNode_events p.installed
  have none : ordersOf es = [] := by
    refine ordersOf_none fun e he owner build => ?_
    rcases own e he with none | install
    · rw [build] at none
      cases none
    · rw [build] at install
      cases install
  rw [log, ordersOf_append, none, List.append_nil]

/-- A node executes its orders if it is simple and out of date, and nothing else. -/
theorem Phases.orders {cfg : Settings W} (executes : cfg.noExecute = false) {decl : Decl}
    {inputs outs : List LuaString} {listed first : Nat} {s s' : State W}
    (p : Phases cfg decl inputs listed first outs s s') :
    ordersOf s'.sys.log = ordersOf s.sys.log ++
      if p.old = true ∧ decl.kind = .simple then p.visit.ordered cfg else [] := by
  have asked : ordersOf p.asked.sys.log = ordersOf s.sys.log := by
    rw [p.asked_same.2.2.1, p.named_orders]
  rw [p.installed_orders]
  rcases p.built_cases with ⟨fresh, same⟩ | ⟨old, u, _, _, done, same⟩
  · rw [same, asked, fresh]
    simp
  · rw [same, old]
    split at done
    · rename_i simple
      obtain ⟨os, all, log⟩ := dobuild_orders (v := p.visit) executes p.asked_same.1 done
      simp only [simple, and_self, if_true, log, asked, Visit.ordered, all]
      rfl
    · rename_i other
      subst done
      simp only [other, and_false, if_false, List.append_nil, asked]

end PrimeMover
