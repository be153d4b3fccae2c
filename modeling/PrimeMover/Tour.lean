import PrimeMover.Phases

/-! The induction over a run: an invariant of the nodes, one after the other, with what is
known of the names that a node hands to its parent. What is assumed of the run is assumed
of its final state, and so known of every state before. -/
namespace PrimeMover
open Outcome

variable {W : Type}

/-- `P` holds of every state on the way to `fin`. -/
def Under (fin : State W) (P : State W → Prop) (s : State W) : Prop := Grows s fin → P s

/-- What is known of the inputs of a node: of the names that a file node is given, or of the
outputs of its children together. -/
def Fed (One : List (Visit W) → LuaString → Prop) (Good : List (Visit W) → List LuaString → Prop)
    (vs : List (Visit W)) (kind : Kind) (listed : Nat) (inputs : List LuaString) : Prop :=
  if kind = .file then ∀ p ∈ inputs.drop listed, One vs p else Good vs inputs

structure Tour (cfg : Settings W) (fin : State W) (Inv Err : State W → Prop)
    (One : List (Visit W) → LuaString → Prop) (Good : List (Visit W) → List LuaString → Prop) : Prop where
  nil : ∀ vs, Good vs []
  append : ∀ {vs a b}, Good vs a → Good vs b → Good vs (a ++ b)
  mono : ∀ {vs vs' a}, Good vs a → vs <+: vs' → Good vs' a
  one : ∀ {vs a p}, Good vs a → p ∈ a → One vs p
  one_mono : ∀ {vs vs' p}, One vs p → vs <+: vs' → One vs' p
  blind : ∀ {s} fields scope objects, Inv s →
    Inv { s with mem := { s.mem with fields := fields, scope := scope, objects := objects } }
  stop : ∀ {s}, Inv s → Err s
  step : ∀ decl inputs listed first s, Inv s → Fed One Good s.visits decl.kind listed inputs →
    Grows (final (finish cfg decl inputs listed first s)) fin →
    match finish cfg decl inputs listed first s with
    | .ok outs s' => Inv s' ∧ Good s'.visits outs
    | .error _ s' => Err s'

namespace Tour

variable {cfg : Settings W} {fin : State W} {Inv Err : State W → Prop}
  {One : List (Visit W) → LuaString → Prop} {Good : List (Visit W) → List LuaString → Prop}

/-- A program on the way, that starts with `K` known and returns with `Q`. -/
def Leads (fin : State W) (Inv Err : State W → Prop) {A : Type} (K : List (Visit W) → Prop)
    (x : PM W A) (Q : A → List (Visit W) → Prop) : Prop :=
  (∀ s, Grows s (final (x s))) ∧
    Ensures (Under fin fun s => Inv s ∧ K s.visits) x (fun a => Under fin fun s => Inv s ∧ Q a s.visits)
      (fun _ => Under fin Err)

namespace Leads

variable {A B : Type} {K K' : List (Visit W) → Prop}

theorem weaken {x : PM W A} {Q Q' : A → List (Visit W) → Prop} (h : Leads fin Inv Err K x Q)
    (pre : ∀ vs, K' vs → K vs) (post : ∀ a vs, Q a vs → Q' a vs) :
    Leads fin Inv Err K' x Q' :=
  ⟨h.1, h.2.weaken (fun _ hs grows => ⟨(hs grows).1, pre _ (hs grows).2⟩)
    (fun a _ hs grows => ⟨(hs grows).1, post a _ (hs grows).2⟩) fun _ _ hs => hs⟩

theorem bind {x : PM W A} {f : A → PM W B} {M : A → List (Visit W) → Prop}
    {Q : B → List (Visit W) → Prop} (hx : Leads fin Inv Err K x M)
    (hf : ∀ a, Leads fin Inv Err (M a) (f a) Q) : Leads fin Inv Err K (x >>= f) Q :=
  ⟨grows_bind hx.1 fun a => (hf a).1, Ensures.bind hx.2 fun a => (hf a).2⟩

/-- What stays true while nodes are visited stays known. -/
theorem frame {x : PM W A} {Q : A → List (Visit W) → Prop} (h : Leads fin Inv Err K x Q)
    (stable : ∀ vs vs', K' vs → vs <+: vs' → K' vs') :
    Leads fin Inv Err (fun vs => K vs ∧ K' vs) x (fun a vs => Q a vs ∧ K' vs) := by
  refine ⟨h.1, fun s hs => ?_⟩
  have grow := h.1 s
  have run := h.2 s fun grows => ⟨(hs grows).1, (hs grows).2.1⟩
  revert grow run
  cases x s with
  | ok a t =>
    intro grow run grows
    obtain ⟨inv, q⟩ := run grows
    exact ⟨inv, q, stable _ _ (hs (grow.trans grows)).2.2 grow.visits⟩
  | error e t =>
    intro _ run
    exact run

theorem pure (a : A) {Q : A → List (Visit W) → Prop} (h : ∀ vs, K vs → Q a vs) :
    Leads fin Inv Err K (pure a : PM W A) Q :=
  ⟨fun s => Grows.refl s, fun _ hs grows => ⟨(hs grows).1, h _ (hs grows).2⟩⟩

theorem throw (e : Stop) {Q : A → List (Visit W) → Prop} (stop : ∀ {s}, Inv s → Err s) :
    Leads fin Inv Err K (throw e : PM W A) Q :=
  ⟨fun s => Grows.refl s, fun _ hs grows => stop (hs grows).1⟩

theorem except (r : Except Stop A) {Q : A → List (Visit W) → Prop} (stop : ∀ {s}, Inv s → Err s)
    (h : ∀ a, r = .ok a → ∀ vs, K vs → Q a vs) : Leads fin Inv Err K (except r : PM W A) Q := by
  cases r with
  | ok a => exact pure a (h a rfl)
  | error e => exact throw e stop

theorem of_blind {x : PM W A} {Q : A → List (Visit W) → Prop} (stop : ∀ {s}, Inv s → Err s)
    (grow : ∀ s, Grows s (final (x s))) (inv : ∀ s, Inv s → Inv (final (x s)))
    (known : ∀ s a t, x s = .ok a t → K s.visits → Q a t.visits) :
    Leads fin Inv Err K x Q := by
  refine ⟨grow, fun s hs => ?_⟩
  have grow := grow s
  have inv := inv s
  have known := known s
  revert grow inv known
  cases x s with
  | ok a t =>
    intro grow inv known grows
    obtain ⟨before, k⟩ := hs (grow.trans grows)
    exact ⟨inv before, known a t rfl k⟩
  | error e t =>
    intro grow inv _ grows
    exact stop (inv (hs (grow.trans grows)).1)

theorem collect {Q : List B → List (Visit W) → Prop}
    {f : A → PM W (List B)} (l : List A)
    (stable : ∀ vs vs', K vs → vs <+: vs' → K vs')
    (stable' : ∀ b vs vs', Q b vs → vs <+: vs' → Q b vs') (none : ∀ vs, Q [] vs)
    (both : ∀ a b vs, Q a vs → Q b vs → Q (a ++ b) vs)
    (h : ∀ a ∈ l, Leads fin Inv Err K (f a) Q) : Leads fin Inv Err K (collect f l) Q := by
  induction l with
  | nil => exact pure [] fun vs _ => none vs
  | cons a l ih =>
    have first := (h a List.mem_cons_self).frame stable
    refine (first.weaken (fun vs k => ⟨k, k⟩) fun _ _ q => q).bind fun b => ?_
    have rest := (ih fun c hc => h c (List.mem_cons_of_mem a hc)).frame (stable' b)
    refine (rest.weaken (fun vs k => ⟨k.2, k.1⟩) fun _ _ q => q).bind fun c => ?_
    exact pure _ fun vs q => both b c vs q.2 q.1

end Leads

variable (tour : Tour cfg fin Inv Err One Good)

include tour

theorem of_local {A : Type} {x : PM W A} (h : Local x) (K : List (Visit W) → Prop) :
    Leads fin Inv Err K x (fun _ => K) := by
  have grow := (grows_walk cfg).local_steps h
  obtain ⟨g, hg⟩ := h
  refine Leads.of_blind tour.stop grow (fun s inv => ?_) fun s a t run k => ?_
  · rw [hg]
    cases g (s.mem.fields, s.mem.objects) with
    | ok a m => exact tour.blind m.1 s.mem.scope m.2 inv
    | error e m => exact tour.blind m.1 s.mem.scope m.2 inv
  · rw [hg] at run
    cases h : g (s.mem.fields, s.mem.objects) with
    | ok a m =>
      rw [h] at run
      cases run
      exact k
    | error e m =>
      rw [h] at run
      cases run

theorem finish_leads (decl : Decl) (inputs : List LuaString) (listed first : Nat) :
    Leads fin Inv Err (fun vs => Fed One Good vs decl.kind listed inputs)
      (finish cfg decl inputs listed first) (fun outs vs => Good vs outs) := by
  have grow := grows_of_moves (finish_moves cfg decl inputs listed first)
  refine ⟨grow, fun s hs => ?_⟩
  have grow := grow s
  have step := tour.step decl inputs listed first s
  revert grow step
  cases finish cfg decl inputs listed first s with
  | ok outs t =>
    intro grow step grows
    have before := hs (grow.trans grows)
    exact step before.1 before.2 grows
  | error e t =>
    intro grow step grows
    have before := hs (grow.trans grows)
    exact step before.1 before.2 grows

theorem enclose {A : Type} {K : List (Visit W) → Prop} {Q : A → List (Visit W) → Prop} (self : Obj)
    {x : PM W A} (h : Leads fin Inv Err K x Q) : Leads fin Inv Err K (enclose self x) Q := by
  have push : Leads fin Inv Err K (pushScope self : PM W Unit) (fun _ => K) := by
    refine Leads.of_blind tour.stop (fun s => Grows.of_same rfl rfl) (fun s inv => ?_) ?_
    · exact tour.blind s.mem.fields (self :: s.mem.scope) s.mem.objects inv
    · intro s a t run k
      cases run
      exact k
  have pop : ∀ a, Leads fin Inv Err (Q a) (popScope : PM W Unit) (fun _ => Q a) := by
    intro a
    refine Leads.of_blind tour.stop (fun s => Grows.of_same rfl rfl) (fun s inv => ?_) ?_
    · exact tour.blind s.mem.fields s.mem.scope.tail s.mem.objects inv
    · intro s a t run k
      cases run
      exact k
  exact push.bind fun _ => h.bind fun a => (pop a).bind fun _ => Leads.pure a fun _ q => q

theorem buildString (kind : Kind) (listed : Nat) (s : LuaString) :
    Leads fin Inv Err (fun vs => listed = 0 → One vs s) (buildString cfg kind listed s)
      (fun outs vs => Good vs outs) := by
  unfold PrimeMover.buildString
  split
  · have fed : ∀ vs, (listed = 0 → One vs s) → Fed One Good vs .file listed [s] := by
      intro vs given
      unfold Fed
      rw [if_pos rfl]
      intro p hp
      cases listed with
      | zero =>
        cases List.mem_singleton.mp hp
        exact given rfl
      | succ n => simp at hp
    refine (of_local tour (Local.newObject _ _) _).bind fun self => ?_
    have count : Leads fin Inv Err (fun vs => listed = 0 → One vs s) (visitCount : PM W Nat)
        (fun _ vs => listed = 0 → One vs s) :=
      Leads.of_blind tour.stop (fun s => Grows.refl s) (fun _ inv => inv) fun _ _ _ run k => by
        cases run
        exact k
    refine count.bind fun first => ?_
    exact (finish_leads tour ⟨self, .file⟩ [s] listed first).weaken fed fun _ _ q => q
  · exact Leads.throw _ tour.stop

theorem visitCount (K : List (Visit W) → Prop) :
    Leads fin Inv Err K (visitCount : PM W Nat) (fun _ => K) :=
  Leads.of_blind tour.stop (fun s => Grows.refl s) (fun _ inv => inv) fun _ _ _ run k => by
    cases run
    exact k

/-- The loop over the children, the string of an instance and the rule of a `foreach`. -/
theorem inputs_leads (decl : Decl) (children : List Node) (rule : Option Node)
    (i : Option LuaString)
    (all : Leads fin Inv Err (fun _ => True) (buildAll cfg decl.kind children)
      (fun outs vs => Good vs outs))
    (each : ∀ s, Leads fin Inv Err (fun vs => One vs s) (buildRule cfg rule s)
      (fun outs vs => Good vs outs)) :
    Leads fin Inv Err (fun vs => ∀ p, i = some p → One vs p)
      (PrimeMover.enclose decl.obj do
        let a ← buildAll cfg decl.kind children
        let b ← PrimeMover.collect (PrimeMover.buildString cfg decl.kind 0) i.toList
        if decl.kind = .foreach then PrimeMover.collect (buildRule cfg rule) (a ++ b)
        else pure (a ++ b))
      (fun inputs vs => Good vs inputs) := by
  have given : ∀ vs vs', (∀ p, i = some p → One vs p) → vs <+: vs' → ∀ p, i = some p → One vs' p :=
    fun vs vs' known grows p hp => tour.one_mono (known p hp) grows
  apply enclose tour decl.obj
  refine ((all.frame given).weaken (fun vs known => ⟨trivial, known⟩) fun _ _ q => q).bind fun a => ?_
  have extra : Leads fin Inv Err (fun vs => ∀ p, i = some p → One vs p)
      (PrimeMover.collect (PrimeMover.buildString cfg decl.kind 0) i.toList)
      (fun b vs => Good vs b) := by
    refine Leads.collect _ given (fun b vs vs' good grows => tour.mono good grows) tour.nil
      (fun b c vs hb hc => tour.append hb hc) fun s hs => ?_
    exact (tour.buildString decl.kind 0 s).weaken
      (fun vs known _ => known s (Option.mem_toList.mp hs)) fun _ _ q => q
  have extra := extra.frame fun vs vs' (good : Good vs a) grows => tour.mono good grows
  refine (extra.weaken (fun vs known => ⟨known.2, known.1⟩) fun _ _ q => q).bind fun b => ?_
  split
  · refine (Leads.collect (a ++ b) (K := fun vs => Good vs b ∧ Good vs a) ?_
      (fun b vs vs' good grows => tour.mono good grows) tour.nil
      (fun b c vs hb hc => tour.append hb hc) fun s hs => ?_)
    · exact fun vs vs' known grows => ⟨tour.mono known.1 grows, tour.mono known.2 grows⟩
    · exact (each s).weaken (fun vs known => tour.one (tour.append known.2 known.1) hs)
        fun _ _ q => q
  · exact Leads.pure _ fun vs known => tour.append known.2 known.1

end Tour

theorem mapM_length {E A B : Type} {f : A → Except E B} {l : List A} {r : List B}
    (run : l.mapM f = .ok r) : r.length = l.length := by
  induction l generalizing r with
  | nil =>
    cases run
    rfl
  | cons a l ih =>
    rw [List.mapM_cons] at run
    cases first : f a with
    | error e =>
      rw [first] at run
      cases run
    | ok b =>
      cases rest : l.mapM f with
      | error e =>
        rw [first, rest] at run
        cases run
      | ok bs =>
        rw [first, rest] at run
        cases run
        simp [ih rest]

theorem fileInputs_drop {children : List Node} {i : Option LuaString} {inputs : List LuaString}
    (run : fileInputs children i = .ok inputs) : inputs.drop children.length = i.toList := by
  unfold fileInputs at run
  cases names : children.mapM fileName with
  | error e =>
    rw [names] at run
    cases run
  | ok texts =>
    rw [names] at run
    cases run
    rw [← mapM_length names, List.drop_left]

mutual

theorem Tour.build {cfg : Settings W} {fin : State W} {Inv Err : State W → Prop}
    {One : List (Visit W) → LuaString → Prop} {Good : List (Visit W) → List LuaString → Prop}
    (tour : Tour cfg fin Inv Err One Good) :
    ∀ (n : Node) (i : Option LuaString), Tour.Leads fin Inv Err
      (fun vs => ∀ p, i = some p → One vs p) (build cfg n i) (fun outs vs => Good vs outs)
  | .string _, _ => by
    rw [PrimeMover.build]
    exact Tour.Leads.throw _ tour.stop
  | .object decl children rule, i => by
    rw [PrimeMover.build]
    refine (tour.visitCount _).bind fun first => ?_
    refine (tour.of_local (instantiate_local decl _ _ i) _).bind fun decl' => ?_
    split
    · rename_i file
      have names : Tour.Leads fin Inv Err (fun vs => ∀ p, i = some p → One vs p)
          (except (fileInputs children i) : PM W (List LuaString))
          (fun inputs vs => Fed One Good vs decl'.kind children.length inputs) := by
        refine Tour.Leads.except _ tour.stop fun inputs run vs known => ?_
        unfold Fed
        rw [if_pos file, fileInputs_drop run]
        exact fun p hp => known p (Option.mem_toList.mp hp)
      exact names.bind fun inputs => tour.finish_leads decl' inputs _ first
    · rename_i other
      have fed : ∀ inputs vs, Good vs inputs → Fed One Good vs decl'.kind 0 inputs := by
        intro inputs vs good
        unfold Fed
        rwa [if_neg other]
      refine Tour.Leads.bind ?_ fun inputs =>
        (tour.finish_leads decl' inputs 0 first).weaken (fed inputs) fun _ _ q => q
      exact tour.inputs_leads decl' children rule i (tour.buildAll decl'.kind children)
        fun s => tour.buildRule rule s

theorem Tour.buildAll {cfg : Settings W} {fin : State W} {Inv Err : State W → Prop}
    {One : List (Visit W) → LuaString → Prop} {Good : List (Visit W) → List LuaString → Prop}
    (tour : Tour cfg fin Inv Err One Good) (kind : Kind) :
    ∀ children : List Node, Tour.Leads fin Inv Err (fun _ => True) (buildAll cfg kind children)
      (fun outs vs => Good vs outs)
  | [] => by
    rw [PrimeMover.buildAll]
    exact Tour.Leads.pure [] fun vs _ => tour.nil vs
  | child :: rest => by
    have whole : ∀ x : PM W (List LuaString), Tour.Leads fin Inv Err (fun _ => True) x
        (fun outs vs => Good vs outs) → Tour.Leads fin Inv Err (fun _ => True) (do
          let a ← x
          let b ← PrimeMover.buildAll cfg kind rest
          pure (a ++ b)) (fun outs vs => Good vs outs) := by
      intro x hx
      refine hx.bind fun a => ?_
      have more := (tour.buildAll kind rest).frame fun vs vs' (good : Good vs a) grows =>
        tour.mono good grows
      refine (more.weaken (fun vs known => ⟨trivial, known⟩) fun _ _ q => q).bind fun b => ?_
      exact Tour.Leads.pure _ fun vs known => tour.append known.2 known.1
    cases child with
    | string s =>
      rw [PrimeMover.buildAll]
      exact whole _ ((tour.buildString kind 1 s).weaken (fun vs _ none => by cases none)
        fun _ _ q => q)
    | object decl children rule =>
      rw [PrimeMover.buildAll]
      exact whole _ ((tour.build (.object decl children rule) none).weaken
        (fun vs _ p none => by cases none) fun _ _ q => q)

theorem Tour.buildRule {cfg : Settings W} {fin : State W} {Inv Err : State W → Prop}
    {One : List (Visit W) → LuaString → Prop} {Good : List (Visit W) → List LuaString → Prop}
    (tour : Tour cfg fin Inv Err One Good) : ∀ (rule : Option Node) (i : LuaString),
      Tour.Leads fin Inv Err (fun vs => One vs i) (buildRule cfg rule i)
        (fun outs vs => Good vs outs)
  | none, _ => by
    rw [PrimeMover.buildRule]
    exact Tour.Leads.throw _ tour.stop
  | some rule, i => by
    rw [PrimeMover.buildRule]
    refine (tour.build rule (some i)).weaken (fun vs known p same => ?_) fun _ _ q => q
    cases same
    exact known

end

theorem Tour.buildTargets {cfg : Settings W} {fin : State W} {Inv Err : State W → Prop}
    {One : List (Visit W) → LuaString → Prop} {Good : List (Visit W) → List LuaString → Prop}
    (tour : Tour cfg fin Inv Err One Good) (targets : List Node) :
    Tour.Leads fin Inv Err (fun _ => True) (buildTargets cfg targets) (fun _ _ => True) := by
  induction targets with
  | nil => exact Tour.Leads.pure () fun _ _ => trivial
  | cons o rest ih =>
    exact ((tour.build o none).weaken (fun vs _ p none => by cases none) fun _ _ _ => trivial).bind
      fun _ => ih

end PrimeMover
