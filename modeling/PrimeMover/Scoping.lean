import PrimeMover.Actions
import PrimeMover.Acyclic
import PrimeMover.Driver

/-! Dynamic scoping. The build with the mutable global scope does what a build does that
hands every node the chain of its enclosing objects, and a lookup on that chain gives the
nearest definition. -/
namespace PrimeMover
open Outcome

variable {W : Type}

def State.inScope (st : State W) (chain : List Obj) : State W :=
  { st with mem := { st.mem with scope := chain } }

/-- `x` with `chain` for the global scope, whatever that is. -/
def within {A : Type} (chain : List Obj) (x : PM W A) : PM W A := fun st =>
  match x (st.inScope chain) with
  | .ok a t => .ok a (t.inScope st.mem.scope)
  | .error e t => .error e (t.inScope st.mem.scope)

mutual

/-- The build with the enclosing objects as an argument: the steps of a node see the
chain of its parent, the parent's parent and so on, and the children one link more. -/
def buildIn (cfg : Settings W) (chain : List Obj) : Node → Option LuaString → PM W (List LuaString)
  | .string _, _ => throw (luaerror "attempt to index a string value".toList)
  | .object decl children rule, i => do
    let first ← visitCount
    let decl ← instantiate decl children.length rule.isSome i
    if decl.kind = .file then
      let inputs ← except (fileInputs children i)
      within chain (finish cfg decl inputs children.length first)
    else
      let inputs ← (do
        let a ← buildAllIn cfg (decl.obj :: chain) decl.kind children
        let b ← collect (fun s => within (decl.obj :: chain) (buildString cfg decl.kind 0 s)) i.toList
        if decl.kind = .foreach then collect (buildRuleIn cfg (decl.obj :: chain) rule) (a ++ b)
        else pure (a ++ b))
      within chain (finish cfg decl inputs 0 first)

def buildAllIn (cfg : Settings W) (chain : List Obj) (kind : Kind) :
    List Node → PM W (List LuaString)
  | [] => pure []
  | child :: rest => do
    let a ←
      match child with
      | .string s => within chain (buildString cfg kind 1 s)
      | .object .. => buildIn cfg chain child none
    let b ← buildAllIn cfg chain kind rest
    pure (a ++ b)

def buildRuleIn (cfg : Settings W) (chain : List Obj) :
    Option Node → LuaString → PM W (List LuaString)
  | none, _ => throw (luaerror "attempt to call field `rule' (a nil value)".toList)
  | some rule, i => buildIn cfg chain rule (some i)

end

/-- Equal results, and equal states but for the scope, which the second run has kept. -/
def Agree {A : Type} (c s : List Obj) :
    EStateM.Result Stop (State W) A → EStateM.Result Stop (State W) A → Prop
  | .ok a t, .ok b u => a = b ∧ t.mem.scope = c ∧ u = t.inScope s
  | .error e t, .error f u => e = f ∧ u = t.inScope s
  | _, _ => False

/-- `x` run in the global scope `c` does what `y` does in any scope. -/
def Scoped {A : Type} (c : List Obj) (x y : PM W A) : Prop :=
  ∀ st s, st.mem.scope = c → Agree c s (x st) (y (st.inScope s))

namespace Scoped

variable {A B : Type} {c : List Obj}

theorem pure (a : A) : Scoped c (pure a : PM W A) (pure a) :=
  fun _ _ h => ⟨rfl, h, rfl⟩

theorem throw (e : Stop) : Scoped c (throw e : PM W A) (throw e) :=
  fun _ _ _ => ⟨rfl, rfl⟩

theorem bind {x y : PM W A} {f g : A → PM W B} (hx : Scoped c x y)
    (hf : ∀ a, Scoped c (f a) (g a)) : Scoped c (x >>= f) (y >>= g) := by
  intro st s hs
  have first := hx st s hs
  rw [bind_run, bind_run]
  cases h : x st with
  | ok a t =>
    cases h' : y (st.inScope s) with
    | ok b u =>
      rw [h, h'] at first
      obtain ⟨rfl, ht, rfl⟩ := first
      exact hf a t s ht
    | error f u =>
      rw [h, h'] at first
      exact first.elim
  | error e t =>
    cases h' : y (st.inScope s) with
    | ok b u =>
      rw [h, h'] at first
      exact first.elim
    | error f u =>
      rw [h, h'] at first
      exact first

theorem collect {f g : A → PM W (List B)} (l : List A) (h : ∀ a ∈ l, Scoped c (f a) (g a)) :
    Scoped c (collect f l) (collect g l) := by
  induction l with
  | nil => exact pure []
  | cons a l ih =>
    refine (h a List.mem_cons_self).bind fun r => bind ?_ fun t => pure (r ++ t)
    exact ih fun b hb => h b (List.mem_cons_of_mem a hb)

theorem of_blind {x : PM W A}
    (blind : ∀ st s, match x st with
      | .ok a t => x (st.inScope s) = .ok a (t.inScope s) ∧ t.mem.scope = st.mem.scope
      | .error e t => x (st.inScope s) = .error e (t.inScope s)) : Scoped c x x := by
  intro st s hs
  have h := blind st s
  cases hx : x st with
  | ok a t =>
    rw [hx] at h
    rw [h.1]
    exact ⟨rfl, h.2.trans hs, rfl⟩
  | error e t =>
    rw [hx] at h
    rw [h]
    exact ⟨rfl, rfl⟩

theorem except (r : Except Stop A) : Scoped c (except r : PM W A) (except r) := by
  cases r with
  | ok a => exact pure a
  | error e => exact throw e

theorem getField (o : Obj) (key : LuaString) :
    Scoped c (getField o key : PM W _) (getField o key) :=
  of_blind fun _ _ => ⟨rfl, rfl⟩

theorem setField (o : Obj) (key : LuaString) (v : Value) :
    Scoped c (setField o key v : PM W _) (setField o key v) :=
  of_blind fun _ _ => ⟨rfl, rfl⟩

theorem failNode (o : Obj) (message : LuaString) :
    Scoped c (failNode o message : PM W A) (failNode o message) :=
  of_blind fun _ _ => rfl

theorem visitCount : Scoped c (visitCount : PM W Nat) visitCount :=
  of_blind fun _ _ => ⟨rfl, rfl⟩

/-- The children see one object more. -/
theorem enclose {x y : PM W A} (self : Obj) (h : Scoped (self :: c) x y) :
    Scoped c (enclose self x) y := by
  intro st s hs
  have inner := h (st.inScope (self :: c)) s rfl
  have run : PrimeMover.enclose self x st =
      match x (st.inScope (self :: c)) with
      | .ok a t => .ok a (t.inScope t.mem.scope.tail)
      | .error e t => .error e t := by
    have push : pushScope self st = .ok () (st.inScope (self :: c)) := by
      rw [← hs]
      rfl
    rw [PrimeMover.enclose, bind_ok_run push, bind_run]
    cases x (st.inScope (self :: c)) <;> rfl
  rw [run]
  rw [show (st.inScope (self :: c)).inScope s = st.inScope s from rfl] at inner
  cases hx : x (st.inScope (self :: c)) with
  | ok a t =>
    cases hy : y (st.inScope s) with
    | ok b u =>
      rw [hx, hy] at inner
      obtain ⟨rfl, ht, rfl⟩ := inner
      exact ⟨rfl, by rw [ht]; rfl, rfl⟩
    | error f u =>
      rw [hx, hy] at inner
      exact inner.elim
  | error e t =>
    cases hy : y (st.inScope s) with
    | ok b u =>
      rw [hx, hy] at inner
      exact inner.elim
    | error f u =>
      rw [hx, hy] at inner
      exact inner

/-- The steps of a node see the chain that is the global scope. -/
theorem steps {x : PM W A} (keeps : Keeps (fun st : State W => st.mem.scope = c) x) :
    Scoped c x (within c x) := by
  intro st s hs
  have kept := keeps st hs
  have same : (st.inScope s).inScope c = st := by
    subst hs
    rfl
  unfold within
  rw [same]
  cases hx : x st with
  | ok a t =>
    rw [hx] at kept
    exact ⟨rfl, kept, rfl⟩
  | error e t => exact ⟨rfl, rfl⟩

end Scoped

theorem naming_scope {cfg : Settings W} {self : Obj} {st st' : State W}
    (step : Naming cfg self st st') : st'.mem.scope = st.mem.scope := by
  cases step <;> rfl

theorem action_scope {cfg : Settings W} {self : Obj} {st st' : State W}
    (step : Action cfg self st st') : st'.mem.scope = st.mem.scope := by
  cases step with
  | naming _ step => exact naming_scope step
  | stamping _ step => cases step <;> rfl
  | invoking _ step => cases step <;> rfl
  | visit | touch => rfl

theorem finish_scope (cfg : Settings W) (decl : Decl) (inputs : List LuaString)
    (listed first : Nat) (c : List Obj) :
    Keeps (fun st : State W => st.mem.scope = c) (finish cfg decl inputs listed first) :=
  (finish_moves cfg decl inputs listed first).keeps
    fun _ _ step same => (action_scope step).trans same

theorem Scoped.of_local {A : Type} {c : List Obj} {x : PM W A} (h : Local x) : Scoped c x x := by
  obtain ⟨g, hg⟩ := h
  apply Scoped.of_blind
  intro st s
  rw [hg, hg]
  have same : ((st.inScope s).mem.fields, (st.inScope s).mem.objects) =
      (st.mem.fields, st.mem.objects) := rfl
  rw [same]
  cases g (st.mem.fields, st.mem.objects) with
  | ok a m => exact ⟨rfl, rfl⟩
  | error e m => rfl

theorem buildFile_scope (cfg : Settings W) (listed : Nat) (s : LuaString) (c : List Obj) :
    Keeps (fun st : State W => st.mem.scope = c) (buildFile cfg listed s) := by
  refine Keeps.bind (fun st hs => hs) fun self => Keeps.bind (fun st hs => hs) fun first => ?_
  exact finish_scope cfg ⟨self, .file⟩ [s] listed first c

theorem buildString_scope (cfg : Settings W) (kind : Kind) (listed : Nat) (s : LuaString)
    (c : List Obj) :
    Keeps (fun st : State W => st.mem.scope = c) (buildString cfg kind listed s) := by
  unfold buildString
  split
  · exact buildFile_scope cfg listed s c
  · exact Keeps.throw _

mutual

theorem build_scoped (cfg : Settings W) (c : List Obj) :
    ∀ (n : Node) (i : Option LuaString), Scoped c (build cfg n i) (buildIn cfg c n i)
  | .string _, _ => Scoped.throw _
  | .object decl children rule, i => by
    rw [build, buildIn]
    refine Scoped.visitCount.bind fun first => ?_
    refine (Scoped.of_local (instantiate_local decl _ _ i)).bind fun decl' => ?_
    split
    · refine (Scoped.except _).bind fun inputs => ?_
      exact Scoped.steps (finish_scope cfg decl' inputs _ first c)
    · refine Scoped.bind (Scoped.enclose decl'.obj ?_) fun inputs =>
        Scoped.steps (finish_scope cfg decl' inputs 0 first c)
      refine (buildAll_scoped cfg (decl'.obj :: c) decl'.kind children).bind fun a => ?_
      refine (Scoped.collect _ fun s _ =>
        Scoped.steps (buildString_scope cfg decl'.kind 0 s _)).bind fun b => ?_
      split
      · exact Scoped.collect _ fun s _ => buildRule_scoped cfg (decl'.obj :: c) rule s
      · exact Scoped.pure _

theorem buildAll_scoped (cfg : Settings W) (c : List Obj) (kind : Kind) :
    ∀ children : List Node, Scoped c (buildAll cfg kind children) (buildAllIn cfg c kind children)
  | [] => Scoped.pure []
  | child :: rest => by
    cases child with
    | string s =>
      rw [buildAll, buildAllIn]
      refine (Scoped.steps (buildString_scope cfg kind 1 s c)).bind fun a => ?_
      exact (buildAll_scoped cfg c kind rest).bind fun b => Scoped.pure _
    | object decl children rule =>
      rw [buildAll, buildAllIn]
      refine (build_scoped cfg c (.object decl children rule) none).bind fun a => ?_
      exact (buildAll_scoped cfg c kind rest).bind fun b => Scoped.pure _

theorem buildRule_scoped (cfg : Settings W) (c : List Obj) :
    ∀ (rule : Option Node) (i : LuaString),
      Scoped c (buildRule cfg rule i) (buildRuleIn cfg c rule i)
  | none, _ => Scoped.throw _
  | some rule, i => build_scoped cfg c rule (some i)

end

theorem finish_lookups (cfg : Settings W) (decl : Decl) (inputs : List LuaString)
    (listed first : Nat) (st : State W) :
    ∃ ls, (final (finish cfg decl inputs listed first st)).lookups = st.lookups ++ ls ∧
      ∀ p ∈ ls, p = (decl.obj, st.mem.scope) := by
  let Own (st st' : State W) : Prop := st'.mem.scope = st.mem.scope ∧
    ∃ ls, st'.lookups = st.lookups ++ ls ∧ ∀ p ∈ ls, p = (decl.obj, st.mem.scope)
  have still : ∀ st st' : State W, st'.mem.scope = st.mem.scope → st'.lookups = st.lookups →
      Own st st' := fun st st' scope same => ⟨scope, [], by simp [same], by simp⟩
  have look : ∀ st : State W, Own st (st.look decl.obj) := fun st =>
    ⟨rfl, [(decl.obj, st.mem.scope)], rfl, by simp⟩
  have one : ∀ st st' : State W, Action cfg decl.obj st st' → Own st st' := by
    intro st st' step
    cases step with
    | naming _ step =>
      cases step with
      | look => exact look st
      | field | issue | save | mkdir => exact still _ _ rfl rfl
    | stamping _ step =>
      cases step with
      | look => exact look st
      | cache => exact still _ _ rfl rfl
    | invoking _ step =>
      cases step with
      | look => exact look st
      | call w => exact look st
      | mkdir | trace | execute | result | place => exact still _ _ rfl rfl
    | visit | touch => exact still _ _ rfl rfl
  have all : Own st (final (finish cfg decl inputs listed first st)) := by
    refine path_keeps (P := fun st' => Own st st') ?_ (finish_moves cfg decl inputs listed first st)
      (still st st rfl rfl)
    rintro s t step ⟨scope, ls, hls, own⟩
    obtain ⟨scope', ms, hms, own'⟩ := one s t step
    refine ⟨scope'.trans scope, ls ++ ms, by rw [hms, hls, List.append_assoc], ?_⟩
    intro p hp
    rcases List.mem_append.mp hp with hp | hp
    · exact own p hp
    · rw [own' p hp, scope]
  exact all.2

/-- A value that is neither an extension nor a redirection. -/
def Plain : Value → Prop
  | .list (.parent :: _) => False
  | .list (.redirect :: _) => False
  | _ => True

/-- What a key means on the objects of a chain, the nearest first. A redirection starts
again at `self`, in the chain of `self` and its scope. -/
inductive Resolves (fields : Fields) (self : Obj) (scope : List Obj) :
    List Obj → LuaString → Option Value → Prop where
  | absent (key : LuaString) : Resolves fields self scope [] key none
  | outward (o : Obj) (next : List Obj) (key : LuaString) (r : Option Value)
      (silent : truthy (rawget fields o key) = none)
      (rest : Resolves fields self scope next key r) :
      Resolves fields self scope (o :: next) key r
  | nearest (o : Obj) (next : List Obj) (key : LuaString) (v : Value)
      (found : truthy (rawget fields o key) = some v) (plain : Plain v) :
      Resolves fields self scope (o :: next) key (some v)
  | extend (o : Obj) (next : List Obj) (key : LuaString) (items : List Value) (r : Option Value)
      (found : truthy (rawget fields o key) = some (.list (.parent :: items)))
      (rest : Resolves fields self scope next key r) :
      Resolves fields self scope (o :: next) key
        (some (.list (spliced r ++ items.filter (fun v => !v.isParent))))
  | redirect (o : Obj) (next : List Obj) (key target : LuaString) (items : List Value)
      (r : Option Value)
      (found : truthy (rawget fields o key) = some (.list (.redirect :: .str target :: items)))
      (upper : capital target = true)
      (again : Resolves fields self scope (self :: scope) target r) :
      Resolves fields self scope (o :: next) key r
  | redirectOwn (o : Obj) (next : List Obj) (key target : LuaString) (items : List Value)
      (found : truthy (rawget fields o key) = some (.list (.redirect :: .str target :: items)))
      (named : target ≠ []) (own : capital target = false) :
      Resolves fields self scope (o :: next) key (rawget fields self target)

theorem capital_nonempty {key : LuaString} (h : capital key = true) : key ≠ [] := by
  rintro rfl
  cases h

/-- What `node:__index` calls on a redirected key. -/
def again (fields : Fields) (scope : List Obj) (self : Obj) :
    Nat → LuaString → Except Stop (Option Value)
  | 0 => fun _ => .error .diverges
  | fuel + 1 => index fields scope self fuel

theorem index_again (fields : Fields) (scope : List Obj) (self : Obj) (fuel : Nat) :
    index fields scope self fuel =
      indexStep fields scope self (again fields scope self fuel) := by
  cases fuel <;> rfl

/-- The walk of `node:__index` along a chain. -/
def walk (fields : Fields) (scope : List Obj) (self : Obj) (fuel : Nat) (key : LuaString)
    (chain : List Obj) : Except Stop (Option Value) :=
  recurse fields (restart (again fields scope self fuel)) key chain

theorem index_capital (fields : Fields) (scope : List Obj) (self : Obj) (fuel : Nat)
    {key : LuaString} (upper : capital key = true) :
    index fields scope self fuel key = walk fields scope self fuel key (self :: scope) := by
  cases fuel <;> simp [index, indexStep, capital_nonempty upper, upper, walk, again]

theorem index_own (fields : Fields) (scope : List Obj) (self : Obj) (fuel : Nat)
    {key : LuaString} (named : key ≠ []) (own : capital key = false) :
    index fields scope self fuel key = .ok (rawget fields self key) := by
  cases fuel <;> simp [index, indexStep, named, own]

theorem classify_plain {v : Value} (plain : Plain v) : classify (some v) = .value v := by
  cases v with
  | list vs =>
    cases vs with
    | nil => rfl
    | cons w ws => cases w <;> first | rfl | exact plain.elim
  | _ => rfl

theorem walk_resolves {fields : Fields} {scope chain : List Obj} {self : Obj} {key : LuaString}
    {r : Option Value} (h : Resolves fields self scope chain key r) :
    ∃ n, ∀ fuel, n ≤ fuel → walk fields scope self fuel key chain = .ok r := by
  induction h with
  | absent key => exact ⟨0, fun fuel _ => rfl⟩
  | outward o next key r silent rest ih =>
    obtain ⟨n, hn⟩ := ih
    refine ⟨n, fun fuel enough => ?_⟩
    rw [walk, recurse, silent]
    exact hn fuel enough
  | nearest o next key v found plain =>
    refine ⟨0, fun fuel _ => ?_⟩
    rw [walk, recurse, found, classify_plain plain]
  | extend o next key items r found rest ih =>
    obtain ⟨n, hn⟩ := ih
    refine ⟨n, fun fuel enough => ?_⟩
    have inner := hn fuel enough
    rw [walk] at inner ⊢
    rw [recurse, found]
    simp only [classify, inner]
    rfl
  | redirect o next key target items r found upper again ih =>
    obtain ⟨n, hn⟩ := ih
    refine ⟨n + 1, fun fuel enough => ?_⟩
    rw [walk, recurse, found]
    cases fuel with
    | zero => omega
    | succ fuel =>
      change index fields scope self fuel target = .ok r
      rw [index_capital fields scope self fuel upper]
      exact hn fuel (by omega)
  | redirectOwn o next key target items found named own =>
    refine ⟨1, fun fuel enough => ?_⟩
    rw [walk, recurse, found]
    cases fuel with
    | zero => omega
    | succ fuel =>
      change index fields scope self fuel target = .ok _
      exact index_own fields scope self fuel named own

/-- One value sends a key on to another. -/
def Redirects (fields : Fields) (chain : List Obj) (key target : LuaString) : Prop :=
  ∃ o ∈ chain, ∃ items,
    truthy (rawget fields o key) = some (.list (.redirect :: .str target :: items))

/-- Redirections name keys, finitely many keys are redirected, and none to itself through
others. -/
structure RedirectsOk (fields : Fields) (chain : List Obj) : Prop where
  named : ∀ o ∈ chain, ∀ key items,
    truthy (rawget fields o key) = some (.list (.redirect :: items)) →
    ∃ target rest, items = .str target :: rest ∧ target ≠ []
  finite : ∃ keys : List LuaString, ∀ key target, Redirects fields chain key target → key ∈ keys
  acyclic : ∀ key, ¬ Relation.TransGen (Redirects fields chain) key key

theorem RedirectsOk.wellFounded {fields : Fields} {chain : List Obj}
    (ok : RedirectsOk fields chain) :
    WellFounded (fun target key => Redirects fields chain key target) := by
  obtain ⟨keys, finite⟩ := ok.finite
  exact Acyclic.wellFounded keys.toFinset (fun key target h => List.mem_toFinset.mpr
    (finite key target h)) ok.acyclic

/-- Every scoped key means something, on every part of the chain. -/
theorem exists_resolves {fields : Fields} {self : Obj} {scope : List Obj}
    (ok : RedirectsOk fields (self :: scope)) (key : LuaString) :
    ∀ chain, (∀ o ∈ chain, o ∈ self :: scope) → ∃ r, Resolves fields self scope chain key r := by
  induction key using ok.wellFounded.induction with
  | _ key ih =>
    intro chain
    induction chain with
    | nil =>
      intro _
      exact ⟨none, .absent key⟩
    | cons o next ihNext =>
      intro part
      obtain ⟨r, rest⟩ := ihNext fun p hp => part p (List.mem_cons_of_mem o hp)
      cases found : truthy (rawget fields o key) with
      | none => exact ⟨r, .outward o next key r found rest⟩
      | some v =>
        by_cases plain : Plain v
        · exact ⟨some v, .nearest o next key v found plain⟩
        · have shape : (∃ items, v = .list (.parent :: items)) ∨
              ∃ items, v = .list (.redirect :: items) := by
            cases v with
            | list vs =>
              cases vs with
              | nil => exact absurd trivial plain
              | cons w ws =>
                cases w with
                | parent => exact Or.inl ⟨ws, rfl⟩
                | redirect => exact Or.inr ⟨ws, rfl⟩
                | _ => exact absurd trivial plain
            | _ => exact absurd trivial plain
          rcases shape with ⟨items, rfl⟩ | ⟨items, rfl⟩
          · exact ⟨_, .extend o next key items r found rest⟩
          · have here := part o List.mem_cons_self
            obtain ⟨target, rest', rfl, named⟩ := ok.named o here key items found
            cases upper : capital target with
            | false => exact ⟨_, .redirectOwn o next key target rest' found named upper⟩
            | true =>
              obtain ⟨r', again⟩ := ih target ⟨o, here, rest', found⟩ (self :: scope) fun _ h => h
              exact ⟨r', .redirect o next key target rest' r' found upper again⟩

/-- The lookup finds what a key means, and a key means one thing. -/
theorem index_resolves {fields : Fields} {self : Obj} {scope : List Obj} {key : LuaString}
    {r : Option Value} (upper : capital key = true)
    (h : Resolves fields self scope (self :: scope) key r) :
    ∃ n, ∀ fuel, n ≤ fuel → index fields scope self fuel key = .ok r := by
  obtain ⟨n, hn⟩ := walk_resolves h
  refine ⟨n, fun fuel enough => ?_⟩
  rw [index_capital fields scope self fuel upper]
  exact hn fuel enough

theorem build_scope {cfg : Settings W} {n : Node} {i : Option LuaString} {st st' : State W}
    {outs : List LuaString} (run : build cfg n i st = .ok outs st') :
    st'.mem.scope = st.mem.scope := by
  have agree := build_scoped cfg st.mem.scope n i st [] rfl
  rw [run] at agree
  cases h : buildIn cfg st.mem.scope n i (st.inScope []) with
  | ok b u =>
    rw [h] at agree
    exact agree.2.1
  | error f u =>
    rw [h] at agree
    exact agree.elim

/-- The build is the build that passes the enclosing objects down; the steps of a node
look up names on the node and its chain only; the scope comes back; and a name on a chain
is its nearest definition. -/
theorem dynamic_scoping (cfg : Settings W) :
    (∀ (n : Node) (i : Option LuaString) (st : State W) (s : List Obj),
      Agree st.mem.scope s (build cfg n i st) (buildIn cfg st.mem.scope n i (st.inScope s))) ∧
    (∀ (decl : Decl) (inputs : List LuaString) (listed first : Nat) (st : State W),
      ∃ ls, (final (finish cfg decl inputs listed first st)).lookups = st.lookups ++ ls ∧
        ∀ p ∈ ls, p = (decl.obj, st.mem.scope)) ∧
    (∀ (n : Node) (i : Option LuaString) (st st' : State W) (outs : List LuaString),
      build cfg n i st = .ok outs st' → st'.mem.scope = st.mem.scope) ∧
    ∀ (fields : Fields) (self : Obj) (scope : List Obj) (key : LuaString),
      capital key = true → RedirectsOk fields (self :: scope) →
      ∃ r, (∀ r', Resolves fields self scope (self :: scope) key r' ↔ r' = r) ∧
        ∃ n, ∀ fuel, n ≤ fuel → index fields scope self fuel key = .ok r := by
  refine ⟨?_, ?_, ?_, ?_⟩
  · intro n i st s
    exact build_scoped cfg st.mem.scope n i st s rfl
  · exact finish_lookups cfg
  · intro n i st st' outs run
    exact build_scope run
  · intro fields self scope key upper ok
    obtain ⟨r, means⟩ := exists_resolves ok key (self :: scope) fun _ h => h
    obtain ⟨n, hn⟩ := index_resolves upper means
    refine ⟨r, fun r' => ⟨fun means' => ?_, fun same => same ▸ means⟩, n, hn⟩
    obtain ⟨n', hn'⟩ := index_resolves upper means'
    have := (hn (max n n') (Nat.le_max_left _ _)).symm.trans (hn' (max n n') (Nat.le_max_right _ _))
    injection this with same
    exact same.symm

section Examples

/-- A program that is compiled with flags of its own. -/
def program : Obj := ⟨2, [("CFLAGS".toList, .list [.parent, .str "-g".toList])]⟩

def allPrograms : Obj := ⟨1, [("CFLAGS".toList, .list [.str "-O".toList])]⟩

theorem truthy_some {v : Option Value} {w : Value} (h : truthy v = some w) : v = some w := by
  unfold truthy at h
  split at h
  · cases h
  · exact h

theorem redirectsOk_of_props (chain : List Obj)
    (direct : ∀ o ∈ chain, ∀ e ∈ o.props, ∀ items, e.2 ≠ .list (.redirect :: items)) :
    RedirectsOk (fun _ _ => none) chain := by
  have none : ∀ o ∈ chain, ∀ key items,
      truthy (rawget (fun _ _ => none) o key) ≠ some (.list (.redirect :: items)) := by
    intro o ho key items found
    have entry : o.props.lookup key = some _ := truthy_some found
    exact direct o ho _ (AssocTable.mem_of_lookup entry) items rfl
  refine ⟨?_, ⟨[], ?_⟩, ?_⟩
  · intro o ho key items found
    exact absurd found (none o ho key items)
  · rintro key target ⟨o, ho, items, found⟩
    exact absurd found (none o ho key _)
  · intro key cycle
    obtain ⟨target, ⟨o, ho, items, found⟩, _⟩ := Relation.TransGen.head'_iff.mp cycle
    exact none o ho key _ found

theorem flags_in_scope :
    (∃ st' : State Desk, build (Desk.settings (fun _ => ⟨0, [], []⟩) 4)
      (.object ⟨allPrograms, .group⟩ [] none) none (start ⟨0, [], []⟩ sandboxVariables 3) =
        .ok [] st' ∧ st'.mem.scope = [sandboxVariables]) ∧
    ∃ r, (∀ r', Resolves (fun _ _ => none) program [allPrograms, sandboxVariables]
        [program, allPrograms, sandboxVariables] "CFLAGS".toList r' ↔ r' = r) ∧
      ∃ n, ∀ fuel, n ≤ fuel → index (fun _ _ => none) [allPrograms, sandboxVariables] program
        fuel "CFLAGS".toList = .ok r := by
  have scoping := dynamic_scoping (Desk.settings (fun _ => ⟨0, [], []⟩) 4)
  constructor
  · obtain ⟨st', run⟩ : ∃ st', build (Desk.settings (fun _ => ⟨0, [], []⟩) 4)
        (.object ⟨allPrograms, .group⟩ [] none) none (start ⟨0, [], []⟩ sandboxVariables 3) =
          .ok [] st' := ⟨_, rfl⟩
    exact ⟨st', run, scoping.2.2.1 _ _ _ _ _ run⟩
  · apply scoping.2.2.2 _ _ _ _ rfl
    apply redirectsOk_of_props
    simp only [program, allPrograms, sandboxVariables, List.forall_mem_cons, List.not_mem_nil,
      false_imp_iff, implies_true, and_true]
    simp

end Examples

end PrimeMover
