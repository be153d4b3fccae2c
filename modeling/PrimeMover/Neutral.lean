import PrimeMover.Clause
import PrimeMover.Scoping
import PrimeMover.Selector

/-! Levels of the scope that define a key as `{PARENT}` and no more. The lookup copies what it
finds further out, and the copy of EMPTY is a table of its own. -/
namespace PrimeMover
open LuaPattern

variable {W : Type}

section Fuel

variable {fields : Fields} {scope : List Obj} {self : Obj} {key : LuaString}

theorem recurse_mono {f g : Option Value → Except Stop (Option Value)}
    (more : ∀ k r, f k = .ok r → g k = .ok r) {chain : List Obj} {r : Option Value}
    (run : recurse fields f key chain = .ok r) : recurse fields g key chain = .ok r := by
  induction chain generalizing r with
  | nil => exact run
  | cons o next ih =>
    rw [recurse] at run ⊢
    cases found : classify (truthy (rawget fields o key)) with
    | absent =>
      rw [found] at run
      exact ih run
    | extend items =>
      rw [found] at run
      cases rest : recurse fields f key next with
      | error e =>
        simp only [rest, bind, Except.bind] at run
        cases run
      | ok parent =>
        simp only [rest, bind, Except.bind] at run
        simp only [ih rest, bind, Except.bind]
        exact run
    | restart k =>
      rw [found] at run
      exact more k r run
    | value v =>
      rw [found] at run
      exact run

theorem restart_mono {f g : LuaString → Except Stop (Option Value)}
    (more : ∀ k r, f k = .ok r → g k = .ok r) (k : Option Value) (r : Option Value)
    (run : restart f k = .ok r) : restart g k = .ok r := by
  unfold restart at run ⊢
  split at run
  · exact more _ r run
  · cases run

theorem indexStep_mono {f g : LuaString → Except Stop (Option Value)}
    (more : ∀ k r, f k = .ok r → g k = .ok r) {r : Option Value}
    (run : indexStep fields scope self f key = .ok r) :
    indexStep fields scope self g key = .ok r := by
  unfold indexStep at run ⊢
  by_cases empty : key = []
  · rw [if_pos empty] at run
    cases run
  · rw [if_neg empty] at run ⊢
    by_cases upper : capital key
    · rw [if_pos upper] at run ⊢
      exact recurse_mono (restart_mono more) run
    · rw [if_neg upper] at run ⊢
      exact run

/-- What a lookup finds with some fuel it finds with more. -/
theorem again_mono {n m : Nat} (le : n ≤ m) (k : LuaString) (r : Option Value)
    (run : again fields scope self n k = .ok r) : again fields scope self m k = .ok r := by
  induction n generalizing m k r with
  | zero => cases run
  | succ n ih =>
    cases m with
    | zero => omega
    | succ m =>
      change index fields scope self n k = .ok r at run
      change index fields scope self m k = .ok r
      rw [index_again] at run ⊢
      exact indexStep_mono (fun k r => ih (by omega) k r) run

theorem walk_mono {n m : Nat} (le : n ≤ m) {chain : List Obj} {r : Option Value}
    (run : walk fields scope self n key chain = .ok r) :
    walk fields scope self m key chain = .ok r :=
  recurse_mono (restart_mono (again_mono le)) run

end Fuel

section Chain

variable {fields : Fields} {f : Option Value → Except Stop (Option Value)} {key : LuaString}
  {level : Obj}

theorem recurse_silent (us ws : List Obj)
    (silent : ∀ o ∈ us, truthy (rawget fields o key) = none) :
    recurse fields f key (us ++ ws) = recurse fields f key ws := by
  induction us with
  | nil => rfl
  | cons o us ih =>
    rw [List.cons_append, recurse, silent o List.mem_cons_self]
    exact ih fun p hp => silent p (List.mem_cons_of_mem o hp)

theorem recurse_skip (silent : truthy (rawget fields level key) = none) (us ws : List Obj) :
    recurse fields f key (us ++ level :: ws) = recurse fields f key (us ++ ws) := by
  induction us with
  | nil =>
    rw [List.nil_append, recurse, silent]
    rfl
  | cons o us ih =>
    rw [List.cons_append, List.cons_append, recurse, recurse, ih]

theorem absent_of_classify {v : Option Value} (found : classify v = .absent) : v = none := by
  unfold classify at found
  split at found
  · rfl
  · cases found
  · cases found
  · cases found

/-- A list that extends what is further out depends only on the items it splices. -/
theorem recurse_extend {o : Obj} {items : List Value}
    (found : classify (truthy (rawget fields o key)) = .extend items) (next : List Obj) :
    recurse fields f key (o :: next) = ((recurse fields f key next).map spliced).map fun vs =>
      some (.list (vs ++ items.filter fun v => !v.isParent)) := by
  rw [recurse, found]
  cases rest : recurse fields f key next with
  | error e => rfl
  | ok v => rfl

theorem recurse_parent (parent : rawget fields level key = some (.list [.parent])) (ws : List Obj) :
    recurse fields f key (level :: ws) =
      ((recurse fields f key ws).map spliced).map fun vs => some (.list vs) := by
  have found : classify (truthy (rawget fields level key)) = .extend [] := by
    rw [parent]
    rfl
  simpa using recurse_extend found ws

theorem spliced_parent (parent : rawget fields level key = some (.list [.parent]))
    (us ws : List Obj) : (recurse fields f key (us ++ level :: ws)).map spliced =
      (recurse fields f key (us ++ ws)).map spliced := by
  induction us with
  | nil =>
    rw [List.nil_append, List.nil_append, recurse_parent parent]
    cases recurse fields f key ws with
    | error e => rfl
    | ok v => rfl
  | cons o us ih =>
    rw [List.cons_append, List.cons_append]
    cases found : classify (truthy (rawget fields o key)) with
    | absent =>
      rw [recurse, recurse, found]
      exact ih
    | extend items => rw [recurse_extend found, recurse_extend found, ih]
    | restart k => rw [recurse, recurse, found]
    | value v => rw [recurse, recurse, found]

/-- Behind a level that defines the key the new level makes no difference. -/
theorem recurse_behind (parent : rawget fields level key = some (.list [.parent]))
    (us ws : List Obj) (above : ∃ o ∈ us, (truthy (rawget fields o key)).isSome) :
    recurse fields f key (us ++ level :: ws) = recurse fields f key (us ++ ws) := by
  induction us with
  | nil =>
    obtain ⟨o, member, _⟩ := above
    cases member
  | cons o us ih =>
    rw [List.cons_append, List.cons_append]
    cases found : classify (truthy (rawget fields o key)) with
    | absent =>
      rw [recurse, recurse, found]
      apply ih
      obtain ⟨p, member, defines⟩ := above
      rcases List.mem_cons.mp member with rfl | member
      · rw [absent_of_classify found] at defines
        cases defines
      · exact ⟨p, member, defines⟩
    | extend items =>
      rw [recurse_extend found, recurse_extend found, spliced_parent parent]
    | restart k => rw [recurse, recurse, found]
    | value v => rw [recurse, recurse, found]

end Chain

/-- Equal, but for a new list without items in place of EMPTY. -/
def Copied (r r' : Except Stop (Option Value)) : Prop :=
  r' = r ∨ (r = .ok (some .empty) ∧ r' = .ok (some (.list [])))

theorem Copied.spliced_same {r r' : Except Stop (Option Value)} (copied : Copied r r') :
    r'.map spliced = r.map spliced := by
  rcases copied with rfl | ⟨rfl, rfl⟩ <;> rfl

section Copies

variable {fields : Fields} {f g : Option Value → Except Stop (Option Value)} {key : LuaString}
  {level : Obj}

theorem recurse_copied (restarts : ∀ k, Copied (f k) (g k)) (chain : List Obj) :
    Copied (recurse fields f key chain) (recurse fields g key chain) := by
  induction chain with
  | nil => exact Or.inl rfl
  | cons o next ih =>
    cases found : classify (truthy (rawget fields o key)) with
    | absent =>
      rw [recurse, recurse, found]
      exact ih
    | extend items =>
      rw [recurse_extend found, recurse_extend found, ih.spliced_same]
      exact Or.inl rfl
    | restart k =>
      rw [recurse, recurse, found]
      exact restarts k
    | value v =>
      rw [recurse, recurse, found]
      exact Or.inl rfl

/-- What the new level finds is a table: EMPTY or a list. -/
def FindsTable (r : Except Stop (Option Value)) : Prop :=
  ∀ v, r = .ok v → v = some .empty ∨ ∃ vs, v = some (.list vs)

theorem parent_copied (parent : rawget fields level key = some (.list [.parent]))
    (restarts : ∀ k, Copied (f k) (g k)) (ws : List Obj)
    (table : FindsTable (recurse fields f key ws)) :
    Copied (recurse fields f key ws) (recurse fields g key (level :: ws)) := by
  rw [recurse_parent parent, (recurse_copied restarts ws).spliced_same]
  cases found : recurse fields f key ws with
  | error e => exact Or.inl rfl
  | ok r =>
    rcases table r found with rfl | ⟨vs, rfl⟩
    · exact Or.inr ⟨rfl, rfl⟩
    · exact Or.inl rfl

theorem inserted_copied (parent : rawget fields level key = some (.list [.parent]))
    (restarts : ∀ k, Copied (f k) (g k)) (us ws : List Obj)
    (table : FindsTable (recurse fields f key ws)) :
    Copied (recurse fields f key (us ++ ws)) (recurse fields g key (us ++ level :: ws)) := by
  induction us with
  | nil => exact parent_copied parent restarts ws table
  | cons o us ih =>
    rw [List.cons_append, List.cons_append]
    cases found : classify (truthy (rawget fields o key)) with
    | absent =>
      rw [recurse, recurse, found]
      exact ih
    | extend items =>
      rw [recurse_extend found, recurse_extend found, ih.spliced_same]
      exact Or.inl rfl
    | restart k =>
      rw [recurse, recurse, found]
      exact restarts k
    | value v =>
      rw [recurse, recurse, found]
      exact Or.inl rfl

end Copies

/-- A level that says of the key only that it is what it is further out, and nothing of the
other keys of the scope. -/
structure Neutral (fields : Fields) (key : LuaString) (level : Obj) : Prop where
  parent : rawget fields level key = some (.list [.parent])
  silent : ∀ k, capital k = true → k ≠ key → truthy (rawget fields level k) = none

/-- The chain of `node'` is the chain of `node` with a new level between `us` and `ws`. The
properties that are not looked up in the scope are those of the node; a level in front of all
others is a node itself and has them too. -/
structure Insertion (fields : Fields) (key : LuaString) (level : Obj) (us ws : List Obj)
    (node : Obj) (scope : List Obj) (node' : Obj) (scope' : List Obj) : Prop where
  before : node :: scope = us ++ ws
  after : node' :: scope' = us ++ level :: ws
  own : ∀ k, capital k = false → rawget fields node' k = rawget fields node k
  neutral : Neutral fields key level

section Insertion

variable {fields : Fields} {key : LuaString} {level : Obj} {us ws : List Obj} {self : Obj}
  {scope : List Obj} {self' : Obj} {scope' : List Obj}

theorem Insertion.step (ins : Insertion fields key level us ws self scope self' scope')
    {f : LuaString → Except Stop (Option Value)}
    (same : recurse fields (restart f) key (us ++ level :: ws) =
      recurse fields (restart f) key (us ++ ws)) (k : LuaString) :
    indexStep fields scope' self' f k = indexStep fields scope self f k := by
  unfold indexStep
  split
  · rfl
  · split
    · rename_i capitalKey
      rw [ins.before, ins.after]
      by_cases here : k = key
      · rw [here, same]
      · exact recurse_skip (ins.neutral.silent k capitalKey here) us ws
    · rename_i own
      rw [ins.own k (by simpa using own)]

/-- Every lookup comes to the same, if a level further in defines the key or the new level
finds a list. -/
theorem Insertion.index_same (ins : Insertion fields key level us ws self scope self' scope')
    {top : Nat}
    (finds : (∃ o ∈ us, (truthy (rawget fields o key)).isSome) ∨ ∀ r,
      walk fields scope self top key ws = .ok r → ∃ vs, r = some (.list vs)) (fuel : Nat)
    (le : fuel ≤ top) :
    index fields scope' self' fuel = index fields scope self fuel := by
  have all : again fields scope' self' fuel = again fields scope self fuel := by
    cases fuel with
    | zero => rfl
    | succ fuel => exact ins.index_same finds fuel (by omega)
  funext k
  rw [index_again, index_again, all]
  refine ins.step ?_ k
  by_cases above : ∃ o ∈ us, (truthy (rawget fields o key)).isSome
  · exact recurse_behind ins.neutral.parent us ws above
  · have silent : ∀ o ∈ us, truthy (rawget fields o key) = none := fun o ho => by
      by_contra some
      exact above ⟨o, ho, Option.isSome_iff_ne_none.mpr some⟩
    rw [recurse_silent us _ silent, recurse_silent us _ silent, recurse_parent ins.neutral.parent]
    cases found : recurse fields (restart (again fields scope self fuel)) key ws with
    | error e => rfl
    | ok r =>
      obtain ⟨vs, rfl⟩ := (finds.resolve_left above) r (walk_mono le found)
      rfl

theorem Insertion.index_copied (ins : Insertion fields key level us ws self scope self' scope')
    {top : Nat} (table : FindsTable (walk fields scope self top key ws)) (fuel : Nat)
    (le : fuel ≤ top) (k : LuaString) :
    Copied (index fields scope self fuel k) (index fields scope' self' fuel k) := by
  have all : ∀ k, Copied (again fields scope self fuel k) (again fields scope' self' fuel k) := by
    cases fuel with
    | zero => exact fun k => Or.inl rfl
    | succ fuel => exact ins.index_copied table fuel (by omega)
  have restarts : ∀ k, Copied (restart (again fields scope self fuel) k)
      (restart (again fields scope' self' fuel) k) := by
    intro k
    unfold restart
    split
    · exact all _
    · exact Or.inl rfl
  rw [index_again, index_again]
  unfold indexStep
  split
  · exact Or.inl rfl
  · split
    · rename_i capitalKey
      rw [ins.before, ins.after]
      by_cases here : k = key
      · rw [here]
        exact inserted_copied ins.neutral.parent restarts us ws fun v found =>
          table v (walk_mono le found)
      · rw [recurse_skip (ins.neutral.silent k capitalKey here) us ws]
        exact recurse_copied restarts (us ++ ws)
    · rename_i own
      rw [ins.own k (by simpa using own)]
      exact Or.inl rfl

theorem Insertion.nodeError_same (ins : Insertion fields key level us ws self scope self' scope') :
    nodeError fields self' = nodeError fields self := by
  funext message
  simp only [nodeError, ins.own "class".toList (by decide), ins.own "definedat".toList (by decide)]

end Insertion

section Congruence

variable {cfg : Settings W} {fields : Fields} {self : Obj} {scope : List Obj} {self' : Obj}
  {scope' : List Obj}

/-- The lookups and the texts of the errors are all that an expansion asks of its node. -/
theorem expandVariable_same
    (lookups : index fields scope' self' cfg.fuel = index fields scope self cfg.fuel)
    (errors : nodeError fields self' = nodeError fields self) :
    expandVariable cfg fields scope' self' = expandVariable cfg fields scope self := by
  have selects : select fields self' = select fields self := by
    funext varname a h b v
    simp only [select, errors]
  have modifies : dirnameModifier fields self' = dirnameModifier fields self := by
    funext v
    simp only [dirnameModifier, errors]
  funext reference
  simp only [expandVariable, lookups, errors, selects, modifies]

theorem expandText_same
    (lookups : index fields scope' self' cfg.fuel = index fields scope self cfg.fuel)
    (errors : nodeError fields self' = nodeError fields self) :
    expandText cfg fields scope' self' = expandText cfg fields scope self := by
  have references := expandVariable_same lookups errors
  have expressions : expandExpression cfg fields scope' self' =
      expandExpression cfg fields scope self := by
    funext e
    rw [expandExpression, expandExpression, lookups]
  have loops : ∀ fuel s, expandLoop cfg fields scope' self' fuel s =
      expandLoop cfg fields scope self fuel s := by
    intro fuel
    induction fuel with
    | zero => exact fun s => rfl
    | succ fuel ih =>
      intro s
      simp only [expandLoop, references, expressions, ih]
  funext s
  exact loops cfg.fuel s

end Congruence

/-- A reference to a key, through a modifier or as it is. -/
def keyReference (key : LuaString) : Option LuaString → LuaString
  | none => key
  | some m => key ++ ':' :: m

/-- A capital-letter key that a reference can name. -/
structure Referable (key : LuaString) : Prop where
  upper : capital key = true
  free : ∀ c ∈ key, c ≠ '%' ∧ c ≠ ':' ∧ c ≠ '['

theorem find_colon_modifier {key : LuaString} (free : ':' ∉ key) (m : LuaString) :
    find colonPattern (key ++ ':' :: m) = some [key, m] := by
  refine find_of_match (show _ = some ([], [key, m].map .closed) from ?_)
  refine match_capture [] key ?_ rfl (match_opt rfl ?_)
  · intro c hc
    exact bne_iff_ne.mpr fun same => free (same ▸ hc)
  · exact match_capture_all [key] m (fun _ _ => rfl) rfl

theorem find_selector_free {key : LuaString} (free : '[' ∉ key) :
    find selectorPattern key = some [key, [], [], []] := by
  refine find_of_match (show _ = some ([], [key, [], [], []].map .closed) from ?_)
  refine match_capture_all [] key ?_ rfl
  intro c hc
  exact bne_iff_ne.mpr fun same => free (same ▸ hc)

/-- The modifiers of lib/c.pm leave a list without items as it is, and EMPTY too. -/
theorem cModifier_nothing {n : LuaString} {f : Value → Except Stop Value}
    (known : cModifier n = some f) :
    f .empty = .ok .empty ∧ f (.list []) = .ok (.list []) ∧ n ≠ [] ∧ '%' ∉ n := by
  unfold cModifier at known
  split at known
  · rename_i name
    cases known
    exact ⟨rfl, rfl, by simp [name], by simp [name]⟩
  · split at known
    · rename_i name
      cases known
      exact ⟨rfl, rfl, by simp [name], by simp [name]⟩
    · split at known
      · rename_i name
        cases known
        exact ⟨rfl, rfl, by simp [name], by simp [name]⟩
      · cases known

/-- What a modifier of lib/c.pm makes of a value, or the value itself. -/
def applied (m : Option LuaString) (v : Value) : Except Stop Value :=
  match m.bind cModifier with
  | some f => f v
  | none => .ok v

theorem applied_nothing {m : Option LuaString} (known : ∀ n ∈ m, (cModifier n).isSome) :
    applied m .empty = .ok .empty ∧ applied m (.list []) = .ok (.list []) := by
  cases m with
  | none => exact ⟨rfl, rfl⟩
  | some n =>
    obtain ⟨f, hf⟩ := Option.isSome_iff_exists.mp (known n rfl)
    obtain ⟨empty, list, _, _⟩ := cModifier_nothing hf
    simp only [applied, Option.bind_some, hf]
    exact ⟨empty, list⟩

section Modified

variable {cfg : Settings W} {fields : Fields} {scope : List Obj} {self : Obj} {key : LuaString}
  {v : Value} {m : Option LuaString}

theorem expandVariable_modified (referable : Referable key)
    (found : index fields scope self cfg.fuel key = .ok (some v))
    (isTrue : truthy (some v) = some v)
    (loaded : ∀ n, (cModifier n).isSome → cfg.stringmodifier n = cModifier n)
    (known : ∀ n ∈ m, (cModifier n).isSome) :
    expandVariable cfg fields scope self (keyReference key m) =
      applied m v >>= fun w => rendertable (some w) := by
  have colon : ':' ∉ key := fun h => (referable.free _ h).2.1 rfl
  have bracket : '[' ∉ key := fun h => (referable.free _ h).2.2 rfl
  have nonempty := capital_nonempty referable.upper
  cases m with
  | none =>
    rw [keyReference, expandVariable_parts colon nonempty (find_selector_free bracket) found isTrue]
    simp only [select, and_self, if_true, applied, Option.bind_none]
  | some n =>
    have named : key ++ ':' :: n ≠ [] := fun h => nonempty (List.append_eq_nil_iff.mp h).1
    obtain ⟨f, hf⟩ := Option.isSome_iff_exists.mp (known n rfl)
    have stored := loaded n (known n rfl)
    have given := (cModifier_nothing hf).2.2.1
    simp only [keyReference, expandVariable, if_neg named, find_colon_modifier colon,
      find_selector_free bracket, found, bind, Except.bind, isTrue, select, and_self, if_true,
      if_neg given, stored, hf, applied, Option.bind_some]

theorem whole_modified (referable : Referable key) (enough : 2 ≤ cfg.fuel)
    (found : index fields scope self cfg.fuel key = .ok (some v))
    (isTrue : truthy (some v) = some v)
    (loaded : ∀ n, (cModifier n).isSome → cfg.stringmodifier n = cModifier n)
    (known : ∀ n ∈ m, (cModifier n).isSome) {w : Value} (modifies : applied m v = .ok w)
    {text : LuaString} (rendered : rendertable (some w) = .ok text) (few : text.count '%' < 2) :
    expandText cfg fields scope self (whole (keyReference key m)) = .ok (restore text) := by
  have value := expandVariable_modified referable found isTrue loaded known
  rw [modifies] at value
  have percent : '%' ∉ key := fun h => (referable.free _ h).1 rfl
  have first : key.head? ≠ some '{' := by
    intro brace
    have upper := referable.upper
    cases key with
    | nil => cases brace
    | cons c key =>
      cases brace
      simp [capital] at upper
  refine whole_expands enough ?_ ?_ (value.trans rendered) few
  · cases m with
    | none => exact percent
    | some n =>
      obtain ⟨f, hf⟩ := Option.isSome_iff_exists.mp (known n rfl)
      have plain := (cModifier_nothing hf).2.2.2
      simp [keyReference, percent, plain]
  · cases m with
    | none => exact first
    | some n =>
      cases key with
      | nil => exact absurd referable.upper (by decide)
      | cons c key => exact first

end Modified

/-- EMPTY, or a list of strings. -/
def EmptyOrStrings (v : Value) : Prop := v = .empty ∨ ∃ l, v = strings l

/-- A new level with `{PARENT}` changes the text of the key exactly if it copies EMPTY and
the copy is what the lookup finds. -/
theorem neutral_level {cfg : Settings W} {fields : Fields} {key : LuaString} {level : Obj}
    {us ws : List Obj} {self : Obj} {scope : List Obj} {self' : Obj} {scope' : List Obj}
    (referable : Referable key) (enough : 2 ≤ cfg.fuel)
    (ins : Insertion fields key level us ws self scope self' scope')
    (inherits : ∃ v, EmptyOrStrings v ∧ (walk fields scope self cfg.fuel key ws = .ok (some v) ∨
      index fields scope self cfg.fuel key = .ok (some v)))
    (loaded : ∀ n, (cModifier n).isSome → cfg.stringmodifier n = cModifier n)
    (m : Option LuaString) (known : ∀ n ∈ m, (cModifier n).isSome) :
    expandText cfg fields scope' self' (whole (keyReference key m)) =
        expandText cfg fields scope self (whole (keyReference key m)) ↔
      walk fields scope self cfg.fuel key ws ≠ .ok (some .empty) ∨
        ∃ o ∈ us, (truthy (rawget fields o key)).isSome := by
  have looked : (∀ o ∈ us, truthy (rawget fields o key) = none) →
      index fields scope self cfg.fuel key = walk fields scope self cfg.fuel key ws := by
    intro silent
    rw [index_capital fields scope self cfg.fuel referable.upper, walk, ins.before]
    exact recurse_silent us ws silent
  have absent : (¬ ∃ o ∈ us, (truthy (rawget fields o key)).isSome) →
      ∀ o ∈ us, truthy (rawget fields o key) = none := by
    intro none o ho
    by_contra some
    exact none ⟨o, ho, Option.isSome_iff_ne_none.mpr some⟩
  constructor
  · intro same
    by_contra neither
    obtain ⟨copies, none⟩ := not_or.mp neither
    have silent := absent none
    have empty := not_not.mp copies
    have old := (looked silent).trans empty
    have new : index fields scope' self' cfg.fuel key = .ok (some (.list [])) := by
      have table : FindsTable (walk fields scope self cfg.fuel key ws) := fun v found => by
        cases empty.symm.trans found
        exact Or.inl rfl
      rcases ins.index_copied table cfg.fuel (Nat.le_refl _) key with same | ⟨_, copy⟩
      · -- the new level never hands on EMPTY itself
        rw [old, index_capital fields scope' self' cfg.fuel referable.upper, walk, ins.after,
          recurse_silent us _ silent, recurse_parent ins.neutral.parent] at same
        cases rest : recurse fields (restart (again fields scope' self' cfg.fuel)) key ws with
        | error e =>
          rw [rest] at same
          cases same
        | ok v =>
          rw [rest] at same
          cases same
      · exact copy
    have kept := applied_nothing known
    rw [whole_modified referable enough old rfl loaded known kept.1 rfl (by decide),
      whole_modified referable enough new rfl loaded known kept.2 rfl (by decide)] at same
    exact absurd same (by decide)
  · intro condition
    refine congrFun (expandText_same (ins.index_same ?_ cfg.fuel (Nat.le_refl _))
      ins.nodeError_same) _
    by_cases above : ∃ o ∈ us, (truthy (rawget fields o key)).isSome
    · exact Or.inl above
    · have differs := condition.resolve_right above
      obtain ⟨v, kind, value⟩ := inherits
      rw [looked (absent above), or_self] at value
      refine Or.inr fun r found => ?_
      cases value.symm.trans found
      rcases kind with rfl | ⟨l, rfl⟩
      · exact absurd value differs
      · exact ⟨_, rfl⟩

def compilerDesk : Settings Desk := { oneDesk with stringmodifier := cModifier }

def bareNode : Obj := ⟨0, []⟩

def repeats : Obj := ⟨2, [("CINCLUDES".toList, .list [.parent])]⟩

def includes (v : Value) : Obj := ⟨1, [("CINCLUDES".toList, v)]⟩

theorem cincludes_referable : Referable "CINCLUDES".toList := by
  have plain : ∀ c ∈ "CINCLUDES".toList, (c != '%' && c != ':' && c != '[') = true :=
    List.all_eq_true.mp (by decide)
  refine ⟨by decide, fun c hc => ?_⟩
  simpa [and_assoc] using plain c hc

theorem repeats_inserted (v : Value) : Insertion (fun _ _ => none) "CINCLUDES".toList repeats
    [bareNode] [includes v] bareNode [includes v] bareNode [repeats, includes v] where
  before := rfl
  after := rfl
  own _ _ := rfl
  neutral := by
    refine ⟨rfl, fun k _ other => ?_⟩
    have differs : (k == "CINCLUDES".toList) = false := beq_eq_false_iff_ne.mpr other
    simp only [repeats, rawget, List.lookup_cons, differs]
    rfl

/-- A group between the globals and the node repeats the include path. -/
theorem include_path_repeated :
    expandText compilerDesk (fun _ _ => none) [repeats, includes (strings ["inc".toList])] bareNode
        (whole "CINCLUDES:cincludes".toList) =
      expandText compilerDesk (fun _ _ => none) [includes (strings ["inc".toList])] bareNode
        (whole "CINCLUDES:cincludes".toList) ↔
    walk (fun _ _ => none) [includes (strings ["inc".toList])] bareNode 4 "CINCLUDES".toList
        [includes (strings ["inc".toList])] ≠ .ok (some .empty) ∨
      ∃ o ∈ [bareNode], (truthy (rawget (fun _ _ => none) o "CINCLUDES".toList)).isSome :=
  neutral_level cincludes_referable (by decide) (repeats_inserted _)
    ⟨strings ["inc".toList], Or.inr ⟨_, rfl⟩, Or.inl rfl⟩ (fun _ _ => rfl) (some "cincludes".toList)
    (fun n hn => by cases hn; rfl)

/-- The globals of lib/c.pm: the copy of EMPTY becomes an empty argument of the compiler. -/
theorem empty_argument :
    expandText compilerDesk (fun _ _ => none) [includes .empty] bareNode
        (whole "CINCLUDES:cincludes".toList) = .ok [] ∧
    expandText compilerDesk (fun _ _ => none) [repeats, includes .empty] bareNode
        (whole "CINCLUDES:cincludes".toList) = .ok "\"\"".toList ∧
    ¬ ∀ (fields : Fields) (key : LuaString) (level : Obj) (us ws : List Obj) (self : Obj)
      (scope : List Obj) (self' : Obj) (scope' : List Obj) (m : Option LuaString),
      Referable key → Insertion fields key level us ws self scope self' scope' →
      (∃ v, EmptyOrStrings v ∧ (walk fields scope self compilerDesk.fuel key ws = .ok (some v) ∨
        index fields scope self compilerDesk.fuel key = .ok (some v))) →
      (∀ n ∈ m, (cModifier n).isSome) →
        expandText compilerDesk fields scope' self' (whole (keyReference key m)) =
          expandText compilerDesk fields scope self (whole (keyReference key m)) := by
  have none : expandText compilerDesk (fun _ _ => Option.none) [includes .empty] bareNode
      (whole "CINCLUDES:cincludes".toList) = .ok [] := by decide +kernel
  have quotes : expandText compilerDesk (fun _ _ => Option.none) [repeats, includes .empty] bareNode
      (whole "CINCLUDES:cincludes".toList) = .ok "\"\"".toList := by decide +kernel
  refine ⟨none, quotes, fun all => ?_⟩
  have same := all _ _ _ _ _ _ _ _ _ (some "cincludes".toList) cincludes_referable
    (repeats_inserted .empty) ⟨_, Or.inl rfl, Or.inl rfl⟩ (fun n hn => by cases hn; rfl)
  exact absurd (quotes.symm.trans (same.trans none)) (by decide)

end PrimeMover
