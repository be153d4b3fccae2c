import PrimeMover.Actions
import PrimeMover.Clause

/-! The tables of `dependency_cache` over a whole run. A table is made by the first search for
a file, and every build of a node with that file adds to it. -/
namespace PrimeMover
open DepthFirst AssocTable Outcome

variable {W : Type}

/-- The file has been searched for. -/
def Searched (steps : List (DependStep W)) (input : LuaString) : Prop :=
  ∃ world includes, .search world input includes ∈ steps

/-- What a step of a run does to the tables. -/
inductive Tabling (cfg : Settings W) : CState W → CState W → Prop where
  | build (s : CState W) (base : State W) (pairs : List (HeaderPair W)) :
      Tabling cfg s { s with base := base, pairs := pairs }
  | search (s : CState W) (order : KeyOrder) (input : LuaString) (includes o : List LuaString)
      (h : Headers)
      (run : calculateDependencies (cfg.host.readFile s.base.sys.world) order cfg.fuel input
        includes ⟨s.dependencyCache, [], []⟩ = .ok o h) :
      Tabling cfg s { s with
        dependencyCache := h.dependencyCache
        steps := s.steps ++ [.search s.base.sys.world input includes] }
  | insert (s : CState W) (input o : LuaString) (searched : Searched s.steps input) :
      Tabling cfg s { s with
        dependencyCache := setEntry s.dependencyCache input
          (dependenciesOf s.dependencyCache input ++ [o])
        steps := s.steps ++ [.insert input o] }
  | use (s : CState W) (list : DependencyList W) (searched : Searched s.steps list.input)
      (own : ∀ h ∈ list.headers, .insert list.input h ∈ s.steps)
      (depends : list.depends = dependenciesOf s.dependencyCache list.input) :
      Tabling cfg s { s with steps := s.steps ++ [.use list] }

theorem Searched.append {steps : List (DependStep W)} {input : LuaString}
    (searched : Searched steps input) (more : List (DependStep W)) :
    Searched (steps ++ more) input := by
  obtain ⟨world, includes, h⟩ := searched
  exact ⟨world, includes, List.mem_append_left more h⟩

theorem Tabling.prefix {cfg : Settings W} {s t : CState W} (step : Tabling cfg s t) :
    s.steps <+: t.steps := by
  cases step with
  | build => exact List.prefix_refl _
  | search => exact List.prefix_append _ _
  | insert => exact List.prefix_append _ _
  | use => exact List.prefix_append _ _

theorem steps_of_path {cfg : Settings W} {s t : CState W}
    (path : Relation.ReflTransGen (Tabling cfg) s t) : s.steps <+: t.steps :=
  path_keeps (P := fun t => s.steps <+: t.steps) (fun _ _ step before => before.trans step.prefix)
    path (List.prefix_refl _)

theorem searched_of_path {cfg : Settings W} {s t : CState W} {input : LuaString}
    (path : Relation.ReflTransGen (Tabling cfg) s t) (searched : Searched s.steps input) :
    Searched t.steps input := by
  obtain ⟨more, grown⟩ := steps_of_path path
  rw [← grown]
  exact searched.append more

section Walk

variable {cfg : Settings W} {order : KeyOrder}

theorem up_tabling {A : Type} (x : PM W A) : Moves (Tabling cfg) (up x) := by
  intro s
  refine Relation.ReflTransGen.single ?_
  unfold up
  cases x s.base with
  | ok a t => exact .build s t s.pairs
  | error e t => exact .build s t s.pairs

theorem collect_tabling {A B : Type} {f : A → CM W (List B)} (l : List A)
    (each : ∀ a ∈ l, Moves (Tabling cfg) (f a)) : Moves (Tabling cfg) (collect f l) := by
  induction l with
  | nil => exact Moves.pure []
  | cons a l ih =>
    refine (each a List.mem_cons_self).bind fun _ => Moves.bind ?_ fun _ => Moves.pure _
    exact ih fun b hb => each b (List.mem_cons_of_mem a hb)

theorem inside_tabling {A : Type} (self : Obj) {x : CM W A} (h : Moves (Tabling cfg) x) :
    Moves (Tabling cfg) (inside self x) := by
  refine (up_tabling _).bind fun _ => h.bind fun r => ?_
  exact (up_tabling _).bind fun _ => Moves.pure r

theorem searchHeaders_tabling (input : LuaString) (includes : List LuaString) :
    Moves (Tabling cfg) (searchHeaders cfg order input includes) := by
  intro s
  refine Relation.ReflTransGen.single ?_
  unfold searchHeaders
  cases run : calculateDependencies (cfg.host.readFile s.base.sys.world) order cfg.fuel input
      includes ⟨s.dependencyCache, [], []⟩ with
  | ok o h => exact .search s order input includes o h run
  | error e h =>
    have kept : h.dependencyCache = s.dependencyCache := calculate_stops run
    simp only [final, kept]
    exact .build s s.base s.pairs

theorem searched_of_search {input : LuaString} {includes : List LuaString} {s t : CState W}
    (run : searchHeaders cfg order input includes s = .ok () t) : Searched t.steps input := by
  unfold searchHeaders at run
  split at run
  · cases run
    exact ⟨_, _, List.mem_append_right _ (List.mem_singleton_self _)⟩
  · cases run

theorem addDependency_tabling (cfg : Settings W) {input : LuaString} {s : CState W}
    (searched : Searched s.steps input) (o : List LuaString) :
    MovesFrom (Tabling cfg) s (addDependency input o) := by
  cases o with
  | nil => exact Relation.ReflTransGen.refl
  | cons o os => exact Relation.ReflTransGen.single (.insert s input o searched)

/-- A loop over the dynamic headers keeps to the steps when its body does, from states that
have `G`; what its body inserts it also reports. -/
structure HeaderLoop (cfg : Settings W)
    (loop : (List LuaString → CM W Unit) → CM W (List (HeaderBuild W))) : Prop where
  moves : ∀ (use : List LuaString → CM W Unit) (G : CState W → Prop),
    (∀ s t, Tabling cfg s t → G s → G t) → (∀ o s, G s → MovesFrom (Tabling cfg) s (use o)) →
    ∀ s, G s → MovesFrom (Tabling cfg) s (loop use)
  inserts : ∀ (input : LuaString) (s t : CState W) (builds : List (HeaderBuild W)),
    Searched s.steps input → loop (addDependency input) s = .ok builds t →
    ∀ h ∈ firstOutputs builds, .insert input h ∈ t.steps

theorem HeaderLoop.again {loop : (List LuaString → CM W Unit) → CM W (List (HeaderBuild W))}
    (loops : HeaderLoop cfg loop) {input : LuaString} {s : CState W}
    (searched : Searched s.steps input) :
    MovesFrom (Tabling cfg) s (loop (addDependency input)) :=
  loops.moves (addDependency input) (fun s => Searched s.steps input)
    (fun _ _ step before => searched_of_path (.single step) before)
    (fun o _ before => addDependency_tabling cfg before o) s searched

theorem clikeDependencies_tabling (self : Obj) (inputs : List LuaString)
    (before : List (HeaderBuild W))
    {again : (List LuaString → CM W Unit) → CM W (List (HeaderBuild W))}
    (loops : HeaderLoop cfg again) :
    Moves (Tabling cfg) (clikeDependencies cfg order self inputs before again) := by
  refine (up_tabling _).bind fun includes => (up_tabling _).bind fun input => fun s => ?_
  refine MovesFrom.bind_ok (searchHeaders_tabling input includes s) fun _ t search => ?_
  have searched := searched_of_search search
  refine MovesFrom.bind_ok (loops.again searched) fun after u run => ?_
  have own := loops.inserts input t u after searched run
  have path := (loops.again searched).path run
  refine MovesFrom.bind_ok (Relation.ReflTransGen.single (.build u u.base _)) fun _ v recorded => ?_
  cases recorded
  refine Relation.ReflTransGen.single ?_
  exact .use _ ⟨_, self.id, input, includes, _, firstOutputs after, _⟩
    (searched_of_path (path.tail (.build u u.base _)) searched) own rfl

theorem finishClike_tabling (decl : Decl) (inputs : List LuaString) (first : Nat)
    (before : List (HeaderBuild W))
    {again : (List LuaString → CM W Unit) → CM W (List (HeaderBuild W))}
    (loops : HeaderLoop cfg again) :
    Moves (Tabling cfg) (finishClike cfg order decl inputs first before again) := by
  refine (up_tabling _).bind fun _ => (up_tabling _).bind fun named => ?_
  refine (up_tabling _).bind fun _ => (up_tabling _).bind fun _ => (up_tabling _).bind fun time => ?_
  refine (clikeDependencies_tabling decl.obj inputs before loops).bind fun depends => ?_
  refine (up_tabling _).bind fun old => (up_tabling _).bind fun _ => (up_tabling _).bind fun _ => ?_
  exact Moves.pure _

theorem buildAdditionalChildren_tabling (self : Obj)
    {loop : (List LuaString → CM W Unit) → CM W (List (HeaderBuild W))}
    (loops : HeaderLoop cfg loop) : Moves (Tabling cfg) (buildAdditionalChildren self loop) := by
  refine (up_tabling _).bind fun _ => Moves.bind ?_ fun before => ?_
  · intro s
    exact loops.moves _ (fun _ => True) (fun _ _ _ _ => trivial) (fun o s _ => up_tabling _ s) s
      trivial
  · exact (up_tabling _).bind fun _ => Moves.pure _

theorem collectInputs_tabling (kind : Kind) (i : Option LuaString) {all : CM W (List LuaString)}
    {each : LuaString → CM W (List LuaString)} (hall : Moves (Tabling cfg) all)
    (heach : ∀ i, Moves (Tabling cfg) (each i)) :
    Moves (Tabling cfg) (collectInputs cfg kind i all each) := by
  refine hall.bind fun a => (collect_tabling _ fun s _ => up_tabling _).bind fun b => ?_
  split
  · exact collect_tabling _ fun i _ => heach i
  · exact Moves.pure _

theorem HeaderLoop.nil : HeaderLoop cfg (buildHeaders cfg order []) where
  moves use G _ _ s _ := by
    rw [buildHeaders]
    exact Moves.pure _ s
  inserts input s t builds _ run := by
    rw [buildHeaders] at run
    cases run
    exact fun h found => absurd found List.not_mem_nil

theorem HeaderLoop.cons {header : Clause} {rest : List Clause}
    (one : Moves (Tabling cfg) (buildClause cfg order header none))
    (more : HeaderLoop cfg (buildHeaders cfg order rest)) :
    HeaderLoop cfg (buildHeaders cfg order (header :: rest)) where
  moves use G stable body s hs := by
    have later : ∀ {t : CState W}, Relation.ReflTransGen (Tabling cfg) s t → G t :=
      fun path => path_keeps stable path hs
    rw [buildHeaders]
    refine MovesFrom.get_bind ?_
    refine MovesFrom.bind_ok (one s) fun outs t built => ?_
    have path := (one s).path built
    refine MovesFrom.get_bind ?_
    refine MovesFrom.bind_ok (body outs t (later path)) fun _ u used => ?_
    have path := path.trans ((body outs t (later path)).path used)
    exact (more.moves use G stable body u (later path)).bind fun _ => Moves.pure _
  inserts input s t builds searched run := by
    rw [buildHeaders] at run
    obtain ⟨_, _, got, run⟩ := bind_eq_ok.mp run
    cases got
    obtain ⟨outs, u, built, run⟩ := bind_eq_ok.mp run
    obtain ⟨_, _, got, run⟩ := bind_eq_ok.mp run
    cases got
    obtain ⟨_, v, used, run⟩ := bind_eq_ok.mp run
    obtain ⟨builds', w, rested, run⟩ := bind_eq_ok.mp run
    cases run
    have searched := searched_of_path ((one s).path built) searched
    have add := addDependency_tabling cfg searched outs
    have searched := searched_of_path (add.path used) searched
    have kept := steps_of_path ((more.again searched).path rested)
    intro h found
    unfold firstOutputs at found
    rw [List.filterMap_cons] at found
    cases outs with
    | nil => exact more.inserts input v t builds' searched rested h found
    | cons o os =>
      rcases List.mem_cons.mp found with rfl | found
      · cases used
        exact kept.subset (List.mem_append_right _ (List.mem_singleton_self _))
      · exact more.inserts input v t builds' searched rested h found

end Walk

mutual

/-- A build only takes the steps of the tables, whatever is built. -/
theorem buildClause_tabling (cfg : Settings W) (order : KeyOrder) :
    ∀ (clause : Clause) (i : Option LuaString),
      Moves (Tabling cfg) (buildClause cfg order clause i)
  | .string _, _ => by
    rw [buildClause]
    exact Moves.throw _
  | .object decl children rule headers, i => by
    rw [buildClause]
    refine (up_tabling _).bind fun first => (up_tabling _).bind fun decl' => ?_
    split
    · exact (up_tabling _).bind fun _ => up_tabling _
    · have inputs := collectInputs_tabling decl'.kind i
        (buildClauses_tabling cfg order decl'.kind children)
        (buildClauseRule_tabling cfg order rule)
      cases headers with
      | none =>
        refine (inside_tabling decl'.obj ?_).bind fun r => up_tabling _
        exact inputs.bind fun _ => Moves.pure _
      | some headers =>
        have loops := buildHeaders_tabling cfg order headers
        refine (inside_tabling decl'.obj ?_).bind fun r =>
          finishClike_tabling decl' r.1 first r.2 loops
        refine inputs.bind fun _ => ?_
        exact (buildAdditionalChildren_tabling decl'.obj loops).bind fun _ => Moves.pure _

theorem buildClauses_tabling (cfg : Settings W) (order : KeyOrder) (kind : Kind) :
    ∀ children : List Clause, Moves (Tabling cfg) (buildClauses cfg order kind children)
  | [] => by
    rw [buildClauses]
    exact Moves.pure []
  | child :: rest => by
    have later := buildClauses_tabling cfg order kind rest
    cases child with
    | string s =>
      rw [buildClauses]
      exact (up_tabling _).bind fun _ => later.bind fun _ => Moves.pure _
    | object decl children rule headers =>
      rw [buildClauses]
      refine (buildClause_tabling cfg order (.object decl children rule headers) none).bind ?_
      exact fun _ => later.bind fun _ => Moves.pure _

theorem buildClauseRule_tabling (cfg : Settings W) (order : KeyOrder) :
    ∀ (rule : Option Clause) (i : LuaString),
      Moves (Tabling cfg) (buildClauseRule cfg order rule i)
  | none, _ => by
    rw [buildClauseRule]
    exact Moves.throw _
  | some rule, i => by
    rw [buildClauseRule]
    exact buildClause_tabling cfg order rule (some i)

theorem buildHeaders_tabling (cfg : Settings W) (order : KeyOrder) :
    ∀ headers : List Clause, HeaderLoop cfg (buildHeaders cfg order headers)
  | [] => HeaderLoop.nil
  | header :: rest =>
    HeaderLoop.cons (buildClause_tabling cfg order header none) (buildHeaders_tabling cfg order rest)

end

theorem buildClauseTargets_tabling (cfg : Settings W) (order : KeyOrder) (targets : List Clause) :
    Moves (Tabling cfg) (buildClauseTargets cfg order targets) := by
  induction targets with
  | nil => exact Moves.pure ()
  | cons o rest ih => exact (buildClause_tabling cfg order o none).bind fun _ => ih

/-- The search for a file that a step makes. -/
def DependStep.searchOf (input : LuaString) : DependStep W → Option (W × List LuaString)
  | .search world i includes => if i = input then some (world, includes) else none
  | .insert _ _ => none
  | .use _ => none

/-- The search that made the table of a file. -/
def firstSearch (steps : List (DependStep W)) (input : LuaString) : Option (W × List LuaString) :=
  steps.findSome? (DependStep.searchOf input)

/-- The names that the search behind the table found. -/
def Scanned (cfg : Settings W) (steps : List (DependStep W)) (input n : LuaString) : Prop :=
  ∃ world includes, firstSearch steps input = some (world, includes) ∧
    Reaches (included (cfg.host.readFile world) includes) input n

/-- The names in the table. -/
def Listed (cfg : Settings W) (steps : List (DependStep W)) (input n : LuaString) : Prop :=
  Scanned cfg steps input n ∨ .insert input n ∈ steps

theorem firstSearch_snoc (steps : List (DependStep W)) (input : LuaString) (e : DependStep W) :
    firstSearch (steps ++ [e]) input = (firstSearch steps input).or (e.searchOf input) := by
  simp only [firstSearch, List.findSome?_append, List.findSome?_cons, List.findSome?_nil]
  cases e.searchOf input <;> rfl

theorem firstSearch_searched {steps : List (DependStep W)} {input : LuaString}
    (searched : Searched steps input) : (firstSearch steps input).isSome := by
  obtain ⟨world, includes, h⟩ := searched
  unfold firstSearch
  rw [List.findSome?_isSome_iff]
  exact ⟨_, h, by simp [DependStep.searchOf]⟩

/-- What a table holds when it is used. -/
structure Used (cfg : Settings W) (before : List (DependStep W)) (u : DependencyList W) : Prop where
  searched : (firstSearch before u.input).isSome
  own : ∀ h ∈ u.headers, .insert u.input h ∈ before
  exactly : ∀ n, n ∈ u.depends ↔ Listed cfg before u.input n

/-- The tables and the record of the steps agree. -/
structure Tabled (cfg : Settings W) (s : CState W) : Prop where
  known : ∀ input, (s.dependencyCache.lookup input).isSome = (firstSearch s.steps input).isSome
  inserted : ∀ input n, .insert input n ∈ s.steps → (firstSearch s.steps input).isSome
  table : ∀ input n, n ∈ dependenciesOf s.dependencyCache input ↔ Listed cfg s.steps input n
  uses : ∀ before u after, s.steps = before ++ .use u :: after → Used cfg before u

theorem split_snoc {steps before after : List (DependStep W)} {e : DependStep W}
    {u : DependencyList W} (h : steps ++ [e] = before ++ .use u :: after) :
    before = steps ∧ e = .use u ∨ ∃ after, steps = before ++ .use u :: after := by
  rcases List.eq_nil_or_concat after with rfl | ⟨after, last, rfl⟩
  · obtain ⟨rfl, rfl⟩ := List.append_singleton_inj.mp h
    exact Or.inl ⟨rfl, rfl⟩
  · rw [List.concat_eq_append, ← List.cons_append, ← List.append_assoc] at h
    exact Or.inr ⟨after, (List.append_singleton_inj.mp h).1⟩

section Step

variable {cfg : Settings W} {steps : List (DependStep W)} {e : DependStep W} {input : LuaString}

theorem listed_snoc {n : LuaString} (same : firstSearch (steps ++ [e]) input = firstSearch steps input)
    (other : e ≠ .insert input n) : Listed cfg (steps ++ [e]) input n ↔ Listed cfg steps input n := by
  unfold Listed Scanned
  rw [same, List.mem_append, List.mem_singleton]
  constructor
  · rintro (scanned | inserted | new)
    · exact Or.inl scanned
    · exact Or.inr inserted
    · exact absurd new.symm other
  · rintro (scanned | inserted)
    · exact Or.inl scanned
    · exact Or.inr (Or.inl inserted)

theorem firstSearch_known (known : (firstSearch steps input).isSome) :
    firstSearch (steps ++ [e]) input = firstSearch steps input := by
  rw [firstSearch_snoc]
  obtain ⟨search, found⟩ := Option.isSome_iff_exists.mp known
  rw [found]
  rfl

theorem firstSearch_other (other : e.searchOf input = none) :
    firstSearch (steps ++ [e]) input = firstSearch steps input := by
  rw [firstSearch_snoc, other, Option.or_none]

end Step

theorem Tabled.empty {cfg : Settings W} {s : CState W} (cache : s.dependencyCache = [])
    (steps : s.steps = []) : Tabled cfg s where
  known input := by
    rw [cache, steps]
    rfl
  inserted input n h := by
    rw [steps] at h
    exact absurd h List.not_mem_nil
  table input n := by
    rw [cache, steps]
    constructor
    · intro h
      exact absurd h List.not_mem_nil
    · rintro (⟨_, _, found, _⟩ | h)
      · cases found
      · exact absurd h List.not_mem_nil
  uses before u after h := by
    rw [steps] at h
    cases before <;> cases h

theorem Tabled.uses_snoc {cfg : Settings W} {s : CState W} (h : Tabled cfg s) {e : DependStep W}
    (other : ∀ u, e = .use u → Used cfg s.steps u) (before : List (DependStep W))
    (u : DependencyList W) (after : List (DependStep W))
    (split : s.steps ++ [e] = before ++ .use u :: after) : Used cfg before u := by
  rcases split_snoc split with ⟨rfl, last⟩ | ⟨after, earlier⟩
  · exact other u last
  · exact h.uses before u after earlier

theorem mem_dependenciesOf {t : List (LuaString × List LuaString)} {input n : LuaString} :
    n ∈ dependenciesOf t input ↔ ∃ o, t.lookup input = some o ∧ n ∈ o := by
  unfold dependenciesOf
  cases t.lookup input with
  | none => simp
  | some o => simp

/-- A step that leaves the tables, and what was searched first, as they are. -/
theorem Tabled.keep {cfg : Settings W} {s : CState W} (h : Tabled cfg s) {e : DependStep W}
    (same : ∀ i, firstSearch (s.steps ++ [e]) i = firstSearch s.steps i)
    (quiet : ∀ i n, e ≠ .insert i n) (used : ∀ u, e = .use u → Used cfg s.steps u) :
    Tabled cfg { s with steps := s.steps ++ [e] } := by
  constructor
  · intro i
    rw [h.known, same]
  · intro i n step
    rw [same]
    rcases List.mem_append.mp step with old | new
    · exact h.inserted i n old
    · exact absurd (List.mem_singleton.mp new).symm (quiet i n)
  · intro i n
    rw [h.table i n]
    exact (listed_snoc (same i) (quiet i n)).symm
  · exact h.uses_snoc used

theorem Tabled.search_again {cfg : Settings W} {s : CState W} (h : Tabled cfg s)
    {input : LuaString} (known : (firstSearch s.steps input).isSome) (world : W)
    (includes : List LuaString) :
    Tabled cfg { s with steps := s.steps ++ [.search world input includes] } := by
  refine h.keep (fun i => ?_) (by simp) (by simp)
  by_cases this : input = i
  · exact firstSearch_known (this ▸ known)
  · exact firstSearch_other (if_neg this)

theorem Tabled.search_first {cfg : Settings W} {s : CState W} (h : Tabled cfg s)
    {input : LuaString} (new : firstSearch s.steps input = none) (world : W)
    (includes o : List LuaString)
    (found : ∀ n, n ∈ o ↔ Reaches (included (cfg.host.readFile world) includes) input n) :
    Tabled cfg { s with
      dependencyCache := setEntry s.dependencyCache input o
      steps := s.steps ++ [.search world input includes] } := by
  have this : firstSearch (s.steps ++ [.search world input includes]) input =
      some (world, includes) := by
    rw [firstSearch_snoc, new]
    exact if_pos rfl
  have others : ∀ i, i ≠ input → firstSearch (s.steps ++ [.search world input includes]) i =
      firstSearch s.steps i := fun i other => firstSearch_other (if_neg (Ne.symm other))
  have inserted : ∀ i n, .insert i n ∈ s.steps ++ [.search world input includes] →
      .insert i n ∈ s.steps := by
    intro i n h
    rcases List.mem_append.mp h with old | new
    · exact old
    · cases List.mem_singleton.mp new
  constructor
  · intro i
    by_cases same : i = input
    · simp only [same, this, lookup_setEntry, beq_self_eq_true, if_true, Option.isSome_some]
    · simp only [others i same, lookup_setEntry, beq_iff_eq, same, if_false, h.known]
  · intro i n step
    have before := h.inserted i n (inserted i n step)
    by_cases same : i = input
    · rw [same, this]
      rfl
    · rw [others i same]
      exact before
  · intro i n
    by_cases same : i = input
    · subst same
      simp only [mem_dependenciesOf, lookup_setEntry, beq_self_eq_true, if_true,
        Option.some.injEq, exists_eq_left', found]
      constructor
      · exact fun reached => Or.inl ⟨world, includes, this, reached⟩
      · rintro (⟨w, path, first, reached⟩ | step)
        · cases this.symm.trans first
          exact reached
        · have before := h.inserted i n (inserted i n step)
          rw [new] at before
          cases before
    · simp only [mem_dependenciesOf, lookup_setEntry, beq_iff_eq, same, if_false]
      rw [← mem_dependenciesOf, h.table i n]
      exact (listed_snoc (others i same) (by simp)).symm
  · exact h.uses_snoc (by simp)

theorem Tabled.insert {cfg : Settings W} {s : CState W} (h : Tabled cfg s)
    {input : LuaString} (searched : (firstSearch s.steps input).isSome) (o : LuaString) :
    Tabled cfg { s with
      dependencyCache := setEntry s.dependencyCache input
        (dependenciesOf s.dependencyCache input ++ [o])
      steps := s.steps ++ [.insert input o] } := by
  have same : ∀ i, firstSearch (s.steps ++ [.insert input o]) i = firstSearch s.steps i :=
    fun i => firstSearch_other rfl
  constructor
  · intro i
    rw [same, lookup_setEntry]
    split
    · rename_i this
      rw [beq_iff_eq.mp this, searched]
      rfl
    · exact h.known i
  · intro i n step
    rw [same]
    rcases List.mem_append.mp step with old | new
    · exact h.inserted i n old
    · cases List.mem_singleton.mp new
      exact searched
  · intro i n
    by_cases this : i = input
    · subst this
      simp only [mem_dependenciesOf, lookup_setEntry, beq_self_eq_true, if_true,
        Option.some.injEq, exists_eq_left', List.mem_append, List.mem_singleton]
      rw [← mem_dependenciesOf, h.table i n]
      unfold Listed Scanned
      rw [same, List.mem_append, List.mem_singleton, DependStep.insert.injEq, or_assoc]
      simp only [true_and]
    · simp only [mem_dependenciesOf, lookup_setEntry, beq_iff_eq, this, if_false]
      rw [← mem_dependenciesOf, h.table i n]
      exact (listed_snoc (same i) (by simp [Ne.symm this])).symm
  · exact h.uses_snoc (by simp)

theorem Tabled.use {cfg : Settings W} {s : CState W} (h : Tabled cfg s) {u : DependencyList W}
    (used : Used cfg s.steps u) : Tabled cfg { s with steps := s.steps ++ [.use u] } := by
  refine h.keep (fun i => firstSearch_other rfl) (by simp) fun v last => ?_
  cases last
  exact used

theorem Tabled.step {cfg : Settings W} {s t : CState W} (step : Tabling cfg s t)
    (h : Tabled cfg s) : Tabled cfg t := by
  cases step with
  | build base pairs => exact ⟨h.known, h.inserted, h.table, h.uses⟩
  | search order input includes o found run =>
    cases known : s.dependencyCache.lookup input with
    | some old =>
      have searched : (firstSearch s.steps input).isSome := by
        rw [← h.known, known]
        rfl
      simp only [calculateDependencies, bind_run, get_run, known, pure_run] at run
      cases run
      exact h.search_again searched _ includes
    | none =>
      have new : firstSearch s.steps input = none := by
        rw [← Option.not_isSome_iff_eq_none, ← h.known, known]
        simp
      obtain ⟨_, exactly, table, _⟩ := calculate_first (s := ⟨s.dependencyCache, [], []⟩) known run
      rw [table]
      exact h.search_first new _ includes o exactly
  | insert input o searched => exact h.insert (firstSearch_searched searched) o
  | use u searched own depends =>
    refine h.use ⟨firstSearch_searched searched, own, fun n => ?_⟩
    rw [depends, h.table]

/-- Every list that a run uses is described by the steps before it. -/
theorem used_of_run {cfg : Settings W} (order : KeyOrder) (targets : List Clause) {s : CState W}
    (cache : s.dependencyCache = []) (fresh : s.steps = []) {before after : List (DependStep W)}
    {u : DependencyList W}
    (split : (final (buildClauseTargets cfg order targets s)).steps = before ++ .use u :: after) :
    Used cfg before u := by
  have path := buildClauseTargets_tabling cfg order targets s
  have tabled := path_keeps (fun _ _ step => Tabled.step step) path (Tabled.empty cache fresh)
  exact tabled.uses before u after split

/-- What a build may list: what its source includes, and the first outputs of its own dynamic
headers. -/
def DependencyList.Own (cfg : Settings W) (u : DependencyList W) (n : LuaString) : Prop :=
  Reaches (included (cfg.host.readFile u.world) u.includes) u.input n ∨ n ∈ u.headers

/-- What earlier builds have left about the source of a build is nothing of their own: the
first search found what a search would find now, up to the headers inserted since, and no
build has inserted a header that is foreign to this one. -/
structure Unspoiled (cfg : Settings W) (before : List (DependStep W)) (u : DependencyList W) :
    Prop where
  searched : ∀ n, Scanned cfg before u.input n → u.Own cfg n
  inserted : ∀ n, .insert u.input n ∈ before → u.Own cfg n
  complete : ∀ n, Reaches (included (cfg.host.readFile u.world) u.includes) u.input n →
    Scanned cfg before u.input n ∨ .insert u.input n ∈ before

/-- A build uses its own dependencies exactly when the builds before it left none of theirs. -/
theorem dependencies_own (cfg : Settings W) (order : KeyOrder) (targets : List Clause)
    (s : CState W) (cache : s.dependencyCache = []) (fresh : s.steps = [])
    (before after : List (DependStep W)) (u : DependencyList W)
    (split : (final (buildClauseTargets cfg order targets s)).steps = before ++ .use u :: after) :
    (∀ n, n ∈ u.depends ↔ u.Own cfg n) ↔ Unspoiled cfg before u := by
  have used := used_of_run order targets cache fresh split
  constructor
  · intro own
    have listed : ∀ n, Listed cfg before u.input n ↔ u.Own cfg n := fun n =>
      (used.exactly n).symm.trans (own n)
    exact ⟨fun n h => (listed n).mp (Or.inl h), fun n h => (listed n).mp (Or.inr h),
      fun n h => (listed n).mpr (Or.inl h)⟩
  · intro left n
    rw [used.exactly]
    constructor
    · rintro (scanned | inserted)
      · exact left.searched n scanned
      · exact left.inserted n inserted
    · rintro (reached | header)
      · exact left.complete n reached
      · exact Or.inr (used.own n header)

/-- With one include path for the source and files that stay, only inserted headers matter. -/
theorem unspoiled_same_path {cfg : Settings W} {before : List (DependStep W)}
    {u : DependencyList W} {world : W} (disk : cfg.host.readFile world = cfg.host.readFile u.world)
    (first : firstSearch before u.input = some (world, u.includes)) :
    Unspoiled cfg before u ↔ ∀ n, .insert u.input n ∈ before → u.Own cfg n := by
  have scanned : ∀ n, Scanned cfg before u.input n ↔
      Reaches (included (cfg.host.readFile u.world) u.includes) u.input n := by
    intro n
    rw [← disk]
    constructor
    · rintro ⟨w, path, found, reached⟩
      cases first.symm.trans found
      exact reached
    · exact fun reached => ⟨world, u.includes, first, reached⟩
  constructor
  · exact Unspoiled.inserted
  · exact fun inserted => ⟨fun n h => Or.inl ((scanned n).mp h), inserted,
      fun n h => Or.inl ((scanned n).mpr h)⟩

section Examples

/-- A system whose files never change. -/
def stillHost (disk : Disk) : Host Desk :=
  { Desk.host (fun _ => ⟨0, [], []⟩) with
    readFile := fun _ => disk
    writeFile := fun d _ _ => some d }

def compiling (host : Host Desk) (fuel : Nat) : Settings Desk :=
  { Desk.settings (fun _ => ⟨0, [], []⟩) fuel with
    host := host
    stringmodifier := cModifier }

def plainHeader (id : Nat) (f : LuaString) : Clause :=
  .object ⟨⟨id, []⟩, .file⟩ [.string f] none none

def emptyFiles : Disk := diskOf [("a.c".toList, []), ("gen/x.h".toList, [])]

/-- Two programs are made from one source, and only the first has a dynamic header. -/
def sharedRun : EStateM.Result Stop (CState Desk) Unit :=
  buildClauseTargets (compiling (stillHost emptyFiles) 12) inserted
    [cfile 1 [] [.string "a.c".toList] [plainHeader 2 "gen/x.h".toList],
      cfile 3 [] [.string "a.c".toList] []]
    (cstart ⟨9, [("a.c".toList, ⟨1, []⟩), ("gen/x.h".toList, ⟨1, []⟩)], []⟩ 4)

/-- The list is used by this node for `a.c`, with these headers and dependencies. -/
def DependStep.isUse (owner : Nat) (headers depends : List LuaString) : DependStep Desk → Bool
  | .search .. => false
  | .insert .. => false
  | .use u => u.owner == owner && u.input == "a.c".toList && u.includes == [] &&
      u.headers == headers && u.depends == depends

theorem use_of_check {steps : List (DependStep Desk)} {owner : Nat}
    {headers depends : List LuaString}
    (check : steps.any (DependStep.isUse owner headers depends) = true) :
    ∃ before u after, steps = before ++ .use u :: after ∧ u.input = "a.c".toList ∧
      u.includes = [] ∧ u.headers = headers ∧ u.depends = depends := by
  obtain ⟨e, member, use⟩ := List.any_eq_true.mp check
  obtain ⟨before, after, split⟩ := List.append_of_mem member
  cases e with
  | search => cases use
  | insert => cases use
  | use u =>
    simp only [DependStep.isUse, Bool.and_eq_true, beq_iff_eq] at use
    obtain ⟨⟨⟨⟨_, input⟩, includes⟩, own⟩, listed⟩ := use
    exact ⟨before, u, after, split, input, includes, own, listed⟩

theorem shared_uses :
    (final sharedRun).steps.any
      (DependStep.isUse 1 ["gen/x.h".toList] ["a.c".toList, "gen/x.h".toList]) = true ∧
    (final sharedRun).steps.any
      (DependStep.isUse 3 [] ["a.c".toList, "gen/x.h".toList]) = true := by
  rw [← Bool.and_eq_true]
  decide +kernel

/-- The first of the two builds gets what is its own. -/
theorem first_build_own : ∃ before u after,
    (final sharedRun).steps = before ++ .use u :: after ∧ u.headers = ["gen/x.h".toList] ∧
    ((∀ n, n ∈ u.depends ↔ u.Own (compiling (stillHost emptyFiles) 12) n) ↔
      Unspoiled (compiling (stillHost emptyFiles) 12) before u) := by
  obtain ⟨before, u, after, split, _, _, headers, _⟩ := use_of_check shared_uses.1
  exact ⟨before, u, after, split, headers, dependencies_own _ _ _ _ rfl rfl before after u split⟩

/-- The second one gets the header of the first. -/
theorem foreign_header_listed : ¬ ∀ (cfg : Settings Desk) (order : KeyOrder)
    (targets : List Clause) (s : CState Desk), s.dependencyCache = [] → s.steps = [] →
    (∀ w w', cfg.host.readFile w = cfg.host.readFile w') →
    ∀ before u after,
      (final (buildClauseTargets cfg order targets s)).steps = before ++ .use u :: after →
      ∀ n, n ∈ u.depends ↔ u.Own cfg n := by
  intro all
  obtain ⟨before, u, after, split, input, _, headers, depends⟩ := use_of_check shared_uses.2
  have own := (all _ _ _ _ rfl rfl (fun _ _ => rfl) before u after split "gen/x.h".toList).mp
    (by rw [depends]; simp)
  rcases own with reached | header
  · rw [input] at reached
    rcases Relation.ReflTransGen.cases_head reached with same | ⟨next, one, _⟩
    · exact absurd same (by decide)
    · cases one
  · rw [headers] at header
    cases header

end Examples

end PrimeMover
