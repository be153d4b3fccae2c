import PrimeMover.Fragments
import PrimeMover.Scoping
import PrimeMover.Selector
import PrimeMover.Settling

/-! Where lookups and expansions come to an end. A redirected lookup starts again and an
expansion goes on as long as a pass has found something, so both can run for ever. -/
namespace PrimeMover
open LuaPattern Settling

variable {W : Type}

/-- On its way along the chain the lookup of `key` comes to a redirection to `target`. -/
def ComesTo (fields : Fields) (key target : LuaString) : List Obj → Prop
  | [] => False
  | o :: next =>
    match classify (truthy (rawget fields o key)) with
    | .absent => ComesTo fields key target next
    | .extend _ => ComesTo fields key target next
    | .restart k => k = some (.str target)
    | .value _ => False

/-- The lookup of `key` starts again with `target`. -/
def Redirected (fields : Fields) (scope : List Obj) (self : Obj) (target key : LuaString) : Prop :=
  capital key = true ∧ ComesTo fields key target (self :: scope)

section Index

variable {fields : Fields} {scope : List Obj} {self : Obj}

theorem recurse_settles {key : LuaString} {f : Nat → Option Value → Except Stop (Option Value)}
    (chain : List Obj)
    (restarts : ∀ k, (∀ target, k = some (.str target) → ComesTo fields key target chain) →
      Settles .diverges fun fuel => f fuel k) :
    Settles .diverges fun fuel => recurse fields (f fuel) key chain := by
  induction chain with
  | nil => exact Settles.ok none
  | cons o next ih =>
    simp only [recurse]
    unfold ComesTo at restarts
    cases found : classify (truthy (rawget fields o key)) with
    | absent =>
      rw [found] at restarts
      exact ih restarts
    | extend items =>
      rw [found] at restarts
      exact (ih restarts).bind fun parent _ => Settles.ok _
    | restart k =>
      rw [found] at restarts
      exact restarts k fun _ same => same
    | value v => exact Settles.ok (some v)

theorem luaerror_ends {message : LuaString} {A : Type} :
    (.error (luaerror message) : Except Stop A) ≠ .error .diverges := nofun

theorem index_settles {key : LuaString} (ends : Acc (Redirected fields scope self) key) :
    Settles .diverges fun fuel => index fields scope self fuel key := by
  induction ends with
  | intro key _ ih =>
    simp only [index_again, indexStep]
    by_cases empty : key = []
    · simp only [if_pos empty]
      exact Settles.const luaerror_ends
    · by_cases upper : capital key = true
      · simp only [if_neg empty, if_pos upper]
        refine recurse_settles (self :: scope) fun k comes => ?_
        unfold restart
        split
        · rename_i target
          have lower := ih target ⟨upper, comes target rfl⟩
          exact lower.round fun _ => rfl
        · exact Settles.const luaerror_ends
      · simp only [if_neg empty, if_neg upper]
        exact Settles.ok _

theorem recurse_diverges {key target : LuaString} {f : Option Value → Except Stop (Option Value)}
    {chain : List Obj} (comes : ComesTo fields key target chain)
    (stuck : f (some (.str target)) = .error .diverges) :
    recurse fields f key chain = .error .diverges := by
  induction chain with
  | nil => exact comes.elim
  | cons o next ih =>
    rw [recurse]
    unfold ComesTo at comes
    cases found : classify (truthy (rawget fields o key)) with
    | absent =>
      rw [found] at comes
      exact ih comes
    | extend items =>
      rw [found] at comes
      simp only [ih comes]
      rfl
    | restart k =>
      rw [found] at comes
      cases comes
      exact stuck
    | value v =>
      rw [found] at comes
      exact comes.elim

/-- Redirections without an end keep the lookup going. -/
theorem index_diverges {key : LuaString} (endless : ¬ Acc (Redirected fields scope self) key)
    (fuel : Nat) : index fields scope self fuel key = .error .diverges := by
  induction fuel generalizing key with
  | zero | succ fuel ih =>
    obtain ⟨target, ⟨upper, comes⟩, further⟩ : ∃ target, Redirected fields scope self target key ∧
        ¬ Acc (Redirected fields scope self) target := by
      by_contra none
      refine endless (Acc.intro key fun target next => ?_)
      by_contra further
      exact none ⟨target, next, further⟩
    rw [index_capital fields scope self _ upper]
    refine recurse_diverges comes ?_
    first | rfl | exact ih further

theorem index_settles_iff (key : LuaString) :
    (Settles .diverges fun fuel => index fields scope self fuel key) ↔
      Acc (Redirected fields scope self) key := by
  constructor
  · intro settles
    by_contra endless
    exact not_settles (index_diverges endless) settles
  · exact index_settles

end Index

section Values

theorem mapM_ends {A B : Type} {f : A → Except Stop B} (each : ∀ a, f a ≠ .error .diverges)
    (l : List A) : l.mapM f ≠ .error .diverges := by
  induction l with
  | nil => exact nofun
  | cons a l ih =>
    rw [List.mapM_cons]
    intro stuck
    cases first : f a with
    | error e =>
      rw [first] at stuck
      cases stuck
      exact each a first
    | ok b =>
      cases rest : l.mapM f with
      | error e =>
        rw [first, rest] at stuck
        cases stuck
        exact ih rest
      | ok bs =>
        rw [first, rest] at stuck
        cases stuck

theorem renderItem_ends (v : Value) : renderItem v ≠ .error .diverges := by
  cases v <;> exact nofun

theorem rendertable_ends (v : Option Value) : rendertable v ≠ .error .diverges := by
  unfold rendertable
  split
  · exact nofun
  · exact nofun
  · exact nofun
  · exact nofun
  · split
    · rename_i vs _
      have items := mapM_ends renderItem_ends vs
      intro stuck
      cases rendered : vs.mapM renderItem with
      | error e =>
        rw [rendered] at stuck
        cases stuck
        exact items rendered
      | ok t =>
        rw [rendered] at stuck
        cases stuck
    · exact nofun

theorem select_ends (fields : Fields) (self : Obj) (varname a h b : LuaString) (v : Value) :
    select fields self varname a h b v ≠ .error .diverges := by
  unfold select
  split
  · exact nofun
  · split
    · exact nofun
    · dsimp only
      split
      · exact nofun
      · split <;> exact nofun

theorem dirnameModifier_ends (fields : Fields) (self : Obj) (v : Value) :
    dirnameModifier fields self v ≠ .error .diverges := by
  unfold dirnameModifier
  split
  · exact nofun
  · exact nofun
  · exact nofun
  · exact nofun
  · split <;> exact nofun

end Values

def Settings.withFuel (cfg : Settings W) (fuel : Nat) : Settings W := { cfg with fuel := fuel }

/-- What the pmfile runs inside a lookup or an expansion comes to an end: the modifiers, and the
embedded expressions with the lookups that they make. -/
structure CodeEnds (cfg : Settings W) (fields : Fields) (scope : List Obj) (node : Obj) : Prop where
  modifiers : ∀ m f v, cfg.stringmodifier m = some f → f v ≠ .error .diverges
  expressions : ∀ e, Settles .diverges fun fuel =>
    cfg.evaluate e (index fields scope node fuel)

section Replacements

variable {cfg : Settings W} {fields : Fields} {scope : List Obj} {self : Obj}

theorem expandVariable_settles (code : CodeEnds cfg fields scope self)
    (redirects : ∀ key, Acc (Redirected fields scope self) key) (reference : LuaString) :
    Settles .diverges fun fuel => expandVariable (cfg.withFuel fuel) fields scope self reference := by
  unfold expandVariable
  by_cases empty : reference = []
  · simp only [if_pos empty]
    exact Settles.ok PERCENT
  · simp only [if_neg empty]
    split
    · rename_i leftcolon rightcolon _
      split
      · rename_i varname _ _ _ _
        refine (index_settles (redirects varname)).bind fun value _ => ?_
        split
        · exact Settles.const nofun
        · refine (Settles.const (select_ends fields self _ _ _ _ _)).bind fun picked _ => ?_
          have stored : ∀ fuel, (cfg.withFuel fuel).stringmodifier = cfg.stringmodifier := fun _ => rfl
          have rendered : ∀ r : Except Stop Value, r ≠ .error .diverges →
              Settles .diverges fun _ : Nat => r >>= fun result => rendertable (some result) :=
            fun r ends => (Settles.const ends).bind fun result _ => Settles.const (rendertable_ends _)
          by_cases unmodified : rightcolon = []
          · simp only [if_pos unmodified]
            exact rendered (.ok picked) nofun
          · simp only [if_neg unmodified, stored]
            cases known : cfg.stringmodifier rightcolon with
            | some f => exact rendered (f picked) (code.modifiers _ f picked known)
            | none =>
              by_cases dirname : rightcolon = "dirname".toList
              · simp only [if_pos dirname]
                exact rendered _ (dirnameModifier_ends fields self picked)
              · simp only [if_neg dirname]
                exact rendered (.error _) nofun
      · exact Settles.const luaerror_ends
    · exact Settles.const luaerror_ends

theorem expandExpression_settles (code : CodeEnds cfg fields scope self) (e : LuaString) :
    Settles .diverges fun fuel => expandExpression (cfg.withFuel fuel) fields scope self e :=
  (code.expressions e).bind fun v _ => Settles.const (rendertable_ends v)

/-- What a fragment is replaced by. -/
def replacement (cfg : Settings W) (fields : Fields) (scope : List Obj) (self : Obj) :
    Fragment → Nat → Except Stop LuaString
  | .text s, _ => .ok s
  | .escape, _ => .ok PERCENT
  | .reference r, fuel => expandVariable (cfg.withFuel fuel) fields scope self r
  | .expression e, fuel => expandExpression (cfg.withFuel fuel) fields scope self e

theorem replacement_settles (code : CodeEnds cfg fields scope self)
    (redirects : ∀ key, Acc (Redirected fields scope self) key) (f : Fragment) :
    Settles .diverges (replacement cfg fields scope self f) := by
  cases f with
  | text s => exact Settles.ok s
  | escape => exact Settles.ok PERCENT
  | reference r => exact expandVariable_settles code redirects r
  | expression e => exact expandExpression_settles code e

/-- The fragments of a replacement text. That of an expression is read by the references of
the same pass. -/
def Fits : Fragment → List Fragment → Prop
  | .expression _, gs => ∀ g ∈ gs, g.Late
  | _, gs => ∀ g ∈ gs, g.Readable

/-- A fragment that does not lead on for ever: its replacement fails, or is a text of fragments
none of which does. -/
inductive Grounded (cfg : Settings W) (fields : Fields) (scope : List Obj) (self : Obj) :
    Fragment → Prop where
  | text (s : LuaString) : Grounded cfg fields scope self (.text s)
  | escape : Grounded cfg fields scope self .escape
  | fails (f : Fragment) (e : Stop)
      (stopped : Becomes (replacement cfg fields scope self f) (.error e)) :
      Grounded cfg fields scope self f
  | goes (f : Fragment) (gs : List Fragment)
      (made : Becomes (replacement cfg fields scope self f) (.ok (written gs)))
      (fits : Fits f gs) (all : ∀ g ∈ gs, Grounded cfg fields scope self g) :
      Grounded cfg fields scope self f

/-- A fragment of which nothing but plain text is left after `k` passes. -/
inductive EndsIn (cfg : Settings W) (fields : Fields) (scope : List Obj) (self : Obj) :
    Nat → Fragment → Prop where
  | text (k : Nat) (s : LuaString) : EndsIn cfg fields scope self k (.text s)
  | fails (k : Nat) (f : Fragment) (e : Stop) (reported : e ≠ .diverges)
      (stopped : Becomes (replacement cfg fields scope self f) (.error e)) :
      EndsIn cfg fields scope self (k + 1) f
  | goes (k : Nat) (f : Fragment) (gs : List Fragment)
      (made : Becomes (replacement cfg fields scope self f) (.ok (written gs)))
      (fits : Fits f gs) (all : ∀ g ∈ gs, EndsIn cfg fields scope self k g) :
      EndsIn cfg fields scope self (k + 1) f

theorem EndsIn.mono {k m : Nat} {f : Fragment} (ends : EndsIn cfg fields scope self k f)
    (le : k ≤ m) : EndsIn cfg fields scope self m f := by
  induction ends generalizing m with
  | text k s => exact .text m s
  | fails k f e reported stopped =>
    obtain ⟨n, rfl⟩ := Nat.exists_eq_add_of_le' (Nat.le_trans (Nat.le_add_left 1 k) le)
    exact .fails n f e reported stopped
  | goes k f gs made fits all ih =>
    obtain ⟨n, rfl⟩ := Nat.exists_eq_add_of_le' (Nat.le_trans (Nat.le_add_left 1 k) le)
    exact .goes n f gs made fits fun g hg => ih g hg (by omega)

theorem endsIn_all {fs : List Fragment}
    (each : ∀ f ∈ fs, ∃ k, EndsIn cfg fields scope self k f) :
    ∃ k, ∀ f ∈ fs, EndsIn cfg fields scope self k f := by
  induction fs with
  | nil => exact ⟨0, nofun⟩
  | cons f fs ih =>
    obtain ⟨k, first⟩ := each f List.mem_cons_self
    obtain ⟨m, rest⟩ := ih fun g hg => each g (List.mem_cons_of_mem f hg)
    refine ⟨max k m, fun g hg => ?_⟩
    rcases List.mem_cons.mp hg with rfl | hg
    · exact first.mono (Nat.le_max_left k m)
    · exact (rest g hg).mono (Nat.le_max_right k m)

theorem percent_readable : (Fragment.text PERCENT).Readable :=
  ⟨(by decide : '%' ∉ PERCENT), (by decide : PERCENT.head? ≠ some '{')⟩

theorem Grounded.endsIn (code : CodeEnds cfg fields scope self)
    (redirects : ∀ key, Acc (Redirected fields scope self) key) {f : Fragment}
    (grounded : Grounded cfg fields scope self f) : ∃ k, EndsIn cfg fields scope self k f := by
  induction grounded with
  | text s => exact ⟨0, .text 0 s⟩
  | escape =>
    refine ⟨1, .goes 0 .escape [.text PERCENT] (Becomes.const _) ?_ ?_⟩
    · intro g hg
      rw [List.mem_singleton.mp hg]
      exact percent_readable
    · intro g hg
      rw [List.mem_singleton.mp hg]
      exact .text 0 PERCENT
  | fails f e stopped =>
    refine ⟨1, .fails 0 f e ?_ stopped⟩
    rintro rfl
    obtain ⟨r, enough, becomes⟩ := (replacement_settles code redirects f).becomes
    exact enough (becomes.unique stopped)
  | goes f gs made fits all ih =>
    obtain ⟨k, each⟩ := endsIn_all ih
    exact ⟨k + 1, .goes k f gs made fits each⟩

/-- With enough fuel `run` reports an error or makes a text of good fragments. -/
def Makes (run : Nat → Except Stop LuaString) (Good : Fragment → Prop) : Prop :=
  (∃ e, e ≠ .diverges ∧ Becomes run (.error e)) ∨
    ∃ gs, Becomes run (.ok (written gs)) ∧ ∀ g ∈ gs, Good g

theorem Makes.append {Good : Fragment → Prop} {repl : Nat → List LuaString → Except Stop LuaString}
    {ps qs : List Piece} (first : Makes (fun fuel => replaceM (repl fuel) ps) Good)
    (rest : Makes (fun fuel => replaceM (repl fuel) qs) Good) :
    Makes (fun fuel => replaceM (repl fuel) (ps ++ qs)) Good := by
  simp only [replaceM_append]
  rcases first with ⟨e, reported, stopped⟩ | ⟨gs, made, good⟩
  · exact Or.inl ⟨e, reported, stopped.bind_error _⟩
  · rcases rest with ⟨e, reported, stopped⟩ | ⟨hs, made', good'⟩
    · exact Or.inl ⟨e, reported, made.bind_ok (stopped.bind_error _)⟩
    · refine Or.inr ⟨gs ++ hs, made.bind_ok (made'.bind_ok ?_), fun g hg => ?_⟩
      · rw [written_append]
        exact Becomes.const _
      · exact (List.mem_append.mp hg).elim (good g) (good' g)

/-- What holds of every fragment holds of the whole text. -/
theorem Makes.fragments {Good : Fragment → Prop}
    {repl : Nat → List LuaString → Except Stop LuaString} {pieces : Fragment → List Piece}
    {fs : List Fragment}
    (each : ∀ f ∈ fs, Makes (fun fuel => replaceM (repl fuel) (pieces f)) Good) :
    Makes (fun fuel => replaceM (repl fuel) (fs.flatMap pieces)) Good := by
  induction fs with
  | nil => exact Or.inr ⟨[], Becomes.const _, nofun⟩
  | cons f fs ih =>
    rw [List.flatMap_cons]
    exact (each f List.mem_cons_self).append (ih fun g hg => each g (List.mem_cons_of_mem f hg))

theorem Makes.copied {Good : Fragment → Prop} {f : Fragment} (good : Good f)
    (repl : Nat → List LuaString → Except Stop LuaString) :
    Makes (fun fuel => replaceM (repl fuel) (f.render.map .char)) Good := by
  refine Or.inr ⟨[f], ?_, fun g hg => ?_⟩
  · rw [written_single]
    simp only [replaceM_chars]
    exact Becomes.const _
  · rw [List.mem_singleton.mp hg]
    exact good

/-- One match, by what it is replaced with. -/
theorem Makes.hit {Good : Fragment → Prop} {f : LuaString → Nat → Except Stop LuaString}
    {capture : LuaString} (made : Makes (f capture) Good) :
    Makes (fun fuel => replaceM (captured fun c => f c fuel) [.hit [capture]]) Good := by
  have same : (fun fuel => replaceM (captured fun c => f c fuel) [.hit [capture]]) =
      f capture := by
    funext fuel
    simp only [replaceM, captured, List.headD_cons]
    cases f capture fuel with
    | error e => rfl
    | ok t => exact congrArg Except.ok (List.append_nil t)
  rw [same]
  exact made

theorem EndsIn.makes {k : Nat} {f : Fragment}
    (ends : EndsIn cfg fields scope self (k + 1) f) (code : ∀ s, f ≠ .text s) :
    Makes (replacement cfg fields scope self f) fun g =>
      EndsIn cfg fields scope self k g ∧ (match f with | .expression _ => g.Late | _ => g.Readable) := by
  cases ends with
  | text _ s => exact absurd rfl (code s)
  | fails _ _ e reported stopped => exact Or.inl ⟨e, reported, stopped⟩
  | goes _ _ gs made fits all =>
    refine Or.inr ⟨gs, made, fun g hg => ⟨all g hg, ?_⟩⟩
    cases f with
    | text s => exact absurd rfl (code s)
    | escape => exact fits g hg
    | reference r => exact fits g hg
    | expression e => exact fits g hg

theorem Makes.mono {run : Nat → Except Stop LuaString} {Good Better : Fragment → Prop}
    (made : Makes run Better) (weaker : ∀ g, Better g → Good g) : Makes run Good := by
  rcases made with stops | ⟨gs, becomes, better⟩
  · exact Or.inl stops
  · exact Or.inr ⟨gs, becomes, fun g hg => weaker g (better g hg)⟩

theorem late_of_readable {f : Fragment} (readable : f.Readable) (code : ∀ e, f ≠ .expression e) :
    f.Late := by
  cases f with
  | text s => exact readable
  | escape => trivial
  | reference r => exact readable.1
  | expression e => exact absurd rfl (code e)

/-- The pass over the expressions. -/
theorem expression_pass {k : Nat} {fs : List Fragment} (readable : ∀ f ∈ fs, f.Readable)
    (ends : ∀ f ∈ fs, EndsIn cfg fields scope self (k + 1) f) :
    Makes (fun fuel => replaceM
        (captured fun e => expandExpression (cfg.withFuel fuel) fields scope self e)
        (fs.flatMap Fragment.expressions))
      fun g => g.Late ∧ EndsIn cfg fields scope self (k + 1) g := by
  refine Makes.fragments fun f hf => ?_
  have own := ends f hf
  cases f with
  | expression e =>
    refine Makes.hit (f := fun e fuel => expandExpression (cfg.withFuel fuel) fields scope self e) ?_
    exact (own.makes nofun).mono fun g good => ⟨good.2, good.1.mono (Nat.le_succ k)⟩
  | text s => exact Makes.copied ⟨late_of_readable (readable _ hf) nofun, own⟩ _
  | escape => exact Makes.copied ⟨late_of_readable (readable _ hf) nofun, own⟩ _
  | reference r => exact Makes.copied ⟨late_of_readable (readable _ hf) nofun, own⟩ _

/-- The pass over the references. -/
theorem reference_pass {k : Nat} {fs : List Fragment} (late : ∀ f ∈ fs, f.Late)
    (ends : ∀ f ∈ fs, EndsIn cfg fields scope self (k + 1) f) :
    Makes (fun fuel => replaceM
        (captured fun r => expandVariable (cfg.withFuel fuel) fields scope self r)
        (fs.flatMap Fragment.references))
      fun g => g.Readable ∧ EndsIn cfg fields scope self k g := by
  refine Makes.fragments fun f hf => ?_
  have own := ends f hf
  have formed := late f hf
  cases f with
  | expression e => exact formed.elim
  | text s =>
    refine Makes.copied (f := .text s) ?_ _
    exact ⟨formed, .text k s⟩
  | escape =>
    refine Makes.hit (f := fun r fuel => expandVariable (cfg.withFuel fuel) fields scope self r) ?_
    refine Or.inr ⟨[.text PERCENT], ?_, fun g hg => ?_⟩
    · rw [written_single]
      exact Becomes.const _
    · rw [List.mem_singleton.mp hg]
      exact ⟨percent_readable, .text k PERCENT⟩
  | reference r =>
    refine Makes.hit (f := fun r fuel => expandVariable (cfg.withFuel fuel) fields scope self r) ?_
    exact (own.makes nofun).mono fun g good => ⟨good.2, good.1⟩

theorem replaceM_behind (repl : List LuaString → Except Stop LuaString) (s : LuaString)
    (qs : List Piece) : replaceM repl (s.map .char ++ qs) =
      replaceM repl qs >>= fun t => .ok (s ++ t) := by
  rw [replaceM_append, replaceM_chars]
  rfl

/-- One round of the loop. -/
theorem loop_pass {s : LuaString} (plain : '%' ∉ s) {fs : List Fragment}
    (readable : ∀ f ∈ fs, f.Readable) (env : Settings W) (fuel : Nat) :
    expandLoop env fields scope self (fuel + 1) (s ++ written fs) = (do
      let t ← replaceM (captured fun e => expandExpression env fields scope self e)
        (fs.flatMap Fragment.expressions)
      let u ← replaceM (captured fun r => expandVariable env fields scope self r)
        (scan variablePattern t)
      if hits (fs.flatMap Fragment.expressions) + hits (scan variablePattern t) = 0 then
        .ok (restore (s ++ u))
      else expandLoop env fields scope self fuel (s ++ u)) := by
  have found : scan expressionPattern (s ++ written fs) =
      s.map .char ++ fs.flatMap Fragment.expressions := by
    rw [expression_text plain, expressions_found readable]
  rw [expandLoop]
  simp only [found, replaceM_behind, hits_chars]
  cases replaceM (captured fun e => expandExpression env fields scope self e)
      (fs.flatMap Fragment.expressions) with
  | error e => rfl
  | ok t =>
    simp only [bind, Except.bind, scan_free s t plain, replaceM_behind, hits_chars]
    cases replaceM (captured fun r => expandVariable env fields scope self r)
        (scan variablePattern t) with
    | error e => rfl
    | ok u => rfl

/-- As many passes as the fragments lead on, and one in which nothing is found. -/
theorem loop_ends (k : Nat) {s : LuaString} (plain : '%' ∉ s) {fs : List Fragment}
    (readable : ∀ f ∈ fs, f.Readable) (ends : ∀ f ∈ fs, EndsIn cfg fields scope self k f) :
    ∃ n r, r ≠ .error .diverges ∧ ∀ fuel rounds, n ≤ fuel → n ≤ rounds →
      expandLoop (cfg.withFuel fuel) fields scope self rounds (s ++ written fs) = r := by
  induction k generalizing s fs with
  | zero =>
    have free : '%' ∉ s ++ written fs := by
      rw [List.mem_append, not_or]
      refine ⟨plain, fun there => ?_⟩
      obtain ⟨f, hf, sign⟩ := List.mem_flatMap.mp there
      have own := ends f hf
      cases own with
      | text _ t => exact (readable _ hf).1 sign
    refine ⟨1, .ok (restore (s ++ written fs)), nofun, fun fuel rounds _ le => ?_⟩
    obtain ⟨more, rfl⟩ := Nat.exists_eq_add_of_le' le
    exact expandLoop_unpaired (by rw [List.count_eq_zero.mpr free]; omega) more
  | succ k ih =>
    rcases expression_pass readable ends with ⟨e, reported, n, stopped⟩ | ⟨gs, ⟨n, made⟩, late⟩
    · beta_reduce at stopped
      refine ⟨n + 1, .error e, fun same => reported (by cases same; rfl),
        fun fuel rounds enough le => ?_⟩
      obtain ⟨more, rfl⟩ := Nat.exists_eq_add_of_le' (Nat.le_trans (Nat.le_add_left 1 n) le)
      rw [loop_pass plain readable, stopped fuel (by omega)]
      rfl
    · beta_reduce at made
      have found := references_found fun g hg => (late g hg).1
      rcases reference_pass (fun g hg => (late g hg).1) (fun g hg => (late g hg).2) with
        ⟨e, reported, m, stopped⟩ | ⟨hs, ⟨m, made'⟩, good⟩
      · beta_reduce at stopped
        refine ⟨n + m + 1, .error e, fun same => reported (by cases same; rfl),
          fun fuel rounds enough le => ?_⟩
        obtain ⟨more, rfl⟩ := Nat.exists_eq_add_of_le' (Nat.le_trans (Nat.le_add_left 1 _) le)
        rw [loop_pass plain readable, made fuel (by omega)]
        simp only [bind, Except.bind, found, stopped fuel (by omega)]
      · beta_reduce at made'
        obtain ⟨l, r, enough, rest⟩ := ih plain (fun h hh => (good h hh).1) fun h hh => (good h hh).2
        by_cases idle : hits (fs.flatMap Fragment.expressions) +
            hits (gs.flatMap Fragment.references) = 0
        · refine ⟨n + m + 1, .ok (restore (s ++ written hs)), nofun, fun fuel rounds large le => ?_⟩
          obtain ⟨more, rfl⟩ := Nat.exists_eq_add_of_le' (Nat.le_trans (Nat.le_add_left 1 _) le)
          rw [loop_pass plain readable, made fuel (by omega)]
          simp only [bind, Except.bind, found, made' fuel (by omega), if_pos idle]
        · refine ⟨n + m + l + 1, r, enough, fun fuel rounds large le => ?_⟩
          obtain ⟨more, rfl⟩ := Nat.exists_eq_add_of_le' (Nat.le_trans (Nat.le_add_left 1 _) le)
          rw [loop_pass plain readable, made fuel (by omega)]
          simp only [bind, Except.bind, found, made' fuel (by omega), if_neg idle]
          exact rest fuel more (by omega) (by omega)

end Replacements

/-- A lookup ends exactly if its redirections do. An expansion ends if they all do and the
fragments of the template do not lead on for ever, as far as the code of the pmfile ends. -/
theorem lookups_and_expansions_end (cfg : Settings W) (fields : Fields) (scope : List Obj)
    (self : Obj) :
    (∀ key, (Settles .diverges fun fuel => index fields scope self fuel key) ↔
      Acc (Redirected fields scope self) key) ∧
    (CodeEnds cfg fields scope self → (∀ key, Acc (Redirected fields scope self) key) →
      ∀ (s : LuaString) (fs : List Fragment), '%' ∉ s → (∀ f ∈ fs, f.Readable) →
        (∀ f ∈ fs, Grounded cfg fields scope self f) →
          Settles .diverges fun fuel =>
            expandText (cfg.withFuel fuel) fields scope self (s ++ written fs)) := by
  refine ⟨index_settles_iff, fun code redirects s fs plain readable grounded => ?_⟩
  obtain ⟨k, ends⟩ := endsIn_all fun f hf => (grounded f hf).endsIn code redirects
  obtain ⟨n, r, enough, same⟩ := loop_ends k plain readable ends
  exact ⟨n, r, enough, fun fuel le => same fuel fuel le le⟩

theorem oneDesk_ends (scope : List Obj) (self : Obj) :
    CodeEnds oneDesk (fun _ _ => none) scope self where
  modifiers m f v known := by cases known
  expressions e := Settles.ok _

/-- An object whose values are strings. -/
def texts (defs : List (LuaString × LuaString)) : Obj := ⟨0, defs.map fun d => (d.1, .str d.2)⟩

theorem texts_lookup (defs : List (LuaString × LuaString)) (key : LuaString) :
    rawget (fun _ _ => none) (texts defs) key = none ∨
      ∃ s, rawget (fun _ _ => none) (texts defs) key = some (.str s) := by
  simp only [rawget, texts]
  induction defs with
  | nil => exact Or.inl rfl
  | cons d defs ih =>
    rw [List.map_cons, List.lookup_cons]
    cases key == d.1 with
    | true => exact Or.inr ⟨d.2, rfl⟩
    | false => exact ih

theorem texts_redirect (defs : List (LuaString × LuaString)) (key : LuaString) :
    Acc (Redirected (fun _ _ => none) [] (texts defs)) key := by
  refine Acc.intro key fun target next => ?_
  have comes := next.2
  unfold ComesTo at comes
  rcases texts_lookup defs key with absent | ⟨s, found⟩
  · rw [absent] at comes
    exact comes.elim
  · rw [found] at comes
    exact comes.elim

def greeting : Obj := texts [("A".toList, "hello".toList)]

theorem greeting_expanded : Becomes (replacement oneDesk (fun _ _ => none) [] greeting
    (.reference "A".toList)) (.ok (written [.text "hello".toList])) := by
  refine ⟨0, fun fuel _ => ?_⟩
  have found : index (fun _ _ => none) [] greeting fuel "A".toList =
      .ok (some (.str "hello".toList)) := by cases fuel <;> rfl
  exact expandVariable_word (Word.of_check (by decide) (by decide)) found rfl rfl

theorem greeting_ends :
    ((∀ key, (Settles .diverges fun fuel => index (fun _ _ => none) [] greeting fuel key) ↔
      Acc (Redirected (fun _ _ => none) [] greeting) key)) ∧
    Settles .diverges fun fuel =>
      expandText (oneDesk.withFuel fuel) (fun _ _ => none) [] greeting "> %A%".toList := by
  refine ⟨(lookups_and_expansions_end oneDesk _ [] greeting).1,
    (lookups_and_expansions_end oneDesk _ [] greeting).2 (oneDesk_ends [] greeting)
      (texts_redirect _) "> ".toList [.reference "A".toList] (by decide) ?_ ?_⟩
  · intro f hf
    rw [List.mem_singleton.mp hf]
    exact ⟨⟨by decide, by decide⟩, (by decide : "A".toList.head? ≠ some '{')⟩
  · intro f hf
    rw [List.mem_singleton.mp hf]
    refine .goes _ [.text "hello".toList] greeting_expanded ?_ ?_
    · intro g hg
      rw [List.mem_singleton.mp hg]
      exact ⟨(by decide : '%' ∉ "hello".toList), (by decide : "hello".toList.head? ≠ some '{')⟩
    · intro g hg
      rw [List.mem_singleton.mp hg]
      exact .text _

def circularKey : Obj := ⟨0, [("K".toList, .list [.redirect, .str "K".toList])]⟩

theorem circularKey_diverges (fuel : Nat) :
    index (fun _ _ => none) [] circularKey fuel "K".toList = .error .diverges := by
  induction fuel with
  | zero => rfl
  | succ fuel ih => exact ih

def selfReference : Obj := texts [("A".toList, "%A%".toList)]

theorem selfReference_diverges (fuel : Nat) :
    expandText (oneDesk.withFuel fuel) (fun _ _ => none) [] selfReference "%A%".toList =
      .error .diverges := by
  have found : index (fun _ _ => none) [] selfReference fuel "A".toList =
      .ok (some (.str "%A%".toList)) := by cases fuel <;> rfl
  have value : expandVariable (oneDesk.withFuel fuel) (fun _ _ => none) [] selfReference "A".toList =
      .ok "%A%".toList := expandVariable_word (Word.of_check (by decide) (by decide)) found rfl rfl
  have loop : ∀ rounds, expandLoop (oneDesk.withFuel fuel) (fun _ _ => none) [] selfReference rounds
      (whole "A".toList) = .error .diverges := by
    intro rounds
    induction rounds with
    | zero => rfl
    | succ rounds ih =>
      rw [whole_pass (by decide) (by decide), value]
      exact ih
  exact loop fuel

/-- Read alone, neither text refers to itself: `A` names `P`, and `P` is one percent sign. -/
def loneSigns : Obj := texts [("P".toList, "%".toList), ("A".toList, "%P%A%P%".toList)]

theorem loneSigns_pass {env : Settings W} {fields : Fields} {scope : List Obj} {self : Obj}
    (value : expandVariable env fields scope self "P".toList = .ok "%".toList) (rounds : Nat) :
    expandLoop env fields scope self (rounds + 1) "%P%A%P%".toList =
      expandLoop env fields scope self rounds "%A%".toList := by
  have copied : replaceM (captured (expandExpression env fields scope self))
      (scan expressionPattern "%P%A%P%".toList) = .ok "%P%A%P%".toList := rfl
  have pieces : scan variablePattern "%P%A%P%".toList =
      [.hit ["P".toList], .char 'A', .hit ["P".toList]] := rfl
  have joined : replaceM (captured (expandVariable env fields scope self))
      [.hit ["P".toList], .char 'A', .hit ["P".toList]] = .ok "%A%".toList := by
    simp only [replaceM, captured, List.headD_cons, value]
    rfl
  rw [expandLoop]
  simp only [copied, bind, Except.bind, pieces, joined]
  rfl

theorem loneSigns_diverges (fuel : Nat) :
    expandText (oneDesk.withFuel fuel) (fun _ _ => none) [] loneSigns "%A%".toList =
      .error .diverges := by
  have found : ∀ key s, rawget (fun _ _ => none) loneSigns key = some (.str s) →
      capital key = true → index (fun _ _ => none) [] loneSigns fuel key = .ok (some (.str s)) := by
    intro key s own upper
    rw [index_capital _ _ _ fuel upper, walk, recurse, own]
    rfl
  have one : expandVariable (oneDesk.withFuel fuel) (fun _ _ => none) [] loneSigns "A".toList =
      .ok "%P%A%P%".toList :=
    expandVariable_word (Word.of_check (by decide) (by decide)) (found _ _ rfl rfl) rfl rfl
  have sign : expandVariable (oneDesk.withFuel fuel) (fun _ _ => none) [] loneSigns "P".toList =
      .ok "%".toList :=
    expandVariable_word (Word.of_check (by decide) (by decide)) (found _ _ rfl rfl) rfl rfl
  have loop : ∀ rounds,
      expandLoop (oneDesk.withFuel fuel) (fun _ _ => none) [] loneSigns rounds (whole "A".toList) =
        .error .diverges ∧
      expandLoop (oneDesk.withFuel fuel) (fun _ _ => none) [] loneSigns rounds "%P%A%P%".toList =
        .error .diverges := by
    intro rounds
    induction rounds with
    | zero => exact ⟨rfl, rfl⟩
    | succ rounds ih =>
      constructor
      · rw [whole_pass (by decide) (by decide), one]
        exact ih.2
      · rw [loneSigns_pass sign]
        exact ih.1
  exact (loop fuel).1

/-- A redirection to itself, a text that refers to itself, and texts that do so only together. -/
theorem endless_definitions :
    (∀ fuel, index (fun _ _ => none) [] circularKey fuel "K".toList = .error .diverges) ∧
    (∀ fuel, expandText (oneDesk.withFuel fuel) (fun _ _ => none) [] selfReference "%A%".toList =
      .error .diverges) ∧
    (∀ fuel, expandText (oneDesk.withFuel fuel) (fun _ _ => none) [] loneSigns "%A%".toList =
      .error .diverges) ∧
    ¬ ∀ (fields : Fields) (scope : List Obj) (self : Obj), CodeEnds oneDesk fields scope self →
      (∀ key, Settles .diverges fun fuel => index fields scope self fuel key) ∧
      ∀ template, Settles .diverges fun fuel =>
        expandText (oneDesk.withFuel fuel) fields scope self template := by
  refine ⟨circularKey_diverges, selfReference_diverges, loneSigns_diverges, fun all => ?_⟩
  exact not_settles selfReference_diverges ((all _ _ _ (oneDesk_ends [] selfReference)).2 _)

end PrimeMover
