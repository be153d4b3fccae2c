import PrimeMover.Actions
import PrimeMover.Make

/-! The timestamps of a run, on disk and through the stat cache, and the decision that a
node takes from them. -/
namespace PrimeMover
open Outcome Make

variable {W : Type}

/-- The timestamp of a file on disk, 0 for a missing one. -/
def mtime (cfg : Settings W) (w : W) (f : LuaString) : Nat :=
  (((followLinks cfg.host w cfg.fuel f).bind (cfg.host.stat w)).map Stat.mtime).getD 0

/-- What `filetime` finds is the number that Lua has for the time. -/
theorem stamp_mtime {cfg : Settings W} {w : W} {f : LuaString} {t : Int}
    (found : stamp cfg.host cfg.fuel w f = some t) : t = luaNumber (mtime cfg w f) := by
  unfold stamp at found
  unfold mtime
  cases links : followLinks cfg.host w cfg.fuel f with
  | none =>
    rw [links] at found
    cases found
  | some g =>
    rw [links] at found
    have value : ((cfg.host.stat w g).map fun s => luaNumber s.mtime).getD 0 = t :=
      Option.some.inj found
    rw [← value, Option.bind_some]
    cases cfg.host.stat w g <;> rfl

/-- The file is there, behind its links. -/
def Present (cfg : Settings W) (w : W) (f : LuaString) : Prop :=
  ∃ g s, followLinks cfg.host w cfg.fuel f = some g ∧ cfg.host.stat w g = some s

theorem present_of_mtime {cfg : Settings W} {w : W} {f : LuaString} (some : mtime cfg w f ≠ 0) :
    Present cfg w f := by
  unfold mtime at some
  cases links : followLinks cfg.host w cfg.fuel f with
  | none =>
    rw [links] at some
    exact absurd rfl some
  | some g =>
    cases stat : cfg.host.stat w g with
    | none =>
      rw [links] at some
      simp [stat] at some
    | some s => exact ⟨g, s, links, stat⟩

/-- The timestamp of a file as `filetime` gives it. -/
def reported (cfg : Settings W) (s : Sys W) (f : LuaString) : Int :=
  (s.stattedFiles f).getD (luaNumber (mtime cfg s.world f))

/-- What the timestamp counts for in a comparison, which begins at 0. -/
def age (cfg : Settings W) (s : Sys W) (f : LuaString) : Nat := (reported cfg s f).toNat

theorem reported_unseen {cfg : Settings W} {s : Sys W} {f : LuaString}
    (unseen : s.stattedFiles f = none) : reported cfg s f = luaNumber (mtime cfg s.world f) := by
  rw [reported, unseen]
  rfl

theorem age_congr {cfg : Settings W} {s t : Sys W} {f : LuaString}
    (same : reported cfg t f = reported cfg s f) : age cfg t f = age cfg s f :=
  congrArg Int.toNat same

theorem reported_of_age {cfg : Settings W} {s : Sys W} {f : LuaString} (none : age cfg s f = 0)
    (sign : 0 ≤ reported cfg s f) : reported cfg s f = 0 := by
  rw [age] at none
  omega

/-- Before 2038 a time is reported as it is. -/
theorem age_early {cfg : Settings W} {s : Sys W} {f : LuaString} {t : Nat}
    (known : reported cfg s f = luaNumber t) (early : t < 0x80000000) : age cfg s f = t := by
  rw [age, known]
  exact luaNumber_toNat early

/-- Nothing changes but the list of expansions, and the stat cache where it was empty. -/
structure Still (cfg : Settings W) (s t : State W) : Prop where
  mem : t.mem = s.mem
  world : t.sys.world = s.sys.world
  log : t.sys.log = s.sys.log
  visits : t.visits = s.visits
  reported : ∀ f, reported cfg t.sys f = reported cfg s.sys f

theorem Still.age {cfg : Settings W} {s t : State W} (still : Still cfg s t) (f : LuaString) :
    age cfg t.sys f = age cfg s.sys f := age_congr (still.reported f)

theorem Still.refl (cfg : Settings W) (s : State W) : Still cfg s s :=
  ⟨rfl, rfl, rfl, rfl, fun _ => rfl⟩

theorem Still.trans {cfg : Settings W} {s t u : State W} (first : Still cfg s t)
    (second : Still cfg t u) : Still cfg s u :=
  ⟨second.mem.trans first.mem, second.world.trans first.world, second.log.trans first.log,
    second.visits.trans first.visits, fun f => (second.reported f).trans (first.reported f)⟩

theorem Stamping.still {cfg : Settings W} {self : Obj} {s t : State W}
    (step : Stamping cfg self s t) : Still cfg s t := by
  cases step with
  | look => exact ⟨rfl, rfl, rfl, rfl, fun _ => rfl⟩
  | cache f t unseen found =>
    refine ⟨rfl, rfl, rfl, rfl, fun g => ?_⟩
    by_cases same : g = f
    · subst same
      simp [PrimeMover.reported, unseen, stamp_mtime found]
    · simp [PrimeMover.reported, same]

theorem still_of_moves {cfg : Settings W} {self : Obj} {A : Type} {x : PM W A}
    (moves : Moves (Stamping cfg self) x) (s : State W) : Still cfg s (final (x s)) :=
  path_keeps (P := fun t => Still cfg s t) (fun _ _ step still => still.trans step.still)
    (moves s) (Still.refl cfg s)

theorem filetime_value {cfg : Settings W} {f : LuaString} {s s' : State W} {t : Int}
    (run : lift (filetime cfg.host cfg.fuel f) s = .ok t s') : t = reported cfg s.sys f := by
  unfold lift filetime at run
  rw [bind_run, get_run] at run
  dsimp only at run
  cases seen : s.sys.stattedFiles f with
  | some t' =>
    simp only [seen, pure_run] at run
    cases run
    simp [reported, seen]
  | none =>
    simp only [seen, bind_run, get_run] at run
    cases found : stamp cfg.host cfg.fuel s.sys.world f with
    | none =>
      simp only [found, throw_run] at run
      cases run
    | some t' =>
      simp only [found, bind_run, modify_run, pure_run] at run
      cases run
      simp [reported, seen, stamp_mtime found]

/-- The state of a run after a step that only reads timestamps. -/
theorem still_of_run {cfg : Settings W} {self : Obj} {A : Type} {x : PM W A} {s t : State W} {a : A}
    (moves : Moves (Stamping cfg self) x) (run : x s = .ok a t) : Still cfg s t := by
  have still := still_of_moves moves s
  rwa [run] at still

theorem lift_bind_ok {A B : Type} {x : SysM W A} {f : A → SysM W B} {s u : State W} {b : B}
    (run : lift (x >>= f) s = .ok b u) :
    ∃ a t, lift x s = .ok a t ∧ lift (f a) t = .ok b u := by
  rw [lift_bind] at run
  exact bind_eq_ok.mp run

/-- The loops take the greater of a number that is not negative and a timestamp. -/
theorem later_age (cfg : Settings W) (s : Sys W) (f : LuaString) (t : Nat) :
    (if reported cfg s f > t then reported cfg s f else t) = ((max t (age cfg s f) : Nat) : Int) := by
  unfold age
  split <;> omega

theorem newest_value {cfg : Settings W} (self : Obj) {fs : List LuaString} {t : Nat} {t' : Int}
    {s s' : State W} (run : lift (newest cfg.host cfg.fuel fs t) s = .ok t' s') :
    t' = (max t (latest (age cfg s.sys) fs) : Nat) := by
  induction fs generalizing t s with
  | nil =>
    cases run
    simp [latest]
  | cons f fs ih =>
    obtain ⟨tt, s1, first, rest⟩ := lift_bind_ok run
    have still := still_of_run (filetime_moves cfg self f) first
    rw [filetime_value first, later_age] at rest
    rw [ih rest, latest_congr fun g _ => still.age g]
    simp only [latest, List.foldr_cons]
    omega

theorem newerThan_value {cfg : Settings W} (self : Obj) {fs : List LuaString} {t : Nat} {b : Bool}
    {s s' : State W} (run : lift (newerThan cfg.host cfg.fuel t fs) s = .ok b s') :
    b = true ↔ ∃ f ∈ fs, t < age cfg s.sys f := by
  induction fs generalizing s with
  | nil =>
    cases run
    simp
  | cons f fs ih =>
    obtain ⟨tt, s1, first, rest⟩ := lift_bind_ok run
    have still := still_of_run (filetime_moves cfg self f) first
    have same : reported cfg s.sys f > t ↔ t < age cfg s.sys f := by
      unfold age
      omega
    rw [filetime_value first] at rest
    by_cases newer : t < age cfg s.sys f
    · rw [if_pos (same.mpr newer)] at rest
      cases rest
      simp [newer]
    · rw [if_neg (mt same.mp newer)] at rest
      rw [ih rest]
      simp [still.age, newer]

theorem expand_ok {cfg : Settings W} {self : Obj} {text result : LuaString} {s t : State W}
    (run : expand cfg self text s = .ok result t) :
    expandText cfg s.mem.fields s.mem.scope self text = .ok result ∧ t = s.look self := by
  rw [expand_run] at run
  cases h : expandText cfg s.mem.fields s.mem.scope self text with
  | ok r =>
    rw [h] at run
    cases run
    exact ⟨rfl, rfl⟩
  | error e =>
    rw [h] at run
    cases run

/-- The names whose timestamps are those of a node. A file node expands its outputs again. -/
def dated (cfg : Settings W) (mem : Mem) (decl : Decl) (outs : List LuaString) :
    Except Stop (List LuaString) :=
  if decl.kind = .file then outs.mapM (expandText cfg mem.fields mem.scope decl.obj) else .ok outs

/-- Names that stand for themselves when they are expanded. -/
def Verbatim (cfg : Settings W) (mem : Mem) (self : Obj) (fs : List LuaString) : Prop :=
  ∀ f ∈ fs, ∀ g, expandText cfg mem.fields mem.scope self f = .ok g → g = f

theorem mapM_verbatim {E A : Type} {f : A → Except E A} {l r : List A}
    (same : ∀ a ∈ l, ∀ b, f a = .ok b → b = a) (run : l.mapM f = .ok r) : r = l := by
  induction l generalizing r with
  | nil =>
    cases run
    rfl
  | cons a l ih =>
    rw [List.mapM_cons] at run
    cases first : f a with
    | error e =>
      rw [first] at run
      cases run
    | ok b =>
      cases rest : l.mapM f with
      | error e =>
        rw [first, rest] at run
        cases run
      | ok bs =>
        rw [first, rest] at run
        cases run
        rw [same a List.mem_cons_self b first, ih (fun c hc => same c (List.mem_cons_of_mem a hc)) rest]

theorem dated_verbatim {cfg : Settings W} {mem : Mem} {decl : Decl} {outs names : List LuaString}
    (text : decl.kind = .file → Verbatim cfg mem decl.obj outs)
    (run : dated cfg mem decl outs = .ok names) : names = outs := by
  unfold dated at run
  split at run
  · rename_i file
    exact mapM_verbatim (text file) run
  · cases run
    rfl

theorem fileTimestamp_value {cfg : Settings W} {self : Obj} {fs : List LuaString} {t : Nat} {t' : Int}
    {s s' : State W} (run : fileTimestamp cfg self fs t s = .ok t' s') :
    ∃ names, fs.mapM (expandText cfg s.mem.fields s.mem.scope self) = .ok names ∧
      t' = (max t (latest (age cfg s.sys) names) : Nat) ∧ ∀ f ∈ names, reported cfg s.sys f ≠ 0 := by
  induction fs generalizing t s with
  | nil =>
    cases run
    exact ⟨[], rfl, by simp [latest], by simp⟩
  | cons f fs ih =>
    obtain ⟨g, s1, expanded, checked⟩ := bind_eq_ok.mp run
    obtain ⟨same, rfl⟩ := expand_ok expanded
    obtain ⟨tt, s2, first, rest⟩ := bind_eq_ok.mp checked
    have look : Still cfg s (s.look self) := Stamping.still (.look s)
    have still := look.trans (still_of_run (filetime_moves cfg self g) first)
    rw [filetime_value first, look.reported, later_age] at rest
    split at rest
    · cases rest
    · rename_i there
      obtain ⟨names, all, newest, others⟩ := ih rest
      rw [latest_congr fun h _ => still.age h] at newest
      rw [still.mem] at all
      refine ⟨g :: names, by rw [List.mapM_cons, same, all]; rfl, ?_, fun h hh => ?_⟩
      · rw [newest]
        simp only [latest, List.foldr_cons]
        omega
      · rcases List.mem_cons.mp hh with rfl | hh
        · exact there
        · rw [← still.reported h]
          exact others h hh

theorem timestamp_file {cfg : Settings W} {decl : Decl} (file : decl.kind = .file)
    (outs : List LuaString) : timestamp cfg decl outs = fileTimestamp cfg decl.obj outs 0 := by
  simp only [timestamp, file]

theorem timestamp_other {cfg : Settings W} {decl : Decl} (other : decl.kind ≠ .file)
    (outs : List LuaString) :
    timestamp cfg decl outs = lift (newest cfg.host cfg.fuel outs 0) := by
  unfold timestamp
  split
  · rename_i file
    exact absurd file other
  · rfl

/-- The part of `node:__build` that compares timestamps. -/
def judge (cfg : Settings W) (decl : Decl) (inputs outs : List LuaString) : PM W Bool := do
  outdated cfg (← timestamp cfg decl outs) inputs

/-- The decision of a node is the one of its timestamps. -/
theorem judge_value {cfg : Settings W} {decl : Decl} {inputs outs : List LuaString} {old : Bool}
    {s s' : State W} (run : judge cfg decl inputs outs s = .ok old s') :
    Still cfg s s' ∧ ∃ names, dated cfg s.mem decl outs = .ok names ∧
      (old = true ↔ Outdated (age cfg s.sys) inputs names) ∧
      (decl.kind = .file → ∀ f ∈ names, reported cfg s.sys f ≠ 0) := by
  obtain ⟨t, s1, first, rest⟩ := bind_eq_ok.mp run
  have still := still_of_run (timestamp_moves cfg decl outs) first
  have still' := still_of_run (outdated_moves cfg decl.obj t inputs) rest
  have value : ∃ names, dated cfg s.mem decl outs = .ok names ∧
      t = (latest (age cfg s.sys) names : Nat) ∧
      (decl.kind = .file → ∀ f ∈ names, reported cfg s.sys f ≠ 0) := by
    by_cases file : decl.kind = .file
    · rw [timestamp_file file] at first
      obtain ⟨names, all, value, there⟩ := fileTimestamp_value (t := 0) first
      exact ⟨names, by rw [dated, if_pos file, all], by omega, fun _ => there⟩
    · rw [timestamp_other file] at first
      have := newest_value (t := 0) decl.obj first
      exact ⟨outs, by rw [dated, if_neg file], by omega, fun same => absurd same file⟩
  obtain ⟨names, all, value, there⟩ := value
  refine ⟨still.trans still', names, all, ?_, there⟩
  rw [outdated, value] at rest
  by_cases none : latest (age cfg s.sys) names = 0
  · rw [if_pos (by omega)] at rest
    cases rest
    simp [Outdated, none]
  · rw [if_neg (by omega)] at rest
    rw [newerThan_value decl.obj rest, Outdated, or_iff_right none]
    simp only [still.age]

end PrimeMover
