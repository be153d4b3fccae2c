import PrimeMover.Commands

/-! Runs on the desk: what its shell does to timestamps, and checks that a run can be put
through. -/
namespace PrimeMover
open AssocTable Outcome

namespace Desk

variable (shell : LuaString → Effect) (fuel : Nat)

theorem mtime_eq (d : Desk) (f : LuaString) :
    mtime (settings shell (fuel + 1)) d f = ((d.files.lookup f).map DeskFile.mtime).getD 0 := by
  show (((host shell).stat d f).map Stat.mtime).getD 0 = _
  unfold host
  dsimp only
  cases d.files.lookup f with
  | some file => rfl
  | none =>
    dsimp only
    split <;> rfl

theorem lookup_write (d : Desk) (f g contents : LuaString) :
    (d.write f contents).files.lookup g =
      if g = f then some ⟨d.clock, contents⟩ else d.files.lookup g := by
  simp only [write, lookup_setEntry, beq_iff_eq]

theorem lookup_writes (writes : List (LuaString × LuaString)) (d : Desk) (f : LuaString) :
    (((writes.foldl (fun d w => d.write w.1 w.2) d).files.lookup f).map DeskFile.mtime).getD 0 =
        (if f ∈ writes.map Prod.fst then d.clock
          else ((d.files.lookup f).map DeskFile.mtime).getD 0) ∧
      (writes.foldl (fun d w => d.write w.1 w.2) d).clock = d.clock := by
  induction writes generalizing d with
  | nil => simp
  | cons w writes ih =>
    obtain ⟨files, clock⟩ := ih (d.write w.1 w.2)
    rw [List.foldl_cons, files, clock, lookup_write]
    refine ⟨?_, rfl⟩
    by_cases later : f ∈ writes.map Prod.fst
    · rw [if_pos later, if_pos (by simp only [List.map_cons, List.mem_cons, later, or_true])]
      rfl
    · rw [if_neg later]
      by_cases same : f = w.1
      · simp [same]
      · simp [same, later]

theorem mtime_apply (d : Desk) (e : Effect) (keeps : e.removes = []) (f : LuaString) :
    mtime (settings shell (fuel + 1)) (d.apply e) f =
        (if f ∈ e.writes.map Prod.fst then d.clock + 1
          else mtime (settings shell (fuel + 1)) d f) ∧
      (d.apply e).clock = d.clock + 1 := by
  simp only [mtime_eq, apply, keeps, List.foldl_nil]
  exact lookup_writes e.writes { d with clock := d.clock + 1 } f

theorem laws (F : LuaString → Prop) : Laws (settings shell (fuel + 1)) F := by
  constructor
  · intro w d w' made
    have same := mkdir_files made
    refine ⟨same.2.ge, fun f _ => ?_⟩
    rw [mtime_eq, mtime_eq, same.1]
  · intro w text w' written
    cases written
    refine ⟨le_rfl, fun f hf => ?_⟩
    rw [mtime_eq, mtime_eq, lookup_write, if_neg hf.2]

/-- A node with nothing to install, and if it is simple, with one command, which writes
just its outputs. -/
def tidy (v : Visit Desk) : Bool :=
  v.install.isEmpty && match v.decl.kind with
    | .simple =>
      match v.commands, v.texts (settings shell (fuel + 1)) with
      | [.str _], .ok [c] =>
        (shell c).removes.isEmpty && decide ((shell c).writes.map Prod.fst = v.outs)
      | _, _ => false
    | _ => true

theorem behaves {F : LuaString → Prop} {v : Visit Desk} (ok : tidy shell fuel v = true) :
    Behaves (settings shell (fuel + 1)) F v := by
  simp only [tidy, Bool.and_eq_true, List.isEmpty_iff] at ok
  constructor
  · intro s s' mem run simple
    have kind := ok.2
    rw [simple] at kind
    dsimp only at kind
    split at kind
    · rename_i source c commands texts
      simp only [Bool.and_eq_true, List.isEmpty_iff, decide_eq_true_eq] at kind
      have strings : ∀ c ∈ v.commands, IsString c := by
        rw [commands]
        simp [IsString]
      obtain ⟨texts', same, world, _⟩ := dobuild_strings rfl strings mem run
      rw [texts] at same
      cases same
      have world : s'.sys.world = s.sys.world.apply (shell c) := world
      have applied := mtime_apply shell fuel s.sys.world (shell c) kind.1
      rw [world]
      refine ⟨?_, fun f hf => ?_, fun f _ other => ?_⟩
      · show s.sys.world.clock ≤ (s.sys.world.apply (shell c)).clock
        rw [(applied []).2]
        exact Nat.le_succ _
      · rw [(applied f).1, kind.2, if_pos hf]
        show s.sys.world.clock ≤ s.sys.world.clock + 1 ∧
          s.sys.world.clock + 1 ≤ (s.sys.world.apply (shell c)).clock
        rw [(applied []).2]
        exact ⟨Nat.le_succ _, le_rfl⟩
      · rw [(applied f).1, kind.2, if_neg other]
    · cases kind
  · intro s s' mem run
    rw [installNode_nothing ok.1 mem run]
    exact Calm.refl _ _ _

/-- The names of a run. -/
def names (fin : State Desk) : List LuaString := fin.visits.flatMap fun v => v.inputs ++ v.outs

theorem named_iff {fin : State Desk} {f : LuaString} : Named fin f ↔ f ∈ names fin := by
  simp [Named, names]

/-- The checks of an orderly run that begins at a desk. -/
def orderly (d : Desk) (fin : State Desk) : Bool :=
  decide (0 < d.clock ∧ d.clock ≤ fin.sys.world.clock ∧ fin.sys.world.clock < 0x80000000) &&
    fin.visits.all (tidy shell fuel) &&
    (names fin).all fun f =>
      decide (((d.files.lookup f).map DeskFile.mtime).getD 0 ≤ d.clock) &&
        decide (f ≠ indexFile (settings shell (fuel + 1))) &&
        fin.sys.log.all fun e => decide (e ≠ .mkdir f)

theorem orderly_of_check {s fin : State Desk} (unseen : Unseen s)
    (ok : orderly shell fuel s.sys.world fin = true) :
    Orderly (settings shell (fuel + 1)) s fin := by
  simp only [orderly, Bool.and_eq_true, List.all_eq_true, decide_eq_true_eq] at ok
  obtain ⟨⟨⟨started, later, early⟩, visits⟩, files⟩ := ok
  have past : ∀ f, Named fin f → mtime (settings shell (fuel + 1)) s.sys.world f ≤
      s.sys.world.clock := fun f hf => by
    rw [mtime_eq]
    exact (files f (named_iff.mp hf)).1.1
  refine ⟨⟨fun _ hf => hf, laws shell fuel _, ⟨fun hf => ?_, fun f hf named => ?_⟩,
    fun v hv => behaves shell fuel (visits v hv)⟩, started, early, past, fun f hf => ?_⟩
  · exact (files _ (named_iff.mp hf)).1.2 rfl
  · exact (files f (named_iff.mp named)).2 _ hf rfl
  · have small := past f hf
    rw [age_early (reported_unseen (by rw [unseen.1])) (by omega)]

theorem present_iff (d : Desk) (f : LuaString) :
    Present (settings shell (fuel + 1)) d f ↔ ((host shell).stat d f).isSome := by
  constructor
  · rintro ⟨g, s, links, stat⟩
    cases links
    have stat : (host shell).stat d f = some s := stat
    rw [stat]
    rfl
  · intro there
    obtain ⟨s, stat⟩ := Option.isSome_iff_exists.mp there
    exact ⟨f, s, rfl, stat⟩

/-- Whether a run returns with a result. -/
def returns {A : Type} [DecidableEq A] (r : EStateM.Result Stop (State Desk) A) (a : A) : Bool :=
  match r with
  | .ok b _ => decide (b = a)
  | .error _ _ => false

theorem ok_of_returns {A : Type} [DecidableEq A] {r : EStateM.Result Stop (State Desk) A} {a : A}
    (ok : returns r a = true) : r = .ok a (final r) := by
  cases r with
  | ok b s =>
    cases of_decide_eq_true ok
    rfl
  | error e s => cases ok

end Desk

end PrimeMover
