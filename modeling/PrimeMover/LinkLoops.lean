import PrimeMover.LinkTimes
import PrimeMover.Install
import Mathlib.Order.Preorder.Finite
import Mathlib.Data.Set.Finite.Lemmas
import Mathlib.Data.Set.Finite.Lattice

/-! Following links until there is none. The library part is about any partial function with
finitely many values, the rest about the loop of `filetime`. -/
namespace Following

variable {A : Type} {next : A → Option A}

def Step (next : A → Option A) (a b : A) : Prop := next a = some b

/-- The way from a comes to an end. -/
inductive Ends (next : A → Option A) : A → Prop where
  | last (a : A) (stop : next a = none) : Ends next a
  | further (a b : A) (step : next a = some b) (rest : Ends next b) : Ends next a

/-- The way from a comes to a value that leads back to itself. -/
def Circles (next : A → Option A) (a : A) : Prop :=
  ∃ b, Relation.ReflTransGen (Step next) a b ∧ Relation.TransGen (Step next) b b

theorem Circles.further {a b : A} (circles : Circles next a) (step : next a = some b) :
    Circles next b := by
  obtain ⟨c, way, round⟩ := circles
  rcases Relation.ReflTransGen.cases_head way with rfl | ⟨d, first, rest⟩
  · obtain ⟨d, first, back⟩ := Relation.TransGen.head'_iff.mp round
    cases step.symm.trans first
    exact ⟨b, .refl, Relation.TransGen.tail'_iff.mpr ⟨a, back, step⟩⟩
  · cases step.symm.trans first
    exact ⟨c, rest, round⟩

theorem Ends.no_circle {a : A} (ends : Ends next a) : ¬ Circles next a := by
  induction ends with
  | last a stop =>
    rintro ⟨b, way, round⟩
    have stuck : ∀ c, ¬ Step next a c := fun c step => nomatch stop.symm.trans step
    rcases Relation.ReflTransGen.cases_head way with rfl | ⟨c, first, _⟩
    · obtain ⟨c, first, _⟩ := Relation.TransGen.head'_iff.mp round
      exact stuck c first
    · exact stuck c first
  | further a b step _ ih => exact fun circles => ih (circles.further step)

/-- The value after n steps. -/
def after (next : A → Option A) : Nat → A → Option A
  | 0, a => some a
  | n + 1, a => (after next n a).bind next

theorem after_way {n : Nat} {a b : A} (reached : after next n a = some b) :
    Relation.ReflTransGen (Step next) a b := by
  induction n generalizing b with
  | zero =>
    cases reached
    exact .refl
  | succ n ih =>
    obtain ⟨c, before, step⟩ := Option.bind_eq_some_iff.mp reached
    exact (ih before).tail step

theorem after_between {m n : Nat} {a b c : A} (less : m < n) (first : after next m a = some b)
    (second : after next n a = some c) : Relation.TransGen (Step next) b c := by
  induction n generalizing c with
  | zero => omega
  | succ n ih =>
    obtain ⟨d, before, step⟩ := Option.bind_eq_some_iff.mp second
    by_cases here : m = n
    · subst here
      cases first.symm.trans before
      exact .single step
    · exact (ih (by omega) before).tail step

theorem Ends.of_end {a b : A} {n : Nat} (reached : after next n a = some b)
    (ends : Ends next b) : Ends next a := by
  induction n generalizing b with
  | zero =>
    cases reached
    exact ends
  | succ n ih =>
    obtain ⟨c, before, step⟩ := Option.bind_eq_some_iff.mp reached
    exact ih before (.further c b step ends)

theorem endless {a : A} (on : ¬ Ends next a) (n : Nat) : ∃ b, after next n a = some b := by
  induction n with
  | zero => exact ⟨a, rfl⟩
  | succ n ih =>
    obtain ⟨b, reached⟩ := ih
    cases step : next b with
    | none => exact absurd (Ends.of_end reached (.last b step)) on
    | some c => exact ⟨c, by simp [after, reached, step]⟩

/-- Among finitely many values a way without end comes back. -/
theorem ends_iff {a : A} (finite : {b | ∃ c, next c = some b}.Finite) :
    Ends next a ↔ ¬ Circles next a := by
  refine ⟨Ends.no_circle, fun straight => ?_⟩
  by_contra on
  choose value reached using endless on
  have values : ∀ n, value (n + 1) ∈ {b | ∃ c, next c = some b} := by
    intro n
    obtain ⟨c, _, step⟩ := Option.bind_eq_some_iff.mp (reached (n + 1))
    exact ⟨c, step⟩
  obtain ⟨m, n, less, same⟩ := Set.Finite.exists_lt_map_eq_of_forall_mem values finite
  have round := after_between (Nat.succ_lt_succ less) (reached (m + 1)) (reached (n + 1))
  rw [← same] at round
  exact straight ⟨_, after_way (reached (m + 1)), round⟩

end Following

namespace PrimeMover
open PosixTree Outcome Following AssocTable

variable {W : Type}

theorem followLinks_ends (host : Host W) (w : W) (f : LuaString) :
    (∃ fuel g, followLinks host w fuel f = some g) ↔ Ends (host.readlink w) f := by
  constructor
  · rintro ⟨fuel, g, found⟩
    induction fuel generalizing f with
    | zero => cases found
    | succ fuel ih =>
      cases link : host.readlink w f with
      | none => exact .last f link
      | some h =>
        rw [followLinks, link] at found
        exact .further f h link (ih h found)
  · intro ends
    induction ends with
    | last f stop => exact ⟨1, f, by rw [followLinks, stop]⟩
    | further f h link _ ih =>
      obtain ⟨fuel, g, found⟩ := ih
      exact ⟨fuel + 1, g, by simp only [followLinks, link, found]⟩

theorem filetime_unknown (host : Host W) (fuel : Nat) {f : LuaString} {s : Sys W}
    (unknown : s.stattedFiles f = none) :
    (∃ t s', filetime host fuel f s = .ok t s') ↔ ∃ g, followLinks host s.world fuel f = some g := by
  unfold filetime stamp
  simp only [bind_run, get_run, unknown]
  cases found : followLinks host s.world fuel f with
  | none =>
    constructor
    · rintro ⟨t, s', run⟩
      cases run
    · rintro ⟨g, other⟩
      cases other
  | some g => exact ⟨fun _ => ⟨g, rfl⟩, fun _ => ⟨_, _, rfl⟩⟩

/-- `filetime` returns exactly when the file is in the cache or no link on the way from it
leads back to itself. -/
theorem filetime_terminates_iff (host : Host W) (s : Sys W) (f : LuaString)
    (finite : {g | ∃ h, host.readlink s.world h = some g}.Finite) :
    (∃ fuel t s', filetime host fuel f s = .ok t s') ↔
      (s.stattedFiles f).isSome ∨ ¬ Circles (host.readlink s.world) f := by
  cases cached : s.stattedFiles f with
  | some t =>
    simp only [Option.isSome_some, true_or, iff_true]
    exact ⟨0, t, s, by simp only [filetime, bind_run, get_run, cached]; rfl⟩
  | none =>
    simp only [filetime_unknown host _ cached, followLinks_ends, ends_iff finite,
      Option.isSome_none, Bool.false_eq_true, false_or]

/-- Only the targets of the links in the tree can be read. -/
theorem readTarget_finite (t : Linked) : {g | ∃ h, readTarget t h = some g}.Finite := by
  have one : ∀ e ∈ {e | e ∈ t.entries},
      {g | ∃ target, e.2 = .link target ∧ g = target.take 512}.Finite := by
    intro e _
    apply Set.Subsingleton.finite
    rintro g ⟨a, first, rfl⟩ h ⟨b, second, rfl⟩
    rw [first] at second
    cases second
    rfl
  apply (Set.Finite.biUnion t.entries.finite_toSet one).subset
  rintro g ⟨h, read⟩
  unfold readTarget at read
  split at read
  · cases read
  rename_i n l _
  split at read
  · rename_i target there
    cases read
    exact Set.mem_biUnion (mem_of_lookup there) ⟨target, rfl, rfl⟩
  · cases read

def ownName : LuaString := "//f".toList

theorem readTarget_top {t : Linked} {n : PosixTree.Name} (name : n.text = "f".toList)
    (there : t.entry (n :: []) = some (.link ownName)) : readTarget t ownName = some ownName := by
  have way : ∀ links, t.walk links [] [[], []] = some [] := by
    intro links
    cases links <;> simp [Linked.walk, Linked.walkWith, t.root, Linked.entry]
  have named : t.named ownName (ownName.splitOn '/') = some (n, []) := by
    have parts : ownName.splitOn '/' = [[], [], "f".toList] := by decide
    have start : origin t.cwd ownName = [] := rfl
    have last : Name.ofText "f".toList = some n := name ▸ Name.ofText_text n
    rw [parts, Linked.named]
    simp only [List.reverse_cons, List.reverse_nil, List.nil_append, List.cons_append, start, last, way]
  rw [readTarget, named]
  simp only [there]
  rfl

/-- `pm.install("f", "f")` leaves a link that leads to itself. -/
theorem installed_loop : ∃ s', doInstall (onInstalls (linkSettings 4) asListed) sandboxVariables
      "f".toList "f".toList plainStart = .ok () s' ∧
    readTarget s'.sys.world ownName = some ownName := by
  have named := plain_expands "f".toList (by decide) (by decide)
  obtain ⟨u, again⟩ := Option.isSome_iff_exists.mp
    (show ((plainFile.unlink (absolute [] "f".toList)).bind fun v =>
      v.symlink (absolute [] "f".toList) (absolute [] "f".toList)).isSome by decide +kernel)
  obtain ⟨v, out, again⟩ := Option.bind_eq_some_iff.mp again
  obtain ⟨s', run⟩ := doInstall_returns (linkSettings 4) asListed sandboxVariables plainStart
    (by decide) named named (by decide +kernel) (Or.inr ⟨by decide +kernel, v, out, again⟩)
  obtain ⟨before, n, x, put⟩ := install_put rfl named named run
  refine ⟨s', run, ?_⟩
  have split : [] ++ ["f".toList] = before ++ [n.text] := put.split
  obtain ⟨rfl, text⟩ := List.append_inj' split rfl
  have top : x = [] := by
    obtain ⟨k, led⟩ := put.led
    cases led with
    | done => rfl
    | step _ _ _ _ _ _ one _ => cases one
  have here : s'.sys.world.entry (n :: []) = some (.link ownName) := top ▸ put.link
  exact readTarget_top (List.singleton_inj.mp text.symm) here

def nextRun (t : Linked) : Sys Linked := ⟨t, fun _ => none, []⟩

def ordinaryHost : Host Linked := timedHost (fun _ => 1) (linkSettings 4).host asListed

theorem filetime_plainFile :
    (∃ fuel t s', filetime ordinaryHost fuel "f".toList (nextRun plainFile) = .ok t s') ↔
      ((nextRun plainFile).stattedFiles "f".toList).isSome ∨
        ¬ Circles (ordinaryHost.readlink plainFile) "f".toList :=
  filetime_terminates_iff ordinaryHost (nextRun plainFile) "f".toList (readTarget_finite plainFile)

/-- After `pm.install("f", "f")` the time of the file is never found. -/
theorem filetime_installed_link : ∃ s', doInstall (onInstalls (linkSettings 4) asListed)
      sandboxVariables "f".toList "f".toList plainStart = .ok () s' ∧
    ¬ ∃ fuel t s'', filetime ordinaryHost fuel ownName (nextRun s'.sys.world) = .ok t s'' := by
  obtain ⟨s', run, link⟩ := installed_loop
  refine ⟨s', run, ?_⟩
  rintro ⟨fuel, t, s'', ends⟩
  have found := (filetime_unknown ordinaryHost fuel rfl).mp ⟨t, s'', ends⟩
  have ends := (followLinks_ends ordinaryHost s'.sys.world ownName).mp ⟨fuel, found⟩
  exact ends.no_circle ⟨ownName, .refl, .single link⟩

end PrimeMover
