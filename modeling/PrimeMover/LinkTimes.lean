import PrimeMover.Escape
import PrimeMover.View

/-! The time of a file behind symbolic links. `filetime` follows the links itself, by the
text of their targets, before it asks the system. -/
namespace PrimeMover
open PosixTree Outcome AssocTable

/-- `readlink`, of which `Preadlink` takes as much as its buffer holds. -/
def readTarget (t : Linked) (path : LuaString) : Option LuaString :=
  match t.named path (path.splitOn '/') with
  | none => none
  | some (n, l) =>
    match t.entry (n :: l) with
    | some (.link target) => some (target.take 512)
    | _ => none

/-- A system on which every file and directory has a time. -/
def timedHost (times : Location → Nat) (other : Host Linked) (reads : ReadOrder) : Host Linked :=
  { linkHost other reads with
    stat := fun t f => (t.resolve f).bind fun l =>
      (t.entry l).map fun e => ⟨(objectStat e).type, times l⟩
    readlink := readTarget }

/-- The time of the file that a path resolves to. -/
def modified (times : Location → Nat) (t : Linked) (f : LuaString) : Option Nat :=
  (t.resolve f).bind fun l => (t.entry l).map fun _ => times l

/-- For a path that the cache does not know, the call returns the time of the file it
resolves to, as a number that is not negative, and 0 exactly when it resolves to nothing. -/
def TimedRight (host : Host Linked) (times : Location → Nat) (t : Linked) (f : LuaString) : Prop :=
  (∃ bound, ∀ fuel, bound ≤ fuel → ∀ s : Sys Linked, s.world = t → s.stattedFiles f = none →
    ∃ s', filetime host fuel f s = .ok (((modified times t f).getD 0 : Nat) : Int) s') ∧
  ((modified times t f).getD 0 = 0 ↔ modified times t f = none)

/-- From one path to the next, the way the loop goes. -/
def Chain (t : Linked) : LuaString → LuaString → Prop :=
  Relation.ReflTransGen (fun f g => readTarget t f = some g)

/-- The way comes to an end. -/
inductive ChainEnds (t : Linked) : LuaString → Prop where
  | last (f) (none : readTarget t f = none) : ChainEnds t f
  | next (f g) (link : readTarget t f = some g) (rest : ChainEnds t g) : ChainEnds t f

theorem ChainEnds.step {t : Linked} {f g : LuaString} (ends : ChainEnds t f)
    (link : readTarget t f = some g) : ChainEnds t g := by
  cases ends with
  | last f none => cases none.symm.trans link
  | next f h link' rest =>
    cases link'.symm.trans link
    exact rest

theorem ChainEnds.chain {t : Linked} {f g : LuaString} (ends : ChainEnds t f) (way : Chain t f g) :
    ChainEnds t g := by
  induction way with
  | refl => exact ends
  | tail _ link ih => exact ih.step link

section Loop

variable {times : Location → Nat} {other : Host Linked} {reads : ReadOrder} {t : Linked}

theorem stamp_stat (f : LuaString) :
    (((timedHost times other reads).stat t f).map Stat.mtime) = modified times t f := by
  change ((t.resolve f).bind fun l => (t.entry l).map fun e =>
    (⟨(objectStat e).type, times l⟩ : Stat)).map Stat.mtime = _
  unfold modified
  cases t.resolve f with
  | none => rfl
  | some l =>
    simp only [Option.bind_some, Option.map_map]
    rfl

theorem stamp_last {f : LuaString} (none : readTarget t f = none) (fuel : Nat) :
    stamp (timedHost times other reads) (fuel + 1) t f =
      some (luaNumber ((modified times t f).getD 0 : Nat)) := by
  have stop : (timedHost times other reads).readlink t f = Option.none := none
  rw [stamp, followLinks, stop, ← stamp_stat]
  simp only [Option.map_some]
  cases (timedHost times other reads).stat t f <;> rfl

theorem stamp_next {f g : LuaString} (link : readTarget t f = some g) (fuel : Nat) :
    stamp (timedHost times other reads) (fuel + 1) t f =
      stamp (timedHost times other reads) fuel t g := by
  have go : (timedHost times other reads).readlink t f = some g := link
  rw [stamp, followLinks, go]
  rfl

/-- A call that returns went along a chain that ends. -/
theorem chainEnds_of_stamp {f : LuaString} {fuel : Nat} {value : Int}
    (found : stamp (timedHost times other reads) fuel t f = some value) : ChainEnds t f := by
  induction fuel generalizing f with
  | zero => cases found
  | succ fuel ih =>
    cases link : readTarget t f with
    | none => exact .last f link
    | some g =>
      rw [stamp_next link] at found
      exact .next f g link (ih found)

theorem stamp_lt {host : Host Linked} {f : LuaString} {fuel : Nat} {value : Int}
    (found : stamp host fuel t f = some value) : value < 0x80000000 := by
  obtain ⟨g, _, rfl⟩ := Option.map_eq_some_iff.mp found
  cases host.stat t g with
  | none => decide
  | some s => exact luaNumber_lt s.mtime

theorem filetime_uncached (host : Host Linked) (fuel : Nat) {f : LuaString} {s : Sys Linked}
    (unknown : s.stattedFiles f = none) :
    filetime host fuel f s =
      match stamp host fuel s.world f with
      | none => .error .diverges s
      | some v => .ok v { s with
          stattedFiles := fun g => if g = f then some v else s.stattedFiles g } := by
  unfold filetime
  rw [bind_run, get_run]
  simp only [unknown, bind_run, get_run]
  cases stamp host fuel s.world f <;> rfl

end Loop

theorem TimedRight.stamp {times : Location → Nat} {other : Host Linked} {reads : ReadOrder}
    {t : Linked} {f : LuaString} (right : TimedRight (timedHost times other reads) times t f) :
    ∃ bound, ∀ fuel, bound ≤ fuel →
      stamp (timedHost times other reads) fuel t f =
        some (((modified times t f).getD 0 : Nat) : Int) := by
  obtain ⟨bound, returns⟩ := right.1
  refine ⟨bound, fun fuel enough => ?_⟩
  obtain ⟨s', run⟩ := returns fuel enough ⟨t, fun _ => none, []⟩ rfl rfl
  rw [filetime_uncached _ fuel rfl] at run
  dsimp only at run
  cases found : PrimeMover.stamp (timedHost times other reads) fuel t f with
  | none =>
    rw [found] at run
    cases run
  | some v =>
    rw [found] at run
    cases run
    rfl

/-- The time is right for every path that the links lead on to from `f`, exactly when they
come to an end, the target of each, read from the working directory, has the time of the
link itself, and every file on the way has a time that is positive and fits into a number. -/
theorem filetime_right (times : Location → Nat) (other : Host Linked) (reads : ReadOrder)
    (t : Linked) (f : LuaString) :
    (∀ g, Chain t f g → TimedRight (timedHost times other reads) times t g) ↔
      ChainEnds t f ∧
        (∀ g h, Chain t f g → readTarget t g = some h → modified times t h = modified times t g) ∧
        ∀ g a, Chain t f g → modified times t g = some a → 0 < a ∧ a < 0x80000000 := by
  constructor
  · intro right
    have nonzero : ∀ g, Chain t f g → modified times t g ≠ some 0 := by
      intro g way zero
      have := (right g way).2.mp (by rw [zero]; rfl)
      rw [zero] at this
      cases this
    have fits : ∀ g a, Chain t f g → modified times t g = some a → 0 < a ∧ a < 0x80000000 := by
      intro g a way time
      obtain ⟨bound, found⟩ := (right g way).stamp
      have small := stamp_lt (found bound le_rfl)
      rw [time, Option.getD_some] at small
      exact ⟨Nat.pos_of_ne_zero fun zero => nonzero g way (by rw [time, zero]), by omega⟩
    refine ⟨?_, fun g h way link => ?_, fits⟩
    · obtain ⟨bound, found⟩ := (right f Relation.ReflTransGen.refl).stamp
      exact chainEnds_of_stamp (found bound le_rfl)
    · obtain ⟨b1, found⟩ := (right g way).stamp
      obtain ⟨b2, found'⟩ := (right h (way.tail link)).stamp
      have first := found (max b1 b2 + 1) (by omega)
      rw [stamp_next link, found' (max b1 b2) (by omega)] at first
      have same : (modified times t h).getD 0 = (modified times t g).getD 0 := by
        exact_mod_cast Option.some.inj first
      have g0 := nonzero g way
      have h0 := nonzero h (way.tail link)
      cases hg : modified times t g with
      | none =>
        cases hh : modified times t h with
        | none => rfl
        | some b =>
          rw [hg, hh] at same
          exact absurd (hh.trans (congrArg some same)) h0
      | some a =>
        cases hh : modified times t h with
        | none =>
          rw [hg, hh] at same
          exact absurd (hg.trans (congrArg some same.symm)) g0
        | some b =>
          rw [hg, hh] at same
          exact congrArg some same
  · rintro ⟨ends, same, fits⟩ g way
    have value : ∃ bound, ∀ fuel, bound ≤ fuel → stamp (timedHost times other reads) fuel t g =
        some (((modified times t g).getD 0 : Nat) : Int) := by
      -- along the rest of the chain, from its end
      have rest := ends.chain way
      clear ends
      induction rest with
      | last g none =>
        refine ⟨1, fun fuel enough => ?_⟩
        obtain ⟨fuel, rfl⟩ := Nat.exists_eq_add_of_le' enough
        rw [stamp_last none fuel]
        cases time : modified times t g with
        | none => rfl
        | some a =>
          have small := (fits g a way time).2
          rw [Option.getD_some, luaNumber_of_small (by omega) (by omega)]
      | next g h link _ ih =>
        obtain ⟨bound, found⟩ := ih (way.tail link)
        refine ⟨bound + 1, fun fuel enough => ?_⟩
        obtain ⟨fuel, rfl⟩ := Nat.exists_eq_add_of_le' (Nat.le_of_add_left_le enough)
        rw [stamp_next link, found fuel (by omega), same g h way link]
    obtain ⟨bound, found⟩ := value
    refine ⟨⟨bound, fun fuel enough s world unknown => ?_⟩, ?_⟩
    · let v : Int := ((modified times t g).getD 0 : Nat)
      refine ⟨{ s with stattedFiles := fun h => if h = g then some v else s.stattedFiles h }, ?_⟩
      rw [filetime_uncached _ fuel unknown, world, found fuel enough]
    · cases hg : modified times t g with
      | none => simp
      | some a =>
        have := (fits g a way hg).1
        simp only [Option.getD_some, reduceCtorEq, iff_false]
        omega

/-- On the way to the target of a link another link stands at `m`. -/
def Meets (t : Linked) (l : Location) (target : LuaString) (m : Location) : Prop :=
  ∃ before n after k, target.splitOn '/' = before ++ Name.text n :: after ∧
    t.walk t.allowed (origin l.tail target) before = some k ∧ m = n :: k ∧
    ∃ next, t.entry m = some (.link next)

/-- The links can be ranked so that each only leads over lower ones. -/
def AcyclicLinks (t : Linked) : Prop :=
  ∃ rank : Location → Nat, ∀ l target m, t.entry l = some (.link target) → Meets t l target m →
    rank m < rank l

def subdirectory : Name := ⟨"lib".toList, by decide, by decide, by decide, by decide⟩

def linkName : Name := ⟨"x".toList, by decide, by decide, by decide, by decide⟩

def targetName : Name := ⟨"y".toList, by decide, by decide, by decide, by decide⟩

/-- A directory with a file and a link to it, whose target is relative to the directory. -/
def linkTree : Linked :=
  (((Linked.bareLinked 40).add subdirectory [] .dir rfl rfl).add targetName [subdirectory]
    (.file 5 []) rfl rfl).add linkName [subdirectory] (.link "y".toList) rfl rfl

theorem linkTree_links {l : Location} {target : LuaString}
    (found : linkTree.entry l = some (.link target)) : l = [linkName, subdirectory] ∧
      target = "y".toList := by
  have entry := mem_of_lookup found
  simp only [linkTree, Linked.add, Linked.bareLinked, List.mem_cons, List.not_mem_nil, or_false,
    Prod.mk.injEq, reduceCtorEq, and_false, Object.link.injEq] at entry
  exact entry

theorem linkTree_acyclic : AcyclicLinks linkTree := by
  refine ⟨fun _ => 0, ?_⟩
  rintro l target m found ⟨before, n, after, k, split, led, rfl, next, there⟩
  obtain ⟨rfl, rfl⟩ := linkTree_links found
  have parts : "y".toList.splitOn '/' = ["y".toList] := by decide
  rw [parts] at split
  cases before with
  | cons c before => simp at split
  | nil =>
    have text : n = targetName := by
      have same := (List.cons.inj split).1
      cases n
      simp only [targetName, Name.mk.injEq]
      exact same.symm
    rw [Linked.walk_nil] at led
    cases led
    have same := (linkTree_links there).1
    rw [text] at same
    exact absurd same (by decide)

theorem relative_target_missed :
    modified (fun _ => 5) linkTree "lib/x".toList = some 5 ∧
      ¬ ∀ (times : Location → Nat) (other : Host Linked) (reads : ReadOrder) (t : Linked)
        (f : LuaString), AcyclicLinks t → TimedRight (timedHost times other reads) times t f := by
  refine ⟨by decide, fun all => ?_⟩
  obtain ⟨bound, found⟩ := (all (fun _ => 5) linkSystem asListed linkTree "lib/x".toList
    linkTree_acyclic).stamp
  have value := found (bound + 2) (by omega)
  have link : readTarget linkTree "lib/x".toList = some "y".toList := by decide
  have none : readTarget linkTree "y".toList = none := by decide
  rw [stamp_next link, stamp_last none] at value
  exact absurd value (by decide)

end PrimeMover
