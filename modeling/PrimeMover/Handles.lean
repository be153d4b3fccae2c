import PrimeMover.Headers
import Mathlib.Data.List.Pairwise

/-! The file handles of the header search. The functions of this module are those of the
search itself with the handles that `io_open` gives and `file:close` takes back. -/
namespace DepthFirst

variable {A : Type} {next : A → List A} {root : A}

/-- Each node that is reached is listed once as a successor, and the root never. -/
structure ListedOnce (next : A → List A) (root : A) : Prop where
  first : ∀ a, Reaches next root a → root ∉ next a
  distinct : ∀ a, Reaches next root a → (next a).Nodup
  one : ∀ a b c, Reaches next root a → Reaches next root b → c ∈ next a → c ∈ next b → a = b

theorem reached_listed {all : List A} (exactly : ∀ n, n ∈ all ↔ Reaches next root n) :
    all ⊆ root :: all.flatMap next := by
  intro n mem
  rcases Relation.ReflTransGen.cases_tail ((exactly n).mp mem) with rfl | ⟨before, path, one⟩
  · exact List.mem_cons_self
  · exact List.mem_cons_of_mem _ (List.mem_flatMap.mpr ⟨before, (exactly before).mpr path, one⟩)

/-- The successors of all that is reached are as many as the nodes below the root exactly when
they are listed once. -/
theorem listedOnce_iff {all : List A} (distinct : all.Nodup)
    (exactly : ∀ n, n ∈ all ↔ Reaches next root n) :
    all.length = 1 + (all.flatMap next).length ↔ ListedOnce next root := by
  have covered := reached_listed exactly
  constructor
  · intro count
    have same : all.Perm (root :: all.flatMap next) :=
      (List.subperm_of_subset distinct covered).perm_of_length_le
        (by rw [List.length_cons]; omega)
    have once := same.nodup_iff.mp distinct
    obtain ⟨above, below⟩ := List.nodup_cons.mp once
    obtain ⟨each, apart⟩ := List.nodup_flatMap.mp below
    refine ⟨?_, ?_, ?_⟩
    · intro a path one
      exact above (List.mem_flatMap.mpr ⟨a, (exactly a).mpr path, one⟩)
    · exact fun a path => each a ((exactly a).mpr path)
    · intro a b c ha hb ca cb
      by_contra other
      have : Std.Symm (Function.onFun List.Disjoint next) := ⟨fun _ _ h => h.symm⟩
      exact apart.forall ((exactly a).mpr ha) ((exactly b).mpr hb) other ca cb
  · intro once
    have below : (all.flatMap next).Nodup := by
      refine List.nodup_flatMap.mpr ⟨fun a mem => once.distinct a ((exactly a).mp mem), ?_⟩
      refine List.Pairwise.imp_of_mem ?_ distinct
      intro a b ha hb other c ca cb
      exact other (once.one a b c ((exactly a).mp ha) ((exactly b).mp hb) ca cb)
    have whole : (root :: all.flatMap next).Nodup := by
      refine List.nodup_cons.mpr ⟨?_, below⟩
      intro mem
      obtain ⟨a, ha, one⟩ := List.mem_flatMap.mp mem
      exact once.first a ((exactly a).mp ha) one
    have back : root :: all.flatMap next ⊆ all := by
      intro n mem
      rcases List.mem_cons.mp mem with rfl | mem
      · exact (exactly n).mpr .refl
      · obtain ⟨a, ha, one⟩ := List.mem_flatMap.mp mem
        exact (exactly n).mpr (((exactly a).mp ha).tail one)
    have few := distinct.length_le_of_subset covered
    have many := whole.length_le_of_subset back
    simp only [List.length_cons] at few many
    omega

end DepthFirst

namespace PrimeMover
open Outcome AssocTable DepthFirst

/-- The handles are numbered in the order in which they are opened. -/
structure Handles where
  headers : Headers
  next : Nat
  live : Nat → Bool

abbrev HandleM := EStateM Stop Handles

namespace Handles

def opening (s : Handles) : Handles :=
  { s with next := s.next + 1, live := fun h => h == s.next || s.live h }

def closing (s : Handles) (h : Nat) : Handles :=
  { s with live := fun g => g != h && s.live g }

/-- `io_open`: the handle, and the text that can be read from it. -/
def ioOpen (disk : Disk) (name : LuaString) : HandleM (Option (Nat × LuaString)) := do
  match disk name with
  | none => pure none
  | some text =>
    let s ← get
    set s.opening
    pure (some (s.next, text))

def close (h : Nat) : HandleM Unit := modify (fun s => s.closing h)

def onHeaders (f : Headers → Headers) : HandleM Unit :=
  modify (fun s => { s with headers := f s.headers })

def followInclude (disk : Disk) (calcdeps : LuaString → Nat × LuaString → HandleM Unit)
    (f : LuaString) : List LuaString → HandleM Unit
  | [] => pure ()
  | path :: paths => do
    let subfilename := path ++ "/".toList ++ f
    match ← ioOpen disk subfilename with
    | none => followInclude disk calcdeps f paths
    | some subfile =>
      if subfilename ∉ (← get).headers.deps then
        onHeaders (fun s => { s with deps := s.deps ++ [subfilename] })
        calcdeps subfilename subfile

def scanLine (disk : Disk) (calcdeps : LuaString → Nat × LuaString → HandleM Unit)
    (localincludes : List LuaString) (line : LuaString) : HandleM Unit :=
  match header line with
  | none => pure ()
  | some f => followInclude disk calcdeps f localincludes

def calcdeps (disk : Disk) (includes : List LuaString) : Nat → LuaString → Nat × LuaString →
    HandleM Unit
  | 0, _, _ => throw .diverges
  | fuel + 1, filename, file => do
    onHeaders (fun s => { s with scanned := s.scanned ++ [filename] })
    (fileLines file.2).forM
      (scanLine disk (calcdeps disk includes fuel) (localInclude filename :: includes))
    close file.1

def calculateDependencies (disk : Disk) (pairs : KeyOrder) (fuel : Nat) (filename : LuaString)
    (includes : List LuaString) : HandleM (List LuaString) := do
  match (← get).headers.dependencyCache.lookup filename with
  | some o => pure o
  | none =>
    onHeaders (fun s => { s with deps := [filename] })
    match ← ioOpen disk filename with
    | none => pure ()
    | some file => calcdeps disk includes fuel filename file
    let o := pairs.order (← get).headers.deps
    onHeaders (fun s => { s with dependencyCache := setEntry s.dependencyCache filename o })
    pure o

/-- What one program returns, the other returns on the state without the handles. -/
def Erases {A : Type} (x : HandleM A) (y : HeaderM A) : Prop :=
  ∀ s a t, x s = .ok a t → y s.headers = .ok a t.headers

theorem Erases.pure {A : Type} (a : A) : Erases (pure a) (pure a) := by
  rintro s b t run
  cases run
  rfl

theorem Erases.bind {A B : Type} {x : HandleM A} {y : HeaderM A} {f : A → HandleM B}
    {g : A → HeaderM B} (first : Erases x y) (later : ∀ a, Erases (f a) (g a)) :
    Erases (x >>= f) (y >>= g) := by
  intro s b t run
  obtain ⟨a, u, head, tail⟩ := bind_eq_ok.mp run
  exact bind_eq_ok.mpr ⟨a, u.headers, first s a u head, later a u b t tail⟩

theorem Erases.onHeaders (f : Headers → Headers) : Erases (onHeaders f) (modify f) := by
  rintro s a t run
  cases run
  rfl

theorem Erases.forM {A : Type} {f : A → HandleM Unit} {g : A → HeaderM Unit}
    (each : ∀ a, Erases (f a) (g a)) (l : List A) : Erases (l.forM f) (l.forM g) := by
  induction l with
  | nil => exact Erases.pure ()
  | cons a l ih => exact (each a).bind fun _ => ih

theorem ioOpen_none {disk : Disk} {name : LuaString} (missing : disk name = none) (s : Handles) :
    ioOpen disk name s = .ok none s := by
  rw [ioOpen, missing]
  rfl

theorem ioOpen_some {disk : Disk} {name text : LuaString} (there : disk name = some text)
    (s : Handles) : ioOpen disk name s = .ok (some (s.next, text)) s.opening := by
  rw [ioOpen, there]
  rfl

section
variable {disk : Disk} {search : LuaString → Nat × LuaString → HandleM Unit}

/-- What one include line can do: nothing is found, the file was seen before and stays open,
or it is searched. -/
theorem followInclude_cases {f : LuaString} {paths : List LuaString} {s t : Handles}
    (run : followInclude disk search f paths s = .ok () t) :
    ((paths.map (· ++ "/".toList ++ f)).find? (fun name => (disk name).isSome) = none ∧ t = s) ∨
    ∃ name text, (paths.map (· ++ "/".toList ++ f)).find? (fun name => (disk name).isSome) =
        some name ∧ disk name = some text ∧
      (name ∈ s.headers.deps ∧ t = s.opening ∨
        name ∉ s.headers.deps ∧ search name (s.next, text) { s.opening with
          headers := { s.headers with deps := s.headers.deps ++ [name] } } = .ok () t) := by
  induction paths with
  | nil =>
    cases run
    exact .inl ⟨rfl, rfl⟩
  | cons path paths ih =>
    rw [followInclude] at run
    rw [List.map_cons]
    cases opened : disk (path ++ "/".toList ++ f) with
    | none =>
      rw [bind_ok_run (ioOpen_none opened s)] at run
      rw [List.find?_cons_of_neg (by simp only [opened, Option.isSome_none, Bool.false_eq_true,
        not_false_eq_true])]
      exact ih run
    | some text =>
      rw [bind_ok_run (ioOpen_some opened s)] at run
      refine .inr ⟨_, text, List.find?_cons_of_pos (by simp only [opened, Option.isSome_some]),
        opened, ?_⟩
      simp only [bind_run, get_run] at run
      split at run
      · rename_i fresh
        exact .inr ⟨fresh, run⟩
      · rename_i seen
        cases run
        exact .inl ⟨not_not.mp seen, rfl⟩

theorem followInclude_erases {search' : LuaString → LuaString → HeaderM Unit}
    (below : ∀ name h text, Erases (search name (h, text)) (search' name text)) (f : LuaString)
    (paths : List LuaString) :
    Erases (followInclude disk search f paths) (PrimeMover.followInclude disk search' f paths) := by
  induction paths with
  | nil => exact Erases.pure ()
  | cons path paths ih =>
    intro s a t run
    rw [followInclude] at run
    rw [PrimeMover.followInclude]
    cases opened : disk (path ++ "/".toList ++ f) with
    | none =>
      rw [bind_ok_run (ioOpen_none opened s)] at run
      exact ih s a t run
    | some text =>
      rw [bind_ok_run (ioOpen_some opened s)] at run
      simp only [bind_run, get_run] at run ⊢
      split at run
      · rename_i fresh
        rw [if_pos (show _ ∉ s.headers.deps from fresh)]
        exact below _ s.next text _ a t run
      · rename_i seen
        cases run
        rw [if_neg (show ¬ _ ∉ s.headers.deps from seen)]
        rfl

theorem scanLine_erases {search' : LuaString → LuaString → HeaderM Unit}
    (below : ∀ name h text, Erases (search name (h, text)) (search' name text))
    (localincludes : List LuaString) (line : LuaString) :
    Erases (scanLine disk search localincludes line)
      (PrimeMover.scanLine disk search' localincludes line) := by
  unfold scanLine PrimeMover.scanLine
  cases header line with
  | none => exact Erases.pure ()
  | some f => exact followInclude_erases below f localincludes

end

theorem calcdeps_erases (disk : Disk) (includes : List LuaString) (fuel : Nat)
    (filename : LuaString) (h : Nat) (text : LuaString) :
    Erases (calcdeps disk includes fuel filename (h, text))
      (PrimeMover.calcdeps disk includes fuel filename text) := by
  induction fuel generalizing filename h text with
  | zero =>
    intro s a t run
    cases run
  | succ fuel ih =>
    rw [calcdeps, PrimeMover.calcdeps]
    refine (Erases.onHeaders _).bind fun _ => ?_
    intro s a t run
    obtain ⟨_, u, lines, last⟩ := bind_eq_ok.mp run
    cases last
    exact Erases.forM (fun line => scanLine_erases ih _ line) _ s () u lines

/-- The search with handles is the search of the model, seen from its tables. -/
theorem calculate_erases (disk : Disk) (pairs : KeyOrder) (fuel : Nat) (filename : LuaString)
    (includes : List LuaString) :
    Erases (calculateDependencies disk pairs fuel filename includes)
      (PrimeMover.calculateDependencies disk pairs fuel filename includes) := by
  intro s o t run
  simp only [calculateDependencies, bind_run, get_run] at run
  simp only [PrimeMover.calculateDependencies, bind_run, get_run]
  cases known : s.headers.dependencyCache.lookup filename with
  | some old =>
    simp only [known] at run ⊢
    cases run
    rfl
  | none =>
    simp only [known, onHeaders, modify_run, bind_run] at run ⊢
    cases opened : disk filename with
    | none =>
      simp only [ioOpen_none opened, bind_run, get_run, modify_run, pure_run] at run ⊢
      cases run
      rfl
    | some text =>
      simp only [ioOpen_some opened, bind_run, get_run, modify_run, pure_run] at run ⊢
      cases searched : calcdeps disk includes fuel filename (s.next, text)
          (Handles.opening { s with headers := { s.headers with deps := [filename] } }) with
      | error e u =>
        rw [searched] at run
        cases run
      | ok a u =>
        have plain := calcdeps_erases disk includes fuel filename s.next text _ _ _ searched
        rw [searched] at run
        cases run
        rw [show PrimeMover.calcdeps disk includes fuel filename text
          { s.headers with deps := [filename] } = _ from plain]

/-- How many of the handles opened between two states are still open. -/
def leaked (s t : Handles) : Nat := (List.range' s.next (t.next - s.next)).countP t.live

/-- What a part of the search leaves behind that meets `lines` resolved include lines besides
those of the files it searches: each line opens a handle, and each new name closes one. -/
structure Leaves (disk : Disk) (includes : List LuaString) (lines : Nat) (s t : Handles) : Prop where
  grows : s.next ≤ t.next
  frame : ∀ h, h < s.next → t.live h = s.live h
  count : ∃ new, t.headers.scanned = s.headers.scanned ++ new ∧
    leaked s t + t.headers.deps.length =
      s.headers.deps.length + lines + (new.flatMap (included disk includes)).length

section
variable {disk : Disk} {includes : List LuaString}

theorem Leaves.refl (s : Handles) : Leaves disk includes 0 s s where
  grows := Nat.le_refl _
  frame _ _ := rfl
  count := ⟨[], by simp, by simp [leaked]⟩

theorem leaked_split {s t u : Handles} (first : s.next ≤ t.next) (second : t.next ≤ u.next)
    (frame : ∀ h, h < t.next → u.live h = t.live h) : leaked s u = leaked s t + leaked t u := by
  have split : List.range' s.next (u.next - s.next) =
      List.range' s.next (t.next - s.next) ++ List.range' t.next (u.next - t.next) := by
    have whole : u.next - s.next = (t.next - s.next) + (u.next - t.next) := by omega
    have middle : t.next = s.next + (t.next - s.next) := by omega
    rw [whole]
    conv => rhs; arg 2; rw [middle]
    rw [List.range'_append_1, ← middle]
  have kept : (List.range' s.next (t.next - s.next)).countP u.live =
      (List.range' s.next (t.next - s.next)).countP t.live := by
    apply List.countP_congr
    intro h mem
    have bounds := List.mem_range'_1.mp mem
    rw [frame h (by omega)]
  rw [leaked, split, List.countP_append, kept, leaked, leaked]

theorem Leaves.trans {m n : Nat} {s t u : Handles} (first : Leaves disk includes m s t)
    (second : Leaves disk includes n t u) : Leaves disk includes (m + n) s u where
  grows := Nat.le_trans first.grows second.grows
  frame h old := by
    rw [second.frame h (Nat.lt_of_lt_of_le old first.grows), first.frame h old]
  count := by
    obtain ⟨new, scanned, count⟩ := first.count
    obtain ⟨new', scanned', count'⟩ := second.count
    refine ⟨new ++ new', by rw [scanned', scanned, List.append_assoc], ?_⟩
    rw [leaked_split first.grows second.grows second.frame, List.flatMap_append,
      List.length_append]
    omega

theorem opening_leaves (s : Handles) : Leaves disk includes 1 s s.opening where
  grows := Nat.le_succ s.next
  frame h old := by
    have other : (h == s.next) = false := by
      rw [beq_eq_false_iff_ne]
      omega
    simp [opening, other]
  count := ⟨[], by simp [opening], by simp [leaked, opening]; omega⟩

/-- The handle of a file that is searched is closed behind its lines. -/
theorem searched_leaves {name : LuaString} {s u : Handles}
    (inside : Leaves disk includes 0 { s.opening with
      headers := { s.headers with deps := s.headers.deps ++ [name] } } u) :
    Leaves disk includes 1 s (u.closing s.next) where
  grows := Nat.le_trans (Nat.le_succ s.next) inside.grows
  frame h old := by
    have other : (h == s.next) = false := by
      rw [beq_eq_false_iff_ne]
      omega
    have kept := inside.frame h (Nat.lt_succ_of_lt old)
    simp [closing, bne, other, kept, opening]
  count := by
    obtain ⟨new, scanned, count⟩ := inside.count
    have later : s.next + 1 ≤ u.next := inside.grows
    have own : List.range' s.next (u.next - s.next) =
        s.next :: List.range' (s.next + 1) (u.next - (s.next + 1)) := by
      rw [show u.next - s.next = (u.next - (s.next + 1)) + 1 by omega, List.range'_succ]
    have others : (List.range' (s.next + 1) (u.next - (s.next + 1))).countP (u.closing s.next).live =
        (List.range' (s.next + 1) (u.next - (s.next + 1))).countP u.live := by
      apply List.countP_congr
      intro h mem
      have bounds := List.mem_range'_1.mp mem
      have other : (h == s.next) = false := by
        rw [beq_eq_false_iff_ne]
        omega
      simp [closing, bne, other]
    have closed : leaked s (u.closing s.next) = leaked { s.opening with
        headers := { s.headers with deps := s.headers.deps ++ [name] } } u := by
      change (List.range' s.next (u.next - s.next)).countP _ = _
      rw [own, List.countP_cons_of_neg (by simp [closing]), others]
      rfl
    refine ⟨new, scanned, ?_⟩
    rw [closed]
    have grown : (s.headers.deps ++ [name]).length = s.headers.deps.length + 1 := by simp
    simp only [grown] at count
    change _ + u.headers.deps.length = _
    omega

theorem scanLine_leaves {search : LuaString → Nat × LuaString → HandleM Unit}
    (below : ∀ name text s t, disk name = some text → search name (s.next, text) { s.opening with
        headers := { s.headers with deps := s.headers.deps ++ [name] } } = .ok () t →
      Leaves disk includes 1 s t)
    {filename line : LuaString} {s t : Handles}
    (run : scanLine disk search (localInclude filename :: includes) line s = .ok () t) :
    Leaves disk includes
      ((header line).bind (resolveHeader disk includes filename)).toList.length s t := by
  unfold scanLine at run
  cases named : header line with
  | none =>
    rw [named] at run
    cases run
    exact Leaves.refl s
  | some f =>
    rw [named] at run
    rcases followInclude_cases run with ⟨missing, rfl⟩ | ⟨name, text, found, there, rest⟩
    · have resolved : resolveHeader disk includes filename f = none := missing
      rw [Option.bind_some, resolved]
      exact Leaves.refl t
    · have resolved : resolveHeader disk includes filename f = some name := found
      rw [Option.bind_some, resolved]
      rcases rest with ⟨_, rfl⟩ | ⟨_, deeper⟩
      · exact opening_leaves s
      · exact below name text s t there deeper

theorem lines_leaves {search : LuaString → Nat × LuaString → HandleM Unit}
    (below : ∀ name text s t, disk name = some text → search name (s.next, text) { s.opening with
        headers := { s.headers with deps := s.headers.deps ++ [name] } } = .ok () t →
      Leaves disk includes 1 s t)
    {filename : LuaString} (lines : List LuaString) {s t : Handles}
    (run : lines.forM (scanLine disk search (localInclude filename :: includes)) s = .ok () t) :
    Leaves disk includes (lines.filterMap
      (fun line => (header line).bind (resolveHeader disk includes filename))).length s t := by
  induction lines generalizing s with
  | nil =>
    cases run
    exact Leaves.refl _
  | cons line lines ih =>
    obtain ⟨_, u, first, rest⟩ := bind_eq_ok.mp run
    have both := (scanLine_leaves below first).trans (ih rest)
    rw [List.filterMap_cons]
    cases named : (header line).bind (resolveHeader disk includes filename) with
    | none => simpa [named] using both
    | some name => simpa [named, Nat.add_comm] using both

theorem calcdeps_leaves {fuel : Nat} {filename text : LuaString} {h : Nat} {s t : Handles}
    (there : disk filename = some text)
    (run : calcdeps disk includes fuel filename (h, text) s = .ok () t) :
    ∃ u, t = u.closing h ∧ Leaves disk includes 0 s u := by
  induction fuel generalizing filename text h s t with
  | zero => cases run
  | succ fuel ih =>
    rw [calcdeps] at run
    obtain ⟨_, v, head, rest⟩ := bind_eq_ok.mp run
    cases head
    obtain ⟨_, u, lines, last⟩ := bind_eq_ok.mp rest
    cases last
    refine ⟨u, rfl, ?_⟩
    have below : ∀ name text s t, disk name = some text →
        calcdeps disk includes fuel name (s.next, text) { s.opening with
          headers := { s.headers with deps := s.headers.deps ++ [name] } } = .ok () t →
        Leaves disk includes 1 s t := by
      intro name text s t there run
      obtain ⟨w, rfl, leaves⟩ := ih there run
      exact searched_leaves leaves
    have inside := lines_leaves below (fileLines text) lines
    have same : included disk includes filename = (fileLines text).filterMap
        (fun line => (header line).bind (resolveHeader disk includes filename)) := by
      rw [included, there]
    obtain ⟨new, scanned, count⟩ := inside.count
    refine ⟨inside.grows, inside.frame, filename :: new, by rw [scanned]; simp, ?_⟩
    rw [List.flatMap_cons, List.length_append, same]
    have unchanged : ∀ (x : Handles) (f : Headers), leaked { x with headers := f } u = leaked x u :=
      fun _ _ => rfl
    rw [unchanged] at count
    dsimp only at count
    omega

end

/-- What a call does that does not find its answer in the cache. -/
theorem calculate_leaves {disk : Disk} {pairs : KeyOrder} {fuel : Nat} {filename : LuaString}
    {includes o : List LuaString} {s t : Handles}
    (unknown : s.headers.dependencyCache.lookup filename = none)
    (run : calculateDependencies disk pairs fuel filename includes s = .ok o t) :
    o.length = t.headers.deps.length ∧
      (disk filename = none ∧ t.next = s.next ∨
        (disk filename).isSome ∧ ∃ new, t.headers.scanned = s.headers.scanned ++ new ∧
          leaked s t + o.length = 1 + (new.flatMap (included disk includes)).length) := by
  simp only [calculateDependencies, bind_run, get_run, unknown, onHeaders, modify_run] at run
  cases opened : disk filename with
  | none =>
    simp only [ioOpen_none opened, bind_run, get_run, modify_run, pure_run] at run
    cases run
    exact ⟨(pairs.perm _).length_eq, .inl ⟨rfl, rfl⟩⟩
  | some text =>
    simp only [ioOpen_some opened, bind_run, get_run, modify_run, pure_run] at run
    cases searched : calcdeps disk includes fuel filename (s.next, text)
        (Handles.opening { s with headers := { s.headers with deps := [filename] } }) with
    | error e v =>
      rw [searched] at run
      cases run
    | ok a v =>
      rw [searched] at run
      cases run
      obtain ⟨u, rfl, inside⟩ := calcdeps_leaves opened searched
      -- before the call the table of names counts as empty
      have whole : Leaves disk includes 1 { s with headers := { s.headers with deps := [] } }
          (u.closing s.next) := searched_leaves inside
      obtain ⟨new, scanned, count⟩ := whole.count
      have length := (pairs.perm (u.closing s.next).headers.deps).length_eq
      refine ⟨length, .inr ⟨rfl, new, scanned, ?_⟩⟩
      rw [length]
      simpa [leaked] using count

theorem leaked_zero (s t : Handles) :
    leaked s t = 0 ↔ ∀ h, s.next ≤ h → h < t.next → t.live h = false := by
  simp only [leaked, List.countP_eq_zero, List.mem_range'_1, Bool.not_eq_true]
  constructor
  · intro none h lower upper
    exact none h ⟨lower, by omega⟩
  · rintro none h ⟨lower, upper⟩
    exact none h lower (by omega)

/-- All handles of a call are closed when it returns exactly when its answer was in the cache or
each name is met on one include line only. -/
theorem handles_closed_iff (disk : Disk) (pairs : KeyOrder) (fuel : Nat) (filename : LuaString)
    (includes o : List LuaString) (s t : Handles)
    (run : calculateDependencies disk pairs fuel filename includes s = .ok o t) :
    (∀ h, s.next ≤ h → h < t.next → t.live h = false) ↔
      (s.headers.dependencyCache.lookup filename).isSome ∨
        ListedOnce (included disk includes) filename := by
  cases known : s.headers.dependencyCache.lookup filename with
  | some old =>
    simp only [calculateDependencies, bind_run, get_run, known] at run
    cases run
    simp only [Option.isSome_some, true_or, iff_true]
    intro h lower upper
    omega
  | none =>
    simp only [Option.isSome_none, Bool.false_eq_true, false_or]
    rw [← leaked_zero]
    obtain ⟨distinct, exactly, _, new, scanned, fresh, there⟩ :=
      calculate_first known (calculate_erases disk pairs fuel filename includes s o t run)
    obtain ⟨_, ⟨missing, same⟩ | ⟨opened, new', scanned', count⟩⟩ := calculate_leaves known run
    · have alone : ∀ n, Reaches (included disk includes) filename n → n = filename :=
        fun n path => (reaches_unopened missing).mp path
      have nothing : included disk includes filename = [] := by rw [included, missing]
      have empty : leaked s t = 0 := by simp [leaked, same]
      simp only [empty, true_iff]
      refine ⟨?_, ?_, ?_⟩
      · intro a path
        rw [alone a path, nothing]
        exact List.not_mem_nil
      · intro a path
        rw [alone a path, nothing]
        exact List.nodup_nil
      · intro a b c ha hb
        rw [alone a ha, alone b hb]
        exact fun _ _ => rfl
    · cases List.append_cancel_left (scanned.symm.trans scanned')
      have reached : ∀ n, n ∈ new ↔ Reaches (included disk includes) filename n := by
        intro n
        rw [there]
        constructor
        · exact And.left
        · intro path
          rcases opened_of_reaches path with rfl | found
          · exact ⟨path, opened⟩
          · exact ⟨path, found⟩
      have length : o.length = new.length := by
        have same : o.Perm new :=
          (List.perm_ext_iff_of_nodup distinct fresh).mpr fun n => by rw [exactly, reached]
        exact same.length_eq
      rw [← listedOnce_iff fresh reached]
      omega

def inOrder : KeyOrder := ⟨id, fun _ => .refl _⟩

def noHandles : Handles := ⟨⟨[], [], []⟩, 0, fun _ => false⟩

/-- A file m with this text, and an empty header. -/
def withHeader (text : LuaString) : Disk := fun name =>
  if name = "m".toList then some text else if name = "./h".toList then some [] else none

def searchHeader (text : LuaString) : EStateM.Result Stop Handles (List LuaString) :=
  calculateDependencies (withHeader text) inOrder 3 "m".toList [".".toList] noHandles

theorem included_once_closes : ∃ o t, searchHeader "#include \"h\"\n".toList = .ok o t ∧
    ((∀ h, noHandles.next ≤ h → h < t.next → t.live h = false) ↔
      (noHandles.headers.dependencyCache.lookup "m".toList).isSome ∨
        ListedOnce (included (withHeader "#include \"h\"\n".toList) [".".toList]) "m".toList) := by
  have returns : (match searchHeader "#include \"h\"\n".toList with
      | .ok _ _ => true
      | .error _ _ => false) = true := by decide +kernel
  cases run : searchHeader "#include \"h\"\n".toList with
  | error e t =>
    rw [run] at returns
    cases returns
  | ok o t =>
    exact ⟨o, t, rfl, handles_closed_iff (withHeader _) inOrder 3 "m".toList [".".toList] o noHandles
      t run⟩

/-- The header is included a second time, and the handle opened for it stays open. -/
theorem included_twice_leaks : ∃ o t,
    searchHeader "#include \"h\"\n#include \"h\"\n".toList = .ok o t ∧
      2 < t.next ∧ t.live 2 = true := by
  have open_still : (match searchHeader "#include \"h\"\n#include \"h\"\n".toList with
      | .ok _ t => decide (2 < t.next) && t.live 2
      | .error _ _ => false) = true := by decide +kernel
  cases run : searchHeader "#include \"h\"\n#include \"h\"\n".toList with
  | error e t =>
    rw [run] at open_still
    cases open_still
  | ok o t =>
    rw [run] at open_still
    obtain ⟨opened, live⟩ := Bool.and_eq_true_iff.mp open_still
    exact ⟨o, t, rfl, of_decide_eq_true opened, live⟩

end Handles
end PrimeMover
