import PrimeMover.Escape

/-! The directory that is to hold a file: `mkcontainerdir` on a tree with links. It goes
up by the text of the path and creates on the way down, so it works as far as every
missing directory on the way is spelled by a name of its own. -/
namespace PrimeMover
open LuaPattern PosixTree Outcome

/-- The path of the directory that is to hold `p`. -/
def holder (p : LuaString) : LuaString := if dirname p = [] then "/".toList else dirname p

/-- Something is there under the name, be it a link that leads nowhere. -/
def Lexists (t : Linked) (q : LuaString) : Prop :=
  (t.resolve q).isSome ∨ ∃ n l, t.named q (Linked.trimmed q) = some (n, l) ∧ (t.entry (n :: l)).isSome

/-- Every existing prefix of the directory of `p` is a directory. -/
def Clear (t : Linked) (p : LuaString) : Prop :=
  ∀ q r, p = q ++ '/' :: r → q ≠ [] → Lexists t q → t.stat q = some .dir

instance decideLexists (t : Linked) (q : LuaString) : Decidable (Lexists t q) :=
  decidable_of_iff ((t.resolve q).isSome ∨
      ((t.named q (Linked.trimmed q)).any fun e => (t.entry (e.1 :: e.2)).isSome) = true) (by
    unfold Lexists
    cases t.named q (Linked.trimmed q) with
    | none => simp
    | some e =>
      obtain ⟨n, l⟩ := e
      simp [Option.any])

instance decideClear (t : Linked) (p : LuaString) : Decidable (Clear t p) :=
  decidable_of_iff (∀ q ∈ p.inits, q ++ ['/'] <+: p → q ≠ [] → Lexists t q → t.stat q = some .dir) (by
    constructor
    · rintro all q r rfl
      exact all q (by simp) ⟨r, by simp⟩
    · rintro all q _ ⟨r, rfl⟩
      exact all q r (by simp))

/-- `u` is `t` with the directory that is to hold `p`: its missing ancestors are new
directories, and nothing else differs. -/
structure Contained (t u : Linked) (p : LuaString) (l : Location) : Prop where
  cwd : u.cwd = t.cwd
  allowed : u.allowed = t.allowed
  led : u.resolve (holder p) = some l
  isDir : u.entry l = some .dir
  entries : ∀ m, u.entry m = if m <:+ l ∧ t.entry m = none then some .dir else t.entry m

/-- The call ends without an error and makes the directory that is to hold `p`. -/
def MakesContainer (t : Linked) (p : LuaString) : Prop :=
  ∃ bound, ∀ fuel, bound ≤ fuel → ∀ (other : Host Linked) (reads : ReadOrder) (s : Sys Linked),
    s.world = t → ∃ u log l, mkcontainerdir (linkHost other reads) fuel p s =
      .ok () { s with world := u, log := s.log ++ log } ∧ Contained t u p l

/-- The path ends in a name that a directory can list. -/
def PlainEnd (d : LuaString) : Prop := ∃ n : Name, d = n.text ∨ ∃ a, d = a ++ '/' :: n.text

/-- On the way up from `p` every directory that is missing is spelled by a plain name,
until one is there. -/
inductive Climbs (t : Linked) : LuaString → Prop where
  | here (p) (there : (t.stat (dirname p)).isSome) : Climbs t p
  | up (p) (missing : t.stat (dirname p) = none) (plain : PlainEnd (dirname p))
      (above : Climbs t (dirname p)) : Climbs t p

theorem Clear.up {t : Linked} {p : LuaString} (clear : Clear t p) : Clear t (dirname p) := by
  rcases dirname_cases p with ⟨_, here⟩ | ⟨a, b, _, rfl, up⟩
  · rw [here]
    intro q r split
    cases q with
    | nil => exact fun nonempty => absurd rfl nonempty
    | cons c q =>
      have := congrArg List.length split
      simp at this
  · rw [up]
    rintro q r rfl nonempty
    exact clear q (r ++ '/' :: b) (by simp) nonempty

theorem stat_dir {t : Linked} {q : LuaString} (there : t.stat q = some .dir) :
    ∃ l, t.resolve q = some l ∧ t.entry l = some .dir := Option.bind_eq_some_iff.mp there

theorem lexists_of_stat {t : Linked} {q : LuaString} (there : (t.stat q).isSome) : Lexists t q := by
  obtain ⟨e, he⟩ := Option.isSome_iff_exists.mp there
  obtain ⟨l, led, _⟩ := Option.bind_eq_some_iff.mp he
  exact Or.inl (by rw [led]; rfl)

theorem Clear.there {t : Linked} {p : LuaString} (clear : Clear t p)
    (there : (t.stat (dirname p)).isSome) :
    ∃ l, t.resolve (holder p) = some l ∧ t.entry l = some .dir := by
  obtain ⟨e, he⟩ := Option.isSome_iff_exists.mp there
  obtain ⟨l, led, found⟩ := Option.bind_eq_some_iff.mp he
  have nonempty : dirname p ≠ [] := by
    intro empty
    rw [empty] at led
    cases led
  rw [holder, if_neg nonempty]
  rcases dirname_cases p with ⟨_, here⟩ | ⟨a, b, _, rfl, up⟩
  · rw [here] at led ⊢
    obtain ⟨rfl, isDir⟩ := Linked.resolve_self led
    exact ⟨t.cwd, led, isDir⟩
  · rw [up] at there nonempty ⊢
    exact stat_dir (clear a b rfl nonempty (lexists_of_stat there))

theorem Contained.refl {t : Linked} {p : LuaString} {l : Location}
    (led : t.resolve (holder p) = some l) (isDir : t.entry l = some .dir) : Contained t t p l where
  cwd := rfl
  allowed := rfl
  led := led
  isDir := isDir
  entries := by
    intro m
    rw [if_neg]
    rintro ⟨above, missing⟩
    have := Linked.suffix_there (t := t) (by rw [isDir]; rfl) above
    rw [missing] at this
    cases this

theorem PlainEnd.nonempty {d : LuaString} (plain : PlainEnd d) : d ≠ [] := by
  obtain ⟨n, rfl | ⟨a, rfl⟩⟩ := plain
  · exact n.nonempty
  · simp

theorem PlainEnd.slash {p : LuaString} (plain : PlainEnd (dirname p)) :
    ∃ b, p = dirname p ++ '/' :: b := by
  rcases dirname_cases p with ⟨_, here⟩ | ⟨a, b, _, whole, up⟩
  · obtain ⟨n, same | ⟨a, split⟩⟩ := plain
    · exact absurd (same.symm.trans here) n.notSelf
    · have := split.symm.trans here
      have inner : '/' ∈ ".".toList := by
        rw [← this]
        simp
      exact absurd inner (by decide)
  · exact ⟨b, by rw [up]; exact whole⟩

theorem Climbs.nonempty {t : Linked} {p : LuaString} (climbs : Climbs t p) : dirname p ≠ [] := by
  cases climbs with
  | here p there =>
    intro empty
    rw [empty] at there
    cases there
  | up p missing plain above => exact plain.nonempty

/-- The entry to make, once its directory is there. -/
theorem named_plain {u : Linked} {d : LuaString} {l : Location} (n : Name)
    (plain : d = n.text ∨ ∃ a, d = a ++ '/' :: n.text) (nonempty : dirname d ≠ [])
    (led : u.resolve (holder d) = some l) :
    u.named d (Linked.trimmed d) = some (n, l) ∧
      ∀ v : Linked, u.Under v → v.entry (n :: l) = some .dir → v.resolve d = some (n :: l) := by
  rw [holder, if_neg nonempty] at led
  rcases plain with rfl | ⟨a, rfl⟩
  · rw [dirname_plain n.text n.noSlash] at led
    obtain ⟨rfl, _⟩ := Linked.resolve_self led
    refine ⟨Linked.named_name u n, fun v under isDir => ?_⟩
    have relative : n.text.head? ≠ some '/' := fun h => n.noSlash (List.mem_of_head? h)
    rw [Linked.resolve, if_neg n.nonempty, origin, if_neg relative,
      List.splitOn_eq_singleton n.noSlash, ← under.cwd]
    exact Linked.walk_directory isDir v.allowed
  · rw [dirname_append a n.text n.noSlash] at led nonempty
    constructor
    · rw [Linked.trimmed_child, Linked.named_child u n nonempty, led]
      rfl
    · intro v under isDir
      exact Linked.resolve_directory nonempty (under.resolve led) isDir

theorem not_below_itself (n : Name) (l : Location) : ¬ (n :: l) <:+ l := by
  intro above
  have := above.length_le
  rw [List.length_cons] at this
  omega

theorem Contained.fresh {t u : Linked} {p : LuaString} {l : Location} {n : Name}
    (below : Contained t u (dirname p) l) (clear : Clear t p) (missing : t.stat (dirname p) = none)
    (plain : dirname p = n.text ∨ ∃ a, dirname p = a ++ '/' :: n.text)
    (nonempty : dirname (dirname p) ≠ []) : u.entry (n :: l) = none := by
  rw [below.entries, if_neg fun h => not_below_itself n l h.1]
  by_contra there
  obtain ⟨e, he⟩ := Option.ne_none_iff_exists'.mp there
  have parent : t.entry l = some .dir := Linked.parent_isDir he
  -- then nothing was missing, and the directory part would be something else than a directory
  have nothing : ∀ m e, u.entry m = some e → t.entry m = some e := by
    intro m e found
    rw [below.entries] at found
    split at found
    · rename_i new
      have := Linked.suffix_there (t := t) (by rw [parent]; rfl) new.1
      rw [new.2] at this
      cases this
    · exact found
  have under : u.Under t := ⟨below.cwd, below.allowed, nothing⟩
  have named := (named_plain n plain nonempty (under.resolve below.led)).1
  obtain ⟨b, whole⟩ := PlainEnd.slash ⟨n, plain⟩
  have exists' : Lexists t (dirname p) := Or.inr ⟨n, l, named, by rw [he]; rfl⟩
  have := clear (dirname p) b whole (PlainEnd.nonempty ⟨n, plain⟩) exists'
  rw [missing] at this
  cases this

theorem Contained.step {t u v : Linked} {p : LuaString} {l : Location} {n : Name}
    (below : Contained t u (dirname p) l)
    (plain : dirname p = n.text ∨ ∃ a, dirname p = a ++ '/' :: n.text)
    (nonempty : dirname (dirname p) ≠ []) (fresh : u.entry (n :: l) = none)
    (made : u.mkdir (dirname p) = some v) : Contained t v p (n :: l) := by
  obtain ⟨named, after⟩ := named_plain n plain nonempty below.led
  have room : u.entry l = some .dir ∧ u.entry (n :: l) = none := ⟨below.isDir, fresh⟩
  rw [Linked.mkdir, named] at made
  simp only [dif_pos room] at made
  cases made
  have entry := fun m => Linked.entry_add u n l m .dir room.1 room.2
  have under : u.Under (u.add n l .dir room.1 room.2) := by
    refine ⟨rfl, rfl, fun m e found => ?_⟩
    rw [entry, if_neg]
    · exact found
    · rintro rfl
      rw [fresh] at found
      cases found
  have isDir : (u.add n l .dir room.1 room.2).entry (n :: l) = some .dir := by
    rw [entry, if_pos rfl]
  refine ⟨below.cwd, below.allowed, ?_, isDir, fun m => ?_⟩
  · rw [holder, if_neg (PlainEnd.nonempty ⟨n, plain⟩)]
    exact after _ under isDir
  · rw [entry]
    by_cases new : m = n :: l
    · subst new
      have missing : t.entry (n :: l) = none := by
        rw [below.entries, if_neg fun h => not_below_itself n l h.1] at fresh
        exact fresh
      rw [if_pos rfl, if_pos ⟨List.suffix_refl _, missing⟩]
    · rw [if_neg new, below.entries]
      simp only [List.suffix_cons_iff, new, false_or]

/-- What `mkdir` makes has a plain name. A spelling with a slash at the end would name the
directory that the call above has just made. -/
theorem plainEnd_of_mkdir {t u v : Linked} {d : LuaString} {l : Location}
    (missing : t.stat d = none) (below : Contained t u d l) (made : u.mkdir d = some v) :
    PlainEnd d := by
  unfold Linked.mkdir at made
  split at made
  · cases made
  rename_i n x named
  split at made
  swap
  · cases made
  rename_i room
  rcases dirname_cases d with ⟨clean, _⟩ | ⟨a, b, clean, rfl, up⟩
  · refine ⟨n, Or.inl (Name.text_of_ofText ?_)⟩
    unfold Linked.named Linked.trimmed at named
    rw [List.splitOn_eq_singleton clean, List.reverse_singleton, List.reverse_reverse] at named
    by_cases empty : d = []
    · simp [empty] at named
    · rw [List.dropWhile_cons_of_neg (by simpa using empty)] at named
      cases h : Name.ofText d with
      | none => simp [h] at named
      | some k =>
        simp only [h] at named
        split at named
        · rename_i same _
          cases named
          exact same
        · cases named
  · by_cases last : b = []
    · subst last
      have nonempty : a ≠ [] := by
        rintro rfl
        have root : t.stat "/".toList = some .dir := by
          rw [Linked.stat, Linked.resolve_slash]
          exact t.root
        cases missing.symm.trans root
      have led := below.led
      rw [holder, up, if_neg nonempty] at led
      rw [Linked.named_slash u nonempty] at named
      have there := Linked.named_there named led
      rw [room.2] at there
      cases there
    · refine ⟨n, Or.inr ⟨a, ?_⟩⟩
      unfold Linked.named Linked.trimmed at named
      rw [List.splitOn_append_cons_self, List.splitOn_eq_singleton clean, List.reverse_append,
        List.reverse_singleton, List.singleton_append,
        List.dropWhile_cons_of_neg (by simpa using last), List.reverse_reverse] at named
      cases h : Name.ofText b with
      | none => simp [h] at named
      | some k =>
        simp only [h] at named
        split at named
        · rename_i same _
          cases named
          have last : Name.ofText b = some n := by rw [h]; exact same
          rw [Name.text_of_ofText last]
        · cases named

section Calls

variable (other : Host Linked) (reads : ReadOrder)

theorem mkcontainerdir_here {p : LuaString} {s : Sys Linked}
    (there : (s.world.stat (dirname p)).isSome) (fuel : Nat) :
    mkcontainerdir (linkHost other reads) (fuel + 1) p s = .ok () s := by
  obtain ⟨e, he⟩ := Option.isSome_iff_exists.mp there
  have seen : ((linkHost other reads).stat s.world (dirname p)).isNone = false := by
    change ((s.world.stat (dirname p)).map objectStat).isNone = false
    rw [he]
    rfl
  simp only [mkcontainerdir, bind_run, get_run, seen]
  rfl

theorem mkcontainerdir_up {p : LuaString} {s : Sys Linked}
    (missing : s.world.stat (dirname p) = none) (fuel : Nat) :
    mkcontainerdir (linkHost other reads) (fuel + 1) p s =
      match mkcontainerdir (linkHost other reads) fuel (dirname p) s with
      | .error e r => .error e r
      | .ok _ r =>
        match r.world.mkdir (dirname p) with
        | none => .error (.exit ("unable to create directory '".toList ++ dirname p ++ "'".toList)) r
        | some w => .ok () { r with world := w, log := r.log ++ [.mkdir (dirname p)] } := by
  have unseen : ((linkHost other reads).stat s.world (dirname p)).isNone = true := by
    change ((s.world.stat (dirname p)).map objectStat).isNone = true
    rw [missing]
    rfl
  simp only [mkcontainerdir, bind_run, get_run, unseen, if_true]
  cases mkcontainerdir (linkHost other reads) fuel (dirname p) s with
  | error e r => rfl
  | ok a r =>
    dsimp only
    rw [show (linkHost other reads).mkdir r.world (dirname p) = r.world.mkdir (dirname p) from rfl]
    cases r.world.mkdir (dirname p) <;> rfl

/-- A call that returns went up over plain names only, and made their directories. -/
theorem contained_of_run {fuel : Nat} {p : LuaString} {s s' : Sys Linked} (clear : Clear s.world p)
    (run : mkcontainerdir (linkHost other reads) fuel p s = .ok () s') :
    Climbs s.world p ∧ ∃ l, Contained s.world s'.world p l := by
  induction fuel generalizing p s' with
  | zero => cases run
  | succ fuel ih =>
    cases there : s.world.stat (dirname p) with
    | some e =>
      have seen : (s.world.stat (dirname p)).isSome := by rw [there]; rfl
      rw [mkcontainerdir_here other reads seen] at run
      cases run
      obtain ⟨l, led, isDir⟩ := clear.there seen
      exact ⟨.here p seen, l, .refl led isDir⟩
    | none =>
      rw [mkcontainerdir_up other reads there] at run
      cases above : mkcontainerdir (linkHost other reads) fuel (dirname p) s with
      | error e r =>
        rw [above] at run
        cases run
      | ok a r =>
        rw [above] at run
        dsimp only at run
        cases made : r.world.mkdir (dirname p) with
        | none =>
          rw [made] at run
          cases run
        | some w =>
          rw [made] at run
          cases run
          obtain ⟨climbs, l, below⟩ := ih clear.up above
          obtain ⟨n, plain⟩ := plainEnd_of_mkdir there below made
          have fresh := below.fresh clear there plain climbs.nonempty
          exact ⟨.up p there ⟨n, plain⟩ climbs, n :: l,
            below.step plain climbs.nonempty fresh made⟩

end Calls

theorem Climbs.makes {t : Linked} {p : LuaString} (climbs : Climbs t p) (clear : Clear t p) :
    MakesContainer t p := by
  induction climbs with
  | here p there =>
    refine ⟨1, fun fuel enough other reads s same => ?_⟩
    obtain ⟨fuel, rfl⟩ := Nat.exists_eq_add_of_le' enough
    subst same
    obtain ⟨l, led, isDir⟩ := clear.there there
    exact ⟨s.world, [], l, by
      rw [mkcontainerdir_here other reads there, List.append_nil], .refl led isDir⟩
  | up p missing plain above ih =>
    obtain ⟨bound, returns⟩ := ih clear.up
    refine ⟨bound + 1, fun fuel enough other reads s same => ?_⟩
    obtain ⟨fuel, rfl⟩ := Nat.exists_eq_add_of_le' (Nat.le_of_add_left_le enough)
    obtain ⟨u, log, l, run, below⟩ := returns fuel (by omega) other reads s same
    obtain ⟨n, plain⟩ := plain
    have fresh := below.fresh clear missing plain above.nonempty
    have named := (named_plain n plain above.nonempty below.led).1
    obtain ⟨v, made⟩ : ∃ v, u.mkdir (dirname p) = some v := by
      unfold Linked.mkdir
      rw [named]
      exact ⟨_, dif_pos ⟨below.isDir, fresh⟩⟩
    refine ⟨v, log ++ [.mkdir (dirname p)], n :: l, ?_,
      below.step plain above.nonempty fresh made⟩
    rw [mkcontainerdir_up other reads (same ▸ missing), run]
    simp only [made, List.append_assoc]

/-- For a path with nothing but directories in its way: the call makes the directory that
is to hold it exactly when every missing directory has a plain spelling, up to one that
is there. -/
theorem container_made (t : Linked) (p : LuaString) (clear : Clear t p) :
    MakesContainer t p ↔ Climbs t p := by
  constructor
  · rintro ⟨bound, returns⟩
    let s : Sys Linked := ⟨t, fun _ => none, []⟩
    obtain ⟨u, log, l, run, _⟩ := returns bound le_rfl linkSystem asListed s rfl
    exact (contained_of_run linkSystem asListed (s := s) clear run).1
  · intro climbs
    exact climbs.makes clear

theorem relative_container :
    MakesContainer (Linked.bareLinked 8) "out/x".toList ↔
      Climbs (Linked.bareLinked 8) "out/x".toList :=
  container_made (Linked.bareLinked 8) "out/x".toList (by decide +kernel)

/-- On the way up from an absolute path the root is spelled by the empty text, which is
not there and cannot be made. -/
theorem absolute_container : ¬ ∀ (t : Linked) (p : LuaString), Clear t p → MakesContainer t p := by
  intro all
  have made := all (Linked.bareLinked 8) "/out/x".toList (by decide +kernel)
  obtain ⟨bound, returns⟩ := made
  let s : Sys Linked := ⟨Linked.bareLinked 8, fun _ => none, []⟩
  obtain ⟨u, log, l, run, _⟩ := returns bound le_rfl linkSystem asListed s rfl
  obtain ⟨climbs, _⟩ := contained_of_run linkSystem asListed (s := s) (by decide +kernel) run
  have first : dirname "/out/x".toList = "/out".toList := by decide
  have second : dirname "/out".toList = [] := by decide
  cases climbs with
  | here p there =>
    rw [first] at there
    exact absurd there (by decide)
  | up p missing plain above =>
    rw [first] at above
    exact above.nonempty second

end PrimeMover
