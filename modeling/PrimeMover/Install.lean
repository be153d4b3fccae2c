import PrimeMover.Container
import PrimeMover.Ways
import PrimeMover.Percent

/-! `do_install` on a tree with links. It puts a link to the source in place of the entry
that the destination names, and takes out what stood there before. -/
namespace PrimeMover
open PosixTree Outcome

/-- What `getcwd` gives. -/
def pathOf (l : Location) : LuaString := if l = [] then "/".toList else Linked.below l

def installHost (other : Host Linked) (reads : ReadOrder) : Host Linked :=
  linkHost { other with
    getcwd := fun t => pathOf t.cwd
    symlink := fun t src dest => t.symlink src dest } reads

def onInstalls (cfg : Settings Linked) (reads : ReadOrder) : Settings Linked :=
  { cfg with host := installHost cfg.host reads }

/-- The path leads to a regular file with this text, over as many links as there are. -/
def HoldsText (t : Linked) (p text : LuaString) : Prop :=
  p ≠ [] ∧ ∃ l mtime, t.Leads (origin t.cwd p) (p.splitOn '/') l ∧
    t.entry l = some (.file mtime text)

/-- The entry that a path names, be it there or not. -/
def NamesEntry (t : Linked) (p : LuaString) (e : Location) : Prop :=
  ∃ before n x, p.splitOn '/' = before ++ [Name.text n] ∧
    t.Leads (origin t.cwd p) before x ∧ e = n :: x

/-- Both paths give the text of the source, and no other entry has changed. -/
structure InstalledWell (t u : Linked) (src dest text : LuaString) : Prop where
  linked : HoldsText u dest text
  kept : HoldsText u src text
  others : ∀ x f, t.entry x = some f → ¬ NamesEntry t dest x → u.entry x = some f

/-- The way to the source does not look up the entry that the destination names. -/
def KeepsAway (t : Linked) (src dest : LuaString) : Prop :=
  ∀ e, NamesEntry t dest e →
    ∃ l, Linked.LeadsPast t e (origin t.cwd src) (src.splitOn '/') l

theorem named_some {t : Linked} {path : LuaString} {components : List LuaString} {n : Name}
    {l : Location} (named : t.named path components = some (n, l)) :
    ∃ before, components = before ++ [n.text] ∧
      t.walk t.allowed (origin t.cwd path) before = some l := by
  unfold Linked.named at named
  cases split : components.reverse with
  | nil => simp [split] at named
  | cons c before =>
    rw [split] at named
    cases text : Name.ofText c with
    | none => simp [text] at named
    | some k =>
      cases way : t.walk t.allowed (origin t.cwd path) before.reverse with
      | none => simp [text, way] at named
      | some x =>
        simp only [text, way, Option.some.injEq, Prod.mk.injEq] at named
        obtain ⟨rfl, rfl⟩ := named
        refine ⟨before.reverse, ?_, way⟩
        rw [← List.reverse_reverse components, split, List.reverse_cons, Name.text_of_ofText text]

/-- A link put where no entry was. -/
structure Linking (t u : Linked) (target path : LuaString) (before : List LuaString) (n : Name)
    (x : Location) : Prop where
  split : path.splitOn '/' = before ++ [n.text]
  led : t.Leads (origin t.cwd path) before x
  isDir : t.entry x = some .dir
  fresh : t.entry (n :: x) = none
  nonempty : target ≠ []
  cwd : u.cwd = t.cwd
  entries : ∀ y, u.entry y = if y = n :: x then some (.link target) else t.entry y

theorem symlink_linking {t u : Linked} {target path : LuaString}
    (made : t.symlink target path = some u) : ∃ before n x, Linking t u target path before n x := by
  unfold Linked.symlink at made
  split at made
  · cases made
  rename_i n x named
  obtain ⟨before, split', led⟩ := named_some named
  split at made
  · rename_i room
    simp only [Option.ite_none_left_eq_some, Option.some.injEq] at made
    obtain ⟨nonempty, rfl⟩ := made
    exact ⟨before, n, x, split', Linked.leads_of_walk led, room.1, room.2, nonempty, rfl,
      fun y => Linked.entry_add ..⟩
  · cases made

/-- An entry taken out that was no directory. -/
structure Unlinking (t u : Linked) (path : LuaString) (before : List LuaString) (n : Name)
    (x : Location) : Prop where
  split : path.splitOn '/' = before ++ [n.text]
  led : t.Leads (origin t.cwd path) before x
  plain : t.entry (n :: x) ≠ some .dir
  cwd : u.cwd = t.cwd
  entries : ∀ y, u.entry y = if y = n :: x then none else t.entry y

theorem unlink_unlinking {t u : Linked} {path : LuaString} (made : t.unlink path = some u) :
    ∃ before n x, Unlinking t u path before n x := by
  unfold Linked.unlink at made
  split at made
  · cases made
  rename_i n x named
  obtain ⟨before, split', led⟩ := named_some named
  split at made
  · rename_i there
    cases made
    exact ⟨before, n, x, split', Linked.leads_of_walk led, there.2, rfl,
      fun y => Linked.entry_remove ..⟩
  · cases made

/-- `u` is `t` with new directories. -/
structure Grown (t u : Linked) : Prop where
  cwd : u.cwd = t.cwd
  kept : ∀ y f, t.entry y = some f → u.entry y = some f
  new : ∀ y f, u.entry y = some f → t.entry y = some f ∨ f = .dir

theorem Grown.refl (t : Linked) : Grown t t := ⟨rfl, fun _ _ h => h, fun _ _ h => Or.inl h⟩

theorem Grown.trans {t u v : Linked} (first : Grown t u) (second : Grown u v) : Grown t v where
  cwd := second.cwd.trans first.cwd
  kept y f h := second.kept y f (first.kept y f h)
  new y f h := by
    rcases second.new y f h with h | h
    · exact first.new y f h
    · exact Or.inr h

/-- A directory put where no entry was. -/
structure Making (t u : Linked) (path : LuaString) (before : List LuaString) (n : Name)
    (x : Location) : Prop where
  split : Linked.trimmed path = before ++ [n.text]
  led : t.Leads (origin t.cwd path) before x
  fresh : t.entry (n :: x) = none
  cwd : u.cwd = t.cwd
  entries : ∀ y, u.entry y = if y = n :: x then some .dir else t.entry y

theorem mkdir_making {t u : Linked} {path : LuaString} (made : t.mkdir path = some u) :
    ∃ before n x, Making t u path before n x := by
  unfold Linked.mkdir at made
  split at made
  · cases made
  rename_i n x named
  obtain ⟨before, split', led⟩ := named_some named
  split at made
  · rename_i room
    cases made
    exact ⟨before, n, x, split', Linked.leads_of_walk led, room.2, rfl,
      fun y => Linked.entry_add ..⟩
  · cases made

theorem Making.grown {t u : Linked} {path : LuaString} {before : List LuaString} {n : Name}
    {x : Location} (h : Making t u path before n x) : Grown t u where
  cwd := h.cwd
  kept y f found := by
    rw [h.entries, if_neg]
    · exact found
    · rintro rfl
      cases h.fresh.symm.trans found
  new y f found := by
    rw [h.entries] at found
    split at found
    · exact Or.inr (Option.some.inj found).symm
    · exact Or.inl found

theorem mkcontainerdir_grown (other : Host Linked) (reads : ReadOrder) (fuel : Nat)
    (p : LuaString) (s : Sys Linked) :
    Grown s.world (final (mkcontainerdir (linkHost other reads) fuel p s)).world := by
  apply (mkcontainerdir_keeps (linkHost other reads) (fun r => Grown s.world r.world) ?_ fuel
    p).final (.refl s.world)
  intro r w f made grown
  obtain ⟨before, n, x, making⟩ := mkdir_making made
  exact grown.trans making.grown

/-- A call that makes anything makes the directory part of its path last. -/
theorem mkcontainerdir_last {other : Host Linked} {reads : ReadOrder} {fuel : Nat} {p : LuaString}
    {s s' : Sys Linked} (run : mkcontainerdir (linkHost other reads) fuel p s = .ok () s') :
    s' = s ∨ ∃ u, Grown s.world u ∧ u.mkdir (dirname p) = some s'.world := by
  cases fuel with
  | zero => cases run
  | succ fuel =>
    cases there : s.world.stat (dirname p) with
    | some e =>
      rw [mkcontainerdir_here other reads (by rw [there]; rfl)] at run
      cases run
      exact Or.inl rfl
    | none =>
      rw [mkcontainerdir_up other reads there] at run
      have grown := mkcontainerdir_grown other reads fuel (dirname p) s
      cases above : mkcontainerdir (linkHost other reads) fuel (dirname p) s with
      | error e r =>
        rw [above] at run
        cases run
      | ok a r =>
        rw [above] at run grown
        dsimp only at run
        cases made : r.world.mkdir (dirname p) with
        | none =>
          rw [made] at run
          cases run
        | some w =>
          rw [made] at run
          cases run
          exact Or.inr ⟨r.world, grown, made⟩

theorem leads_self {t : Linked} {l : Location} (isDir : t.entry l = some .dir)
    {cs : List LuaString} (empty : ∀ c ∈ cs, c = []) : t.Leads l cs l := by
  induction cs with
  | nil => exact .nil t l
  | cons c cs ih =>
    have stay : t.next l (c :: cs) = some (l, cs) := by
      rw [Linked.next, if_neg (not_not.mpr isDir), if_pos (Or.inl (empty c List.mem_cons_self))]
    exact .cons stay (ih fun d hd => empty d (List.mem_cons_of_mem c hd))

theorem trimmed_append (p : LuaString) :
    ∃ cs, p.splitOn '/' = Linked.trimmed p ++ cs ∧ ∀ c ∈ cs, c = [] := by
  refine ⟨((p.splitOn '/').reverse.takeWhile (· = [])).reverse, ?_, fun c hc => ?_⟩
  · rw [Linked.trimmed, ← List.reverse_append, List.takeWhile_append_dropWhile, List.reverse_reverse]
  · simpa using List.mem_takeWhile_imp (List.mem_reverse.mp hc)

/-- The path of a new directory leads to it. -/
theorem Making.leads {t u : Linked} {path : LuaString} {before : List LuaString} {n : Name}
    {x : Location} (h : Making t u path before n x) :
    u.Leads (origin t.cwd path) (path.splitOn '/') (n :: x) := by
  obtain ⟨cs, split, empty⟩ := trimmed_append path
  have made : u.entry (n :: x) = some .dir := by rw [h.entries, if_pos rfl]
  have parent := Linked.parent_isDir made
  rw [split, h.split]
  have last : u.next x [n.text] = some (n :: x, []) := by
    rw [Linked.next_name parent n []]
    simp only [made]
  exact ((h.led.congr h.grown.kept).append (.cons last (.nil u (n :: x)))).append
    (leads_self made empty)

/-- `u` comes from `t` by new directories and a link in place of one entry. -/
structure Placed (t u : Linked) (target path : LuaString) (before : List LuaString) (n : Name)
    (x : Location) : Prop where
  split : path.splitOn '/' = before ++ [n.text]
  led : u.Leads (origin t.cwd path) before x
  isDir : u.entry x = some .dir
  same : ∀ y, t.Leads (origin t.cwd path) before y → y = x
  known : t.Leads (origin t.cwd path) before x ∨ t.entry (n :: x) = none
  nonempty : target ≠ []
  plain : t.entry (n :: x) ≠ some .dir
  cwd : u.cwd = t.cwd
  link : u.entry (n :: x) = some (.link target)
  others : ∀ y f, y ≠ n :: x → t.entry y = some f → u.entry y = some f

theorem last_component {p : LuaString} (slash : '/' ∈ p) {before : List LuaString} {n : Name}
    (split : p.splitOn '/' = before ++ [n.text]) :
    ∃ b, p = dirname p ++ '/' :: b ∧ (dirname p).splitOn '/' = before := by
  rcases dirname_cases p with ⟨none', _⟩ | ⟨a, b, clean, whole, up⟩
  · exact absurd slash none'
  · rw [up]
    refine ⟨b, whole, ?_⟩
    rw [whole, List.splitOn_append_cons_self, List.splitOn_eq_singleton clean] at split
    exact (List.append_inj' split rfl).1

/-- After the directories are made, the way to the entry is one of the tree before, or
nothing was there. -/
theorem known_before {other : Host Linked} {reads : ReadOrder} {fuel : Nat} {p : LuaString}
    {s s' : Sys Linked} (run : mkcontainerdir (linkHost other reads) fuel p s = .ok () s')
    (slash : '/' ∈ p) {before : List LuaString} {n : Name} {x : Location}
    (split : p.splitOn '/' = before ++ [n.text])
    (led : s'.world.Leads (origin s'.world.cwd p) before x) :
    s.world.Leads (origin s.world.cwd p) before x ∨ s.world.entry (n :: x) = none := by
  rcases mkcontainerdir_last run with rfl | ⟨u, grown, made⟩
  · exact Or.inl led
  · right
    obtain ⟨before', k, y, making⟩ := mkdir_making made
    obtain ⟨b, whole, same⟩ := last_component slash split
    have nonempty : dirname p ≠ [] := by
      intro empty
      have split' := making.split
      rw [empty] at split'
      simp [Linked.trimmed] at split'
    have start : origin s'.world.cwd p = origin u.cwd (dirname p) := by
      conv_lhs => rw [whole]
      rw [origin_append s'.world.cwd (dirname p) _ nonempty, making.cwd]
    rw [start, ← same] at led
    rw [led.unique making.leads]
    by_contra there
    obtain ⟨e, he⟩ := Option.ne_none_iff_exists'.mp there
    cases making.fresh.symm.trans (grown.kept _ _ (Linked.parent_isDir he))

theorem Grown.plain {t u : Linked} (grown : Grown t u) {y : Location}
    (plain : u.entry y ≠ some .dir) : t.entry y ≠ some .dir :=
  fun isDir => plain (grown.kept y _ isDir)

/-- A link to `target` is put where nothing was, or in place of what was there. -/
theorem placed_of_links {other : Host Linked} {reads : ReadOrder} {fuel : Nat}
    {target p : LuaString} {s s' : Sys Linked} {u : Linked}
    (run : mkcontainerdir (linkHost other reads) fuel p s = .ok () s') (slash : '/' ∈ p)
    (links : s'.world.symlink target p = some u ∨
      ∃ v, s'.world.unlink p = some v ∧ v.symlink target p = some u) :
    ∃ before n x, Placed s.world u target p before n x := by
  have grown : Grown s.world s'.world := by
    have := mkcontainerdir_grown other reads fuel p s
    rw [run] at this
    exact this
  rcases links with made | ⟨v, taken, made⟩
  · obtain ⟨before, n, x, linking⟩ := symlink_linking made
    have kept : ∀ y f, s'.world.entry y = some f → u.entry y = some f := by
      intro y f found
      rw [linking.entries, if_neg]
      · exact found
      · rintro rfl
        cases linking.fresh.symm.trans found
    have start := grown.cwd ▸ linking.led
    refine ⟨before, n, x, linking.split, start.congr kept, kept _ _ linking.isDir, ?_,
      known_before run slash linking.split linking.led, linking.nonempty, ?_,
      linking.cwd.trans grown.cwd, ?_, ?_⟩
    · intro y led
      exact (led.congr grown.kept).unique start
    · apply grown.plain
      rw [linking.fresh]
      exact nofun
    · rw [linking.entries, if_pos rfl]
    · exact fun y f _ found => kept y f (grown.kept y f found)
  · obtain ⟨before, n, x, linking⟩ := symlink_linking made
    obtain ⟨before', n', x', unlinking⟩ := unlink_unlinking taken
    obtain ⟨rfl, sameText⟩ := List.append_inj' (linking.split.symm.trans unlinking.split) rfl
    have sameName : n = n' := Name.text_injective (List.singleton_inj.mp sameText)
    subst sameName
    have less : ∀ y f, v.entry y = some f → s'.world.entry y = some f := by
      intro y f found
      rw [unlinking.entries] at found
      split at found
      · cases found
      · exact found
    have led := linking.led.congr less
    rw [unlinking.cwd] at led
    have sameDir := led.unique unlinking.led
    subst sameDir
    have kept : ∀ y f, y ≠ n :: x → s'.world.entry y = some f → u.entry y = some f := by
      intro y f other found
      rw [linking.entries, if_neg other, unlinking.entries, if_neg other]
      exact found
    have start := grown.cwd ▸ led
    have same : ∀ y f, v.entry y = some f → u.entry y = some f := by
      intro y f found
      rw [linking.entries, if_neg]
      · exact found
      · rintro rfl
        cases linking.fresh.symm.trans found
    refine ⟨before, n, x, linking.split, ?_, same _ _ linking.isDir, ?_,
      known_before run slash linking.split led, linking.nonempty, grown.plain unlinking.plain,
      linking.cwd.trans (unlinking.cwd.trans grown.cwd), ?_, ?_⟩
    · rw [← grown.cwd, ← unlinking.cwd]
      exact linking.led.congr same
    · intro y led'
      exact (led'.congr grown.kept).unique start
    · rw [linking.entries, if_pos rfl]
    · exact fun y f other found => kept y f other (grown.kept y f found)

/-- What `absname` makes of a text in the working directory `d`. -/
def absolute (d : Location) (a : LuaString) : LuaString :=
  if a.head? = some '/' then a else pathOf d ++ "/".toList ++ a

theorem absolute_text (d : Location) {a : LuaString} (relative : a.head? ≠ some '/') :
    absolute d a = pathOf d ++ '/' :: a := by
  rw [absolute, if_neg relative]
  simp

theorem slash_absolute (d : Location) (a : LuaString) : '/' ∈ absolute d a := by
  by_cases rooted : a.head? = some '/'
  · rw [absolute, if_pos rooted]
    exact List.mem_of_head? rooted
  · rw [absolute_text d rooted]
    simp

theorem pathOf_head (d : Location) : (pathOf d).head? = some '/' := by
  unfold pathOf
  induction d with
  | nil => rfl
  | cons n l ih =>
    rw [if_neg (List.cons_ne_nil n l), Linked.below]
    by_cases top : l = []
    · subst top
      rfl
    · rw [if_neg top] at ih
      rw [List.head?_append, ih]
      rfl

theorem absolute_head (d : Location) (a : LuaString) : (absolute d a).head? = some '/' := by
  by_cases rooted : a.head? = some '/'
  · rw [absolute, if_pos rooted]
    exact rooted
  · rw [absolute_text d rooted, List.head?_append, pathOf_head]
    rfl

/-- An absolute name leads over plain directories to where its path starts, and goes on
with the path. -/
theorem absolute_split (d : Location) (a : LuaString) :
    ∃ up, (absolute d a).splitOn '/' = up ++ a.splitOn '/' ∧
      ∀ (t : Linked) (e : Location), t.entry d = some .dir → t.entry e ≠ some .dir →
        Linked.LeadsPast t e [] up (origin d a) := by
  by_cases rooted : a.head? = some '/'
  · rw [absolute, if_pos rooted, origin, if_pos rooted]
    exact ⟨[], rfl, fun t e _ _ => .done []⟩
  · rw [absolute_text d rooted, List.splitOn_append_cons_self, origin, if_neg rooted]
    refine ⟨_, rfl, fun t e isDir plain => ?_⟩
    unfold pathOf
    split
    · rename_i top
      subst top
      have empty : ∀ cs, Linked.looks [] ([] :: cs) ≠ some e := by
        intro cs
        simp [Linked.looks, Name.ofText]
      have stay : ∀ cs, t.next [] ([] :: cs) = some ([], cs) := by
        intro cs
        rw [Linked.next, if_neg (not_not.mpr isDir), if_pos (Or.inl rfl)]
      exact .step [] _ [] [[]] [] (empty _) (stay _) (.step [] _ [] [] [] (empty _) (stay _) (.done []))
    · exact Linked.below_past plain isDir

theorem origin_isDir {t : Linked} (home : t.entry t.cwd = some .dir) (p : LuaString) :
    t.entry (origin t.cwd p) = some .dir := by
  unfold origin
  split
  · exact t.root
  · exact home

/-- The link at the destination, as its name was given. -/
structure Put (t u : Linked) (src dest : LuaString) (before : List LuaString) (n : Name)
    (x : Location) : Prop where
  split : dest.splitOn '/' = before ++ [n.text]
  led : u.Leads (origin t.cwd dest) before x
  isDir : u.entry x = some .dir
  same : ∀ y, t.Leads (origin t.cwd dest) before y → y = x
  known : t.Leads (origin t.cwd dest) before x ∨ t.entry (n :: x) = none
  apart : Linked.ApartFrom t u (n :: x)
  cwd : u.cwd = t.cwd
  link : u.entry (n :: x) = some (.link (absolute t.cwd src))

theorem put_of_placed {t u : Linked} {src dest : LuaString} {before : List LuaString} {n : Name}
    {x : Location} (home : t.entry t.cwd = some .dir)
    (placed : Placed t u (absolute t.cwd src) (absolute t.cwd dest) before n x) :
    ∃ before, Put t u src dest before n x := by
  have apart : Linked.ApartFrom t u (n :: x) := ⟨placed.plain, placed.others⟩
  obtain ⟨up, split, lead⟩ := absolute_split t.cwd dest
  obtain ⟨before', last, sameSplit⟩ : ∃ before' last, dest.splitOn '/' = before' ++ [last] :=
    ⟨_, _, (List.dropLast_append_getLast (List.splitOn_ne_nil '/' dest)).symm⟩
  have whole := placed.split
  rw [split, sameSplit, ← List.append_assoc] at whole
  obtain ⟨rfl, text⟩ := List.append_inj' whole rfl
  rw [List.singleton_inj.mp text] at sameSplit
  have start : origin t.cwd (absolute t.cwd dest) = [] := if_pos (absolute_head t.cwd dest)
  have away : t.cwd ≠ n :: x := by
    intro eq
    exact placed.plain (eq ▸ home)
  have first : t.Leads [] up (origin t.cwd dest) := (lead t (n :: x) home placed.plain).leads
  have after : u.Leads [] up (origin t.cwd dest) := (lead t (n :: x) home placed.plain).apart apart
  refine ⟨before', sameSplit, ?_, placed.isDir, ?_, ?_, apart, placed.cwd, placed.link⟩
  · exact after.behind (start ▸ placed.led)
  · intro y led
    exact placed.same y (start.symm ▸ first.append led)
  · rcases placed.known with led | nothing
    · exact Or.inl (first.behind (start ▸ led))
    · exact Or.inr nothing

section Installed

variable {t u : Linked} {src dest text : LuaString} {before : List LuaString} {n : Name}
  {x : Location}

theorem Put.up (put : Put t u src dest before n x) (home : t.entry t.cwd = some .dir) :
    ∃ up, (absolute t.cwd src).splitOn '/' = up ++ src.splitOn '/' ∧
      Linked.LeadsPast u (n :: x) [] up (origin t.cwd src) := by
  obtain ⟨up, split, lead⟩ := absolute_split t.cwd src
  refine ⟨up, split, lead u (n :: x) (put.apart.entries _ _ ?_ home) ?_⟩
  · intro eq
    exact put.apart.plain (eq ▸ home)
  · rw [put.link]
    exact nofun

theorem Put.next (put : Put t u src dest before n x) :
    u.next x [n.text] = some ([], (absolute t.cwd src).splitOn '/') := by
  have rooted := absolute_head t.cwd src
  have nonempty : absolute t.cwd src ≠ [] := by
    intro empty
    rw [empty] at rooted
    cases rooted
  rw [Linked.next_name put.isDir n, put.link]
  simp [nonempty, origin, rooted]

/-- Afterwards the destination leads where the source leads. -/
theorem Put.leads (put : Put t u src dest before n x) (home : t.entry t.cwd = some .dir)
    (m : Location) :
    u.Leads (origin t.cwd dest) (dest.splitOn '/') m ↔
      u.Leads (origin t.cwd src) (src.splitOn '/') m := by
  obtain ⟨up, split, lead⟩ := put.up home
  rw [put.split]
  constructor
  · intro whole
    obtain ⟨k, last⟩ := put.led.behind whole
    cases last with
    | step k _ _ l' cs' _ one rest =>
      cases put.next.symm.trans one
      rw [split] at rest
      exact lead.leads.behind ⟨k, rest⟩
  · intro way
    refine put.led.append (.cons put.next ?_)
    rw [split]
    exact lead.leads.append way

theorem Put.names (put : Put t u src dest before n x) {e : Location}
    (named : NamesEntry t dest e) : e = n :: x := by
  obtain ⟨before', k, y, split, led, rfl⟩ := named
  obtain ⟨rfl, text⟩ := List.append_inj' (put.split.symm.trans split) rfl
  rw [put.same y led, Name.text_injective (List.singleton_inj.mp text)]

/-- What the destination names is looked up by no way to the source, and the source is
what it was. -/
theorem Put.installed (put : Put t u src dest before n x) (home : t.entry t.cwd = some .dir)
    (there : HoldsText t src text) (dest_given : dest ≠ []) (away : KeepsAway t src dest) :
    InstalledWell t u src dest text := by
  obtain ⟨given, l, mtime, led, found⟩ := there
  have past : Linked.LeadsPast t (n :: x) (origin t.cwd src) (src.splitOn '/') l := by
    rcases put.known with here | nothing
    · obtain ⟨k, past⟩ := away (n :: x) ⟨before, n, x, put.split, here, rfl⟩
      rw [led.unique past.leads]
      exact past
    · exact led.past_missing nothing
  have other : l ≠ n :: x := by
    refine past.elsewhere put.apart.plain ?_
    intro eq
    exact put.apart.plain (eq ▸ origin_isDir home src)
  have after := past.apart put.apart
  have same := put.apart.entries l _ other found
  refine ⟨⟨dest_given, l, mtime, ?_, same⟩, ⟨given, l, mtime, ?_, same⟩, ?_⟩
  · rw [put.cwd]
    exact (put.leads home l).mpr after
  · rw [put.cwd]
    exact after
  · intro y f before' unnamed
    refine put.apart.entries y f ?_ before'
    rintro rfl
    rcases put.known with here | nothing
    · exact unnamed ⟨before, n, x, put.split, here, rfl⟩
    · cases nothing.symm.trans before'

/-- A source whose way looks up the destination ends in a circle of links. -/
theorem Put.keepsAway (put : Put t u src dest before n x) (home : t.entry t.cwd = some .dir)
    (there : HoldsText t src text) (after : HoldsText u src text) : KeepsAway t src dest := by
  intro e named
  obtain rfl := put.names named
  obtain ⟨_, l, _, led, _⟩ := there
  rcases led.past_or_comes (n :: x) with past | ⟨rest, comes⟩
  · exact ⟨l, past⟩
  · exfalso
    obtain ⟨_, m, _, way, _⟩ := after
    rw [put.cwd] at way
    obtain ⟨up, split, lead⟩ := put.up home
    have rooted : origin x (absolute t.cwd src) = [] := if_pos (absolute_head t.cwd src)
    have circle : Linked.ComesTo u (n :: x) (origin x (absolute t.cwd src))
        ((absolute t.cwd src).splitOn '/') rest := by
      rw [rooted, split]
      exact lead.comes (comes.apart put.apart)
    obtain ⟨k, whole⟩ := lead.leads.append way
    apply circle.endless put.link [] k
    change Linked.LeadsIn u k (origin x _) _ m
    rw [rooted, split, List.append_nil]
    exact whole

end Installed

section Calls

variable (cfg : Settings Linked) (reads : ReadOrder)

theorem absname_installs (t : Linked) (p : LuaString) :
    absname (onInstalls cfg reads).host t p = absolute t.cwd p := rfl

theorem symlink_installs (t : Linked) (target p : LuaString) :
    (onInstalls cfg reads).host.symlink t target p = t.symlink target p := rfl

theorem unlink_installs (t : Linked) (p : LuaString) :
    (onInstalls cfg reads).host.unlink t p = t.unlink p := rfl

end Calls

theorem look_mem {W : Type} (s : State W) (self : Obj) : (s.look self).mem = s.mem := rfl

theorem look_sys {W : Type} (s : State W) (self : Obj) : (s.look self).sys = s.sys := rfl

theorem install_put {cfg : Settings Linked} {reads : ReadOrder} {self : Obj}
    {src dest a b : LuaString} {s s' : State Linked}
    (home : s.sys.world.entry s.sys.world.cwd = some .dir)
    (first : expandText (onInstalls cfg reads) s.mem.fields s.mem.scope self src = .ok a)
    (second : expandText (onInstalls cfg reads) s.mem.fields s.mem.scope self dest = .ok b)
    (run : doInstall (onInstalls cfg reads) self src dest s = .ok () s') :
    ∃ before n x, Put s.sys.world s'.sys.world a b before n x := by
  simp only [doInstall, bind_run, expand_run, look_mem, look_sys, first, second, except, pure_run,
    get_run, lift, absname_installs, symlink_installs, unlink_installs] at run
  cases made : mkcontainerdir (onInstalls cfg reads).host (onInstalls cfg reads).fuel
      (absolute s.sys.world.cwd b) s.sys with
  | error e r =>
    rw [made] at run
    cases run
  | ok c r =>
    rw [made] at run
    dsimp only at run
    have links : r.world.symlink (absolute s.sys.world.cwd a) (absolute s.sys.world.cwd b) =
          some s'.sys.world ∨
        ∃ v, r.world.unlink (absolute s.sys.world.cwd b) = some v ∧
          v.symlink (absolute s.sys.world.cwd a) (absolute s.sys.world.cwd b) =
            some s'.sys.world := by
      cases atOnce : r.world.symlink (absolute s.sys.world.cwd a) (absolute s.sys.world.cwd b) with
      | some w =>
        rw [atOnce] at run
        cases run
        exact Or.inl rfl
      | none =>
        rw [atOnce] at run
        simp only [bind_run, get_run] at run
        cases taken : r.world.unlink (absolute s.sys.world.cwd b) with
        | none =>
          rw [taken] at run
          cases run
        | some v =>
          rw [taken] at run
          simp only [bind_run, get_run, modify_run] at run
          cases again : v.symlink (absolute s.sys.world.cwd a) (absolute s.sys.world.cwd b) with
          | none =>
            rw [again] at run
            cases run
          | some w =>
            rw [again] at run
            cases run
            exact Or.inr ⟨v, rfl, again⟩
    obtain ⟨before, n, x, placed⟩ := placed_of_links made (slash_absolute _ b) links
    obtain ⟨before, put⟩ := put_of_placed home placed
    exact ⟨before, n, x, put⟩

theorem Put.dest_given {t u : Linked} {src dest : LuaString} {before : List LuaString} {n : Name}
    {x : Location} (put : Put t u src dest before n x) : dest ≠ [] := by
  rintro rfl
  have split := put.split
  rw [List.splitOn_nil] at split
  have whole : [] ++ [[]] = before ++ [n.text] := split
  have last := List.append_inj' whole rfl
  exact n.nonempty (List.singleton_inj.mp last.2).symm

theorem doInstall_returns (cfg : Settings Linked) (reads : ReadOrder) (self : Obj)
    {src dest a b : LuaString} (s : State Linked) {u : Linked} (enough : 0 < cfg.fuel)
    (first : expandText (onInstalls cfg reads) s.mem.fields s.mem.scope self src = .ok a)
    (second : expandText (onInstalls cfg reads) s.mem.fields s.mem.scope self dest = .ok b)
    (there : (s.sys.world.stat (dirname (absolute s.sys.world.cwd b))).isSome)
    (links : s.sys.world.symlink (absolute s.sys.world.cwd a) (absolute s.sys.world.cwd b) = some u ∨
      s.sys.world.symlink (absolute s.sys.world.cwd a) (absolute s.sys.world.cwd b) = none ∧
        ∃ v, s.sys.world.unlink (absolute s.sys.world.cwd b) = some v ∧
          v.symlink (absolute s.sys.world.cwd a) (absolute s.sys.world.cwd b) = some u) :
    ∃ s', doInstall (onInstalls cfg reads) self src dest s = .ok () s' := by
  obtain ⟨fuel, hfuel⟩ := Nat.exists_eq_add_of_le' enough
  have held : mkcontainerdir (onInstalls cfg reads).host (onInstalls cfg reads).fuel
      (absolute s.sys.world.cwd b) s.sys = .ok () s.sys := by
    change mkcontainerdir _ cfg.fuel _ _ = _
    rw [hfuel]
    exact mkcontainerdir_here _ reads there fuel
  simp only [doInstall, bind_run, expand_run, look_mem, look_sys, first, second, except, pure_run,
    get_run, lift, absname_installs, symlink_installs, unlink_installs, held]
  rcases links with atOnce | ⟨taken, v, out, again⟩
  · rw [atOnce]
    exact ⟨_, rfl⟩
  · simp only [taken, bind_run, get_run, out, modify_run, again]
    exact ⟨_, rfl⟩

/-- For an installation that returns: both paths give the text of the source afterwards and
nothing else has changed exactly when the way to the source does not look up the entry that
the destination names. -/
theorem install_keeps (cfg : Settings Linked) (reads : ReadOrder) (self : Obj)
    (src dest a b text : LuaString) (s s' : State Linked)
    (home : s.sys.world.entry s.sys.world.cwd = some .dir)
    (first : expandText (onInstalls cfg reads) s.mem.fields s.mem.scope self src = .ok a)
    (second : expandText (onInstalls cfg reads) s.mem.fields s.mem.scope self dest = .ok b)
    (there : HoldsText s.sys.world a text)
    (run : doInstall (onInstalls cfg reads) self src dest s = .ok () s') :
    InstalledWell s.sys.world s'.sys.world a b text ↔ KeepsAway s.sys.world a b := by
  obtain ⟨before, n, x, put⟩ := install_put home first second run
  constructor
  · intro well
    exact put.keepsAway home there well.kept
  · intro away
    exact put.installed home there put.dest_given away

/-- One file in the root, which is the working directory. -/
def plainFile : Linked :=
  (Linked.bareLinked 8).add ⟨"f".toList, by decide, by decide, by decide, by decide⟩ []
    (.file 1 "text".toList) (by decide) (by decide)

theorem plainFile_text : HoldsText plainFile "f".toList "text".toList := by
  have led : plainFile.walk 0 (origin [] "f".toList) ("f".toList.splitOn '/') =
      some [⟨"f".toList, by decide, by decide, by decide, by decide⟩] := rfl
  exact ⟨by decide, _, 1, Linked.leads_of_walk led, rfl⟩

def plainStart : State Linked := start plainFile sandboxVariables 0

theorem plain_expands (p : LuaString) (few : p.count '%' < 2) (bell : '\x07' ∉ p) :
    expandText (onInstalls (linkSettings 4) asListed) plainStart.mem.fields plainStart.mem.scope
      sandboxVariables p = .ok p :=
  expand_plain (by decide) _ _ _ few bell

theorem fresh_name_installed : ∃ s', doInstall (onInstalls (linkSettings 4) asListed) sandboxVariables
      "f".toList "g".toList plainStart = .ok () s' ∧
    (InstalledWell plainFile s'.sys.world "f".toList "g".toList "text".toList ↔
      KeepsAway plainFile "f".toList "g".toList) := by
  obtain ⟨u, atOnce⟩ := Option.isSome_iff_exists.mp
    (show (plainFile.symlink (absolute [] "f".toList) (absolute [] "g".toList)).isSome by
      decide +kernel)
  have first := plain_expands "f".toList (by decide) (by decide)
  have second := plain_expands "g".toList (by decide) (by decide)
  obtain ⟨s', run⟩ := doInstall_returns (linkSettings 4) asListed sandboxVariables plainStart
    (by decide) first second (by decide +kernel) (Or.inl atOnce)
  exact ⟨s', run, install_keeps (linkSettings 4) asListed sandboxVariables "f".toList "g".toList
    "f".toList "g".toList "text".toList plainStart s' rfl first second plainFile_text run⟩

/-- A file installed over itself is taken out, and the link put in its place leads to
itself. -/
theorem installed_over_itself : ¬ ∀ (cfg : Settings Linked) (reads : ReadOrder) (self : Obj)
    (src dest a b text : LuaString) (s s' : State Linked),
    s.sys.world.entry s.sys.world.cwd = some .dir →
    expandText (onInstalls cfg reads) s.mem.fields s.mem.scope self src = .ok a →
    expandText (onInstalls cfg reads) s.mem.fields s.mem.scope self dest = .ok b →
    HoldsText s.sys.world a text → doInstall (onInstalls cfg reads) self src dest s = .ok () s' →
    InstalledWell s.sys.world s'.sys.world a b text := by
  intro all
  have named := plain_expands "f".toList (by decide) (by decide)
  obtain ⟨u, again⟩ := Option.isSome_iff_exists.mp
    (show ((plainFile.unlink (absolute [] "f".toList)).bind fun v =>
      v.symlink (absolute [] "f".toList) (absolute [] "f".toList)).isSome by decide +kernel)
  obtain ⟨v, out, again⟩ := Option.bind_eq_some_iff.mp again
  obtain ⟨s', run⟩ := doInstall_returns (linkSettings 4) asListed sandboxVariables plainStart
    (by decide) named named (by decide +kernel) (Or.inr ⟨by decide +kernel, v, out, again⟩)
  have well := all (linkSettings 4) asListed sandboxVariables "f".toList "f".toList "f".toList
    "f".toList "text".toList plainStart s' rfl named named plainFile_text run
  obtain ⟨before, n, x, put⟩ := install_put rfl named named run
  have away := put.keepsAway rfl plainFile_text well.kept
  obtain ⟨l, past⟩ := away [⟨"f".toList, by decide, by decide, by decide, by decide⟩]
    ⟨[], _, [], rfl, .nil plainFile [], rfl⟩
  cases past with
  | step _ _ _ _ _ aside => exact aside (by decide)

end PrimeMover
