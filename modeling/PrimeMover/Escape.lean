import PrimeMover.Links
import PrimeMover.Purge

/-! What a purge of the default cache directory removes when there are symbolic links:
entries are told apart by `stat`, which follows links, but removed by their names. -/
namespace PrimeMover
open PosixTree Outcome

def objectStat : Object → Stat
  | .file mtime _ => ⟨.regular, mtime⟩
  | .dir => ⟨.directory, 0⟩
  | .other | .link _ => ⟨.other, 0⟩

/-- The order in which a directory is read, each time it is read. -/
structure ReadOrder where
  order : LuaString → List LuaString → List LuaString
  perm : ∀ path names, (order path names).Perm names

/-- Directories are read in the order of their entries. -/
def asListed : ReadOrder := ⟨fun _ names => names, fun _ names => .refl names⟩

/-- A system whose files are a tree with links; the calls that wiping does not make are
arbitrary. -/
def linkHost (other : Host Linked) (reads : ReadOrder) : Host Linked :=
  { other with
    stat := fun t f => (t.stat f).map objectStat
    files := fun t f => t.list reads.order f
    mkdir := Linked.mkdir
    unlink := Linked.unlink
    rmdir := Linked.rmdir }

/-- The default cache directory. -/
def onLinks (cfg : Settings Linked) (reads : ReadOrder) : Settings Linked :=
  { cfg with host := linkHost cfg.host reads, intermediateCacheDir := ".pm-cache/".toList }

def cacheTop : LuaString := ".pm-cache".toList

/-- The directory is not the cache directory `top` and not below it. -/
def OutsideCache (t : Linked) (top : LuaString) (x : Location) : Prop :=
  ∀ c, t.resolve top = some c → ¬ c <:+ x

/-- A purge leaves every entry of a directory outside the cache as it was. -/
def PurgesInside (t : Linked) : Prop :=
  ∀ (cfg : Settings Linked) (reads : ReadOrder) (sandbox : Obj) (objects : Nat) (n : Name)
    (x : Location) (e : Object), t.entry (n :: x) = some e → OutsideCache t cacheTop x →
    (final (setupCache (onLinks cfg reads) true (start t sandbox objects))).sys.world.entry
      (n :: x) = some e

/-- The directories that wiping comes to, through directories and links to them. -/
inductive Wiped (t : Linked) (top : LuaString) : LuaString → Prop where
  | top : t.stat top = some .dir → Wiped t top top
  | entry (p x n) : Wiped t top p → t.resolve p = some x → n ∈ t.children x →
      t.stat (p ++ '/' :: n.text) = some .dir → Wiped t top (p ++ '/' :: n.text)

/-- What wiping takes for a file, and an empty directory. -/
def Removable (t : Linked) (p : LuaString) (x : Location) (n : Name) : Prop :=
  (∃ mtime contents, t.stat (p ++ '/' :: n.text) = some (.file mtime contents)) ∨
    (t.entry (n :: x) = some .dir ∧ t.children (n :: x) = [])

/-- Somewhere a link leads out of the cache, to a directory with something to remove. -/
def LeadsOut (t : Linked) (top : LuaString) : Prop :=
  ∃ p x n, Wiped t top p ∧ t.resolve p = some x ∧ OutsideCache t top x ∧ n ∈ t.children x ∧
    Removable t p x n

variable {top : LuaString}

theorem Wiped.nonempty {t : Linked} {p : LuaString} (h : Wiped t top p) : p ≠ [] := by
  cases h with
  | top isDir =>
    rintro rfl
    cases isDir
  | entry p x n => simp

theorem Wiped.isDir {t : Linked} {p : LuaString} (h : Wiped t top p) : t.stat p = some .dir := by
  cases h with
  | top isDir => exact isDir
  | entry p x n _ _ _ isDir => exact isDir

theorem Wiped.leads {t : Linked} {p : LuaString} {x : Location} (h : Wiped t top p)
    (led : t.resolve p = some x) : t.entry x = some .dir := by
  have isDir := h.isDir
  rw [Linked.stat, led, Option.bind_some] at isDir
  exact isDir

/-- A link to a directory. -/
structure DirLink (t : Linked) (n : Name) (x : Location) (target : LuaString) : Prop where
  link : t.entry (n :: x) = some (.link target)
  leads : ∃ links m, t.walk links x [n.text] = some m ∧ t.entry m = some .dir

/-- Wiping leaves the cache only through a link to a directory that is inside. -/
theorem Wiped.exit {t : Linked} {p : LuaString} {x c : Location} (h : Wiped t top p)
    (led : t.resolve p = some x) (outside : OutsideCache t top x) (above : t.resolve top = some c) :
    ∃ k y target, c <:+ y ∧ DirLink t k y target := by
  induction h generalizing x with
  | top =>
    rw [above] at led
    cases led
    exact absurd (List.suffix_refl _) (outside c above)
  | entry p y n wiped here _ isDir ih =>
    obtain ⟨z, hz, one⟩ := Linked.resolve_child wiped.nonempty led
    rw [here] at hz
    cases hz
    by_cases within : c <:+ y
    · have dir : t.entry x = some .dir := by
        rw [Linked.stat, led, Option.bind_some] at isDir
        exact isDir
      rcases (Linked.walk_name t _ y x n one).2 with ⟨target, link⟩ | ⟨rfl, _⟩
      · exact ⟨n, y, target, within, link, _, x, one, dir⟩
      · exact absurd (within.trans (List.suffix_cons n y)) (outside c above)
    · refine ih here fun d hd => ?_
      rw [above] at hd
      cases hd
      exact within

/-- What wiping never takes: entries outside, and links to directories. -/
structure Spared (t : Linked) (top : LuaString) (u : Linked) : Prop where
  under : u.Under t
  outside : ∀ n x e, t.entry (n :: x) = some e → OutsideCache t top x → u.entry (n :: x) = some e
  links : ∀ n x target, DirLink t n x target → u.entry (n :: x) = some (.link target)

theorem Spared.refl (t : Linked) : Spared t top t :=
  ⟨Linked.Under.refl t, fun _ _ _ h _ => h, fun _ _ _ h => h.link⟩

theorem Spared.taken {t u v : Linked} {n : Name} {x : Location} (spared : Spared t top u)
    (taken : Linked.Taken u v n x) (inside : ¬ OutsideCache t top x)
    (other : ∀ target, ¬ DirLink t n x target) : Spared t top v where
  under := taken.under.trans spared.under
  outside := by
    intro m y e there outside
    rw [taken.entries, if_neg]
    · exact spared.outside m y e there outside
    · intro same
      cases same
      exact inside outside
  links := by
    intro m y target link
    rw [taken.entries, if_neg]
    · exact spared.links m y target link
    · intro same
      cases same
      exact other target link

section
variable {t u : Linked} {p : LuaString} {n : Name} (spared : Spared t top u)
  (kept : ¬ LeadsOut t top) (wiped : Wiped t top p)
include spared kept wiped

/-- A link that is seen as a file is not one to a directory. -/
theorem Spared.unlink {v : Linked} {mtime : Nat} {contents : LuaString}
    (seen : u.stat (p ++ '/' :: n.text) = some (.file mtime contents))
    (taken : u.unlink (p ++ '/' :: n.text) = some v) : Spared t top v := by
  obtain ⟨x, led, _, taken⟩ := (Linked.unlink_child wiped.nonempty).1 v taken
  have seen' := spared.under.stat seen
  obtain ⟨m, led', file⟩ := Option.bind_eq_some_iff.mp seen'
  obtain ⟨y, hy, one⟩ := Linked.resolve_child wiped.nonempty led'
  rw [spared.under.resolve led] at hy
  cases hy
  have child : n ∈ t.children x := by
    rw [Linked.mem_children]
    rcases (Linked.walk_name t _ x m n one).2 with ⟨target, link⟩ | ⟨_, there⟩
    · rw [link]
      rfl
    · exact there
  refine spared.taken taken (fun outside => kept ?_) fun target link => ?_
  · exact ⟨p, x, n, wiped, spared.under.resolve led, outside, child, Or.inl ⟨_, _, seen'⟩⟩
  · obtain ⟨links, d, walked, dir⟩ := link.leads
    have first := Linked.walk_mono (fun _ _ h => h) (Nat.le_max_left t.allowed links) one
    have second := Linked.walk_mono (fun _ _ h => h) (Nat.le_max_right t.allowed links) walked
    rw [first] at second
    cases second
    rw [file] at dir
    cases dir

theorem Spared.rmdir {v : Linked} (taken : u.rmdir (p ++ '/' :: n.text) = some v) :
    Spared t top v := by
  obtain ⟨x, led, isDir, empty, taken⟩ := (Linked.rmdir_child wiped.nonempty).1 v taken
  have led' := spared.under.resolve led
  have isDir' := spared.under.entries _ _ isDir
  have childless : ∀ k, (u.entry (k :: n :: x)).isSome → False := by
    intro k there
    have := (u.mem_children (n :: x) k).mpr there
    rw [empty] at this
    cases this
  refine spared.taken taken (fun outside => kept ?_) fun target link => ?_
  · have child : n ∈ t.children x := by
      rw [Linked.mem_children, isDir']
      rfl
    refine ⟨p, x, n, wiped, led', outside, child, Or.inr ⟨isDir', ?_⟩⟩
    rw [List.eq_nil_iff_forall_not_mem]
    intro k hk
    obtain ⟨e, there⟩ := Option.isSome_iff_exists.mp ((t.mem_children _ k).mp hk)
    by_cases below : OutsideCache t top (n :: x)
    · exact childless k (by rw [spared.outside k _ e there below]; rfl)
    · -- the cache directory itself holds a link that stays
      unfold OutsideCache at below
      push Not at below
      obtain ⟨c, led, above⟩ := below
      have same : c = n :: x := by
        rcases List.suffix_cons_iff.mp above with same | above
        · exact same
        · exact absurd above (outside c led)
      obtain ⟨k', y, target, within, link⟩ := wiped.exit led' outside led
      have stays := spared.links k' y target link
      obtain ⟨k'', there'⟩ := Linked.child_towards (t := u)
        (within.trans (List.suffix_cons k' y)) (by
          intro h
          have := within.length_le
          rw [← h, List.length_cons] at this
          omega) (by rw [stays]; rfl)
      exact childless k'' (same ▸ there')
  · have := link.link
    rw [isDir'] at this
    cases this

end

theorem stat_regular {t : Linked} {path : LuaString}
    (h : ((t.stat path).map objectStat).map Stat.type = some .regular) :
    ∃ mtime contents, t.stat path = some (.file mtime contents) := by
  cases seen : t.stat path with
  | none => simp [seen] at h
  | some e =>
    cases e with
    | file mtime contents => exact ⟨mtime, contents, rfl⟩
    | other => simp [seen, objectStat] at h
    | dir => simp [seen, objectStat] at h
    | link target => simp [seen, objectStat] at h

theorem stat_directory {t : Linked} {path : LuaString}
    (h : ((t.stat path).map objectStat).map Stat.type = some .directory) :
    t.stat path = some .dir := by
  cases seen : t.stat path with
  | none => simp [seen] at h
  | some e =>
    cases e with
    | dir => rfl
    | file mtime contents => simp [seen, objectStat] at h
    | other => simp [seen, objectStat] at h
    | link target => simp [seen, objectStat] at h

theorem mem_listed {t : Linked} {reads : ReadOrder} {path i : LuaString} {names : List LuaString}
    (listed : t.list reads.order path = some names) (member : i ∈ names)
    (plain : i ≠ ".".toList ∧ i ≠ "..".toList) :
    ∃ n x, i = n.text ∧ t.resolve path = some x ∧ n ∈ t.children x := by
  unfold Linked.list at listed
  split at listed
  · cases listed
  · rename_i x led
    split at listed
    · cases listed
      rw [(reads.perm _ _).mem_iff] at member
      rcases List.mem_cons.mp member with rfl | member
      · exact absurd rfl plain.1
      rcases List.mem_cons.mp member with rfl | member
      · exact absurd rfl plain.2
      obtain ⟨n, hn, same⟩ := List.mem_map.mp member
      exact ⟨n, x, same.symm, led, hn⟩
    · cases listed

theorem slash_text (root : LuaString) (n : Name) :
    root ++ "/".toList ++ n.text = root ++ '/' :: n.text := by
  simp

theorem wipe_spares {t : Linked} (kept : ¬ LeadsOut t top) (other : Host Linked)
    (reads : ReadOrder) (fuel : Nat) (root : LuaString) (wiped : Wiped t top root) :
    Keeps (fun s : Sys Linked => Spared t top s.world) (rmdir (linkHost other reads) fuel root) := by
  induction fuel generalizing root with
  | zero => exact Keeps.throw _
  | succ fuel ih =>
    apply Keeps.get_bind
    intro s hs
    split
    · exact (Keeps.pure _).from hs
    rename_i names listed
    refine (Keeps.forM names fun i hi => ?_).from hs
    unfold wipeEntry
    split
    · rename_i plain
      obtain ⟨n, x, rfl, led, child⟩ := mem_listed listed hi plain
      have led' := hs.under.resolve led
      have child' : n ∈ t.children x := by
        rw [Linked.mem_children] at child ⊢
        obtain ⟨e, there⟩ := Option.isSome_iff_exists.mp child
        rw [hs.under.entries _ _ there]
        rfl
      simp only [slash_text]
      apply Keeps.get_bind
      intro u hu
      split
      · rename_i seen
        obtain ⟨mtime, contents, seen⟩ := stat_regular seen
        apply Ensures.get_bind
        split
        · exact (Keeps.throw _).from hu
        · rename_i w taken
          apply Ensures.modify
          rintro _ rfl
          exact hu.unlink kept wiped seen taken
      · rename_i seen
        have below := Wiped.entry root x n wiped led' child' (hu.under.stat (stat_directory seen))
        refine (Keeps.bind (ih _ below) fun _ => Keeps.get_bind ?_).from hu
        intro v hv
        split
        · exact (Keeps.pure _).from hv
        · rename_i w taken
          apply Ensures.modify
          rintro _ rfl
          exact hv.rmdir kept wiped taken
      · exact (Keeps.pure _).from hu
    · exact Keeps.pure _

theorem purgesInside_of_kept {t : Linked} (kept : ¬ LeadsOut t cacheTop) : PurgesInside t := by
  intro cfg reads sandbox objects n x e there outside
  have top : dirname ".pm-cache/".toList = cacheTop :=
    dirname_append ".pm-cache".toList [] List.not_mem_nil
  have whole : Ensures (fun u : Sys Linked => u = (start t sandbox objects).sys)
      (createIntermediateCache (onLinks cfg reads))
      (fun _ u => u.world.entry (n :: x) = some e)
      (fun _ u => u.world.entry (n :: x) = some e) := by
    have mkdir : ∀ (u : Sys Linked) (w : Linked) (f : LuaString),
        (onLinks cfg reads).host.mkdir u.world f = some w →
        u.world.entry (n :: x) = some e → w.entry (n :: x) = some e :=
      fun u w f made there => Linked.mkdir_entries made _ _ there
    apply Ensures.get_bind
    split
    · refine (Keeps.bind (mkcontainerdir_keeps _
        (fun u : Sys Linked => u.world.entry (n :: x) = some e) mkdir _ _)
        fun _ => Keeps.get_bind ?_).from there
      intro u hu
      split
      · exact (Keeps.throw _).from hu
      · rename_i w made
        apply Ensures.modify
        rintro _ rfl
        exact mkdir _ w _ made hu
    · rename_i names listed
      have wiped : Wiped t cacheTop cacheTop := by
        apply Wiped.top
        have listed' : t.list reads.order cacheTop = some names := by
          rw [← top]
          exact listed
        unfold Linked.list at listed'
        split at listed'
        · cases listed'
        · rename_i l led
          split at listed'
          · rename_i isDir
            rw [Linked.stat, led]
            exact isDir
          · cases listed'
      have spares := wipe_spares kept cfg.host reads (onLinks cfg reads).fuel cacheTop wiped
      rw [← top] at spares
      exact (spares.from (Spared.refl t)).weaken (fun _ h => h)
        (fun _ _ h => h.outside n x e there outside) (fun _ _ h => h.outside n x e there outside)
  have run : (final (setupCache (onLinks cfg reads) true (start t sandbox objects))).sys =
      final (createIntermediateCache (onLinks cfg reads) (start t sandbox objects).sys) :=
    lift_world _ _
  rw [run]
  exact whole.final rfl

/-- The name is the next one on the way from the directory to the goal. -/
def towards (goal path i : LuaString) : Bool :=
  decide (path ++ '/' :: (i ++ ['/']) <+: goal ++ ['/'])

/-- Directories are read with the way to the goal first. -/
def goalFirst (goal : LuaString) : ReadOrder where
  order path names :=
    names.filter (towards goal path) ++ names.filter (fun i => !towards goal path i)
  perm path names := List.filter_append_perm (towards goal path) names

theorem towards_unique {goal path i j : LuaString} (hi : towards goal path i)
    (hj : towards goal path j) (plain : '/' ∉ i) (plain' : '/' ∉ j) : i = j := by
  obtain ⟨u, hu⟩ := of_decide_eq_true hi
  obtain ⟨v, hv⟩ := of_decide_eq_true hj
  have same : i ++ '/' :: u = j ++ '/' :: v := by
    have := hu.trans hv.symm
    simpa using this
  have first : ∀ k w : LuaString, '/' ∉ k → (k ++ '/' :: w).takeWhile (· ≠ '/') = k := by
    intro k w clean
    rw [List.takeWhile_append_of_pos]
    · simp
    · intro c hc
      have : c ≠ '/' := by
        rintro rfl
        exact clean hc
      simpa using this
  rw [← first i u plain, same, first j v plain']

/-- A directory is read with the name on the way to the goal first. -/
theorem list_goalFirst {t : Linked} {goal path : LuaString} {x : Location} {n : Name}
    (led : t.resolve path = some x) (isDir : t.entry x = some .dir) (child : n ∈ t.children x)
    (on : towards goal path n.text) :
    ∃ rest, t.list (goalFirst goal).order path = some (n.text :: rest) := by
  let names := ".".toList :: "..".toList :: (t.children x).map Name.text
  have plain : ∀ i ∈ names, '/' ∉ i := by
    intro i hi
    rcases List.mem_cons.mp hi with rfl | hi
    · decide
    rcases List.mem_cons.mp hi with rfl | hi
    · decide
    obtain ⟨m, _, rfl⟩ := List.mem_map.mp hi
    exact m.noSlash
  have member : n.text ∈ names.filter (towards goal path) :=
    List.mem_filter.mpr ⟨by simp [names, List.mem_map_of_mem child], on⟩
  have front : ∀ i ∈ names.filter (towards goal path), i = n.text := by
    intro i hi
    obtain ⟨hi, on'⟩ := List.mem_filter.mp hi
    exact towards_unique on' on (plain i hi) n.noSlash
  have listed : t.list (goalFirst goal).order path =
      some (names.filter (towards goal path) ++
        names.filter (fun i => !towards goal path i)) := by
    simp only [Linked.list, led, isDir, if_true]
    rfl
  cases found : names.filter (towards goal path) with
  | nil =>
    rw [found] at member
    cases member
  | cons i more =>
    rw [listed, found, front i (by rw [found]; exact List.mem_cons_self)]
    exact ⟨_, rfl⟩

theorem taken_keeps (other : Host Linked) (reads : ReadOrder) (l : Location) (fuel : Nat) :
    (∀ root, Keeps (fun u : Sys Linked => u.world.entry l = none)
      (rmdir (linkHost other reads) fuel root)) ∧
    ∀ root i, Keeps (fun u : Sys Linked => u.world.entry l = none)
      (wipeEntry (linkHost other reads) (rmdir (linkHost other reads) fuel) root i) := by
  have removed : ∀ (u : Sys Linked) (w : Linked) (f : LuaString), u.world.entry l = none →
      (u.world.unlink f = some w ∨ u.world.rmdir f = some w) → w.entry l = none := by
    intro u w f gone removed
    have under : w.Under u.world := by
      rcases removed with removed | removed
      · exact Linked.unlink_under removed
      · exact Linked.rmdir_under removed
    cases there : w.entry l with
    | none => rfl
    | some e =>
      rw [under.entries l e there] at gone
      cases gone
  have whole : ∀ root, Keeps (fun u : Sys Linked => u.world.entry l = none)
      (rmdir (linkHost other reads) fuel root) := fun root =>
    rmdir_keeps _ _ (fun _ => True) (fun _ => True)
      (fun _ _ _ _ _ _ _ _ _ _ => ⟨trivial, trivial⟩)
      (fun u w f gone _ h => removed u w f gone h) fuel root trivial
  refine ⟨whole, fun root i => wipeEntry_keeps _ _ _ _ _ (fun _ _ => whole _) ?_⟩
  intro u w gone _ _ h
  exact removed u w _ gone h

section
variable {s : Sys Linked} {other : Host Linked} {reads : ReadOrder} {path : LuaString}
  {n : Name} {rest : List LuaString} {l : Location}

/-- What the first entry of a directory comes to is what the directory comes to. -/
theorem wipe_first {fuel : Nat} (listed : s.world.list reads.order path = some (n.text :: rest))
    (first : Ensures (fun u => u = s)
      (wipeEntry (linkHost other reads) (rmdir (linkHost other reads) fuel) path n.text)
      (fun _ u => u.world.entry l = none) (fun _ u => u.world.entry l = none)) :
    (final (rmdir (linkHost other reads) (fuel + 1) path s)).world.entry l = none := by
  have whole : Ensures (fun u => u = s) (rmdir (linkHost other reads) (fuel + 1) path)
      (fun _ u => u.world.entry l = none) (fun _ u => u.world.entry l = none) := by
    apply Ensures.get_bind
    simp only [show (linkHost other reads).files s.world path = some (n.text :: rest) from listed]
    simp only [List.forM_eq_forM, List.forM_cons]
    exact first.bind fun _ =>
      Keeps.forM _ fun i _ => (taken_keeps other reads l fuel).2 path i
  exact whole.final rfl

theorem wipe_file {fuel mtime : Nat} {contents : LuaString}
    (seen : s.world.stat (path ++ '/' :: n.text) = some (.file mtime contents)) {v : Linked}
    (taken : s.world.unlink (path ++ '/' :: n.text) = some v) (gone : v.entry l = none) :
    Ensures (fun u => u = s)
      (wipeEntry (linkHost other reads) (rmdir (linkHost other reads) fuel) path n.text)
      (fun _ u => u.world.entry l = none) (fun _ u => u.world.entry l = none) := by
  rw [wipeEntry, if_pos ⟨n.notSelf, n.notParent⟩]
  simp only [slash_text]
  apply Ensures.get_bind
  have type : ((linkHost other reads).stat s.world (path ++ '/' :: n.text)).map Stat.type =
      some .regular := by
    rw [show (linkHost other reads).stat s.world (path ++ '/' :: n.text) =
      (s.world.stat (path ++ '/' :: n.text)).map objectStat from rfl, seen]
    rfl
  simp only [type]
  apply Ensures.get_bind
  simp only [show (linkHost other reads).unlink s.world (path ++ '/' :: n.text) = some v
    from taken]
  apply Ensures.modify
  rintro _ rfl
  exact gone

theorem wipe_descend {fuel : Nat} (seen : s.world.stat (path ++ '/' :: n.text) = some .dir)
    (below : (final (rmdir (linkHost other reads) fuel (path ++ '/' :: n.text) s)).world.entry l =
      none) :
    Ensures (fun u => u = s)
      (wipeEntry (linkHost other reads) (rmdir (linkHost other reads) fuel) path n.text)
      (fun _ u => u.world.entry l = none) (fun _ u => u.world.entry l = none) := by
  rw [wipeEntry, if_pos ⟨n.notSelf, n.notParent⟩]
  simp only [slash_text]
  apply Ensures.get_bind
  have type : ((linkHost other reads).stat s.world (path ++ '/' :: n.text)).map Stat.type =
      some .directory := by
    rw [show (linkHost other reads).stat s.world (path ++ '/' :: n.text) =
      (s.world.stat (path ++ '/' :: n.text)).map objectStat from rfl, seen]
    rfl
  simp only [type]
  refine (Ensures.of_final below).bind fun _ => Keeps.get_bind ?_
  intro u hu
  split
  · exact (Keeps.pure _).from hu
  · rename_i w taken
    apply Ensures.modify
    rintro _ rfl
    cases there : w.entry l with
    | none => rfl
    | some e =>
      rw [(Linked.rmdir_under taken).entries l e there] at hu
      cases hu

theorem rmdir_empty {fuel : Nat} {x : Location} (led : s.world.resolve path = some x)
    (isDir : s.world.entry x = some .dir) (empty : s.world.children x = []) :
    rmdir (linkHost other reads) (fuel + 1) path s = .ok () s := by
  have listed : s.world.list reads.order path =
      some (reads.order path [".".toList, "..".toList]) := by
    simp [Linked.list, led, isDir, empty]
  have skip : ∀ names : List LuaString, (∀ i ∈ names, i = ".".toList ∨ i = "..".toList) →
      names.forM (wipeEntry (linkHost other reads) (rmdir (linkHost other reads) fuel) path) s =
        .ok () s := by
    intro names dots
    induction names with
    | nil => rfl
    | cons i names ih =>
      have one : wipeEntry (linkHost other reads) (rmdir (linkHost other reads) fuel) path i =
          pure () := by
        rw [wipeEntry, if_neg]
        rintro ⟨self, parent⟩
        exact (dots i List.mem_cons_self).elim self parent
      have rest := ih fun j hj => dots j (List.mem_cons_of_mem i hj)
      rw [List.forM_eq_forM] at rest ⊢
      rw [List.forM_cons, one, pure_bind]
      exact rest
  simp only [rmdir, bind_run, get_run]
  rw [show (linkHost other reads).files s.world path = _ from listed]
  apply skip
  intro i hi
  rw [(reads.perm _ _).mem_iff] at hi
  simpa using hi

theorem wipe_empty {fuel : Nat} {x : Location}
    (seen : s.world.stat (path ++ '/' :: n.text) = some .dir)
    (led : s.world.resolve (path ++ '/' :: n.text) = some (n :: x))
    (empty : s.world.children (n :: x) = []) {v : Linked}
    (taken : s.world.rmdir (path ++ '/' :: n.text) = some v) (gone : v.entry l = none) :
    Ensures (fun u => u = s)
      (wipeEntry (linkHost other reads) (rmdir (linkHost other reads) (fuel + 1)) path n.text)
      (fun _ u => u.world.entry l = none) (fun _ u => u.world.entry l = none) := by
  rw [wipeEntry, if_pos ⟨n.notSelf, n.notParent⟩]
  simp only [slash_text]
  apply Ensures.get_bind
  have type : ((linkHost other reads).stat s.world (path ++ '/' :: n.text)).map Stat.type =
      some .directory := by
    rw [show (linkHost other reads).stat s.world (path ++ '/' :: n.text) =
      (s.world.stat (path ++ '/' :: n.text)).map objectStat from rfl, seen]
    rfl
  simp only [type]
  have isDir : s.world.entry (n :: x) = some .dir := by
    rw [Linked.stat, led] at seen
    exact seen
  rintro u same
  subst same
  rw [bind_ok_run (rmdir_empty led isDir empty), bind_run, get_run]
  simp only [show (linkHost other reads).rmdir u.world (path ++ '/' :: n.text) = some v
    from taken]
  exact gone

end

theorem towards_front {goal path i : LuaString} (on : path ++ '/' :: i ++ ['/'] <+: goal ++ ['/']) :
    towards goal path i := by
  rw [towards, decide_eq_true_iff]
  simpa using on

/-- What happens in a directory on the way to the goal happens when the cache is wiped. -/
theorem wipe_reaches {s : Sys Linked} {goal q : LuaString} {l : Location} {fuel : Nat}
    (other : Host Linked) (wiped : Wiped s.world cacheTop q) (on : q ++ ['/'] <+: goal ++ ['/'])
    (gone : (final (rmdir (linkHost other (goalFirst goal)) fuel q s)).world.entry l = none) :
    ∃ fuel, (final (rmdir (linkHost other (goalFirst goal)) fuel cacheTop s)).world.entry l =
      none := by
  induction wiped generalizing fuel with
  | top => exact ⟨fuel, gone⟩
  | entry p x n wiped led child seen ih =>
    have before : p ++ ['/'] <+: goal ++ ['/'] := by
      refine List.IsPrefix.trans ?_ on
      exact ⟨n.text ++ ['/'], by simp⟩
    obtain ⟨rest, listed⟩ := list_goalFirst led (wiped.leads led) child (towards_front on)
    exact ih before (wipe_first listed (wipe_descend seen gone))

/-- A system of which only the files matter. -/
def linkSystem : Host Linked where
  time _ := 0
  stat _ _ := none
  readlink _ _ := none
  getcwd _ := []
  files _ _ := none
  mkdir _ _ := none
  unlink _ _ := none
  rmdir _ _ := none
  symlink _ _ _ := none
  symlinkError _ _ _ := []
  unlinkError _ _ := []
  execute t _ := (0, t)
  readFile _ _ := none
  writeFile _ _ _ := none
  pairs _ entries := entries

def linkSettings (fuel : Nat) : Settings Linked where
  host := linkSystem
  intermediateCacheDir := []
  noExecute := false
  quiet := true
  stringmodifier _ := none
  evaluate _ _ := .ok none
  functions _ _ _ _ t := (.ok none, t)
  fuel := fuel

theorem purge_run {t : Linked} (reads : ReadOrder) (fuel : Nat) (top : Wiped t cacheTop cacheTop) :
    (final (setupCache (onLinks (linkSettings fuel) reads) true
      (start t sandboxVariables 0))).sys =
    final (rmdir (linkHost linkSystem reads) fuel cacheTop (start t sandboxVariables 0).sys) := by
  have dir : dirname ".pm-cache/".toList = cacheTop :=
    dirname_append ".pm-cache".toList [] List.not_mem_nil
  obtain ⟨x, led, isDir⟩ := Option.bind_eq_some_iff.mp top.isDir
  have listed : (linkHost linkSystem reads).files t cacheTop = some (reads.order cacheTop
      (".".toList :: "..".toList :: (t.children x).map Name.text)) := by
    change t.list reads.order cacheTop = _
    simp only [Linked.list, led, isDir, if_true]
  have run : createIntermediateCache (onLinks (linkSettings fuel) reads)
      (start t sandboxVariables 0).sys =
      rmdir (linkHost linkSystem reads) fuel cacheTop (start t sandboxVariables 0).sys := by
    simp only [createIntermediateCache, bind_run, get_run]
    rw [show dirname (onLinks (linkSettings fuel) reads).intermediateCacheDir = cacheTop from dir]
    rw [show (onLinks (linkSettings fuel) reads).host.files (start t sandboxVariables 0).sys.world
      cacheTop = _ from listed]
    rfl
  rw [← run]
  exact lift_world _ _

theorem not_purgesInside {t : Linked} (leads : LeadsOut t cacheTop) : ¬ PurgesInside t := by
  obtain ⟨p, x, n, wiped, led, outside, child, removable⟩ := leads
  let goal := p ++ '/' :: n.text
  let reads := goalFirst goal
  let s := (start t sandboxVariables 0).sys
  intro inside
  obtain ⟨e, there⟩ := Option.isSome_iff_exists.mp ((t.mem_children x n).mp child)
  obtain ⟨rest, listed⟩ := list_goalFirst led (wiped.leads led) child
    (show towards goal p n.text from towards_front (List.prefix_refl _))
  have gone : (final (rmdir (linkHost linkSystem reads) 2 p s)).world.entry (n :: x) = none := by
    apply wipe_first (s := s) listed
    rcases removable with ⟨mtime, contents, seen⟩ | ⟨isDir, empty⟩
    · have notDir : e ≠ .dir := by
        rintro rfl
        have leads := Linked.resolve_directory wiped.nonempty led there
        rw [Linked.stat, leads, Option.bind_some, there] at seen
        cases seen
      obtain ⟨v, taken, out⟩ := (Linked.unlink_child wiped.nonempty).2 x e led there notDir
      exact wipe_file (s := s) seen taken (by rw [out.entries, if_pos rfl])
    · have leads := Linked.resolve_directory wiped.nonempty led isDir
      obtain ⟨v, taken, out⟩ := (Linked.rmdir_child wiped.nonempty).2 x led isDir empty
      refine wipe_empty (s := s) ?_ leads empty taken (by rw [out.entries, if_pos rfl])
      rw [show s.world.stat (p ++ '/' :: n.text) = t.stat (p ++ '/' :: n.text) from rfl,
        Linked.stat, leads]
      exact isDir
  obtain ⟨fuel, gone⟩ := wipe_reaches (s := s) linkSystem wiped ⟨n.text ++ ['/'], by simp [goal]⟩
    gone
  have top : Wiped t cacheTop cacheTop := by
    clear * - wiped
    induction wiped with
    | top isDir => exact .top isDir
    | entry p x n wiped led child isDir ih => exact ih
  have kept := inside (linkSettings fuel) reads sandboxVariables 0 n x e there outside
  rw [purge_run reads fuel top, gone] at kept
  cases kept

/-- Links inside the cache matter exactly when one leads to a directory outside with
something in it that wiping takes for a file, or an empty directory. -/
theorem purge_with_links (t : Linked) : PurgesInside t ↔ ¬ LeadsOut t cacheTop :=
  ⟨fun inside leads => not_purgesInside leads inside, purgesInside_of_kept⟩

def emptyRoot : Linked where
  cwd := []
  allowed := 40
  entries := [([], .dir)]
  distinct := by simp
  root := rfl
  closed := by
    intro n l h
    simp [AssocTable.lookup_cons] at h

def cacheName : Name := ⟨".pm-cache".toList, by decide, by decide, by decide, by decide⟩

def docs : Name := ⟨"docs".toList, by decide, by decide, by decide, by decide⟩

def thesis : Name := ⟨"thesis".toList, by decide, by decide, by decide, by decide⟩

/-- A cache with a link to the documents next to it. -/
def linkedCache : Linked :=
  (((emptyRoot.add cacheName [] .dir rfl rfl).add docs [] .dir rfl rfl).add docs [cacheName]
    (.link "../docs".toList) rfl rfl).add thesis [docs] (.file 1 []) rfl rfl

def linkPath : LuaString := ".pm-cache/docs".toList

theorem linked_documents_purged : ¬ PurgesInside linkedCache := by
  apply not_purgesInside
  have top : Wiped linkedCache cacheTop cacheTop := .top (by decide +kernel)
  have linked : Wiped linkedCache cacheTop linkPath :=
    .entry cacheTop [cacheName] docs top (by decide +kernel) (by decide +kernel)
      (by decide +kernel)
  have seen : linkedCache.stat (linkPath ++ '/' :: thesis.text) = some (.file 1 []) := by
    decide +kernel
  refine ⟨linkPath, [docs], thesis, linked, by decide +kernel, ?_, by decide +kernel,
    Or.inl ⟨1, [], seen⟩⟩
  intro c led
  have here : linkedCache.resolve cacheTop = some [cacheName] := by decide +kernel
  rw [here] at led
  cases led
  decide +kernel

end PrimeMover
