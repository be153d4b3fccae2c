import PrimeMover.Tree
import PrimeMover.Cache
import PrimeMover.Driver

/-! What wiping the cache removes, on trees of plain directories and regular files. The
directory wiped is `dirname` of the option, which is the directory the option names
only when the option ends in a slash. -/
namespace PrimeMover
open PosixTree Outcome

def entryStat : Entry → Stat
  | .file mtime _ => ⟨.regular, mtime⟩
  | .dir => ⟨.directory, 0⟩

/-- A system whose files are a tree; the calls that wiping does not make are arbitrary. -/
def treeHost (other : Host Tree) : Host Tree :=
  { other with
    stat := fun t f => (t.stat f).map entryStat
    files := Tree.list
    mkdir := Tree.mkdir
    unlink := Tree.unlink
    rmdir := Tree.rmdir
    readFile := Tree.read }

/-- pm run with `-c dir` on a tree. -/
def onTree (cfg : Settings Tree) (dir : LuaString) : Settings Tree :=
  { cfg with host := treeHost cfg.host, intermediateCacheDir := dir }

/-- The entries strictly below the directory that a path names. -/
def Inside (t : Tree) (path : LuaString) (l : Location) : Prop :=
  ∃ x, t.resolve path = some x ∧ x <:+ l ∧ l ≠ x

/-- The set-up of the cache, with or without `-p`, removes nothing but entries inside
the directory given. -/
def WipesInside (dir : LuaString) : Prop :=
  ∀ (cfg : Settings Tree) (purge : Bool) (t : Tree) (sandbox : Obj) (objects : Nat)
    (l : Location) (e : Entry), t.entry l = some e → ¬ Inside t dir l →
    (final (setupCache (onTree cfg dir) purge (start t sandbox objects))).sys.world.entry l = some e

/-- The option ends in a slash, `.` or `..`, or is a slash and one name. -/
def NamesItsDirname (dir : LuaString) : Prop :=
  dir = ".".toList ∨ dir = "..".toList ∨
    (∃ a b, dir = a ++ '/' :: b ∧ (b = [] ∨ b = ".".toList ∨ b = "..".toList)) ∨
    ∃ b, dir = '/' :: b ∧ '/' ∉ b

theorem mem_list {t : Tree} {path i : LuaString} {names : List LuaString}
    (listed : t.list path = some names) (member : i ∈ names) (self : i ≠ ".".toList)
    (parent : i ≠ "..".toList) : ∃ n : Name, i = n.text := by
  unfold Tree.list at listed
  split at listed
  · cases listed
  · split at listed
    · cases listed
      rcases List.mem_cons.mp member with rfl | member
      · exact absurd rfl self
      rcases List.mem_cons.mp member with rfl | member
      · exact absurd rfl parent
      obtain ⟨n, _, same⟩ := List.mem_map.mp member
      exact ⟨n, same.symm⟩
    · cases listed

theorem create_within (cfg : Settings Tree) (dir : LuaString) (s : Sys Tree)
    (absent : s.world.list (dirname dir) = none) :
    s.world.Within (final (createIntermediateCache (onTree cfg dir) s)).world := by
  have mkdir : ∀ (u : Sys Tree) (w : Tree) (f : LuaString),
      (onTree cfg dir).host.mkdir u.world f = some w → s.world.Within u.world →
      s.world.Within w := by
    intro u w f hw within
    have more := Tree.mkdir_within (show u.world.mkdir f = some w from hw)
    exact ⟨more.1.trans within.1, fun l e he => more.2 l e (within.2 l e he)⟩
  have keeps : Ensures (fun u => u = s) (createIntermediateCache (onTree cfg dir))
      (fun _ u => s.world.Within u.world) (fun _ u => s.world.Within u.world) := by
    apply Ensures.get_bind
    split
    · refine (Keeps.bind (mkcontainerdir_keeps _ (fun u => s.world.Within u.world) mkdir _ _)
        fun _ => Keeps.get_bind ?_).from ⟨rfl, fun _ _ he => he⟩
      intro u hu
      split
      · exact (Keeps.throw _).from hu
      · rename_i w hw
        apply Ensures.modify
        rintro _ rfl
        exact mkdir _ w _ hw hu
    · rename_i listed
      cases absent.symm.trans listed
  exact keeps.final rfl

theorem create_below (cfg : Settings Tree) (dir : LuaString) (s : Sys Tree) (x : Location)
    (led : s.world.resolve (dirname dir) = some x) (names : List LuaString)
    (listed : s.world.list (dirname dir) = some names) (l : Location) (e : Entry)
    (there : s.world.entry l = some e) (outside : ¬ (x <:+ l ∧ l ≠ x)) :
    (final (createIntermediateCache (onTree cfg dir) s)).world.entry l = some e := by
  have lex := Tree.resolve_lexical led
  have nonempty : dirname dir ≠ [] := by
    intro empty
    rw [empty] at led
    cases led
  have keeps := rmdir_keeps (onTree cfg dir).host
    (fun u => u.world.cwd = s.world.cwd ∧
      ∀ l e, s.world.entry l = some e → ¬ (x <:+ l ∧ l ≠ x) → u.world.entry l = some e)
    (fun f => f ≠ [] ∧ x <:+ lexical s.world.cwd f)
    (fun f => x <:+ lexical s.world.cwd f ∧ lexical s.world.cwd f ≠ x)
    (by
      intro u root i names _ below hnames hi self parent
      obtain ⟨n, rfl⟩ := mem_list hnames hi self parent
      have path : root ++ "/".toList ++ n.text = root ++ '/' :: n.text := by simp
      rw [path, lexical_child _ root n below.1]
      refine ⟨⟨by simp, below.2.trans (List.suffix_cons n _)⟩,
        below.2.trans (List.suffix_cons n _), ?_⟩
      intro same
      have := below.2.length_le
      rw [← same, List.length_cons] at this
      omega)
    (by
      rintro u w f ⟨home, kept⟩ inner removed
      have frame : w.cwd = u.world.cwd ∧
          ∀ l, w.entry l = if l = lexical u.world.cwd f then none else u.world.entry l := by
        rcases removed with removed | removed
        · exact Tree.unlink_frame removed
        · exact Tree.rmdir_frame removed
      refine ⟨frame.1.trans home, fun l e he out => ?_⟩
      rw [frame.2, if_neg]
      · exact kept l e he out
      · rintro rfl
        rw [home] at out
        exact out inner)
    cfg.fuel (dirname dir) ⟨nonempty, by rw [← lex]⟩
  have whole : Ensures (fun u => u = s) (createIntermediateCache (onTree cfg dir))
      (fun _ u => u.world.entry l = some e) (fun _ u => u.world.entry l = some e) := by
    apply Ensures.get_bind
    split
    · rename_i absent
      cases absent.symm.trans listed
    · exact (keeps.from ⟨rfl, fun _ _ he _ => he⟩).weaken (fun _ h => h)
        (fun _ _ h => h.2 l e there outside) (fun _ _ h => h.2 l e there outside)
  exact whole.final rfl

theorem lift_world {W A : Type} (x : SysM W A) (st : State W) :
    (final (lift x st)).sys = final (x st.sys) := by
  unfold lift
  cases x st.sys <;> rfl

/-- The set-up either leaves the files alone or creates the cache. -/
theorem setup_world {W : Type} (cfg : Settings W) (purge : Bool) (st : State W) :
    (final (setupCache cfg purge st)).sys = st.sys ∨
      (final (setupCache cfg purge st)).sys = final (createIntermediateCache cfg st.sys) := by
  cases purge with
  | true => exact Or.inr (lift_world _ st)
  | false =>
    change (final (loadIntermediateCache cfg st)).sys = st.sys ∨
      (final (loadIntermediateCache cfg st)).sys = final (createIntermediateCache cfg st.sys)
    simp only [loadIntermediateCache, bind_run, get_run]
    cases cfg.host.readFile st.sys.world (indexFile cfg) with
    | none => exact Or.inr (lift_world _ st)
    | some text => exact Or.inl rfl

theorem wipesInside_of_resolve (dir : LuaString)
    (below : ∀ (t : Tree) (x : Location), t.resolve (dirname dir) = some x →
      t.entry x = some .dir → ∃ y, t.resolve dir = some y ∧ y <:+ x) : WipesInside dir := by
  intro cfg purge t sandbox objects l e there outside
  rcases setup_world (onTree cfg dir) purge (start t sandbox objects) with same | same
  · rw [same]
    exact there
  rw [same]
  cases listed : t.list (dirname dir) with
  | none => exact (create_within cfg dir _ listed).2 l e there
  | some names =>
    have found := listed
    unfold Tree.list at found
    split at found
    · cases found
    rename_i x led
    split at found
    · rename_i isDir
      apply create_below cfg dir _ x led names listed l e there
      rintro ⟨under, strict⟩
      obtain ⟨y, named, above⟩ := below t x led isDir
      refine outside ⟨y, named, above.trans under, ?_⟩
      rintro rfl
      exact strict (under.eq_of_length (Nat.le_antisymm under.length_le above.length_le)).symm
    · cases found

theorem step_dots (t : Tree) (l : Location) (b : LuaString) (isDir : t.entry l = some .dir)
    (dots : b = [] ∨ b = ".".toList ∨ b = "..".toList) :
    ∃ y, t.step l b = some y ∧ y <:+ l := by
  have plain : t.isFile l = false := by rw [Tree.isFile, isDir]
  unfold Tree.step
  rw [plain]
  rcases dots with rfl | rfl | rfl
  · exact ⟨l, rfl, List.suffix_refl l⟩
  · exact ⟨l, rfl, List.suffix_refl l⟩
  · exact ⟨l.tail, rfl, List.tail_suffix l⟩

theorem walk_dots {b : LuaString} (t : Tree) (l : Location)
    (dots : b = [] ∨ b = ".".toList ∨ b = "..".toList) :
    t.walk l (b.splitOn '/') = t.step l b := by
  have alone : b.splitOn '/' = [b] := by rcases dots with rfl | rfl | rfl <;> rfl
  rw [alone]
  exact Option.bind_fun_some _

theorem wipesInside_of_names (dir : LuaString) (names : NamesItsDirname dir) :
    WipesInside dir := by
  apply wipesInside_of_resolve
  intro t x led isDir
  rcases names with rfl | rfl | ⟨a, b, rfl, dots⟩ | ⟨b, rfl, clean⟩
  · exact ⟨x, led, List.suffix_refl x⟩
  · have self : t.resolve ".".toList = t.step t.cwd ".".toList := walk_dots t t.cwd (by simp)
    have parent : t.resolve "..".toList = t.step t.cwd "..".toList := walk_dots t t.cwd (by simp)
    rw [show dirname "..".toList = ".".toList from dirname_plain _ (by decide), self] at led
    cases Tree.step_up led
    rw [parent]
    exact step_dots t t.cwd _ isDir (by simp)
  · have clean : '/' ∉ b := by rcases dots with rfl | rfl | rfl <;> decide
    rw [dirname_append a b clean] at led
    rw [Tree.resolve_slash led, walk_dots t x dots]
    exact step_dots t x b isDir dots
  · rw [show '/' :: b = [] ++ '/' :: b from rfl, dirname_append [] b clean] at led
    cases led

theorem gone_keeps (other : Host Tree) (l : Location) (fuel : Nat) (root i : LuaString) :
    Keeps (fun u : Sys Tree => u.world.entry l = none)
      (wipeEntry (treeHost other) (rmdir (treeHost other) fuel) root i) := by
  have removed : ∀ (u : Sys Tree) (w : Tree) (f : LuaString), u.world.entry l = none →
      (u.world.unlink f = some w ∨ u.world.rmdir f = some w) → w.entry l = none := by
    intro u w f gone removed
    have frame : ∀ l, w.entry l = if l = lexical u.world.cwd f then none else u.world.entry l := by
      rcases removed with removed | removed
      · exact (Tree.unlink_frame removed).2
      · exact (Tree.rmdir_frame removed).2
    rw [frame, gone, ite_self]
  apply wipeEntry_keeps
  · intro _ _
    exact rmdir_keeps _ _ (fun _ => True) (fun _ => True)
      (fun _ _ _ _ _ _ _ _ _ _ => ⟨trivial, trivial⟩)
      (fun u w f gone _ h => removed u w f gone h) fuel _ trivial
  · intro u w gone _ _ h
    exact removed u w _ gone h

theorem rmdir_first (other : Host Tree) (s : Sys Tree) (root : LuaString) (l : Location)
    (n : Name) (rest : List Name) (led : s.world.resolve root = some l)
    (isDir : s.world.entry l = some .dir) (file : s.world.entry (n :: l) = some (.file 0 []))
    (first : s.world.children l = n :: rest) (fuel : Nat) :
    (final (rmdir (treeHost other) (fuel + 1) root s)).world.entry (n :: l) = none := by
  have listed : s.world.list root =
      some (".".toList :: "..".toList :: n.text :: rest.map Name.text) := by
    simp [Tree.list, led, isDir, first]
  have path : root ++ "/".toList ++ n.text = root ++ '/' :: n.text := by simp
  have found : s.world.resolve (root ++ "/".toList ++ n.text) = some (n :: l) := by
    rw [path]
    exact Tree.resolve_child n led isDir (by simp [file])
  obtain ⟨w, unlinked, gone⟩ := Tree.unlink_file found (by rw [Tree.isFile, file])
  have skip : ∀ i, i = ".".toList ∨ i = "..".toList →
      wipeEntry (treeHost other) (rmdir (treeHost other) fuel) root i = pure () := by
    intro i dots
    rw [wipeEntry, if_neg]
    rintro ⟨self, parent⟩
    exact dots.elim self parent
  have wiped : Ensures (fun u => u = s)
      (wipeEntry (treeHost other) (rmdir (treeHost other) fuel) root n.text)
      (fun _ u => u.world.entry (n :: l) = none) (fun _ u => u.world.entry (n :: l) = none) := by
    rw [wipeEntry, if_pos ⟨n.notSelf, n.notParent⟩]
    apply Ensures.get_bind
    have type : ((treeHost other).stat s.world (root ++ "/".toList ++ n.text)).map Stat.type =
        some .regular := by
      simp only [treeHost, Tree.stat, found, Option.bind_some, file]
      rfl
    simp only [type]
    apply Ensures.get_bind
    simp only [show (treeHost other).unlink s.world (root ++ "/".toList ++ n.text) = some w
      from unlinked]
    apply Ensures.modify
    rintro _ rfl
    exact gone
  have whole : Ensures (fun u => u = s) (rmdir (treeHost other) (fuel + 1) root)
      (fun _ u => u.world.entry (n :: l) = none) (fun _ u => u.world.entry (n :: l) = none) := by
    apply Ensures.get_bind
    simp only [show (treeHost other).files s.world root =
      some (".".toList :: "..".toList :: n.text :: rest.map Name.text) from listed]
    simp only [List.forM_eq_forM, List.forM_cons, skip _ (Or.inl rfl), skip _ (Or.inr rfl),
      pure_bind]
    exact wiped.bind fun _ => Keeps.forM _ fun i _ => gone_keeps other (n :: l) fuel root i
  exact whole.final rfl

/-- Settings for a tree, with one level of wiping and no other system. -/
def treeSettings : Settings Tree where
  host :=
    { time _ := 0, stat _ _ := none, readlink _ _ := none, getcwd _ := [], files _ _ := none
      mkdir _ _ := none, unlink _ _ := none, rmdir _ _ := none, symlink _ _ _ := none
      symlinkError _ _ _ := [], unlinkError _ _ := []
      execute t _ := (0, t), readFile _ _ := none, writeFile _ _ _ := none
      pairs _ entries := entries }
  intermediateCacheDir := []
  noExecute := false
  quiet := true
  stringmodifier _ := none
  evaluate _ _ := .ok none
  functions _ _ _ _ t := (.ok none, t)
  fuel := 1

/-- When the option is not its own `dirname`, a file next to it is wiped. -/
theorem not_wipesInside (dir : LuaString) (nonempty : dirname dir ≠ [])
    (deeper : ∀ cwd, dir = [] ∨ ∃ n : Name, lexical cwd dir = n :: lexical cwd (dirname dir)) :
    ¬ WipesInside dir := by
  intro inside
  obtain ⟨t, l, n, rest, led, isDir, file, first⟩ := Tree.exists_file_at (dirname dir) nonempty
  have outside : ¬ Inside t dir (n :: l) := by
    rintro ⟨y, named, above, strict⟩
    rcases deeper t.cwd with rfl | ⟨m, deeper⟩
    · cases named
    · rw [← Tree.resolve_lexical led, ← Tree.resolve_lexical named] at deeper
      exact strict (above.eq_of_length (by simp [deeper])).symm
  have kept := inside treeSettings true t sandboxVariables 0 (n :: l) _ file outside
  have run : createIntermediateCache (onTree treeSettings dir)
      (start t sandboxVariables 0).sys = rmdir (treeHost treeSettings.host) 1 (dirname dir)
        (start t sandboxVariables 0).sys := by
    simp only [createIntermediateCache, bind_run, get_run]
    have listed : (onTree treeSettings dir).host.files (start t sandboxVariables 0).sys.world
        (dirname (onTree treeSettings dir).intermediateCacheDir) =
          some (".".toList :: "..".toList :: (n :: rest).map Name.text) := by
      change t.list (dirname dir) = _
      simp [Tree.list, led, isDir, first]
    simp only [listed]
    rfl
  have gone := rmdir_first treeSettings.host (start t sandboxVariables 0).sys (dirname dir) l n
    rest led isDir file first 0
  rw [show setupCache (onTree treeSettings dir) true = lift (createIntermediateCache
    (onTree treeSettings dir)) from rfl, lift_world, run, gone] at kept
  cases kept

theorem last_slash (dir : LuaString) :
    '/' ∉ dir ∨ ∃ a b, dir = a ++ '/' :: b ∧ '/' ∉ b := by
  by_cases slash : '/' ∈ dir
  · exact Or.inr (last_split slash)
  · exact Or.inl slash

/-- For every option: wiping stays inside the directory it names exactly when it ends in
a slash, `.` or `..`, or is a slash and one name. -/
theorem cachedir_wipe (dir : LuaString) : WipesInside dir ↔ NamesItsDirname dir := by
  constructor
  · intro inside
    by_contra other
    simp only [NamesItsDirname, not_or] at other
    obtain ⟨self, parent, slash, top⟩ := other
    rcases last_slash dir with clean | ⟨a, b, rfl, clean⟩
    · refine not_wipesInside dir (by rw [dirname_plain dir clean]; simp) (fun cwd => ?_) inside
      by_cases empty : dir = []
      · exact Or.inl empty
      · let n : Name := ⟨dir, empty, clean, self, parent⟩
        refine Or.inr ⟨n, ?_⟩
        rw [dirname_plain dir clean]
        exact lexical_name cwd n
    · have named : ¬ (b = [] ∨ b = ".".toList ∨ b = "..".toList) :=
        fun dots => slash ⟨a, b, rfl, dots⟩
      simp only [not_or] at named
      have nonempty : a ≠ [] := by
        rintro rfl
        exact top ⟨b, rfl, clean⟩
      let n : Name := ⟨b, named.1, clean, named.2.1, named.2.2⟩
      refine not_wipesInside _ (by rw [dirname_append a b clean]; exact nonempty) (fun cwd => ?_)
        inside
      rw [dirname_append a b clean]
      exact Or.inr ⟨n, lexical_child cwd a n nonempty⟩
  · exact wipesInside_of_names dir

def notes : Name := ⟨"notes".toList, by decide, by decide, by decide, by decide⟩

/-- A working directory with one file. -/
def workTree : Tree := Tree.bare.add notes [] (.file 0 []) rfl rfl

theorem cachedir_without_slash : ¬ WipesInside "cache".toList := by
  intro inside
  have kept := inside treeSettings true workTree sandboxVariables 0 [notes] (.file 0 []) rfl (by
    rintro ⟨y, named, _⟩
    have absent : workTree.resolve "cache".toList = none := by decide
    cases absent.symm.trans named)
  have gone : (final (setupCache (onTree treeSettings "cache".toList) true
      (start workTree sandboxVariables 0))).sys.world.entry [notes] = none := by decide +kernel
  cases gone.symm.trans kept

end PrimeMover
