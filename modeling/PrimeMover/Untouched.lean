import PrimeMover.Dry
import PrimeMover.Escape

/-! What a run that is told not to execute anything leaves alone, on a file system with
links: everything that is outside of the cache, but for directories that are made. -/
namespace PrimeMover
open PosixTree Outcome

/-- A system whose files are a tree with links. What is no operation on files is arbitrary. -/
def diskHost (other : Host Linked) (reads : ReadOrder) : Host Linked :=
  linkHost { other with
    symlink := Linked.symlink
    readFile := Linked.read
    writeFile := fun t path text => t.write path (other.time t) text } reads

def onDisk (cfg : Settings Linked) (reads : ReadOrder) : Settings Linked :=
  { cfg with host := diskHost cfg.host reads }

/-- The directory of the cache, in which the index lies. -/
def cacheDirectory (cfg : Settings Linked) : LuaString := dirname cfg.intermediateCacheDir

/-- The place of the index, whether there is one or not. -/
def IndexAt (cfg : Settings Linked) (t : Linked) (n : Name) (x : Location) : Prop :=
  t.named (indexFile cfg) ((indexFile cfg).splitOn '/') = some (n, x)

/-- A place that is not in the cache of a run from `t` to `u`: neither the cache directory, before
or after the run, nor below it, nor the index. -/
structure Elsewhere (cfg : Settings Linked) (t u : Linked) (l : Location) : Prop where
  before : OutsideCache t (cacheDirectory cfg) l
  after : OutsideCache u (cacheDirectory cfg) l
  index : ∀ n x, IndexAt cfg u n x → l ≠ n :: x

/-- The index is no link to another file. -/
def OwnIndex (cfg : Settings Linked) (t : Linked) : Prop :=
  ∀ n x target, IndexAt cfg t n x → t.entry (n :: x) ≠ some (.link target)

section SetUp

/-- The world with which the nodes of a run begin: the index was read, or the cache was wiped or
made. -/
inductive Ready (cfg : Settings Linked) (t u : Linked) : Prop where
  | loaded (same : u = t) (readable : (t.read (indexFile cfg)).isSome)
  | wiped (c : Location) (led : t.resolve (cacheDirectory cfg) = some c)
      (isDir : t.entry c = some .dir) (spared : Spared t (cacheDirectory cfg) u)
  | made (n : Name) (x : Location)
      (named : t.named (cacheDirectory cfg) (Linked.trimmed (cacheDirectory cfg)) = some (n, x))
      (made : Linked.Made t u n x)

/-- Outside of the cache a set-up changes nothing. -/
theorem Spared.elsewhere {t u : Linked} {top : LuaString} (spared : Spared t top u) {l : Location}
    (outside : OutsideCache t top l) : u.entry l = t.entry l := by
  cases l with
  | nil => exact u.root.trans t.root.symm
  | cons n x =>
    cases there : t.entry (n :: x) with
    | some e =>
      exact spared.outside n x e there fun c led above =>
        outside c led (above.trans (List.suffix_cons n x))
    | none =>
      cases left : u.entry (n :: x) with
      | none => rfl
      | some e =>
        rw [spared.under.entries _ e left] at there
        cases there

theorem Ready.elsewhere {cfg : Settings Linked} {t u v : Linked} (ready : Ready cfg t u)
    (grown : u.Grown v) {l : Location} (outside : Elsewhere cfg t v l) : u.entry l = t.entry l := by
  cases ready with
  | loaded same => rw [same]
  | wiped c led isDir spared => exact spared.elsewhere outside.before
  | made n x named made =>
    rw [made.entries, if_neg]
    rintro rfl
    have led := Linked.resolve_named (made.grown.named named) (by rw [made.entries, if_pos rfl])
    exact outside.after _ (grown.resolve led) (List.suffix_refl _)

/-- No link is new after the set-up. -/
theorem Ready.links {cfg : Settings Linked} {t u : Linked} (ready : Ready cfg t u) {l : Location}
    {target : LuaString} (link : u.entry l = some (.link target)) :
    t.entry l = some (.link target) := by
  cases ready with
  | loaded same => rwa [← same]
  | wiped c led isDir spared => exact spared.under.entries _ _ link
  | made n x named made =>
    rw [made.entries] at link
    split at link
    · cases link
    · exact link

end SetUp

section Index

/-- The index lies in the working directory, or in the cache directory if that has a name. -/
theorem index_parts {cfg : Settings Linked} {before : List LuaString} {n : Name}
    (parts : (indexFile cfg).splitOn '/' = before ++ [n.text]) :
    before = [] ∨ cacheDirectory cfg = [] ∨
      before = (cacheDirectory cfg).splitOn '/' ∧ cacheDirectory cfg ≠ [] ∧
        ∀ cwd, origin cwd (indexFile cfg) = origin cwd (cacheDirectory cfg) := by
  by_cases slash : '/' ∈ cfg.intermediateCacheDir
  · obtain ⟨a, b, split, clean⟩ := last_split slash
    have top : cacheDirectory cfg = a := by rw [cacheDirectory, split, dirname_append a b clean]
    have file : indexFile cfg = a ++ '/' :: (b ++ "index".toList) := by
      rw [indexFile, split]
      simp
    have clean' : '/' ∉ b ++ "index".toList := by
      rw [List.mem_append, not_or]
      exact ⟨clean, by decide⟩
    rw [file, List.splitOn_append_cons_self, List.splitOn_eq_singleton clean'] at parts
    have same := (List.append_inj' parts rfl).1
    rw [top]
    by_cases empty : a = []
    · exact Or.inr (Or.inl empty)
    · refine Or.inr (Or.inr ⟨same.symm, empty, fun cwd => ?_⟩)
      rw [file, origin_append cwd a _ empty]
  · have clean : '/' ∉ indexFile cfg := by
      rw [indexFile, List.mem_append, not_or]
      exact ⟨slash, by decide⟩
    rw [List.splitOn_eq_singleton clean] at parts
    have same : ([] : List LuaString) ++ [indexFile cfg] = before ++ [n.text] := parts
    exact Or.inl (List.append_inj' same rfl).1.symm

/-- What the nodes of a run have done to the files since `u`: the index was written, and
directories with `P` were made. -/
structure Tended (cfg : Settings Linked) (P : LuaString → Prop) (u v : Linked) : Prop where
  grown : u.Grown v
  links : ∀ l target, v.entry l = some (.link target) → u.entry l = some (.link target)
  others : ∀ l, (∀ n x, IndexAt cfg v n x → l ≠ n :: x) → v.entry l = u.entry l ∨
    u.entry l = none ∧ v.entry l = some .dir ∧ ∃ d, P d ∧ v.resolve d = some l

theorem Tended.start (cfg : Settings Linked) (P : LuaString → Prop) (u : Linked) :
    Tended cfg P u u :=
  ⟨.refl u, fun _ _ link => link, fun _ _ => Or.inl rfl⟩

variable {cfg : Settings Linked} {P : LuaString → Prop} {t u v : Linked}

theorem Ready.cwd (ready : Ready cfg t u) : u.cwd = t.cwd ∧ u.allowed = t.allowed := by
  cases ready with
  | loaded same => exact ⟨by rw [same], by rw [same]⟩
  | wiped c led isDir spared => exact ⟨spared.under.cwd, spared.under.allowed⟩
  | made n x named made => exact ⟨made.cwd, made.allowed⟩

theorem resolve_of_read {path : LuaString} (readable : (t.read path).isSome) :
    ∃ l, t.resolve path = some l := by
  unfold Linked.read Linked.stat at readable
  cases led : t.resolve path with
  | none =>
    rw [led] at readable
    cases readable
  | some l => exact ⟨l, rfl⟩

/-- A path that led to a directory before the cache was wiped leads nowhere else. -/
theorem Tended.still (tended : Tended cfg P u v) {top : LuaString} (spared : Spared t top u)
    {l c d : Location} {cs : List LuaString} (first : t.walk t.allowed l cs = some c)
    (isDir : t.entry c = some .dir) (second : v.walk t.allowed l cs = some d) : d = c :=
  Linked.walk_same (fun l g link => spared.under.entries _ _ (tended.links l g link))
    (fun l n g links k link walked dir => by
      have left := spared.links n l g ⟨link, links, k, walked, dir⟩
      obtain ⟨e, there, alike⟩ := tended.grown.entries _ _ left
      cases alike
      exact there) first isDir second

/-- The index is written where it was before, if it was, and not through a link. -/
theorem Ready.ownIndex (ready : Ready cfg t u) (own : OwnIndex cfg t) (tended : Tended cfg P u v)
    {n : Name} {x : Location} (index : IndexAt cfg v n x) (target : LuaString) :
    v.entry (n :: x) ≠ some (.link target) := by
  intro link
  have link' := ready.links (tended.links _ _ link)
  refine own n x target ?_ link'
  obtain ⟨before, parts, way⟩ := Linked.named_iff.mp index
  refine Linked.named_iff.mpr ⟨before, parts, ?_⟩
  rw [tended.grown.cwd, tended.grown.allowed, ready.cwd.1, ready.cwd.2] at way
  have here : before = [] → t.walk t.allowed (origin t.cwd (indexFile cfg)) before = some x := by
    rintro rfl
    rw [Linked.walk_nil] at way ⊢
    exact way
  cases ready with
  | loaded same readable =>
    subst same
    obtain ⟨l, led⟩ := resolve_of_read readable
    unfold Linked.resolve at led
    split at led
    · cases led
    rw [parts] at led
    obtain ⟨k, first, _⟩ := Linked.walk_append led
    have later := Linked.walk_alike tended.grown.entries le_rfl first
    rw [way] at later
    rwa [later]
  | wiped c led isDir spared =>
    rcases index_parts parts with empty | unnamed | ⟨rfl, some, same⟩
    · exact here empty
    · rw [unnamed] at led
      cases led
    · rw [same] at way ⊢
      rw [Linked.resolve, if_neg some] at led
      rwa [tended.still spared led isDir way]
  | made m y named made =>
    rcases index_parts parts with empty | unnamed | ⟨rfl, some, same⟩
    · exact here empty
    · rw [unnamed] at named
      cases named
    · have led := tended.grown.resolve (Linked.resolve_named (made.grown.named named)
        (by rw [made.entries, if_pos rfl]))
      rw [Linked.resolve, if_neg some, tended.grown.cwd, tended.grown.allowed, made.cwd,
        made.allowed, ← same, way] at led
      cases led
      have parent := Linked.parent_isDir link'
      rw [made.fresh] at parent
      cases parent

/-- Saving the index and making a directory for outputs. -/
theorem Tended.step {reads : ReadOrder} {w : Linked} (ready : Ready cfg t u) (own : OwnIndex cfg t)
    (tended : Tended cfg P u v) (call : Housekeeping (onDisk cfg reads) P v w) :
    Tended cfg P u w := by
  cases call with
  | index text saved =>
    obtain ⟨n, x, index, writes⟩ := Linked.write_named saved
    have written := writes (ready.ownIndex own tended index)
    refine ⟨tended.grown.trans written.grown, fun l target link => ?_, fun l other => ?_⟩
    · by_cases same : l = n :: x
      · subst same
        exact absurd link (written.plain target)
      · rw [written.others l same] at link
        exact tended.links l target link
    · have apart : l ≠ n :: x := other n x (written.grown.named index)
      rw [written.others l apart]
      rcases tended.others l fun m y here => other m y (written.grown.named here)
        with same | ⟨none, dir, d, holds, led⟩
      · exact Or.inl same
      · exact Or.inr ⟨none, dir, d, holds, written.grown.resolve led⟩
  | container d holds made =>
    obtain ⟨n, x, named, made⟩ := Linked.mkdir_made made
    refine ⟨tended.grown.trans made.grown, fun l target link => ?_, fun l other => ?_⟩
    · rw [made.entries] at link
      split at link
      · cases link
      · exact tended.links l target link
    · rcases tended.others l fun m y here => other m y (made.grown.named here)
        with same | ⟨none, dir, d', holds', led⟩
      · by_cases place : l = n :: x
        · subst place
          have isDir : w.entry (n :: x) = some .dir := by rw [made.entries, if_pos rfl]
          refine Or.inr ⟨by rw [← same, made.fresh], isDir, d, holds, ?_⟩
          exact Linked.resolve_named (made.grown.named named) isDir
        · exact Or.inl (by rw [made.entries, if_neg place, same])
      · have still : w.entry l = some .dir := by
          rw [made.entries]
          split
          · rfl
          · exact dir
        exact Or.inr ⟨none, still, d', holds', made.grown.resolve led⟩

theorem Tended.run {reads : ReadOrder} (ready : Ready cfg t u) (own : OwnIndex cfg t)
    (calls : Relation.ReflTransGen (Housekeeping (onDisk cfg reads) P) u v) : Tended cfg P u v := by
  induction calls with
  | refl => exact .start cfg P u
  | tail _ call tended => exact tended.step ready own call

end Index

section Examples

theorem Wiped.there {t : Linked} {top p : LuaString} (wiped : Wiped t top p) :
    t.stat top = some .dir := by
  induction wiped with
  | top isDir => exact isDir
  | entry p x n _ _ _ _ there => exact there

/-- A program that is compiled, installed, and checked by a function of the pmfile. -/
def tool : Node :=
  .object ⟨⟨1, [("outputs".toList, strings ["build/tool".toList]),
    ("command".toList, strings ["cc".toList]),
    ("install".toList, .list [.str "cp".toList, .func 0])]⟩, .simple⟩ [] none

end Examples

end PrimeMover
