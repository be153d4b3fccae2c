import PrimeMover.Tree

/-! A file system with symbolic links. A path is resolved by following the links it
meets, as many as the system allows; what an operation removes is the entry the path
names, whatever that entry links to. -/
namespace PosixTree
open AssocTable

inductive Object where
  | file (mtime : Nat) (contents : List Char)
  | other
  | dir
  | link (target : List Char)
  deriving DecidableEq

/-- Every object but the root stands in a directory. `allowed` is the number of links
that one resolution follows. -/
structure Linked where
  cwd : Location
  allowed : Nat
  entries : List (Location × Object)
  distinct : (entries.map Prod.fst).Nodup
  root : entries.lookup [] = some .dir
  closed : ∀ n l, (entries.lookup (n :: l)).isSome → entries.lookup l = some .dir

namespace Linked

def entry (t : Linked) (l : Location) : Option Object := t.entries.lookup l

/-- The names in a directory. -/
def children (t : Linked) (l : Location) : List Name :=
  t.entries.filterMap (fun e =>
    match e.1 with
    | [] => none
    | n :: p => if p = l then some n else none)

theorem mem_children (t : Linked) (l : Location) (n : Name) :
    n ∈ t.children l ↔ (t.entry (n :: l)).isSome := by
  rw [children, List.mem_filterMap]
  constructor
  · rintro ⟨⟨p, e⟩, he, found⟩
    cases p with
    | nil => cases found
    | cons m p =>
      simp only [Option.ite_none_right_eq_some, Option.some.injEq] at found
      obtain ⟨rfl, rfl⟩ := found
      rw [entry, lookup_of_mem t.distinct he]
      rfl
  · intro found
    obtain ⟨e, he⟩ := Option.isSome_iff_exists.mp found
    exact ⟨(n :: l, e), mem_of_lookup he, by simp⟩

theorem parent_isDir {t : Linked} {n : Name} {x : Location} {e : Object}
    (there : t.entry (n :: x) = some e) : t.entry x = some .dir := by
  refine t.closed n x ?_
  change (t.entry (n :: x)).isSome
  rw [there]
  rfl

/-- An entry that no other stands in is taken out. -/
def remove (t : Linked) (l : Location) (inner : l ≠ []) (leaf : t.children l = []) : Linked where
  cwd := t.cwd
  allowed := t.allowed
  entries := dropEntry t.entries l
  distinct := nodup_dropEntry t.distinct l
  root := by simp [inner, t.root]
  closed := by
    intro n m found
    rw [lookup_dropEntry] at found ⊢
    split at found
    · cases found
    · split
      · rename_i same
        have : n ∈ t.children l := (t.mem_children l n).mpr (beq_iff_eq.mp same ▸ found)
        rw [leaf] at this
        cases this
      · exact t.closed n m found

theorem entry_remove (t : Linked) (l m : Location) (inner : l ≠ []) (leaf : t.children l = []) :
    (t.remove l inner leaf).entry m = if m = l then none else t.entry m := by
  simp [entry, remove]

/-- A regular file takes other contents. -/
def overwrite (t : Linked) (l : Location) (mtime : Nat) (text : List Char) {m : Nat} {c : List Char}
    (file : t.entry l = some (.file m c)) : Linked where
  cwd := t.cwd
  allowed := t.allowed
  entries := setEntry t.entries l (.file mtime text)
  distinct := nodup_setEntry t.distinct l _
  root := by
    have inner : l ≠ [] := by
      rintro rfl
      rw [entry, t.root] at file
      cases file
    simp [inner, t.root]
  closed := by
    intro n k found
    rw [lookup_setEntry] at found ⊢
    have parent : t.entries.lookup k = some .dir := by
      split at found
      · rename_i same
        cases beq_iff_eq.mp same
        apply t.closed n k
        change (t.entry (n :: k)).isSome
        rw [file]
        rfl
      · exact t.closed n k found
    rw [if_neg, parent]
    intro same
    rw [beq_iff_eq.mp same] at parent
    rw [entry, parent] at file
    cases file

theorem entry_overwrite (t : Linked) (l k : Location) (mtime : Nat) (text : List Char) {m : Nat}
    {c : List Char} (file : t.entry l = some (.file m c)) :
    (t.overwrite l mtime text file).entry k = if k = l then some (.file mtime text) else t.entry k := by
  simp [entry, overwrite]

/-- A new entry in a directory. -/
def add (t : Linked) (n : Name) (l : Location) (e : Object) (parent : t.entry l = some .dir)
    (fresh : t.entry (n :: l) = none) : Linked where
  cwd := t.cwd
  allowed := t.allowed
  entries := (n :: l, e) :: t.entries
  distinct := List.nodup_cons.mpr ⟨not_mem_keys t.distinct fresh, t.distinct⟩
  root := by
    rw [lookup_cons]
    exact t.root
  closed := by
    intro m k found
    rw [lookup_cons] at found ⊢
    have kept : ∀ k, t.entries.lookup k = some .dir →
        (if k == n :: l then some e else t.entries.lookup k) = some .dir := by
      intro k hk
      split
      · rename_i same
        rw [beq_iff_eq.mp same] at hk
        rw [entry, hk] at fresh
        cases fresh
      · exact hk
    apply kept
    split at found
    · rename_i same
      cases beq_iff_eq.mp same
      exact parent
    · exact t.closed m k found

theorem entry_add (t : Linked) (n : Name) (l m : Location) (e : Object)
    (parent : t.entry l = some .dir) (fresh : t.entry (n :: l) = none) :
    (t.add n l e parent fresh).entry m = if m = n :: l then some e else t.entry m := by
  simp [entry, add, lookup_cons]

/-- The components of a path from where it has led so far; `follow` goes on behind a
link. -/
def walkWith (t : Linked) (follow : Location → List (List Char) → Option Location) :
    Location → List (List Char) → Option Location
  | l, [] => some l
  | l, c :: cs =>
    if t.entry l ≠ some .dir then none
    else if c = [] ∨ c = ".".toList then walkWith t follow l cs
    else if c = "..".toList then walkWith t follow l.tail cs
    else
      match Name.ofText c with
      | none => none
      | some n =>
        match t.entry (n :: l) with
        | none => none
        | some (.link target) =>
          if target = [] then none else follow (origin l target) (target.splitOn '/' ++ cs)
        | some _ => walkWith t follow (n :: l) cs

/-- At most so many links are followed. -/
def walk (t : Linked) : Nat → Location → List (List Char) → Option Location
  | 0 => t.walkWith (fun _ _ => none)
  | links + 1 => t.walkWith (t.walk links)

def resolve (t : Linked) (path : List Char) : Option Location :=
  if path = [] then none else t.walk t.allowed (origin t.cwd path) (path.splitOn '/')

def stat (t : Linked) (path : List Char) : Option Object := (t.resolve path).bind t.entry

/-- What `readdir` gives, in an order that depends on the path. -/
def list (t : Linked) (order : List Char → List (List Char) → List (List Char))
    (path : List Char) : Option (List (List Char)) :=
  match t.resolve path with
  | none => none
  | some l =>
    if t.entry l = some .dir then
      some (order path (".".toList :: "..".toList :: (t.children l).map Name.text))
    else none

/-- The entry that a list of components names, without following it at the end. -/
def named (t : Linked) (path : List Char) (components : List (List Char)) :
    Option (Name × Location) :=
  match components.reverse with
  | [] => none
  | c :: before =>
    match Name.ofText c, t.walk t.allowed (origin t.cwd path) before.reverse with
    | some n, some l => some (n, l)
    | _, _ => none

/-- The components before slashes at the end. -/
def trimmed (path : List Char) : List (List Char) :=
  ((path.splitOn '/').reverse.dropWhile (· = [])).reverse

/-- `unlink`: everything but directories, and the link itself. -/
def unlink (t : Linked) (path : List Char) : Option Linked :=
  match t.named path (path.splitOn '/') with
  | none => none
  | some (n, l) =>
    if h : (t.entry (n :: l)).isSome ∧ t.entry (n :: l) ≠ some .dir then
      some (t.remove (n :: l) (List.cons_ne_nil n l) (by
        rw [List.eq_nil_iff_forall_not_mem]
        intro m hm
        exact h.2 (t.closed m (n :: l) ((t.mem_children _ m).mp hm))))
    else none

/-- `rmdir`: empty directories, and not through a link. -/
def rmdir (t : Linked) (path : List Char) : Option Linked :=
  match t.named path (trimmed path) with
  | none => none
  | some (n, l) =>
    if h : t.children (n :: l) = [] then
      if t.entry (n :: l) = some .dir then some (t.remove (n :: l) (List.cons_ne_nil n l) h)
      else none
    else none

def mkdir (t : Linked) (path : List Char) : Option Linked :=
  match t.named path (trimmed path) with
  | none => none
  | some (n, l) =>
    if h : t.entry l = some .dir ∧ t.entry (n :: l) = none then some (t.add n l .dir h.1 h.2)
    else none

def symlink (t : Linked) (target path : List Char) : Option Linked :=
  match t.named path (path.splitOn '/') with
  | none => none
  | some (n, l) =>
    if h : t.entry l = some .dir ∧ t.entry (n :: l) = none then
      if target = [] then none else some (t.add n l (.link target) h.1 h.2)
    else none

/-- The entry that opening a path for writing creates or opens: a link at the end of the path
is followed. -/
def landing (t : Linked) : Nat → List Char → Option (Name × Location)
  | links, path =>
    match t.named path (path.splitOn '/') with
    | none => none
    | some (n, x) =>
      match t.entry (n :: x), links with
      | some (.link target), links + 1 => landing { t with cwd := x } links target
      | some (.link _), 0 => none
      | _, _ => some (n, x)

/-- Opening for writing, and writing a text. What is no file takes it without keeping it. -/
def write (t : Linked) (path : List Char) (mtime : Nat) (text : List Char) : Option Linked :=
  match t.landing t.allowed path with
  | none => none
  | some (n, x) =>
    match there : t.entry (n :: x) with
    | some (.file _ _) => some (t.overwrite (n :: x) mtime text there)
    | some .other => some t
    | some _ => none
    | none =>
      if parent : t.entry x = some .dir then some (t.add n x (.file mtime text) parent there)
      else none

/-- Objects that are the same for a path that leads through them. -/
inductive Alike : Object → Object → Prop where
  | same (e : Object) : Alike e e
  | files (m m' : Nat) (c c' : List Char) : Alike (.file m c) (.file m' c')

theorem Alike.trans {a b c : Object} (first : Alike a b) (second : Alike b c) : Alike a c := by
  cases first with
  | same => exact second
  | files m m' c c' =>
    cases second with
    | same => exact .files m m' c c'
    | files _ m'' _ c'' => exact .files m m'' c c''

theorem walkWith_alike {u t : Linked} {f g : Location → List (List Char) → Option Location}
    (entries : ∀ l e, u.entry l = some e → ∃ e', t.entry l = some e' ∧ Alike e e')
    (more : ∀ l cs m, f l cs = some m → g l cs = some m) {l m : Location}
    {cs : List (List Char)} (h : u.walkWith f l cs = some m) : t.walkWith g l cs = some m := by
  induction cs generalizing l with
  | nil => exact h
  | cons c cs ih =>
    rw [walkWith] at h ⊢
    split at h
    · cases h
    rename_i isDir
    obtain ⟨_, isDir', alike⟩ := entries l _ (not_not.mp isDir)
    cases alike
    rw [if_neg (not_not.mpr isDir')]
    split at h
    · rename_i self
      rw [if_pos self]
      exact ih h
    rename_i self
    rw [if_neg self]
    split at h
    · rename_i parent
      rw [if_pos parent]
      exact ih h
    rename_i parent
    rw [if_neg parent]
    cases named : Name.ofText c with
    | none => simp [named] at h
    | some n =>
      cases found : u.entry (n :: l) with
      | none => simp [named, found] at h
      | some e =>
        obtain ⟨e', found', alike⟩ := entries _ _ found
        simp only [named, found, found'] at h ⊢
        cases alike with
        | files => exact ih h
        | same =>
          cases e with
          | link target =>
            simp only [Option.ite_none_left_eq_some] at h ⊢
            exact ⟨h.1, more _ _ _ h.2⟩
          | file mtime contents => exact ih h
          | other => exact ih h
          | dir => exact ih h

/-- With more entries and more links allowed, a path still leads where it led. -/
theorem walk_alike {u t : Linked}
    (entries : ∀ l e, u.entry l = some e → ∃ e', t.entry l = some e' ∧ Alike e e')
    {links more : Nat} (enough : links ≤ more) {l m : Location} {cs : List (List Char)}
    (h : u.walk links l cs = some m) : t.walk more l cs = some m := by
  induction links generalizing more l m cs with
  | zero =>
    cases more with
    | zero => exact walkWith_alike entries (fun _ _ _ h => by cases h) h
    | succ more => exact walkWith_alike entries (fun _ _ _ h => by cases h) h
  | succ links ih =>
    cases more with
    | zero => omega
    | succ more =>
      exact walkWith_alike entries (fun _ _ _ h => ih (Nat.le_of_succ_le_succ enough) h) h

theorem walk_mono {u t : Linked} (entries : ∀ l e, u.entry l = some e → t.entry l = some e)
    {links more : Nat} (enough : links ≤ more) {l m : Location} {cs : List (List Char)}
    (h : u.walk links l cs = some m) : t.walk more l cs = some m :=
  walk_alike (fun l e he => ⟨e, entries l e he, .same e⟩) enough h

theorem walkWith_append {t : Linked} {f g : Location → List (List Char) → Option Location}
    {ds : List (List Char)} {m : Location}
    (behind : ∀ l cs, f l (cs ++ ds) = some m → ∃ k, f l cs = some k ∧ g k ds = some m)
    (last : ∀ l, t.walkWith f l ds = some m → g l ds = some m) {l : Location}
    {cs : List (List Char)} (h : t.walkWith f l (cs ++ ds) = some m) :
    ∃ k, t.walkWith f l cs = some k ∧ g k ds = some m := by
  induction cs generalizing l with
  | nil => exact ⟨l, rfl, last l h⟩
  | cons c cs ih =>
    rw [List.cons_append, walkWith] at h
    rw [walkWith]
    split at h
    · cases h
    rename_i isDir
    rw [if_neg isDir]
    split at h
    · rename_i self
      rw [if_pos self]
      exact ih h
    rename_i self
    rw [if_neg self]
    split at h
    · rename_i parent
      rw [if_pos parent]
      exact ih h
    rename_i parent
    rw [if_neg parent]
    cases named : Name.ofText c with
    | none => simp [named] at h
    | some n =>
      cases found : t.entry (n :: l) with
      | none => simp [named, found] at h
      | some e =>
        simp only [named, found] at h ⊢
        cases e with
        | link target =>
          simp only [Option.ite_none_left_eq_some] at h ⊢
          obtain ⟨nonempty, h⟩ := h
          rw [← List.append_assoc] at h
          obtain ⟨k, first, rest⟩ := behind _ _ h
          exact ⟨k, ⟨nonempty, first⟩, rest⟩
        | file mtime contents => exact ih h
        | other => exact ih h
        | dir => exact ih h

/-- A path that leads somewhere leads to the directory of its last part first. -/
theorem walk_append {t : Linked} {links : Nat} {l m : Location} {cs ds : List (List Char)}
    (h : t.walk links l (cs ++ ds) = some m) :
    ∃ k, t.walk links l cs = some k ∧ t.walk links k ds = some m := by
  induction links generalizing l cs with
  | zero => exact walkWith_append (fun _ _ h => by cases h) (fun _ h => h) h
  | succ links ih =>
    apply walkWith_append (f := t.walk links) (g := t.walk (links + 1)) ?_ (fun _ h => h) h
    intro l cs h
    obtain ⟨k, first, rest⟩ := ih h
    exact ⟨k, first, walk_mono (fun _ _ h => h) (Nat.le_succ links) rest⟩

theorem walkWith_extend {t : Linked} {f : Location → List (List Char) → Option Location}
    {ds : List (List Char)} {x m : Location}
    (behind : ∀ l cs, f l cs = some x → f l (cs ++ ds) = some m)
    (last : t.walkWith f x ds = some m) {l : Location} {cs : List (List Char)}
    (h : t.walkWith f l cs = some x) : t.walkWith f l (cs ++ ds) = some m := by
  induction cs generalizing l with
  | nil =>
    cases h
    exact last
  | cons c cs ih =>
    rw [walkWith] at h
    rw [List.cons_append, walkWith]
    split at h
    · cases h
    rename_i isDir
    rw [if_neg isDir]
    split at h
    · rename_i self
      rw [if_pos self]
      exact ih h
    rename_i self
    rw [if_neg self]
    split at h
    · rename_i parent
      rw [if_pos parent]
      exact ih h
    rename_i parent
    rw [if_neg parent]
    cases named : Name.ofText c with
    | none => simp [named] at h
    | some n =>
      cases found : t.entry (n :: l) with
      | none => simp [named, found] at h
      | some e =>
        simp only [named, found] at h ⊢
        cases e with
        | link target =>
          simp only [Option.ite_none_left_eq_some] at h ⊢
          rw [← List.append_assoc]
          exact ⟨h.1, behind _ _ h.2⟩
        | file mtime contents => exact ih h
        | other => exact ih h
        | dir => exact ih h

/-- Components that meet no link need none to be allowed. -/
theorem walk_extend {t : Linked} {ds : List (List Char)} {x m : Location}
    (last : ∀ links, t.walk links x ds = some m) {links : Nat} {l : Location}
    {cs : List (List Char)} (h : t.walk links l cs = some x) :
    t.walk links l (cs ++ ds) = some m := by
  induction links generalizing l cs with
  | zero => exact walkWith_extend (fun _ _ h => by cases h) (last 0) h
  | succ links ih => exact walkWith_extend (fun _ _ h => ih h) (last (links + 1)) h

theorem walk_nil (t : Linked) (links : Nat) (l : Location) : t.walk links l [] = some l := by
  cases links <;> rfl

theorem walk_name (t : Linked) (links : Nat) (l m : Location) (n : Name)
    (h : t.walk links l [n.text] = some m) : t.entry l = some .dir ∧
      ((∃ target, t.entry (n :: l) = some (.link target)) ∨
        (m = n :: l ∧ (t.entry (n :: l)).isSome)) := by
  have general : ∀ f, t.walkWith f l [n.text] = some m → t.entry l = some .dir ∧
      ((∃ target, t.entry (n :: l) = some (.link target)) ∨
        (m = n :: l ∧ (t.entry (n :: l)).isSome)) := by
    intro f h
    rw [walkWith] at h
    split at h
    · cases h
    rename_i isDir
    rw [if_neg (not_or.mpr ⟨n.nonempty, n.notSelf⟩), if_neg n.notParent, n.ofText_text] at h
    refine ⟨not_not.mp isDir, ?_⟩
    cases found : t.entry (n :: l) with
    | none => simp [found] at h
    | some e =>
      simp only [found] at h
      cases e with
      | link target => exact Or.inl ⟨target, rfl⟩
      | file mtime contents => exact Or.inr ⟨(Option.some.inj h).symm, rfl⟩
      | other => exact Or.inr ⟨(Option.some.inj h).symm, rfl⟩
      | dir => exact Or.inr ⟨(Option.some.inj h).symm, rfl⟩
  cases links with
  | zero => exact general _ h
  | succ links => exact general _ h

/-- Only the entries of a tree are there, if not all of them. -/
structure Under (u t : Linked) : Prop where
  cwd : u.cwd = t.cwd
  allowed : u.allowed = t.allowed
  entries : ∀ l e, u.entry l = some e → t.entry l = some e

theorem Under.refl (t : Linked) : t.Under t := ⟨rfl, rfl, fun _ _ h => h⟩

theorem Under.resolve {u t : Linked} (under : u.Under t) {path : List Char} {l : Location}
    (h : u.resolve path = some l) : t.resolve path = some l := by
  unfold Linked.resolve at h ⊢
  split at h
  · cases h
  · rename_i nonempty
    rw [if_neg nonempty, ← under.cwd, ← under.allowed]
    exact walk_mono under.entries le_rfl h

theorem Under.stat {u t : Linked} (under : u.Under t) {path : List Char} {e : Object}
    (h : u.stat path = some e) : t.stat path = some e := by
  obtain ⟨l, led, there⟩ := Option.bind_eq_some_iff.mp h
  exact Option.bind_eq_some_iff.mpr ⟨l, under.resolve led, under.entries l e there⟩

theorem resolve_child {t : Linked} {path : List Char} {n : Name} {m : Location}
    (nonempty : path ≠ []) (h : t.resolve (path ++ '/' :: n.text) = some m) :
    ∃ x, t.resolve path = some x ∧ t.walk t.allowed x [n.text] = some m := by
  unfold resolve at h ⊢
  rw [if_neg (by simp), origin_append t.cwd path _ nonempty, List.splitOn_append_cons_self,
    List.splitOn_eq_singleton n.noSlash] at h
  rw [if_neg nonempty]
  exact walk_append h

theorem walk_directory {t : Linked} {n : Name} {x : Location}
    (isDir : t.entry (n :: x) = some .dir) (links : Nat) :
    t.walk links x [n.text] = some (n :: x) := by
  have parent := parent_isDir isDir
  have one : ∀ f, t.walkWith f x [n.text] = some (n :: x) := by
    intro f
    rw [walkWith, if_neg (not_not.mpr parent), if_neg (not_or.mpr ⟨n.nonempty, n.notSelf⟩),
      if_neg n.notParent, n.ofText_text]
    simp only [isDir]
    rfl
  cases links with
  | zero => exact one _
  | succ links => exact one _

theorem resolve_directory {t : Linked} {path : List Char} {n : Name} {x : Location}
    (nonempty : path ≠ []) (led : t.resolve path = some x) (isDir : t.entry (n :: x) = some .dir) :
    t.resolve (path ++ '/' :: n.text) = some (n :: x) := by
  unfold resolve at led ⊢
  rw [if_neg nonempty] at led
  rw [if_neg (by simp), origin_append t.cwd path _ nonempty, List.splitOn_append_cons_self,
    List.splitOn_eq_singleton n.noSlash]
  exact walk_extend (walk_directory isDir) led

theorem named_child (t : Linked) {path : List Char} (n : Name) (nonempty : path ≠ []) :
    t.named (path ++ '/' :: n.text) ((path ++ '/' :: n.text).splitOn '/') =
      (t.resolve path).map (fun x => (n, x)) := by
  unfold named resolve
  rw [if_neg nonempty, origin_append t.cwd path _ nonempty, List.splitOn_append_cons_self,
    List.splitOn_eq_singleton n.noSlash, List.reverse_append, List.reverse_singleton,
    List.singleton_append]
  simp only [n.ofText_text, List.reverse_reverse]
  cases t.walk t.allowed (origin t.cwd path) (path.splitOn '/') <;> rfl

theorem named_iff {t : Linked} {path : List Char} {cs : List (List Char)} {n : Name}
    {x : Location} : t.named path cs = some (n, x) ↔
      ∃ before, cs = before ++ [n.text] ∧ t.walk t.allowed (origin t.cwd path) before = some x := by
  unfold named
  constructor
  · intro entry
    split at entry
    · cases entry
    rename_i c before parts
    have whole : cs = before.reverse ++ [c] := by
      rw [← List.reverse_reverse cs, parts, List.reverse_cons]
    cases text : Name.ofText c with
    | none => simp [text] at entry
    | some k =>
      cases way : t.walk t.allowed (origin t.cwd path) before.reverse with
      | none => simp [text, way] at entry
      | some y =>
        simp only [text, way, Option.some.injEq, Prod.mk.injEq] at entry
        obtain ⟨rfl, rfl⟩ := entry
        exact ⟨before.reverse, Name.text_of_ofText text ▸ whole, way⟩
  · rintro ⟨before, rfl, way⟩
    rw [List.reverse_append, List.reverse_singleton, List.singleton_append]
    simp only [n.ofText_text, List.reverse_reverse, way]

/-- A path that is not only slashes, before those at its end. -/
theorem splitOn_trimmed (path : List Char) :
    ∃ blanks, path.splitOn '/' = trimmed path ++ blanks ∧ ∀ c ∈ blanks, c = [] := by
  have parts := List.takeWhile_append_dropWhile (p := (· = [])) (l := (path.splitOn '/').reverse)
  refine ⟨((path.splitOn '/').reverse.takeWhile (· = [])).reverse, ?_, fun c hc => ?_⟩
  · rw [trimmed, ← List.reverse_append, parts, List.reverse_reverse]
  · have blank := List.all_eq_true.mp List.all_takeWhile c (List.mem_reverse.mp hc)
    simpa using blank

theorem named_there {t : Linked} {path : List Char} {n : Name} {l m : Location}
    (entry : t.named path (trimmed path) = some (n, l)) (led : t.resolve path = some m) :
    (t.entry (n :: l)).isSome := by
  obtain ⟨before, parts, way⟩ := named_iff.mp entry
  obtain ⟨blanks, slashes, _⟩ := splitOn_trimmed path
  unfold resolve at led
  split at led
  · cases led
  rw [slashes, parts, List.append_assoc] at led
  obtain ⟨y, first, rest⟩ := walk_append led
  cases way.symm.trans first
  obtain ⟨z, last, _⟩ := walk_append rest
  rcases (walk_name t t.allowed l z n last).2 with ⟨target, found⟩ | ⟨_, found⟩
  · rw [found]
    rfl
  · exact found

theorem walk_blanks {t : Linked} {l : Location} (isDir : t.entry l = some .dir)
    {cs : List (List Char)} (blank : ∀ c ∈ cs, c = []) (links : Nat) :
    t.walk links l cs = some l := by
  have each : ∀ f, t.walkWith f l cs = some l := by
    intro f
    induction cs with
    | nil => rfl
    | cons c cs ih =>
      rw [walkWith, if_neg (not_not.mpr isDir), if_pos (Or.inl (blank c List.mem_cons_self))]
      exact ih fun d hd => blank d (List.mem_cons_of_mem c hd)
  cases links with
  | zero => exact each _
  | succ links => exact each _

/-- A path leads to the directory that it names. -/
theorem resolve_named {t : Linked} {path : List Char} {n : Name} {l : Location}
    (entry : t.named path (trimmed path) = some (n, l)) (isDir : t.entry (n :: l) = some .dir) :
    t.resolve path = some (n :: l) := by
  have nonempty : path ≠ [] := by
    rintro rfl
    cases entry
  obtain ⟨before, parts, way⟩ := named_iff.mp entry
  obtain ⟨blanks, slashes, blank⟩ := splitOn_trimmed path
  rw [resolve, if_neg nonempty, slashes, parts, List.append_assoc]
  refine walk_extend (fun links => ?_) way
  exact walk_extend (walk_blanks isDir blank) (walk_directory isDir links)

theorem suffix_there {t : Linked} {l m : Location} (there : (t.entry m).isSome) (above : l <:+ m) :
    (t.entry l).isSome := by
  induction m with
  | nil =>
    rw [List.suffix_nil.mp above]
    exact there
  | cons n m ih =>
    rcases List.suffix_cons_iff.mp above with rfl | above
    · exact there
    · apply ih _ above
      rw [entry, t.closed n m there]
      rfl

theorem resolve_self {t : Linked} {l : Location} (led : t.resolve ".".toList = some l) :
    l = t.cwd ∧ t.entry t.cwd = some .dir := by
  have one : ∀ f, t.walkWith f t.cwd [".".toList] = some l → l = t.cwd ∧ t.entry t.cwd = some .dir := by
    intro f h
    rw [walkWith] at h
    split at h
    · cases h
    · rename_i isDir
      rw [if_pos (Or.inr rfl), walkWith] at h
      exact ⟨(Option.some.inj h).symm, not_not.mp isDir⟩
  change t.walk t.allowed t.cwd [".".toList] = some l at led
  cases allowed : t.allowed with
  | zero =>
    rw [allowed] at led
    exact one _ led
  | succ links =>
    rw [allowed] at led
    exact one _ led

theorem resolve_slash (t : Linked) : t.resolve "/".toList = some [] := by
  have one : ∀ f, t.walkWith f [] [[], []] = some [] := by
    intro f
    have root : t.entry [] = some .dir := t.root
    simp [walkWith, root]
  change t.walk t.allowed [] [[], []] = some []
  cases t.allowed with
  | zero => exact one _
  | succ links => exact one _

theorem trimmed_child (path : List Char) (n : Name) :
    trimmed (path ++ '/' :: n.text) = (path ++ '/' :: n.text).splitOn '/' := by
  unfold trimmed
  rw [List.splitOn_append_cons_self, List.splitOn_eq_singleton n.noSlash, List.reverse_append,
    List.reverse_singleton, List.singleton_append, List.dropWhile_cons_of_neg, List.reverse_cons,
    List.reverse_reverse]
  simpa using n.nonempty

theorem trimmed_name (n : Name) : trimmed n.text = [n.text] := by
  unfold trimmed
  rw [List.splitOn_eq_singleton n.noSlash, List.reverse_singleton, List.dropWhile_cons_of_neg]
  · rfl
  · simpa using n.nonempty

theorem named_name (t : Linked) (n : Name) : t.named n.text (trimmed n.text) = some (n, t.cwd) := by
  have relative : n.text.head? ≠ some '/' := fun h => n.noSlash (List.mem_of_head? h)
  unfold named
  rw [trimmed_name, List.reverse_singleton]
  simp only [n.ofText_text, List.reverse_nil, walk_nil, origin, if_neg relative]

theorem named_slash (t : Linked) {path : List Char} (nonempty : path ≠ []) :
    t.named (path ++ ['/']) (trimmed (path ++ ['/'])) = t.named path (trimmed path) := by
  have same : trimmed (path ++ ['/']) = trimmed path := by
    unfold trimmed
    rw [List.splitOn_append_cons_self, List.splitOn_nil, List.reverse_append,
      List.reverse_singleton, List.singleton_append, List.dropWhile_cons_of_pos]
    rfl
  unfold named
  rw [same, origin_append t.cwd path _ nonempty]

/-- An entry taken out of a directory. -/
structure Taken (t u : Linked) (n : Name) (x : Location) : Prop where
  cwd : u.cwd = t.cwd
  allowed : u.allowed = t.allowed
  entries : ∀ l, u.entry l = if l = n :: x then none else t.entry l

theorem Taken.under {t u : Linked} {n : Name} {x : Location} (h : Taken t u n x) : u.Under t where
  cwd := h.cwd
  allowed := h.allowed
  entries := by
    intro l e found
    rw [h.entries] at found
    split at found
    · cases found
    · exact found

theorem Under.trans {s u t : Linked} (h : s.Under u) (h' : u.Under t) : s.Under t :=
  ⟨h.cwd.trans h'.cwd, h.allowed.trans h'.allowed, fun l e he => h'.entries l e (h.entries l e he)⟩

theorem unlink_child {t : Linked} {path : List Char} {n : Name} (nonempty : path ≠ []) :
    (∀ u, t.unlink (path ++ '/' :: n.text) = some u → ∃ x, t.resolve path = some x ∧
      t.entry (n :: x) ≠ some .dir ∧ Taken t u n x) ∧
    (∀ x e, t.resolve path = some x → t.entry (n :: x) = some e → e ≠ .dir →
      ∃ u, t.unlink (path ++ '/' :: n.text) = some u ∧ Taken t u n x) := by
  unfold unlink
  rw [named_child t n nonempty]
  constructor
  · intro u h
    cases led : t.resolve path with
    | none => simp [led] at h
    | some x =>
      simp only [led, Option.map_some] at h
      split at h
      · rename_i there
        cases h
        exact ⟨x, rfl, there.2, rfl, rfl, fun l => entry_remove ..⟩
      · cases h
  · intro x e led found notDir
    have there : (t.entry (n :: x)).isSome ∧ t.entry (n :: x) ≠ some .dir := by
      rw [found]
      exact ⟨rfl, fun same => notDir (Option.some.inj same)⟩
    simp only [led, Option.map_some, dif_pos there]
    exact ⟨_, rfl, rfl, rfl, fun l => entry_remove ..⟩

theorem rmdir_child {t : Linked} {path : List Char} {n : Name} (nonempty : path ≠ []) :
    (∀ u, t.rmdir (path ++ '/' :: n.text) = some u → ∃ x, t.resolve path = some x ∧
      t.entry (n :: x) = some .dir ∧ t.children (n :: x) = [] ∧ Taken t u n x) ∧
    (∀ x, t.resolve path = some x → t.entry (n :: x) = some .dir → t.children (n :: x) = [] →
      ∃ u, t.rmdir (path ++ '/' :: n.text) = some u ∧ Taken t u n x) := by
  unfold rmdir
  rw [trimmed_child, named_child t n nonempty]
  constructor
  · intro u h
    cases led : t.resolve path with
    | none => simp [led] at h
    | some x =>
      simp only [led, Option.map_some] at h
      split at h
      · rename_i empty
        split at h
        · rename_i isDir
          cases h
          exact ⟨x, rfl, isDir, empty, rfl, rfl, fun l => entry_remove ..⟩
        · cases h
      · cases h
  · intro x led isDir empty
    simp only [led, Option.map_some, dif_pos empty, if_pos isDir]
    exact ⟨_, rfl, rfl, rfl, fun l => entry_remove ..⟩

theorem unlink_under {t u : Linked} {path : List Char} (h : t.unlink path = some u) :
    u.Under t := by
  unfold unlink at h
  split at h
  · cases h
  · rename_i n x _
    split at h
    · cases h
      exact Taken.under (n := n) (x := x) ⟨rfl, rfl, fun l => entry_remove ..⟩
    · cases h

theorem rmdir_under {t u : Linked} {path : List Char} (h : t.rmdir path = some u) :
    u.Under t := by
  unfold rmdir at h
  split at h
  · cases h
  · rename_i n x _
    split at h
    · split at h
      · cases h
        exact Taken.under (n := n) (x := x) ⟨rfl, rfl, fun l => entry_remove ..⟩
      · cases h
    · cases h

/-- A new directory in a directory. -/
structure Made (t u : Linked) (n : Name) (x : Location) : Prop where
  cwd : u.cwd = t.cwd
  allowed : u.allowed = t.allowed
  fresh : t.entry (n :: x) = none
  entries : ∀ l, u.entry l = if l = n :: x then some .dir else t.entry l

theorem mkdir_made {t u : Linked} {path : List Char} (h : t.mkdir path = some u) :
    ∃ n x, t.named path (trimmed path) = some (n, x) ∧ Made t u n x := by
  unfold mkdir at h
  split at h
  · cases h
  · rename_i n x named
    split at h
    · rename_i room
      cases h
      exact ⟨n, x, named, rfl, rfl, room.2, fun l => entry_add ..⟩
    · cases h

theorem mkdir_entries {t u : Linked} {path : List Char} (h : t.mkdir path = some u) :
    ∀ l e, t.entry l = some e → u.entry l = some e := by
  obtain ⟨n, x, _, made⟩ := mkdir_made h
  intro l e found
  rw [made.entries, if_neg]
  · exact found
  · rintro rfl
    rw [made.fresh] at found
    cases found

/-- Below an entry there is a name on the way to everything under it. -/
theorem child_towards {t : Linked} {c l : Location} (above : c <:+ l) (strict : l ≠ c)
    (there : (t.entry l).isSome) : ∃ k, (t.entry (k :: c)).isSome := by
  induction l with
  | nil => exact absurd (List.suffix_nil.mp above).symm strict
  | cons k l ih =>
    rcases List.suffix_cons_iff.mp above with same | above
    · exact absurd same.symm strict
    · by_cases same : l = c
      · exact ⟨k, same ▸ there⟩
      · refine ih above same ?_
        rw [entry, t.closed k l there]
        rfl

/-- Opening for reading. A directory can be opened, and gives no text. -/
def read (t : Linked) (path : List Char) : Option (List Char) :=
  match t.stat path with
  | some (.file _ contents) => some contents
  | some .dir => some []
  | _ => none

/-- The path leads to the regular file at `l`. -/
def FileAt (t : Linked) (path : List Char) (l : Location) : Prop :=
  t.resolve path = some l ∧ ∃ mtime contents, t.entry l = some (.file mtime contents)

theorem read_fileAt {t : Linked} {path : List Char} {l : Location} (there : t.FileAt path l) :
    (t.read path).isSome := by
  obtain ⟨led, mtime, contents, found⟩ := there
  simp [read, stat, led, found]

theorem walk_stuck {t : Linked} {l : Location} (plain : t.entry l ≠ some .dir) (links : Nat)
    (c : List Char) (cs : List (List Char)) : t.walk links l (c :: cs) = none := by
  cases links with
  | zero => exact if_pos plain
  | succ links => exact if_pos plain

theorem resolve_below {t : Linked} {path : List Char} {l : Location}
    (led : t.resolve path = some l) (plain : t.entry l ≠ some .dir) (f : List Char) :
    t.resolve (path ++ '/' :: f) = none := by
  unfold resolve at led ⊢
  split at led
  · cases led
  rename_i nonempty
  rw [if_neg (by simp), origin_append t.cwd path _ nonempty, List.splitOn_append_cons_self]
  cases further : t.walk t.allowed (origin t.cwd path) (path.splitOn '/' ++ f.splitOn '/') with
  | none => rfl
  | some m =>
    obtain ⟨k, first, rest⟩ := walk_append further
    cases led.symm.trans first
    obtain ⟨c, cs, split⟩ := List.exists_cons_of_ne_nil (List.splitOn_ne_nil '/' f)
    rw [split, walk_stuck plain] at rest
    cases rest

theorem read_below {t : Linked} {path : List Char} {l : Location} (there : t.FileAt path l)
    (f : List Char) : t.read (path ++ '/' :: f) = none := by
  obtain ⟨led, mtime, contents, found⟩ := there
  rw [read, stat, resolve_below led (by simp [found])]
  rfl

theorem file_of_read {t : Linked} {path text : List Char} (nonempty : text ≠ [])
    (opened : t.read path = some text) : ∃ l, t.FileAt path l := by
  unfold read stat at opened
  cases led : t.resolve path with
  | none => simp [led] at opened
  | some l =>
    rw [led, Option.bind_some] at opened
    cases found : t.entry l with
    | none => simp [found] at opened
    | some e =>
      cases e with
      | file mtime contents => exact ⟨l, led, mtime, contents, found⟩
      | dir =>
        rw [found] at opened
        cases opened
        exact absurd rfl nonempty
      | other => simp [found] at opened
      | link target => simp [found] at opened

theorem walkWith_same {t v : Linked} {f g : Location → List (List Char) → Option Location}
    (new : ∀ l target, v.entry l = some (.link target) → t.entry l = some (.link target))
    (old : ∀ l n target cs c, t.entry (n :: l) = some (.link target) →
      t.walkWith f l (n.text :: cs) = some c → t.entry c = some .dir →
      v.entry (n :: l) = some (.link target))
    (behind : ∀ l cs c d, f l cs = some c → t.entry c = some .dir → g l cs = some d → d = c)
    {l c d : Location} {cs : List (List Char)} (first : t.walkWith f l cs = some c)
    (isDir : t.entry c = some .dir) (second : v.walkWith g l cs = some d) : d = c := by
  induction cs generalizing l with
  | nil => exact Option.some.inj (second.symm.trans first)
  | cons a cs ih =>
    have whole := first
    rw [walkWith] at first second
    split at first
    · cases first
    split at second
    · cases second
    split at first
    · rename_i self
      rw [if_pos self] at second
      exact ih first second
    rename_i self
    rw [if_neg self] at second
    split at first
    · rename_i parent
      rw [if_pos parent] at second
      exact ih first second
    rename_i parent
    rw [if_neg parent] at second
    cases named : Name.ofText a with
    | none => simp [named] at first
    | some n =>
      cases Name.text_of_ofText named
      cases there : t.entry (n :: l) with
      | none => simp [named, there] at first
      | some e =>
        cases there' : v.entry (n :: l) with
        | none => simp [named, there'] at second
        | some e' =>
          simp only [named, there, there'] at first second
          cases e with
          | link target =>
            cases there'.symm.trans (old l n target cs c there whole isDir)
            simp only [Option.ite_none_left_eq_some] at first second
            exact behind _ _ _ _ first.2 isDir second.2
          | _ =>
            cases e' with
            | link target => cases there.symm.trans (new _ _ there')
            | _ => exact ih first second

/-- A path to a directory leads nowhere else when there are no new links and those to
directories are still there. -/
theorem walk_same {t v : Linked}
    (new : ∀ l target, v.entry l = some (.link target) → t.entry l = some (.link target))
    (old : ∀ l n target links k, t.entry (n :: l) = some (.link target) →
      t.walk links l [n.text] = some k → t.entry k = some .dir →
      v.entry (n :: l) = some (.link target))
    {links : Nat} {l c d : Location} {cs : List (List Char)} (first : t.walk links l cs = some c)
    (isDir : t.entry c = some .dir) (second : v.walk links l cs = some d) : d = c := by
  have passed : ∀ links l n target cs c, t.entry (n :: l) = some (.link target) →
      t.walk links l (n.text :: cs) = some c → t.entry c = some .dir →
      v.entry (n :: l) = some (.link target) := by
    intro links l n target cs c link walked isDir
    have walked : t.walk links l ([n.text] ++ cs) = some c := walked
    obtain ⟨k, one, rest⟩ := walk_append walked
    refine old l n target links k link one ?_
    cases cs with
    | nil =>
      rw [walk_nil] at rest
      cases rest
      exact isDir
    | cons b cs =>
      by_contra plain
      rw [walk_stuck plain] at rest
      cases rest
  induction links generalizing l c d cs with
  | zero => exact walkWith_same new (passed 0) (fun _ _ _ _ h => by cases h) first isDir second
  | succ links ih =>
    exact walkWith_same new (passed (links + 1)) (fun _ _ _ _ h dir h' => ih h dir h') first isDir
      second

/-- `unlink` of one path after another, as far as it works. -/
def unlinkAll (t : Linked) (paths : List (List Char)) : Linked :=
  paths.foldl (fun t f => (t.unlink f).getD t) t

theorem unlinkAll_under (t : Linked) (paths : List (List Char)) : (t.unlinkAll paths).Under t := by
  induction paths generalizing t with
  | nil => exact .refl t
  | cons f paths ih =>
    change (((t.unlink f).getD t).unlinkAll paths).Under t
    cases taken : t.unlink f with
    | none => exact ih t
    | some u => exact (ih u).trans (unlink_under taken)

/-- Everything in `t` is in `u`, and files may have other contents. -/
structure Grown (t u : Linked) : Prop where
  cwd : u.cwd = t.cwd
  allowed : u.allowed = t.allowed
  entries : ∀ l e, t.entry l = some e → ∃ e', u.entry l = some e' ∧ Alike e e'

theorem Grown.refl (t : Linked) : t.Grown t := ⟨rfl, rfl, fun _ e he => ⟨e, he, .same e⟩⟩

theorem Grown.trans {t u v : Linked} (first : t.Grown u) (second : u.Grown v) : t.Grown v := by
  refine ⟨second.cwd.trans first.cwd, second.allowed.trans first.allowed, fun l e he => ?_⟩
  obtain ⟨e', he', alike⟩ := first.entries l e he
  obtain ⟨e'', he'', alike'⟩ := second.entries l e' he'
  exact ⟨e'', he'', alike.trans alike'⟩

theorem Under.grown {u t : Linked} (under : u.Under t) : u.Grown t :=
  ⟨under.cwd.symm, under.allowed.symm, fun l e he => ⟨e, under.entries l e he, .same e⟩⟩

theorem Made.grown {t u : Linked} {n : Name} {x : Location} (made : Made t u n x) : t.Grown u := by
  refine ⟨made.cwd, made.allowed, fun l e he => ⟨e, ?_, .same e⟩⟩
  rw [made.entries, if_neg]
  · exact he
  · rintro rfl
    rw [made.fresh] at he
    cases he

theorem Grown.resolve {t u : Linked} (grown : t.Grown u) {path : List Char} {l : Location}
    (led : t.resolve path = some l) : u.resolve path = some l := by
  unfold Linked.resolve at led ⊢
  split at led
  · cases led
  · rename_i nonempty
    rw [if_neg nonempty, grown.cwd, grown.allowed]
    exact walk_alike grown.entries le_rfl led

theorem Grown.named {t u : Linked} (grown : t.Grown u) {path : List Char} {cs : List (List Char)}
    {n : Name} {x : Location} (named : t.named path cs = some (n, x)) :
    u.named path cs = some (n, x) := by
  obtain ⟨before, parts, way⟩ := named_iff.mp named
  refine named_iff.mpr ⟨before, parts, ?_⟩
  rw [grown.cwd, grown.allowed]
  exact walk_alike grown.entries le_rfl way

theorem landing_named {t : Linked} {path : List Char} {n : Name} {x : Location}
    (named : t.named path (path.splitOn '/') = some (n, x))
    (plain : ∀ target, t.entry (n :: x) ≠ some (.link target)) (links : Nat) :
    t.landing links path = some (n, x) := by
  cases there : t.entry (n :: x) with
  | none => cases links <;> simp only [landing, named, there]
  | some e =>
    cases e with
    | link target => exact absurd there (plain target)
    | file m c => cases links <;> simp only [landing, named, there]
    | other => cases links <;> simp only [landing, named, there]
    | dir => cases links <;> simp only [landing, named, there]

theorem landing_unnamed {t : Linked} {path : List Char}
    (unnamed : t.named path (path.splitOn '/') = none) (links : Nat) :
    t.landing links path = none := by
  cases links <;> simp only [landing, unnamed]

/-- A text written to the file `l`, which may be new. -/
structure Written (t u : Linked) (l : Location) : Prop where
  grown : t.Grown u
  plain : ∀ target, u.entry l ≠ some (.link target)
  others : ∀ k, k ≠ l → u.entry k = t.entry k

/-- Writing to a path that is no link. -/
theorem write_named {t u : Linked} {path text : List Char} {mtime : Nat}
    (written : t.write path mtime text = some u) :
    ∃ n x, t.named path (path.splitOn '/') = some (n, x) ∧
      ((∀ target, t.entry (n :: x) ≠ some (.link target)) → Written t u (n :: x)) := by
  cases named : t.named path (path.splitOn '/') with
  | none =>
    rw [write, landing_unnamed named] at written
    cases written
  | some place =>
    obtain ⟨n, x⟩ := place
    refine ⟨n, x, rfl, fun plain => ?_⟩
    rw [write, landing_named named plain] at written
    dsimp only at written
    split at written
    · rename_i m c there
      cases written
      have entries := fun k => entry_overwrite t (n :: x) k mtime text there
      refine ⟨⟨rfl, rfl, fun l e he => ?_⟩, fun target => ?_, fun k hk => ?_⟩
      · rw [entries]
        split
        · rename_i same
          subst same
          cases there.symm.trans he
          exact ⟨_, rfl, .files ..⟩
        · exact ⟨e, he, .same e⟩
      · rw [entries, if_pos rfl]
        simp
      · rw [entries, if_neg hk]
    · cases written
      exact ⟨.refl t, plain, fun _ _ => rfl⟩
    · cases written
    · rename_i there
      split at written
      · rename_i parent
        cases written
        have entries := fun k => entry_add t n x k (.file mtime text) parent there
        refine ⟨⟨rfl, rfl, fun l e he => ⟨e, ?_, .same e⟩⟩, fun target => ?_, fun k hk => ?_⟩
        · rw [entries, if_neg]
          · exact he
          · rintro rfl
            rw [there] at he
            cases he
        · rw [entries, if_pos rfl]
          simp
        · rw [entries, if_neg hk]
      · cases written

/-- Of the entries that the paths name only directories are left. -/
theorem unlinkAll_leaves {t : Linked} {paths : List (List Char)} {f : List Char} (given : f ∈ paths)
    {n : Name} {x : Location} {e : Object}
    (named : (t.unlinkAll paths).named f (f.splitOn '/') = some (n, x))
    (there : (t.unlinkAll paths).entry (n :: x) = some e) : e = .dir := by
  induction paths generalizing t with
  | nil => cases given
  | cons g paths ih =>
    rcases List.mem_cons.mp given with rfl | given
    swap
    · exact ih given named there
    have rest := unlinkAll_under ((t.unlink f).getD t) paths
    by_contra notDir
    have under := unlinkAll_under t (f :: paths)
    have named' := under.grown.named named
    have there' := under.entries _ _ there
    have room : (t.entry (n :: x)).isSome ∧ t.entry (n :: x) ≠ some .dir := by
      rw [there']
      exact ⟨rfl, fun same => notDir (Option.some.inj same)⟩
    have taken : t.unlink f = some (t.remove (n :: x) (List.cons_ne_nil n x) (by
        rw [List.eq_nil_iff_forall_not_mem]
        intro m hm
        exact room.2 (t.closed m (n :: x) ((t.mem_children _ m).mp hm)))) := by
      unfold unlink
      rw [named']
      exact dif_pos room
    rw [taken] at rest
    have gone := rest.entries _ _ (by
      change ((((t.unlink f).getD t).unlinkAll paths).entry (n :: x)) = some e at there
      rw [taken] at there
      exact there)
    rw [Option.getD_some, entry_remove, if_pos rfl] at gone
    cases gone

theorem walk_unnamed {t : Linked} {links : Nat} {k l : Location} {c : List Char}
    (unnamed : Name.ofText c = none) (led : t.walk links k [c] = some l) : t.entry l = some .dir := by
  have one : ∀ f, t.walkWith f k [c] = some l → t.entry l = some .dir := by
    intro f h
    rw [walkWith] at h
    split at h
    · cases h
    rename_i isDir
    have here := not_not.mp isDir
    split at h
    · cases h
      exact here
    split at h
    · cases h
      cases k with
      | nil => exact t.root
      | cons n k => exact parent_isDir here
    · rw [unnamed] at h
      cases h
  cases links with
  | zero => exact one _ led
  | succ links => exact one _ led

theorem resolve_last {t : Linked} {path : List Char} {l : Location} (led : t.resolve path = some l) :
    t.entry l = some .dir ∨ ∃ n x, t.named path (path.splitOn '/') = some (n, x) ∧
      (t.entry (n :: x)).isSome ∧ (t.entry (n :: x) = some .dir → l = n :: x) := by
  obtain ⟨before, c, split⟩ : ∃ before c, path.splitOn '/' = before ++ [c] :=
    ⟨_, _, (List.dropLast_append_getLast (List.splitOn_ne_nil '/' path)).symm⟩
  unfold resolve at led
  split at led
  · cases led
  rw [split] at led
  obtain ⟨k, first, last⟩ := walk_append led
  cases text : Name.ofText c with
  | none => exact Or.inl (walk_unnamed text last)
  | some n =>
    right
    rw [Name.text_of_ofText text] at last
    have named : t.named path (path.splitOn '/') = some (n, k) := by
      unfold named
      rw [split, List.reverse_append, List.reverse_singleton, List.singleton_append]
      simp only [text, List.reverse_reverse, first]
    refine ⟨n, k, named, ?_, fun isDir => ?_⟩
    · rcases (walk_name t t.allowed k l n last).2 with ⟨target, found⟩ | ⟨_, found⟩
      · rw [found]
        rfl
      · exact found
    · have := walk_directory isDir t.allowed
      rw [last] at this
      exact Option.some.inj this

theorem bare_distinct : (([([], Object.dir)] : List (Location × Object)).map Prod.fst).Nodup :=
  List.nodup_singleton []

theorem bare_root : ([([], Object.dir)] : List (Location × Object)).lookup [] = some .dir := rfl

theorem bare_closed (n : Name) (l : Location)
    (there : (([([], Object.dir)] : List (Location × Object)).lookup (n :: l)).isSome) :
    ([([], Object.dir)] : List (Location × Object)).lookup l = some .dir := by
  simp [lookup_cons] at there

/-- Only the root, which is the working directory. -/
def bareLinked (allowed : Nat) : Linked where
  cwd := []
  allowed := allowed
  entries := [([], .dir)]
  distinct := bare_distinct
  root := bare_root
  closed := bare_closed

end Linked

end PosixTree
