import PrimeMover.Table
import PrimeMover.LineEdit
import Mathlib.Data.List.Infix

/-! A file system of plain directories and regular files, with the path resolution
of POSIX. Without links a path that resolves is where its text says it is. -/
namespace PosixTree
open AssocTable

/-- A name a directory can list. -/
structure Name where
  text : List Char
  nonempty : text ≠ []
  noSlash : '/' ∉ text
  notSelf : text ≠ ".".toList
  notParent : text ≠ "..".toList
  deriving DecidableEq

def Name.ofText (s : List Char) : Option Name :=
  if h : s ≠ [] ∧ '/' ∉ s ∧ s ≠ ".".toList ∧ s ≠ "..".toList then
    some ⟨s, h.1, h.2.1, h.2.2.1, h.2.2.2⟩
  else none

theorem Name.ofText_text (n : Name) : Name.ofText n.text = some n := by
  rw [ofText, dif_pos ⟨n.nonempty, n.noSlash, n.notSelf, n.notParent⟩]

theorem Name.text_of_ofText {c : List Char} {n : Name} (h : Name.ofText c = some n) : c = n.text := by
  unfold ofText at h
  split at h
  · cases h
    rfl
  · cases h

theorem Name.text_injective {n m : Name} (h : n.text = m.text) : n = m := by
  have := n.ofText_text
  rw [h, m.ofText_text] at this
  exact (Option.some.inj this).symm

/-- The names from an entry up to the root, which is `[]`. -/
abbrev Location := List Name

inductive Entry where
  | file (mtime : Nat) (contents : List Char)
  | dir
  deriving DecidableEq

/-- Every entry but the root stands in a directory. The working directory may be
gone, as it is after a process removed it. -/
structure Tree where
  cwd : Location
  entries : List (Location × Entry)
  distinct : (entries.map Prod.fst).Nodup
  root : entries.lookup [] = some .dir
  closed : ∀ n l, (entries.lookup (n :: l)).isSome → entries.lookup l = some .dir

namespace Tree

def entry (t : Tree) (l : Location) : Option Entry := t.entries.lookup l

def isFile (t : Tree) (l : Location) : Bool :=
  match t.entry l with
  | some (.file ..) => true
  | _ => false

/-- The names in a directory. -/
def children (t : Tree) (l : Location) : List Name :=
  t.entries.filterMap (fun e =>
    match e.1 with
    | [] => none
    | n :: p => if p = l then some n else none)

theorem mem_children (t : Tree) (l : Location) (n : Name) :
    n ∈ t.children l ↔ (t.entry (n :: l)).isSome := by
  rw [children, List.mem_filterMap]
  constructor
  · rintro ⟨⟨p, e⟩, he, found⟩
    cases p with
    | nil => cases found
    | cons m p =>
      simp only [Option.ite_none_right_eq_some, Option.some.injEq] at found
      obtain ⟨rfl, rfl⟩ := found
      rw [entry, lookup_of_mem t.distinct he]
      rfl
  · intro found
    obtain ⟨e, he⟩ := Option.isSome_iff_exists.mp found
    exact ⟨(n :: l, e), mem_of_lookup he, by simp⟩

/-- An entry that no other stands in is taken out. -/
def remove (t : Tree) (l : Location) (inner : l ≠ []) (leaf : t.children l = []) : Tree where
  cwd := t.cwd
  entries := dropEntry t.entries l
  distinct := nodup_dropEntry t.distinct l
  root := by simp [inner, t.root]
  closed := by
    intro n m found
    rw [lookup_dropEntry] at found ⊢
    split at found
    · cases found
    · split
      · rename_i same
        have : n ∈ t.children l := (t.mem_children l n).mpr (beq_iff_eq.mp same ▸ found)
        rw [leaf] at this
        cases this
      · exact t.closed n m found

theorem entry_remove (t : Tree) (l m : Location) (inner : l ≠ []) (leaf : t.children l = []) :
    (t.remove l inner leaf).entry m = if m = l then none else t.entry m := by
  simp [entry, remove]

theorem inner_of_isFile (t : Tree) {l : Location} (h : t.isFile l) : l ≠ [] := by
  rintro rfl
  rw [isFile, entry, t.root] at h
  cases h

theorem leaf_of_isFile (t : Tree) {l : Location} (h : t.isFile l) : t.children l = [] := by
  rw [List.eq_nil_iff_forall_not_mem]
  intro n hn
  have := t.closed n l ((t.mem_children l n).mp hn)
  rw [isFile, entry, this] at h
  cases h

/-- A new entry in a directory. -/
def add (t : Tree) (n : Name) (l : Location) (e : Entry) (parent : t.entry l = some .dir)
    (fresh : t.entry (n :: l) = none) : Tree where
  cwd := t.cwd
  entries := (n :: l, e) :: t.entries
  distinct := List.nodup_cons.mpr ⟨not_mem_keys t.distinct fresh, t.distinct⟩
  root := by
    rw [lookup_cons]
    exact t.root
  closed := by
    intro m k found
    rw [lookup_cons] at found ⊢
    have kept : ∀ k, t.entries.lookup k = some .dir →
        (if k == n :: l then some e else t.entries.lookup k) = some .dir := by
      intro k hk
      split
      · rename_i same
        rw [beq_iff_eq.mp same] at hk
        rw [entry, hk] at fresh
        cases fresh
      · exact hk
    apply kept
    split at found
    · rename_i same
      cases beq_iff_eq.mp same
      exact parent
    · exact t.closed m k found

theorem entry_add (t : Tree) (n : Name) (l m : Location) (e : Entry)
    (parent : t.entry l = some .dir) (fresh : t.entry (n :: l) = none) :
    (t.add n l e parent fresh).entry m = if m = n :: l then some e else t.entry m := by
  simp [entry, add, lookup_cons]

/-- One component of a path, from where the path has led so far. -/
def step (t : Tree) (l : Location) (c : List Char) : Option Location :=
  if t.isFile l then none
  else if c = [] ∨ c = ".".toList then some l
  else if c = "..".toList then some l.tail
  else
    match Name.ofText c with
    | none => none
    | some n => if (t.entry (n :: l)).isSome then some (n :: l) else none

def walk (t : Tree) : Location → List (List Char) → Option Location
  | l, [] => some l
  | l, c :: cs => (t.step l c).bind (fun m => walk t m cs)

end Tree

/-- Where a path starts. -/
def origin (cwd : Location) (path : List Char) : Location :=
  if path.head? = some '/' then [] else cwd

/-- Where one component leads if it leads anywhere. -/
def up (l : Location) (c : List Char) : Location :=
  if c = [] ∨ c = ".".toList then l
  else if c = "..".toList then l.tail
  else
    match Name.ofText c with
    | none => l
    | some n => n :: l

/-- Where the text of a path leads. -/
def lexical (cwd : Location) (path : List Char) : Location :=
  (path.splitOn '/').foldl up (origin cwd path)

namespace Tree

def resolve (t : Tree) (path : List Char) : Option Location :=
  if path = [] then none else t.walk (origin t.cwd path) (path.splitOn '/')

theorem step_up {t : Tree} {l m : Location} {c : List Char} (h : t.step l c = some m) :
    m = up l c := by
  unfold step at h
  unfold up
  split at h
  · cases h
  split at h
  · rename_i self
    cases h
    rw [if_pos self]
  rename_i self
  rw [if_neg self]
  split at h
  · rename_i parent
    cases h
    rw [if_pos parent]
  rename_i parent
  rw [if_neg parent]
  cases hn : Name.ofText c with
  | none => simp [hn] at h
  | some n =>
    simp only [hn, Option.ite_none_right_eq_some, Option.some.injEq] at h
    exact h.2.symm

theorem walk_up {t : Tree} {l m : Location} {cs : List (List Char)} (h : t.walk l cs = some m) :
    m = cs.foldl up l := by
  induction cs generalizing l with
  | nil => exact (Option.some.inj h).symm
  | cons c cs ih =>
    obtain ⟨k, hk, rest⟩ := Option.bind_eq_some_iff.mp h
    rw [List.foldl_cons, ← step_up hk]
    exact ih rest

theorem walk_append (t : Tree) (l : Location) (cs ds : List (List Char)) :
    t.walk l (cs ++ ds) = (t.walk l cs).bind (fun m => t.walk m ds) := by
  induction cs generalizing l with
  | nil => rfl
  | cons c cs ih =>
    simp only [List.cons_append, walk, ih]
    cases t.step l c <;> rfl

theorem resolve_lexical {t : Tree} {path : List Char} {l : Location}
    (h : t.resolve path = some l) : l = lexical t.cwd path := by
  unfold resolve at h
  split at h
  · cases h
  · exact walk_up h

end Tree

theorem origin_append (cwd : Location) (path rest : List Char) (some : path ≠ []) :
    origin cwd (path ++ rest) = origin cwd path := by
  cases path with
  | nil => exact absurd rfl some
  | cons c path => rfl

theorem lexical_slash (cwd : Location) (path rest : List Char) (nonempty : path ≠ []) :
    lexical cwd (path ++ '/' :: rest) = (rest.splitOn '/').foldl up (lexical cwd path) := by
  rw [lexical, lexical, origin_append cwd path _ nonempty, List.splitOn_append_cons_self,
    List.foldl_append]

theorem Tree.resolve_slash {t : Tree} {path : List Char} {l : Location}
    (led : t.resolve path = some l) (rest : List Char) :
    t.resolve (path ++ '/' :: rest) = t.walk l (rest.splitOn '/') := by
  unfold resolve at led ⊢
  split at led
  · cases led
  rename_i nonempty
  rw [if_neg (by simp), origin_append t.cwd path _ nonempty, List.splitOn_append_cons_self,
    walk_append, led]
  rfl

theorem Tree.resolve_child {t : Tree} {path : List Char} {l : Location} (n : Name)
    (led : t.resolve path = some l) (isDir : t.entry l = some .dir)
    (there : (t.entry (n :: l)).isSome) : t.resolve (path ++ '/' :: n.text) = some (n :: l) := by
  have plain : t.isFile l = false := by rw [isFile, isDir]
  rw [resolve_slash led, List.splitOn_eq_singleton n.noSlash]
  simp only [walk, step, plain, Bool.false_eq_true, if_false]
  rw [if_neg (not_or.mpr ⟨n.nonempty, n.notSelf⟩), if_neg n.notParent, n.ofText_text]
  simp [there]

theorem up_name (l : Location) (n : Name) : up l n.text = n :: l := by
  rw [up, if_neg (not_or.mpr ⟨n.nonempty, n.notSelf⟩), if_neg n.notParent, Name.ofText_text]

theorem lexical_name (cwd : Location) (n : Name) : lexical cwd n.text = n :: cwd := by
  have relative : n.text.head? ≠ some '/' := by
    intro h
    exact n.noSlash (List.mem_of_head? h)
  rw [lexical, origin, if_neg relative, List.splitOn_eq_singleton n.noSlash]
  exact up_name cwd n

theorem lexical_child (cwd : Location) (path : List Char) (n : Name) (nonempty : path ≠ []) :
    lexical cwd (path ++ '/' :: n.text) = n :: lexical cwd path := by
  rw [lexical_slash cwd path n.text nonempty, List.splitOn_eq_singleton n.noSlash]
  exact up_name _ n

namespace Tree

/-- `unlink`: regular files only. -/
def unlink (t : Tree) (path : List Char) : Option Tree :=
  match t.resolve path with
  | none => none
  | some l =>
    if h : t.isFile l then some (t.remove l (t.inner_of_isFile h) (t.leaf_of_isFile h)) else none

/-- `rmdir`: empty directories only, and not through a final `.`. -/
def rmdir (t : Tree) (path : List Char) : Option Tree :=
  match t.resolve path with
  | none => none
  | some l =>
    if h : l ≠ [] ∧ t.children l = [] then
      if t.entry l = some .dir ∧ (path.splitOn '/').getLast? ≠ some ".".toList then
        some (t.remove l h.1 h.2)
      else none
    else none

/-- The name to create and the directory to create it in. -/
def target (t : Tree) (path : List Char) : Option (Name × Location) :=
  match (path.splitOn '/').reverse.dropWhile (· = []) with
  | [] => none
  | c :: before =>
    match Name.ofText c, t.walk (origin t.cwd path) before.reverse with
    | some n, some l => some (n, l)
    | _, _ => none

def mkdir (t : Tree) (path : List Char) : Option Tree :=
  match t.target path with
  | none => none
  | some (n, l) =>
    if h : t.entry l = some .dir ∧ t.entry (n :: l) = none then some (t.add n l .dir h.1 h.2)
    else none

def stat (t : Tree) (path : List Char) : Option Entry := (t.resolve path).bind t.entry

/-- What `readdir` gives. -/
def list (t : Tree) (path : List Char) : Option (List (List Char)) :=
  match t.resolve path with
  | none => none
  | some l =>
    if t.entry l = some .dir then
      some (".".toList :: "..".toList :: (t.children l).map Name.text)
    else none

/-- Opening for reading. A directory can be opened, and gives no text. -/
def read (t : Tree) (path : List Char) : Option (List Char) :=
  match t.stat path with
  | none => none
  | some (.file _ contents) => some contents
  | some .dir => some []

/-- Everything in `t` is also in `u`. -/
def Within (t u : Tree) : Prop := u.cwd = t.cwd ∧ ∀ l e, t.entry l = some e → u.entry l = some e

theorem unlink_file {t : Tree} {path : List Char} {l : Location} (led : t.resolve path = some l)
    (file : t.isFile l) : ∃ u, t.unlink path = some u ∧ u.entry l = none := by
  refine ⟨t.remove l (t.inner_of_isFile file) (t.leaf_of_isFile file), ?_, ?_⟩
  · unfold unlink
    rw [led]
    exact dif_pos file
  · rw [entry_remove, if_pos rfl]

theorem unlink_frame {t u : Tree} {path : List Char} (h : t.unlink path = some u) :
    u.cwd = t.cwd ∧
      ∀ l, u.entry l = if l = lexical t.cwd path then none else t.entry l := by
  unfold unlink at h
  cases hr : t.resolve path with
  | none => simp [hr] at h
  | some m =>
    simp only [hr] at h
    split at h
    · cases h
      refine ⟨rfl, fun l => ?_⟩
      rw [entry_remove, resolve_lexical hr]
    · cases h

theorem rmdir_frame {t u : Tree} {path : List Char} (h : t.rmdir path = some u) :
    u.cwd = t.cwd ∧
      ∀ l, u.entry l = if l = lexical t.cwd path then none else t.entry l := by
  unfold rmdir at h
  cases hr : t.resolve path with
  | none => simp [hr] at h
  | some m =>
    simp only [hr] at h
    split at h
    · split at h
      · cases h
        refine ⟨rfl, fun l => ?_⟩
        rw [entry_remove, resolve_lexical hr]
      · cases h
    · cases h

theorem mkdir_within {t u : Tree} {path : List Char} (h : t.mkdir path = some u) :
    t.Within u := by
  unfold mkdir at h
  split at h
  · cases h
  · split at h
    · rename_i n l _ room
      cases h
      refine ⟨rfl, fun m e he => ?_⟩
      rw [entry_add, if_neg]
      · exact he
      · rintro rfl
        rw [room.2] at he
        cases he
    · cases h

theorem isFile_eq_false {t : Tree} {l : Location} (h : t.isFile l = false)
    (there : (t.entry l).isSome) : t.entry l = some .dir := by
  unfold isFile at h
  cases he : t.entry l with
  | none => simp [he] at there
  | some e =>
    cases e with
    | dir => rfl
    | file mtime contents => simp [he] at h

theorem step_entry {t : Tree} {l m : Location} {c : List Char} (h : t.step l c = some m)
    (there : (t.entry l).isSome) : (t.entry m).isSome := by
  unfold step at h
  split at h
  · cases h
  split at h
  · cases h
    exact there
  split at h
  · cases h
    cases l with
    | nil => exact there
    | cons n l =>
      rw [List.tail_cons, entry, t.closed n l there]
      rfl
  split at h
  · cases h
  · simp only [Option.ite_none_right_eq_some, Option.some.injEq] at h
    rw [← h.2]
    exact h.1

theorem step_within {t u : Tree} {l m : Location} {c : List Char} (within : t.Within u)
    (h : t.step l c = some m) (there : (t.entry l).isSome) : u.step l c = some m := by
  have kept : ∀ k, (t.entry k).isSome → (u.entry k).isSome := by
    intro k hk
    obtain ⟨e, he⟩ := Option.isSome_iff_exists.mp hk
    rw [within.2 k e he]
    rfl
  unfold step at h ⊢
  split at h
  · cases h
  rename_i plain
  have dir := isFile_eq_false (Bool.eq_false_iff.mpr plain) there
  have plain' : ¬ u.isFile l = true := by
    rw [isFile, within.2 l _ dir]
    simp
  rw [if_neg plain']
  split at h
  · rename_i self
    rw [if_pos self]
    exact h
  rename_i self
  rw [if_neg self]
  split at h
  · rename_i parent
    rw [if_pos parent]
    exact h
  rename_i parent
  rw [if_neg parent]
  split at h
  · cases h
  · simp only [Option.ite_none_right_eq_some, Option.some.injEq] at h ⊢
    exact ⟨kept _ h.1, h.2⟩

theorem walk_within {t u : Tree} {l m : Location} {cs : List (List Char)} (within : t.Within u)
    (h : t.walk l cs = some m) (there : (t.entry l).isSome) :
    u.walk l cs = some m ∧ (t.entry m).isSome := by
  induction cs generalizing l with
  | nil =>
    cases h
    exact ⟨rfl, there⟩
  | cons c cs ih =>
    obtain ⟨k, hk, rest⟩ := Option.bind_eq_some_iff.mp h
    have := ih rest (step_entry hk there)
    exact ⟨Option.bind_eq_some_iff.mpr ⟨k, step_within within hk there, this.1⟩, this.2⟩

theorem add_within (t : Tree) (n : Name) (l : Location) (e : Entry)
    (parent : t.entry l = some .dir) (fresh : t.entry (n :: l) = none) :
    t.Within (t.add n l e parent fresh) := by
  refine ⟨rfl, fun m d hm => ?_⟩
  rw [entry_add, if_neg]
  · exact hm
  · rintro rfl
    rw [hm] at fresh
    cases fresh

def bare : Tree where
  cwd := []
  entries := [([], .dir)]
  distinct := by simp
  root := rfl
  closed := by
    intro n l h
    simp [lookup_cons] at h

theorem bare_root : bare.entry [] = some .dir := rfl

theorem exists_walk (cs : List (List Char)) (parts : ∀ c ∈ cs, '/' ∉ c) :
    ∃ (t : Tree) (m : Location), t.cwd = [] ∧ (∀ l, t.isFile l = false) ∧
      t.walk [] cs = some m ∧ t.entry m = some .dir := by
  induction cs using List.reverseRecOn with
  | nil =>
    refine ⟨bare, [], rfl, fun l => ?_, rfl, rfl⟩
    cases l <;> rfl
  | append_singleton cs c ih =>
    obtain ⟨t, m, home, plain, led, dir⟩ := ih (fun d hd => parts d (List.mem_append_left _ hd))
    have there : (t.entry m).isSome := by
      rw [dir]
      rfl
    cases h : t.step m c with
    | some k =>
      refine ⟨t, k, home, plain, ?_, isFile_eq_false (plain k) (step_entry h there)⟩
      rw [walk_append, led]
      simp [walk, h]
    | none =>
      have hc := parts c (List.mem_append_right _ (List.mem_singleton.mpr rfl))
      unfold step at h
      rw [plain m] at h
      split at h
      · contradiction
      split at h
      · cases h
      rename_i self
      split at h
      · cases h
      rename_i parent
      rw [not_or] at self
      let n : Name := ⟨c, self.1, hc, self.2, parent⟩
      rw [show Name.ofText c = some n from n.ofText_text] at h
      have fresh : t.entry (n :: m) = none := by simpa using h
      have within := t.add_within n m .dir dir fresh
      refine ⟨t.add n m .dir dir fresh, n :: m, home, ?_, ?_, ?_⟩
      · intro l
        rw [isFile, entry_add]
        split
        · rename_i e same
          split at same
          · cases same
          · have := plain l
            rw [isFile, same] at this
            cases this
        · rfl
      · have root : (t.entry []).isSome := by
          rw [entry, t.root]
          rfl
        rw [walk_append, (walk_within within led root).1]
        have still : (t.add n m .dir dir fresh).isFile m = false := by
          rw [isFile, within.2 m _ dir]
        simp only [Option.bind_some, walk]
        rw [step, if_neg (by simp [still]), if_neg (not_or.mpr self), if_neg parent,
          show Name.ofText c = some n from n.ofText_text]
        simp [entry_add]
      · rw [entry_add, if_pos rfl]

theorem exists_longer (ns : List Name) : ∃ n : Name, ∀ k ∈ ns, k.text.length < n.text.length := by
  let size := ns.foldr (fun n k => n.text.length + k) 3
  have long : ∀ ns : List Name, 3 ≤ ns.foldr (fun n k => n.text.length + k) 3 := by
    intro ns
    induction ns with
    | nil => exact Nat.le_refl 3
    | cons k ns ih => exact Nat.le_trans ih (Nat.le_add_left _ _)
  have bound : ∀ ns : List Name, ∀ n ∈ ns,
      n.text.length < ns.foldr (fun n k => n.text.length + k) 3 := by
    intro ns n hn
    induction ns with
    | nil => cases hn
    | cons k ns ih =>
      rw [List.foldr_cons]
      rcases List.mem_cons.mp hn with rfl | hn
      · have := long ns
        omega
      · have := ih hn
        omega
  have size3 : 3 ≤ size := long ns
  have length : (List.replicate size 'a').length = size := List.length_replicate
  refine ⟨⟨List.replicate size 'a', ?_, ?_, ?_, ?_⟩, ?_⟩
  · intro h
    rw [h] at length
    simp at length
    omega
  · intro h
    exact absurd (List.eq_of_mem_replicate h) (by decide)
  · intro h
    rw [h] at length
    simp at length
    omega
  · intro h
    rw [h] at length
    simp at length
    omega
  · intro k hk
    rw [length]
    exact bound ns k hk

theorem exists_fresh (t : Tree) (l : Location) : ∃ n : Name, t.entry (n :: l) = none := by
  obtain ⟨n, longer⟩ := exists_longer (t.children l)
  refine ⟨n, Option.not_isSome_iff_eq_none.mp ?_⟩
  intro taken
  exact Nat.lt_irrefl _ (longer n ((t.mem_children l n).mpr taken))

/-- A path that is not empty leads, in some tree, to a directory with a file in it,
which is the first of its entries. -/
theorem exists_file_at (path : List Char) (nonempty : path ≠ []) :
    ∃ (t : Tree) (l : Location) (n : Name) (rest : List Name),
      t.resolve path = some l ∧ t.entry l = some .dir ∧
      t.entry (n :: l) = some (.file 0 []) ∧ t.children l = n :: rest := by
  obtain ⟨t, l, home, plain, led, dir⟩ := exists_walk (path.splitOn '/') (LineEdit.avoids_splitOn '/' path)
  obtain ⟨n, fresh⟩ := t.exists_fresh l
  have within := t.add_within n l (.file 0 []) dir fresh
  have root : (t.entry []).isSome := by
    rw [entry, t.root]
    rfl
  refine ⟨t.add n l (.file 0 []) dir fresh, l, n, t.children l, ?_, within.2 l _ dir, ?_, ?_⟩
  · have start : origin (t.add n l (.file 0 []) dir fresh).cwd path = [] := by
      rw [within.1, home, origin, ite_self]
    rw [resolve, if_neg nonempty, start]
    exact (walk_within within led root).1
  · rw [entry_add, if_pos rfl]
  · simp [children, add]

end Tree

end PosixTree
