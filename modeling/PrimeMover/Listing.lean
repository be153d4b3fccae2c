import Mathlib.Data.List.Nodup
import Mathlib.Data.List.Perm.Basic

/-! Texts put together from several files, with marks that say where each line comes from. A
listing is one file with other files written out between its lines. -/
namespace SourceListing

/-- The lines of a file, from some line on. A gap stands for a line that is left out, a nested
file stands in the place of one. -/
inductive Listing (A L : Type) where
  | done
  | line (text : L) (rest : Listing A L)
  | gap (rest : Listing A L)
  | nested (file : A) (inside rest : Listing A L)

/-- How marks are written, and how a reader of the text reads a line as a mark. -/
structure Marks (A L : Type) where
  mark : Nat → A → L
  blank : L
  read : L → Option (Nat × A)
  read_mark : ∀ n a, read (mark n a) = some (n, a)
  read_blank : read blank = none

variable {A L : Type} (m : Marks A L)

/-- The text of a listing that starts at line n of a file. -/
def renderFile (file : A) : Nat → Listing A L → List L
  | _, .done => []
  | n, .line text rest => text :: renderFile file (n + 1) rest
  | n, .gap rest => m.blank :: renderFile file (n + 1) rest
  | n, .nested other inside rest =>
    m.mark 1 other :: renderFile other 1 inside ++ m.mark (n + 1) file :: renderFile file (n + 1) rest

/-- A reader that follows the marks gives each other line the place it has come to. -/
def follow : A × Nat → List L → List (L × A × Nat)
  | _, [] => []
  | (file, n), text :: rest =>
    match m.read text with
    | some (k, other) => follow (other, k) rest
    | none => (text, file, n) :: follow (file, n + 1) rest

/-- The lines of a listing with the places they come from. -/
def placed (file : A) : Nat → Listing A L → List (L × A × Nat)
  | _, .done => []
  | n, .line text rest => (text, file, n) :: placed file (n + 1) rest
  | n, .gap rest => (m.blank, file, n) :: placed file (n + 1) rest
  | n, .nested other inside rest => placed other 1 inside ++ placed file (n + 1) rest

/-- The lines of the file itself. -/
def own (file : A) : Nat → Listing A L → List (L × A × Nat)
  | _, .done => []
  | n, .line text rest => (text, file, n) :: own file (n + 1) rest
  | n, .gap rest => (m.blank, file, n) :: own file (n + 1) rest
  | n, .nested _ _ rest => own file (n + 1) rest

/-- The files written out inside a listing, each before those inside it. -/
def nestedFiles : Listing A L → List (A × Listing A L)
  | .done => []
  | .line _ rest | .gap rest => nestedFiles rest
  | .nested other inside rest => (other, inside) :: nestedFiles inside ++ nestedFiles rest

/-- No line of the listing is read as a mark. -/
def Unmarked : Listing A L → Prop
  | .done => True
  | .line text rest => m.read text = none ∧ Unmarked rest
  | .gap rest => Unmarked rest
  | .nested _ inside rest => Unmarked inside ∧ Unmarked rest

/-- The reader finds every line in its place and goes on behind the listing. -/
theorem follow_renderFile (file : A) (n : Nat) (l : Listing A L) (plain : Unmarked m l) :
    ∃ k, ∀ more, follow m (file, n) (renderFile m file n l ++ more) =
      placed m file n l ++ follow m (file, k) more := by
  induction l generalizing file n with
  | done => exact ⟨n, fun more => rfl⟩
  | line text rest ih =>
    obtain ⟨k, later⟩ := ih file (n + 1) plain.2
    refine ⟨k, fun more => ?_⟩
    simp only [renderFile, placed, List.cons_append, follow, plain.1, later]
  | gap rest ih =>
    obtain ⟨k, later⟩ := ih file (n + 1) plain
    refine ⟨k, fun more => ?_⟩
    simp only [renderFile, placed, List.cons_append, follow, m.read_blank, later]
  | nested other inside rest ihInside ihRest =>
    obtain ⟨_, first⟩ := ihInside other 1 plain.1
    obtain ⟨k, later⟩ := ihRest file (n + 1) plain.2
    refine ⟨k, fun more => ?_⟩
    simp only [renderFile, placed, List.cons_append, List.append_assoc, follow, m.read_mark, first,
      later]

/-- Lines without a mark are read on from where the reader is. -/
theorem follow_unmarked (start : A × Nat) (texts : List L)
    (unmarked : ∀ text ∈ texts, m.read text = none) :
    ∃ front k, front.map Prod.fst = texts ∧
      ∀ more, follow m start (texts ++ more) = front ++ follow m (start.1, k) more := by
  obtain ⟨file, n⟩ := start
  induction texts generalizing n with
  | nil => exact ⟨[], n, rfl, fun more => rfl⟩
  | cons text texts ih =>
    obtain ⟨front, k, same, later⟩ :=
      ih (fun t mem => unmarked t (List.mem_cons_of_mem text mem)) (n + 1)
    refine ⟨(text, file, n) :: front, k, by rw [List.map_cons, same], fun more => ?_⟩
    simp only [List.cons_append, follow, unmarked text List.mem_cons_self, later]

/-- Every line belongs to the file or to one of the files inside, once. -/
theorem placed_perm (file : A) (n : Nat) (l : Listing A L) :
    (placed m file n l).Perm
      (own m file n l ++ (nestedFiles l).flatMap (fun e => own m e.1 1 e.2)) := by
  induction l generalizing file n with
  | done => exact .refl _
  | line text rest ih => exact (ih file (n + 1)).cons _
  | gap rest ih => exact (ih file (n + 1)).cons _
  | nested other inside rest ihInside ihRest =>
    have first := ihInside other 1
    have later := ihRest file (n + 1)
    simp only [placed, own, nestedFiles, List.flatMap_cons, List.cons_append, List.flatMap_append]
    refine (first.append later).trans ?_
    have swap := List.perm_append_comm_assoc
      (own m other 1 inside ++ (nestedFiles inside).flatMap (fun e => own m e.1 1 e.2))
      (own m file (n + 1) rest) ((nestedFiles rest).flatMap (fun e => own m e.1 1 e.2))
    simpa only [List.append_assoc] using swap

/-- The lines of a file keep their order. -/
theorem own_sublist (file : A) (n : Nat) (l : Listing A L) :
    (own m file n l).Sublist (placed m file n l) := by
  induction l generalizing file n with
  | done => exact .refl _
  | line text rest ih => exact (ih file (n + 1)).cons_cons _
  | gap rest ih => exact (ih file (n + 1)).cons_cons _
  | nested other inside rest _ ihRest =>
    exact (ihRest file (n + 1)).trans (List.sublist_append_right _ _)

theorem nested_sublist (file : A) (n : Nat) (l : Listing A L) :
    ∀ e ∈ nestedFiles l, (own m e.1 1 e.2).Sublist (placed m file n l) := by
  induction l generalizing file n with
  | done => simp [nestedFiles]
  | line text rest ih => exact fun e mem => (ih file (n + 1) e mem).cons _
  | gap rest ih => exact fun e mem => (ih file (n + 1) e mem).cons _
  | nested other inside rest ihInside ihRest =>
    intro e mem
    simp only [nestedFiles, List.cons_append, List.mem_cons, List.mem_append] at mem
    rcases mem with rfl | deeper | later
    · exact (own_sublist m other 1 inside).trans (List.sublist_append_left _ _)
    · exact (ihInside other 1 e deeper).trans (List.sublist_append_left _ _)
    · exact (ihRest file (n + 1) e later).trans (List.sublist_append_right _ _)

theorem own_lines (file : A) (n : Nat) (l : Listing A L) :
    ∀ p ∈ own m file n l, p.2.1 = file ∧ n ≤ p.2.2 := by
  induction l generalizing n with
  | done => simp [own]
  | line text rest ih | gap rest ih =>
    intro p mem
    rcases List.mem_cons.mp mem with rfl | later
    · exact ⟨rfl, Nat.le_refl n⟩
    · obtain ⟨same, behind⟩ := ih (n + 1) p later
      exact ⟨same, Nat.le_of_succ_le behind⟩
  | nested other inside rest _ ihRest =>
    intro p mem
    obtain ⟨same, behind⟩ := ihRest (n + 1) p mem
    exact ⟨same, Nat.le_of_succ_le behind⟩

theorem own_nodup (file : A) (n : Nat) (l : Listing A L) : (own m file n l).Nodup := by
  induction l generalizing n with
  | done => exact List.nodup_nil
  | line text rest ih | gap rest ih =>
    refine List.nodup_cons.mpr ⟨fun again => ?_, ih (n + 1)⟩
    exact absurd (own_lines m file (n + 1) rest _ again).2 (Nat.not_succ_le_self n)
  | nested other inside rest _ ihRest => exact ihRest (n + 1)

/-- The files written out for a list of files, each before those inside it. -/
def listedFiles (forest : List (A × Listing A L)) : List (A × Listing A L) :=
  forest.flatMap (fun e => e :: nestedFiles e.2)

theorem listedFiles_perm (forest : List (A × Listing A L)) :
    (listedFiles forest).Perm (forest ++ forest.flatMap (fun e => nestedFiles e.2)) := by
  have merged := List.map_append_flatMap_perm forest id (fun e => nestedFiles e.2)
  rw [List.map_id] at merged
  exact merged.symm

/-- The text for a list of files. -/
def renderAll (forest : List (A × Listing A L)) : List L :=
  forest.flatMap (fun e => m.mark 1 e.1 :: renderFile m e.1 1 e.2)

def placedAll (forest : List (A × Listing A L)) : List (L × A × Nat) :=
  forest.flatMap (fun e => placed m e.1 1 e.2)

theorem follow_renderAll (start : A × Nat) (forest : List (A × Listing A L))
    (plain : ∀ e ∈ forest, Unmarked m e.2) :
    follow m start (renderAll m forest) = placedAll m forest := by
  induction forest generalizing start with
  | nil => rfl
  | cons e forest ih =>
    obtain ⟨k, first⟩ := follow_renderFile m e.1 1 e.2 (plain e List.mem_cons_self)
    have later := ih (e.1, k) (fun f mem => plain f (List.mem_cons_of_mem e mem))
    rw [renderAll, List.flatMap_cons, List.cons_append, ← renderAll, follow]
    simp only [m.read_mark, first, later, placedAll, List.flatMap_cons]

theorem placedAll_perm (forest : List (A × Listing A L)) :
    (placedAll m forest).Perm ((listedFiles forest).flatMap (fun e => own m e.1 1 e.2)) := by
  induction forest with
  | nil => exact .refl _
  | cons e forest ih =>
    have both := (placed_perm m e.1 1 e.2).append ih
    simpa only [placedAll, listedFiles, List.flatMap_cons, List.flatMap_append, List.cons_append,
      List.append_assoc] using both

theorem listedFiles_sublist (forest : List (A × Listing A L)) :
    ∀ e ∈ listedFiles forest, (own m e.1 1 e.2).Sublist (placedAll m forest) := by
  intro e mem
  obtain ⟨f, listed, inside⟩ := List.mem_flatMap.mp mem
  have part : (own m e.1 1 e.2).Sublist (placed m f.1 1 f.2) := by
    rcases List.mem_cons.mp inside with rfl | nested
    · exact own_sublist m e.1 1 e.2
    · exact nested_sublist m f.1 1 f.2 e nested
  exact part.trans (List.sublist_flatten_of_mem (List.mem_map_of_mem listed))

/-- A line that a file has of its own stands in the text as often as the file does. -/
theorem placedAll_count [BEq A] [LawfulBEq A] [BEq L] [LawfulBEq L]
    (forest : List (A × Listing A L)) (p : L × A × Nat)
    (has : ∀ e ∈ listedFiles forest, e.1 = p.2.1 → p ∈ own m e.1 1 e.2) :
    (placedAll m forest).count p = ((listedFiles forest).map Prod.fst).count p.2.1 := by
  rw [(placedAll_perm m forest).count_eq]
  generalize listedFiles forest = files at has
  induction files with
  | nil => rfl
  | cons e files ih =>
    have later := ih (fun f mem => has f (List.mem_cons_of_mem e mem))
    rw [List.flatMap_cons, List.count_append, later, List.map_cons, List.count_cons]
    by_cases same : e.1 = p.2.1
    · have once := List.count_eq_one_of_mem (own_nodup m e.1 1 e.2) (has e List.mem_cons_self same)
      rw [once, if_pos (beq_iff_eq.mpr same), Nat.add_comm]
    · have absent : p ∉ own m e.1 1 e.2 := fun mem => same (own_lines m e.1 1 e.2 p mem).1.symm
      rw [List.count_eq_zero_of_not_mem absent, if_neg (fun h => same (beq_iff_eq.mp h)), Nat.zero_add,
        Nat.add_zero]

end SourceListing
