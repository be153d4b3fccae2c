import Mathlib.Algebra.Order.BigOperators.Group.List
import Mathlib.Algebra.Order.Ring.Nat
import Mathlib.Data.List.Basic

/-! Editing a text line by line, and the substitution of the first match on each line. -/
namespace LineEdit

def lines (text : List Char) : List (List Char) := text.splitOn '\n'

def mapLines (f : List Char → List Char) (text : List Char) : List Char :=
  ['\n'].intercalate ((lines text).map f)

/-- `s!pat!rep!` on one line, for a pattern without special characters. -/
def substitute (pat rep : List Char) : List Char → List Char
  | [] => []
  | c :: s =>
    if pat.isPrefixOf (c :: s) then rep ++ (c :: s).drop pat.length
    else c :: substitute pat rep s

def occurs (pat : List Char) : List Char → Bool
  | [] => false
  | c :: s => pat.isPrefixOf (c :: s) || occurs pat s

/-- The commands of a script are applied to a line one after the other. -/
def script (commands : List (List Char × List Char)) (line : List Char) : List Char :=
  commands.foldl (fun line command => substitute command.1 command.2 line) line

theorem lines_append (a b : List Char) : lines (a ++ '\n' :: b) = lines a ++ lines b :=
  List.splitOn_append_cons_self a b

theorem lines_clean {a : List Char} (clean : '\n' ∉ a) : lines a = [a] :=
  List.splitOn_eq_singleton clean

theorem avoids_splitOn {α : Type*} [BEq α] [LawfulBEq α] (a : α) (s : List α) :
    ∀ c ∈ s.splitOn a, a ∉ c := by
  induction s with
  | nil => simp
  | cons d s ih =>
    rw [List.splitOn_cons_eq_if_modifyHead]
    split
    · intro c hc
      rcases List.mem_cons.mp hc with rfl | hc
      · exact List.not_mem_nil
      · exact ih c hc
    · rename_i other
      cases hs : s.splitOn a with
      | nil => exact absurd hs (List.splitOn_ne_nil a s)
      | cons e es =>
        rw [hs] at ih
        intro c hc
        rcases List.mem_cons.mp hc with rfl | hc
        · have he := ih e List.mem_cons_self
          simp only [List.mem_cons, not_or]
          exact ⟨fun h => other (by simp [← h]), he⟩
        · exact ih c (List.mem_cons_of_mem e hc)

theorem intercalate_append {as bs : List (List Char)} (some_left : as ≠ []) (some_right : bs ≠ []) :
    ['\n'].intercalate (as ++ bs) = ['\n'].intercalate as ++ '\n' :: ['\n'].intercalate bs := by
  induction as with
  | nil => exact absurd rfl some_left
  | cons a as ih =>
    cases as with
    | nil =>
      cases bs with
      | nil => exact absurd rfl some_right
      | cons b bs => simp [List.intercalate_cons_cons]
    | cons a' as =>
      have rest := ih (by simp)
      simp only [List.cons_append, List.intercalate_cons_cons] at rest ⊢
      rw [rest]
      simp

theorem mapLines_append (f : List Char → List Char) (a b : List Char) :
    mapLines f (a ++ '\n' :: b) = mapLines f a ++ '\n' :: mapLines f b := by
  rw [mapLines, lines_append, List.map_append, intercalate_append]
  · rfl
  · rw [Ne, List.map_eq_nil_iff]
    exact List.splitOn_ne_nil '\n' a
  · rw [Ne, List.map_eq_nil_iff]
    exact List.splitOn_ne_nil '\n' b

theorem mapLines_clean (f : List Char → List Char) {a : List Char} (clean : '\n' ∉ a) :
    mapLines f a = f a := by
  simp [mapLines, lines_clean clean]

theorem mapLines_still {f : List Char → List Char} {text : List Char}
    (still : ∀ line ∈ lines text, f line = line) : mapLines f text = text := by
  rw [mapLines, List.map_congr_left still, List.map_id', lines, List.intercalate_splitOn]

theorem length_intercalate (as : List (List Char)) :
    (['\n'].intercalate as).length = (as.map List.length).sum + (as.length - 1) := by
  induction as with
  | nil => rfl
  | cons a as ih =>
    cases as with
    | nil => simp
    | cons a' as =>
      rw [List.intercalate_cons_cons]
      simp only [List.length_append, List.length_cons, List.length_nil, List.map_cons,
        List.sum_cons] at ih ⊢
      omega

theorem length_mapLines {f : List Char → List Char} (same : ∀ line, (f line).length = line.length)
    (text : List Char) : (mapLines f text).length = text.length := by
  have joined : ['\n'].intercalate (text.splitOn '\n') = text := List.intercalate_splitOn '\n'
  have whole := congrArg List.length joined
  rw [length_intercalate] at whole
  rw [mapLines, length_intercalate, List.map_map, List.length_map]
  have each : List.length ∘ f = List.length := funext same
  rw [each]
  exact whole

theorem length_mapLines_le {f : List Char → List Char}
    (longer : ∀ line, line.length ≤ (f line).length) (text : List Char) :
    text.length ≤ (mapLines f text).length := by
  have joined : ['\n'].intercalate (text.splitOn '\n') = text := List.intercalate_splitOn '\n'
  have whole := congrArg List.length joined
  rw [length_intercalate] at whole
  rw [mapLines, length_intercalate, List.map_map, List.length_map]
  have sum : ((lines text).map List.length).sum ≤ ((lines text).map (List.length ∘ f)).sum :=
    List.sum_le_sum (fun line _ => longer line)
  rw [lines] at sum ⊢
  omega

theorem substitute_absent {pat rep s : List Char} (absent : occurs pat s = false) :
    substitute pat rep s = s := by
  induction s with
  | nil => rfl
  | cons c s ih =>
    simp only [occurs, Bool.or_eq_false_iff] at absent
    rw [substitute, absent.1, ih absent.2]
    rfl

/-- Characters other than the first of the pattern are passed over. -/
theorem substitute_skip {c : Char} {pat rep a : List Char} (other : c ∉ a) (s : List Char) :
    substitute (c :: pat) rep (a ++ s) = a ++ substitute (c :: pat) rep s := by
  induction a with
  | nil => rfl
  | cons d a ih =>
    simp only [List.mem_cons, not_or] at other
    have miss : (c :: pat).isPrefixOf (d :: (a ++ s)) = false := by
      simp [List.isPrefixOf, other.1]
    rw [List.cons_append, substitute, miss, ih other.2]
    rfl

theorem substitute_hit {pat : List Char} (nonempty : pat ≠ []) (rep s : List Char) :
    substitute pat rep (pat ++ s) = rep ++ s := by
  cases pat with
  | nil => exact absurd rfl nonempty
  | cons c pat =>
    rw [List.cons_append, substitute, ← List.cons_append, if_pos (by simp)]
    simp

theorem substitute_in {c : Char} {pat rep a : List Char} (starts : pat.head? = some c)
    (other : c ∉ a) (s : List Char) : substitute pat rep (a ++ (pat ++ s)) = a ++ (rep ++ s) := by
  obtain ⟨pat, rfl⟩ := List.head?_eq_some_iff.mp starts
  rw [substitute_skip other, substitute_hit (List.cons_ne_nil c pat)]

theorem substitute_past {c : Char} {pat rep a s : List Char} (starts : pat.head? = some c)
    (other : c ∉ a) (absent : occurs pat s = false) : substitute pat rep (a ++ s) = a ++ s := by
  obtain ⟨pat, rfl⟩ := List.head?_eq_some_iff.mp starts
  rw [substitute_skip other, substitute_absent absent]

theorem length_substitute {pat rep : List Char} (same : rep.length = pat.length) (s : List Char) :
    (substitute pat rep s).length = s.length := by
  induction s with
  | nil => rfl
  | cons c s ih =>
    rw [substitute]
    split
    · rename_i hit
      have bound := (List.isPrefixOf_iff_prefix.mp hit).length_le
      simp only [List.length_append, List.length_drop, List.length_cons] at bound ⊢
      omega
    · simp [ih]

theorem length_substitute_le {pat rep : List Char} (longer : pat.length ≤ rep.length)
    (s : List Char) : s.length ≤ (substitute pat rep s).length := by
  induction s with
  | nil => simp
  | cons c s ih =>
    rw [substitute]
    split
    · simp only [List.length_append, List.length_drop, List.length_cons]
      omega
    · simp only [List.length_cons]
      omega

theorem length_script {commands : List (List Char × List Char)}
    (same : ∀ command ∈ commands, command.2.length = command.1.length) (line : List Char) :
    (script commands line).length = line.length := by
  induction commands generalizing line with
  | nil => rfl
  | cons command commands ih =>
    rw [script, List.foldl_cons]
    rw [← length_substitute (same command List.mem_cons_self) line]
    exact ih (fun other mem => same other (List.mem_cons_of_mem _ mem)) _

theorem length_script_le {commands : List (List Char × List Char)}
    (longer : ∀ command ∈ commands, command.1.length ≤ command.2.length) (line : List Char) :
    line.length ≤ (script commands line).length := by
  induction commands generalizing line with
  | nil => exact Nat.le_refl _
  | cons command commands ih =>
    have first := length_substitute_le (longer command List.mem_cons_self) line
    exact Nat.le_trans first (ih (fun other mem => longer other (List.mem_cons_of_mem _ mem)) _)

theorem script_absent {commands : List (List Char × List Char)} {line : List Char}
    (absent : ∀ command ∈ commands, occurs command.1 line = false) : script commands line = line := by
  induction commands with
  | nil => rfl
  | cons command commands ih =>
    have first : substitute command.1 command.2 line = line :=
      substitute_absent (absent command List.mem_cons_self)
    rw [script, List.foldl_cons, first]
    exact ih fun other mem => absent other (List.mem_cons_of_mem _ mem)

end LineEdit
