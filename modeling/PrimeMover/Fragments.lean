import PrimeMover.Percent

/-! Texts in which percent signs come in pairs: what the two passes of the expansion find
in them. -/
namespace PrimeMover
open LuaPattern

/-- What a text is made of: plain text, `%%`, `%reference%` and `%{code}%`. -/
inductive Fragment where
  | text (s : LuaString)
  | escape
  | reference (r : LuaString)
  | expression (e : LuaString)

def Fragment.render : Fragment → LuaString
  | .text s => s
  | .escape => "%%".toList
  | .reference r => '%' :: (r ++ ['%'])
  | .expression e => '%' :: '{' :: (e ++ ['}', '%'])

def written (fs : List Fragment) : LuaString := fs.flatMap Fragment.render

def Fragment.WellFormed : Fragment → Prop
  | .text s => '%' ∉ s
  | .escape => True
  | .reference r => r ≠ [] ∧ '%' ∉ r
  | .expression e => ∀ a b, e ≠ a ++ '}' :: '%' :: b

/-- The fragment cannot be taken for an expression, nor make one of the sign in front of it. -/
def Fragment.NoBrace : Fragment → Prop
  | .text s => s.head? ≠ some '{'
  | .reference r => r.head? ≠ some '{'
  | _ => True

/-- Both passes see the fragment as it is meant. -/
def Fragment.Readable (f : Fragment) : Prop := f.WellFormed ∧ f.NoBrace

/-- The pass over the references, which comes second, sees it as it is meant. -/
def Fragment.Late : Fragment → Prop
  | .text s => '%' ∉ s ∧ s.head? ≠ some '{'
  | .escape => True
  | .reference r => r ≠ [] ∧ '%' ∉ r
  | .expression _ => False

/-- What the pass over the expressions meets. -/
def Fragment.expressions : Fragment → List Piece
  | .expression e => [.hit [e]]
  | f => f.render.map .char

/-- What the pass over the references meets. -/
def Fragment.references : Fragment → List Piece
  | .text s => s.map .char
  | .escape => [.hit [[]]]
  | .reference r => [.hit [r]]
  | .expression e => (Fragment.expression e).render.map .char

theorem written_cons (f : Fragment) (fs : List Fragment) :
    written (f :: fs) = f.render ++ written fs := rfl

theorem written_append (fs gs : List Fragment) : written (fs ++ gs) = written fs ++ written gs :=
  List.flatMap_append

theorem written_single (f : Fragment) : written [f] = f.render := List.append_nil _

theorem head_written {fs : List Fragment} (readable : ∀ f ∈ fs, f.Readable) :
    (written fs).head? ≠ some '{' := by
  induction fs with
  | nil => exact nofun
  | cons f fs ih =>
    have first := (readable f List.mem_cons_self).2
    have rest := ih fun g hg => readable g (List.mem_cons_of_mem f hg)
    rw [written_cons]
    cases f with
    | text s =>
      cases s with
      | nil => exact rest
      | cons c s => exact first
    | escape => exact nofun
    | reference r => exact nofun
    | expression e => exact nofun

theorem expression_text {s : LuaString} (plain : '%' ∉ s) (t : LuaString) :
    scan expressionPattern (s ++ t) = s.map .char ++ scan expressionPattern t := by
  apply scan_skip expressionPattern rfl
  rintro a c b rfl
  refine match_one_ne '%' c _ _ ?_
  rintro rfl
  simp at plain

/-- A percent sign in front of another character than a brace begins no expression. -/
theorem expression_sign {t : LuaString} (other : t.head? ≠ some '{') :
    scan expressionPattern ('%' :: t) = .char '%' :: scan expressionPattern t := by
  apply scan_miss expressionPattern rfl
  by_contra found
  obtain ⟨b, c, split⟩ := expression_of_match found
  rw [(List.cons.inj split).2] at other
  exact other rfl

/-- An expression does not end where `}%` does not stand. -/
theorem match_unended (x y : Char) (rest : LuaString) (cs : List Capture)
    (other : ¬ (x = '}' ∧ y = '%')) :
    matchItems [.closeCapture, .one (· == '}'), .one (· == '%')] (x :: y :: rest) cs = none := by
  simp only [matchItems, beq_iff_eq]
  by_cases brace : x = '}'
  · rw [if_pos brace, if_neg fun sign => other ⟨brace, sign⟩]
  · rw [if_neg brace]

theorem scan_expression {e : LuaString} (closed : ∀ a b, e ≠ a ++ '}' :: '%' :: b) (t : LuaString) :
    scan expressionPattern ((Fragment.expression e).render ++ t) =
      .hit [e] :: scan expressionPattern t := by
  have text : (Fragment.expression e).render ++ t = '%' :: '{' :: (e ++ '}' :: '%' :: t) := by
    simp [Fragment.render]
  rw [text]
  refine scan_hit expressionPattern rfl _ _ [.closed e] ?_ (by simp; omega)
  change minExpand (fun _ => true) _ (e ++ '}' :: '%' :: t) = _
  apply minExpand_prefix
  · exact fun _ _ => rfl
  · rintro a d b rfl
    rcases b with _ | ⟨c, b⟩
    · exact match_unended d '}' ('%' :: t) _ fun h => absurd h.2 (by decide)
    · refine match_unended d c _ _ ?_
      rintro ⟨rfl, rfl⟩
      exact closed a b rfl
  · simp [matchItems, closeLast]

/-- The fragments are found as they are meant. -/
theorem expressions_found {fs : List Fragment} (readable : ∀ f ∈ fs, f.Readable) :
    scan expressionPattern (written fs) = fs.flatMap Fragment.expressions := by
  induction fs with
  | nil => rfl
  | cons f fs ih =>
    have rest := fun g hg => readable g (List.mem_cons_of_mem f hg)
    have head := head_written rest
    obtain ⟨formed, brace⟩ := readable f List.mem_cons_self
    rw [written_cons, List.flatMap_cons, ← ih rest]
    cases f with
    | text s => exact expression_text formed _
    | escape =>
      change scan expressionPattern ('%' :: '%' :: written fs) = _
      rw [expression_sign (by simp), expression_sign head]
      rfl
    | reference r =>
      have text : (Fragment.reference r).render ++ written fs = '%' :: (r ++ '%' :: written fs) := by
        simp [Fragment.render]
      have inner : (r ++ '%' :: written fs).head? ≠ some '{' := by
        cases r with
        | nil => exact absurd rfl formed.1
        | cons c r => exact brace
      rw [text, expression_sign inner, expression_text formed.2, expression_sign head]
      simp [Fragment.expressions, Fragment.render]
    | expression e => exact scan_expression formed _

theorem references_found {fs : List Fragment} (late : ∀ f ∈ fs, f.Late) :
    scan variablePattern (written fs) = fs.flatMap Fragment.references := by
  induction fs with
  | nil => rfl
  | cons f fs ih =>
    have rest := fun g hg => late g (List.mem_cons_of_mem f hg)
    have formed := late f List.mem_cons_self
    rw [written_cons, List.flatMap_cons, ← ih rest]
    cases f with
    | text s => exact scan_free s _ formed.1
    | escape => exact scan_pair [] _ List.not_mem_nil
    | reference r =>
      have text : (Fragment.reference r).render ++ written fs = '%' :: (r ++ '%' :: written fs) := by
        simp [Fragment.render]
      rw [text, scan_pair r _ formed.2]
      rfl
    | expression e => exact formed.elim

end PrimeMover
