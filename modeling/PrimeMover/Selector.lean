import PrimeMover.Index
import PrimeMover.Percent
import PrimeMover.Rendering

/-! Selectors on lists: what `%name[a-b]%` picks, and how it compares with the range that a
node of the class `ith` picks from its inputs. -/
namespace PrimeMover
open LuaPattern Outcome

variable {W : Type}

/-- One or more decimal digits. -/
structure Numeral where
  text : LuaString
  nonempty : text ≠ []
  digits : ∀ c ∈ text, c.isDigit = true

def Numeral.value (d : Numeral) : Nat := Nat.ofDigitChars 10 d.text 0

/-- What stands between the brackets: one place, or a range with or without its bounds. -/
inductive Selector where
  | single (a : Numeral)
  | range (a b : Option Numeral)

def Selector.render : Selector → LuaString
  | .single a => '[' :: (a.text ++ [']'])
  | .range a b => '[' :: ((a.map Numeral.text).getD [] ++ '-' :: ((b.map Numeral.text).getD [] ++ [']']))

def Selector.first : Selector → Nat
  | .single a => a.value
  | .range a _ => (a.map Numeral.value).getD 1

/-- The last place, in a list of `n` elements. -/
def Selector.last (n : Nat) : Selector → Nat
  | .single a => a.value
  | .range _ b => (b.map Numeral.value).getD n

theorem find_colon_free {reference : LuaString} (free : ':' ∉ reference) :
    find colonPattern reference = some [reference, []] := by
  refine find_of_match (show _ = some ([], [reference, []].map .closed) from ?_)
  refine match_capture_all [] reference ?_ rfl
  intro c hc
  exact bne_iff_ne.mpr fun same => free (same ▸ hc)

/-- A hyphen ends the first bound. -/
theorem find_selector_range {name a b : LuaString} (hname : '[' ∉ name)
    (ha : ∀ c ∈ a, c ≠ '-' ∧ c ≠ ']') (hb : ']' ∉ b) :
    find selectorPattern (name ++ '[' :: (a ++ '-' :: (b ++ [']']))) =
      some [name, a, ['-'], b] := by
  refine find_of_match (show _ = some ([], [name, a, ['-'], b].map .closed) from ?_)
  refine match_capture [] name ?_ rfl (match_opt rfl ?_)
  · intro c hc
    exact bne_iff_ne.mpr fun same => hname (same ▸ hc)
  · refine match_capture [name] a ?_ rfl (match_capture_one [name, a] rfl ?_)
    · intro c hc
      simpa using ha c hc
    · refine match_capture [name, a, ['-']] b ?_ rfl (match_opt rfl rfl)
      intro c hc
      exact bne_iff_ne.mpr fun same => hb (same ▸ hc)

theorem find_selector_single {name a : LuaString} (hname : '[' ∉ name)
    (ha : ∀ c ∈ a, c ≠ '-' ∧ c ≠ ']') :
    find selectorPattern (name ++ '[' :: (a ++ [']'])) = some [name, a, [], []] := by
  refine find_of_match (show _ = some ([], [name, a, [], []].map .closed) from ?_)
  refine match_capture [] name ?_ rfl (match_opt rfl ?_)
  · intro c hc
    exact bne_iff_ne.mpr fun same => hname (same ▸ hc)
  · refine match_capture [name] a ?_ rfl (match_capture_absent [name, a] rfl ?_)
    · intro c hc
      simpa using ha c hc
    · exact match_capture [name, a, []] [] (by simp) rfl (match_opt rfl rfl)

/-- What a reference with these parts stands for. -/
theorem expandVariable_parts {cfg : Settings W} {fields : Fields} {scope : List Obj} {self : Obj}
    {reference name a h b : LuaString} {v : Value} (free : ':' ∉ reference) (some : reference ≠ [])
    (parts : find selectorPattern reference = Option.some [name, a, h, b])
    (found : index fields scope self cfg.fuel name = .ok (Option.some v))
    (isTrue : truthy (Option.some v) = Option.some v) :
    expandVariable cfg fields scope self reference =
      select fields self name a h b v >>= fun picked => rendertable (Option.some picked) := by
  simp only [expandVariable, if_neg some, find_colon_free free, parts, found, bind, Except.bind,
    isTrue, if_true]

theorem truthy_table {v : Value} {vs : List Value} (items : v.items = some vs) :
    truthy (some v) = some v := by
  cases v with
  | bool b => cases items
  | _ => rfl

/-- The outcome of a selection from `vs` with the bounds `lo` and `hi`. -/
def Selects (r : Except Stop Value) (vs : List Value) (lo hi : Int) : Prop :=
  (1 ≤ lo ∧ lo ≤ hi ∧ hi ≤ vs.length → r = .ok (.list ((vs.take hi.toNat).drop (lo.toNat - 1)))) ∧
  (¬ (1 ≤ lo ∧ lo ≤ hi ∧ hi ≤ vs.length) → ∃ message, r = .error (.exit message))

theorem select_range (fields : Fields) (self : Obj) (name a b : LuaString) {v : Value}
    {vs : List Value} (items : v.items = some vs) :
    Selects (select fields self name a ['-'] b v) vs ((tointeger a).getD 1)
      ((tointeger b).getD vs.length) := by
  have hyphen : ¬ (a = [] ∧ ['-'] = ([] : LuaString) ∧ b = []) := fun h => nomatch h.2.1
  simp only [Selects, select, if_neg hyphen, items]
  simp only [ne_eq, reduceCtorEq, not_false_eq_true, if_true]
  constructor
  · rintro ⟨first, order, last⟩
    rw [if_neg (by omega)]
  · intro outside
    rw [if_pos (by omega)]
    exact ⟨_, rfl⟩

theorem select_single (fields : Fields) (self : Obj) (name a : LuaString) {v : Value}
    {vs : List Value} (items : v.items = some vs) {lo : Int} (number : tointeger a = some lo) :
    Selects (select fields self name a [] [] v) vs lo lo := by
  have nonempty : a ≠ [] := by
    rintro rfl
    cases number
  have absent : tointeger [] = none := rfl
  simp only [Selects, select, and_true, if_neg nonempty, items, number, absent]
  simp only [ne_eq, not_true_eq_false, if_false, Option.map_some, Option.getD_none]
  constructor
  · rintro ⟨first, order, last⟩
    rw [if_neg (by omega)]
  · intro outside
    rw [if_pos (by omega)]
    exact ⟨_, rfl⟩

theorem Numeral.tointeger_text (d : Numeral) : tointeger d.text = some (d.value : Int) := by
  have digits : tonumber d.text = some d.value :=
    if_pos ⟨d.nonempty, List.all_eq_true.mpr d.digits⟩
  rw [tointeger_digits d.digits, digits]
  rfl

theorem Numeral.plain (d : Numeral) : ∀ c ∈ d.text, c ≠ '-' ∧ c ≠ ']' := by
  intro c hc
  have digit := d.digits c hc
  constructor
  · rintro rfl
    exact absurd digit (by decide)
  · rintro rfl
    exact absurd digit (by decide)

/-- The digits of a bound, or nothing. -/
theorem bound_plain (a : Option Numeral) : ∀ c ∈ (a.map Numeral.text).getD [], c ≠ '-' ∧ c ≠ ']' := by
  cases a with
  | none => exact fun c hc => nomatch hc
  | some d => exact d.plain

theorem tointeger_bound (a : Option Numeral) :
    tointeger ((a.map Numeral.text).getD []) = a.map fun d => (d.value : Int) := by
  cases a with
  | none => rfl
  | some d => exact d.tointeger_text

/-- Every character of a reference with a selector is one of these. -/
theorem Selector.chars (sel : Selector) : ∀ c ∈ sel.render,
    c.isDigit = true ∨ c = '[' ∨ c = ']' ∨ c = '-' := by
  have bound : ∀ a : Option Numeral, ∀ c ∈ (a.map Numeral.text).getD [], c.isDigit = true := by
    intro a
    cases a with
    | none => exact fun c hc => nomatch hc
    | some d => exact d.digits
  intro c hc
  cases sel with
  | single a =>
    simp only [Selector.render, List.mem_cons, List.mem_append, List.not_mem_nil, or_false] at hc
    rcases hc with rfl | digit | rfl
    · exact Or.inr (Or.inl rfl)
    · exact Or.inl (a.digits c digit)
    · exact Or.inr (Or.inr (Or.inl rfl))
  | range a b =>
    simp only [Selector.render, List.mem_cons, List.mem_append, List.not_mem_nil, or_false] at hc
    rcases hc with rfl | digit | rfl | digit | rfl
    · exact Or.inr (Or.inl rfl)
    · exact Or.inl (bound a c digit)
    · exact Or.inr (Or.inr (Or.inr rfl))
    · exact Or.inl (bound b c digit)
    · exact Or.inr (Or.inr (Or.inl rfl))

theorem Selector.free (sel : Selector) {c : Char} (digit : c.isDigit = false)
    (other : c ≠ '[' ∧ c ≠ ']' ∧ c ≠ '-') : c ∉ sel.render := by
  intro there
  rcases sel.chars c there with h | h | h | h
  · rw [digit] at h
    cases h
  · exact other.1 h
  · exact other.2.1 h
  · exact other.2.2 h

theorem Word.free {name : LuaString} (word : Word name) {c : Char} (other : c.isAlphanum = false)
    (notUnderscore : c ≠ '_') : c ∉ name := fun there => by
  simpa using word.avoid c other notUnderscore c there

/-- What the reference with the selector is replaced by. -/
theorem expandVariable_selector {cfg : Settings W} {fields : Fields} {scope : List Obj} {self : Obj}
    {name : LuaString} {v : Value} {vs : List Value} (word : Word name)
    (found : index fields scope self cfg.fuel name = .ok (some v)) (items : v.items = some vs)
    (sel : Selector) : ∃ r, Selects r vs sel.first (sel.last vs.length) ∧
      expandVariable cfg fields scope self (name ++ sel.render) =
        r >>= fun picked => rendertable (some picked) := by
  have free : ':' ∉ name ++ sel.render := by
    rw [List.mem_append, not_or]
    exact ⟨word.free (by decide) (by decide), sel.free (by decide) (by decide)⟩
  have nonempty : name ++ sel.render ≠ [] := fun h => word.1 (List.append_eq_nil_iff.mp h).1
  have bracket := word.free (c := '[') (by decide) (by decide)
  have isTrue := truthy_table items
  cases sel with
  | single a =>
    have parts := find_selector_single bracket a.plain
    exact ⟨_, select_single fields self name a.text items a.tointeger_text,
      expandVariable_parts free nonempty parts found isTrue⟩
  | range a b =>
    have parts := find_selector_range bracket (bound_plain a) fun h => (bound_plain b _ h).2 rfl
    have picks := select_range fields self name ((a.map Numeral.text).getD [])
      ((b.map Numeral.text).getD []) items
    rw [tointeger_bound, tointeger_bound] at picks
    refine ⟨_, ?_, expandVariable_parts free nonempty parts found isTrue⟩
    cases a <;> cases b <;> exact picks

/-- The template that is one reference. -/
def whole (reference : LuaString) : LuaString := '%' :: (reference ++ ['%'])

section Whole

variable {cfg : Settings W} {fields : Fields} {scope : List Obj} {self : Obj}
  {reference : LuaString}

theorem whole_plain (percent : '%' ∉ reference) (brace : reference.head? ≠ some '{') :
    ¬ HasExpression (whole reference) := by
  rintro ⟨a, b, c, split⟩
  have signs := congrArg (List.count '%') split
  have absent := List.count_eq_zero.mpr percent
  rcases a with _ | ⟨d, a⟩
  · have behind := (List.cons.inj split).2
    cases reference with
    | nil => simp at behind
    | cons e reference =>
      rw [(List.cons.inj behind).1] at brace
      exact brace rfl
  · rw [← (List.cons.inj split).1] at signs
    simp [whole, List.count_append, absent] at signs
    omega

theorem whole_pass (percent : '%' ∉ reference) (brace : reference.head? ≠ some '{') (fuel : Nat) :
    expandLoop cfg fields scope self (fuel + 1) (whole reference) =
      expandVariable cfg fields scope self reference >>= fun text =>
        expandLoop cfg fields scope self fuel text := by
  have plain := scan_noExpression (whole_plain percent brace)
  have clear := hits_chars (whole reference) []
  rw [List.append_nil, hits_nil] at clear
  have one := scan_pair reference [] percent
  have pieces : scan variablePattern (whole reference) = [.hit [reference]] := by
    rw [whole, one, scan_nil variablePattern rfl]
  rw [expandLoop]
  simp only [plain, replaceM_chars, bind, Except.bind, pieces, clear]
  simp only [replaceM, captured, List.headD_cons, bind, Except.bind]
  cases expandVariable cfg fields scope self reference with
  | error e => rfl
  | ok text =>
    simp only [List.append_nil]
    rfl

theorem whole_stops (enough : 1 ≤ cfg.fuel) (percent : '%' ∉ reference)
    (brace : reference.head? ≠ some '{')
    {e : Stop} (value : expandVariable cfg fields scope self reference = .error e) :
    expandText cfg fields scope self (whole reference) = .error e := by
  obtain ⟨fuel, hfuel⟩ := Nat.exists_eq_add_of_le' enough
  rw [expandText, hfuel, whole_pass percent brace, value]
  rfl

theorem whole_expands (enough : 2 ≤ cfg.fuel) (percent : '%' ∉ reference)
    (brace : reference.head? ≠ some '{')
    {text : LuaString} (value : expandVariable cfg fields scope self reference = .ok text)
    (few : text.count '%' < 2) :
    expandText cfg fields scope self (whole reference) = .ok (restore text) := by
  obtain ⟨fuel, hfuel⟩ := Nat.exists_eq_add_of_le' enough
  have second : expandLoop cfg fields scope self (fuel + 1) text = .ok (restore text) :=
    expandLoop_unpaired few fuel
  rw [expandText, hfuel, whole_pass percent brace, value]
  exact second

end Whole

theorem split_range {A : Type} {l : List A} {lo hi : Nat} (one : 1 ≤ lo) (order : lo ≤ hi)
    (last : hi ≤ l.length) : ∃ before picked after, l = before ++ (picked ++ after) ∧
      before.length + 1 = lo ∧ before.length + picked.length = hi ∧
      (l.take hi).drop (lo - 1) = picked := by
  have front : (l.take hi).take (lo - 1) ++ (l.take hi).drop (lo - 1) = l.take hi :=
    List.take_append_drop _ _
  refine ⟨(l.take hi).take (lo - 1), (l.take hi).drop (lo - 1), l.drop hi, ?_, ?_, ?_, rfl⟩
  · rw [← List.append_assoc, front, List.take_append_drop]
  · simp only [List.length_take]
    omega
  · simp only [List.length_take, List.length_drop]
    omega

/-- A reference with a selector becomes the rendering of the chosen elements, in which every
sentinel stands for a percent sign. -/
theorem selector_expands {fields : Fields} {scope : List Obj} {self : Obj} {name : LuaString}
    {v : Value} {strs : List LuaString} (word : Word name)
    (found : Defined fields scope self name v) (items : v.items = some (strs.map .str))
    (noPercent : ∀ s ∈ strs, '%' ∉ s) (sel : Selector) :
    ∃ enough, ∀ cfg : Settings W, enough ≤ cfg.fuel →
      (1 ≤ sel.first ∧ sel.first ≤ sel.last strs.length ∧ sel.last strs.length ≤ strs.length →
        ∃ before picked after text, strs = before ++ (picked ++ after) ∧
          before.length + 1 = sel.first ∧ before.length + picked.length = sel.last strs.length ∧
          rendertable (some (strings picked)) = .ok text ∧
          expandText cfg fields scope self (whole (name ++ sel.render)) = .ok (restore text)) ∧
      (¬ (1 ≤ sel.first ∧ sel.first ≤ sel.last strs.length ∧
          sel.last strs.length ≤ strs.length) →
        ∃ message, expandText cfg fields scope self (whole (name ++ sel.render)) =
          .error (.exit message)) := by
  obtain ⟨n, found⟩ := found
  have percent : '%' ∉ name ++ sel.render := by
    rw [List.mem_append, not_or]
    exact ⟨word.noPercent, sel.free (by decide) (by decide)⟩
  have brace : (name ++ sel.render).head? ≠ some '{' := by
    intro first
    have there := List.mem_append.mp (List.mem_of_mem_head? first)
    exact there.elim (word.free (by decide) (by decide)) (sel.free (by decide) (by decide))
  refine ⟨n + 2, fun cfg enough => ?_⟩
  obtain ⟨r, ⟨within, outside⟩, value⟩ :=
    expandVariable_selector word (found cfg.fuel (by omega)) items sel
  rw [List.length_map] at within outside
  constructor
  · rintro ⟨one, order, last⟩
    have picked := within ⟨by omega, by omega, by omega⟩
    rw [picked, Int.toNat_natCast, Int.toNat_natCast, ← List.map_take, ← List.map_drop] at value
    obtain ⟨before, picked, after, split, front, back, chosen⟩ := split_range one order last
    rw [chosen] at value
    have rendered := rendertable_strings picked
    refine ⟨before, picked, after, _, split, front, back, rendered, ?_⟩
    refine whole_expands (by omega) percent brace (value.trans rendered) ?_
    have absent : (PosixShell.quoted picked).count '%' = 0 := by
      rw [PosixShell.count_quoted (by decide) (by decide) (by decide), List.count_eq_zero]
      intro there
      obtain ⟨s, hs, sign⟩ := List.mem_flatten.mp there
      have member : s ∈ strs := split ▸ List.mem_append_right before (List.mem_append_left after hs)
      exact noPercent s member sign
    omega
  · intro out
    obtain ⟨message, stopped⟩ := outside (by omega)
    rw [stopped] at value
    exact ⟨message, whole_stops (by omega) percent brace value⟩

def one : Numeral := ⟨"1".toList, by decide, List.all_eq_true.mp (by decide)⟩

def markerNode : Obj := ⟨0, [("L".toList, strings [PERCENT])]⟩

theorem markerNode_defined : Defined (fun _ _ => none) [] markerNode "L".toList (strings [PERCENT]) :=
  ⟨0, fun fuel _ => by cases fuel <;> rfl⟩

theorem marker_selected : ∃ enough, ∀ cfg : Settings Desk, enough ≤ cfg.fuel →
    (1 ≤ 1 ∧ 1 ≤ 1 ∧ 1 ≤ 1 →
      ∃ before picked after text, [PERCENT] = before ++ (picked ++ after) ∧
        before.length + 1 = 1 ∧ before.length + picked.length = 1 ∧
        rendertable (some (strings picked)) = .ok text ∧
        expandText cfg (fun _ _ => none) [] markerNode (whole "L[1]".toList) = .ok (restore text)) ∧
    (¬ (1 ≤ 1 ∧ 1 ≤ 1 ∧ 1 ≤ 1) →
      ∃ message, expandText cfg (fun _ _ => none) [] markerNode (whole "L[1]".toList) =
        .error (.exit message)) :=
  selector_expands (Word.of_check (by decide) (by decide)) markerNode_defined rfl (by decide) (.single one)

theorem marker_expands (cfg : Settings Desk) (enough : 2 ≤ cfg.fuel) :
    expandText cfg (fun _ _ => none) [] markerNode (whole "L[1]".toList) = .ok "\"%\"".toList := by
  have found : index (fun _ _ => none) [] markerNode cfg.fuel "L".toList =
      .ok (some (strings [PERCENT])) := by cases cfg.fuel <;> rfl
  have parts : find selectorPattern "L[1]".toList = some ["L".toList, one.text, [], []] := by
    decide +kernel
  have value := expandVariable_parts (by decide) (by decide) parts found rfl
  exact whole_expands enough (by decide) (by decide) value (by decide)

/-- An element that holds the sentinel of the expansion does not come through. -/
theorem marker_replaced :
    expandText oneDesk (fun _ _ => none) [] markerNode (whole "L[1]".toList) = .ok "\"%\"".toList ∧
      ¬ ∀ (fields : Fields) (scope : List Obj) (self : Obj) (name : LuaString) (v : Value)
        (strs : List LuaString), Word name → Defined fields scope self name v →
        v.items = some (strs.map .str) → (∀ s ∈ strs, '%' ∉ s) → ∀ sel : Selector,
        ∃ enough, ∀ cfg : Settings Desk, enough ≤ cfg.fuel →
          (1 ≤ sel.first ∧ sel.first ≤ sel.last strs.length ∧ sel.last strs.length ≤ strs.length →
            ∃ before picked after, strs = before ++ (picked ++ after) ∧
              before.length + 1 = sel.first ∧
              before.length + picked.length = sel.last strs.length ∧
              expandText cfg fields scope self (whole (name ++ sel.render)) =
                rendertable (some (strings picked))) ∧
          (¬ (1 ≤ sel.first ∧ sel.first ≤ sel.last strs.length ∧
              sel.last strs.length ≤ strs.length) →
            ∃ message, expandText cfg fields scope self (whole (name ++ sel.render)) =
              .error (.exit message)) := by
  refine ⟨marker_expands oneDesk (by decide), fun all => ?_⟩
  obtain ⟨enough, holds⟩ := all _ [] markerNode "L".toList _ [PERCENT]
    (Word.of_check (by decide) (by decide)) markerNode_defined rfl (by decide) (.single one)
  let cfg : Settings Desk := { oneDesk with fuel := enough + 2 }
  obtain ⟨before, picked, after, split, front, back, same⟩ :=
    (holds cfg (Nat.le_add_right _ _)).1 (by decide)
  have number : one.value = 1 := rfl
  simp only [Selector.first, Selector.last, number] at front back
  have chosen : picked = [PERCENT] := by
    rcases before with _ | ⟨b, before⟩
    · rcases picked with _ | ⟨p, _ | ⟨q, picked⟩⟩
      · cases back
      · exact congrArg (fun s => [s]) (List.cons.inj split).1.symm
      · cases split
    · rw [List.length_cons] at front
      omega
  rw [chosen] at same
  exact absurd ((marker_expands cfg (Nat.le_add_left _ _)).symm.trans same) (by decide)

/-- The digits of a number, as a numeral. -/
def numeral (n : Nat) : Numeral := ⟨decimal n, Nat.toDigits_ne_nil, decimal_digits n⟩

/-- Behind its digits a numeral takes no hyphen. -/
theorem tointeger_hyphen (d : Numeral) (rest : LuaString) :
    tointeger (d.text ++ '-' :: rest) = none := by
  have bad : tonumber (d.text ++ '-' :: rest) = none := by
    refine if_neg fun h => ?_
    have digit := List.all_eq_true.mp h.2 '-' (by simp)
    exact absurd digit (by decide)
  unfold tointeger
  split
  · rename_i tail same
    rcases head : d.text with _ | ⟨c, text⟩
    · exact absurd head d.nonempty
    · rw [head] at same
      have minus : c = '-' := (List.cons.inj same).1
      exact absurd (d.digits c (head ▸ List.mem_cons_self)) (minus ▸ by decide)
  · rw [bad]
    rfl

/-- The text of a bound that is an integer, or nothing. -/
def boundText (a : Option Int) : LuaString := (a.map integer).getD []

def rangeText (a b : Option Int) : LuaString := '[' :: (boundText a ++ '-' :: (boundText b ++ [']']))

theorem boundText_free {c : Char} (digit : c.isDigit = false) (other : c ≠ '-') (a : Option Int) :
    c ∉ boundText a := by
  intro there
  cases a with
  | none => cases there
  | some x =>
    rcases integer_chars x c there with h | h
    · rw [digit] at h
      cases h
    · exact other h

theorem tointeger_boundText (a : Option Int) : tointeger (boundText a) = a := by
  cases a with
  | none => rfl
  | some x => exact tointeger_integer x

/-- The bounds a selector takes from the text of two integers: the hyphen of a negative first
bound is the one between the bounds, and what follows is no number. -/
theorem expandVariable_range {cfg : Settings W} {fields : Fields} {scope : List Obj} {self : Obj}
    {name : LuaString} {v : Value} {vs : List Value} (word : Word name)
    (found : index fields scope self cfg.fuel name = .ok (some v)) (items : v.items = some vs)
    (a b : Option Int) : ∃ r, expandVariable cfg fields scope self (name ++ rangeText a b) =
        (r >>= fun picked => rendertable (some picked)) ∧
      ((∃ x ∈ a, x < 0) → Selects r vs 1 vs.length) ∧
      ((∀ x ∈ a, 0 ≤ x) → Selects r vs (a.getD 1) (b.getD vs.length)) := by
  have free : ':' ∉ name ++ rangeText a b := by
    have first := boundText_free (c := ':') (by decide) (by decide) a
    have second := boundText_free (c := ':') (by decide) (by decide) b
    have before := word.free (c := ':') (by decide) (by decide)
    simp [rangeText, first, second, before]
  have nonempty : name ++ rangeText a b ≠ [] := fun h => word.1 (List.append_eq_nil_iff.mp h).1
  have bracket := word.free (c := '[') (by decide) (by decide)
  have last := boundText_free (c := ']') (by decide) (by decide) b
  have isTrue := truthy_table items
  by_cases negative : ∃ x ∈ a, x < 0
  · obtain ⟨x, rfl, below⟩ := negative
    cases x with
    | ofNat n => exact absurd below (by simp)
    | negSucc n =>
      have behind : ']' ∉ decimal (n + 1) ++ '-' :: boundText b := by
        rw [List.mem_append, List.mem_cons]
        rintro (digit | hyphen | behind)
        · exact absurd (decimal_digits (n + 1) _ digit) (by decide)
        · cases hyphen
        · exact last behind
      have parts := find_selector_range (a := []) bracket nofun behind
      have same : name ++ rangeText (some (Int.negSucc n)) b =
          name ++ '[' :: ([] ++ '-' :: ((decimal (n + 1) ++ '-' :: boundText b) ++ [']'])) := by
        simp [rangeText, boundText, integer]
      rw [← same] at parts
      refine ⟨_, expandVariable_parts free nonempty parts found isTrue, fun _ => ?_, fun all => ?_⟩
      · have picks := select_range fields self name [] (decimal (n + 1) ++ '-' :: boundText b) items
        rw [show decimal (n + 1) = (numeral (n + 1)).text from rfl, tointeger_hyphen] at picks
        exact picks
      · exact absurd (all _ rfl) (by simp)
  · have plain : ∀ c ∈ boundText a, c ≠ '-' ∧ c ≠ ']' := by
      intro c hc
      cases a with
      | none => cases hc
      | some x =>
        cases x with
        | ofNat n => exact (numeral n).plain c hc
        | negSucc n => exact absurd ⟨_, rfl, Int.negSucc_lt_zero n⟩ negative
    have parts := find_selector_range bracket plain last
    have picks := select_range fields self name (boundText a) (boundText b) items
    rw [tointeger_boundText, tointeger_boundText] at picks
    exact ⟨_, expandVariable_parts free nonempty parts found isTrue,
      fun h => absurd h negative, fun _ => picks⟩

/-- A property that is this number of Lua, or is left out. -/
structure HasNumber (fields : Fields) (o : Obj) (key : LuaString) (a : Option Int) : Prop where
  value : rawget fields o key = a.map fun x => .num (integer x)
  holds : ∀ x ∈ a, luaNumber x = x

theorem HasNumber.bound {s : State W} {node : Obj} {key : LuaString} {a : Option Int}
    (has : HasNumber s.mem.fields node key a) (default : Int) :
    ithBound node key default s = .ok (a.getD default) s := by
  have read : getField node key s = .ok (a.map fun x => .num (integer x)) s := by
    rw [← has.value]
    rfl
  rw [ithBound, bind_ok_run read]
  cases a with
  | none => rfl
  | some x =>
    simp only [Option.map_some, truthy, tointeger_integer, Option.getD_some]
    rfl

theorem HasNumber.ensured {s : State W} {node : Obj} {key : LuaString} {a : Option Int}
    (has : HasNumber s.mem.fields node key a) : ensureNumber node key s = .ok () s := by
  have read : getField node key s = .ok (a.map fun x => .num (integer x)) s := by
    rw [← has.value]
    rfl
  rw [ensureNumber, bind_ok_run read]
  cases a with
  | none => rfl
  | some x => rfl

/-- What `ith { children, from = a, to = b }` selects. -/
def ithRange (node : Obj) (inputs : List LuaString) : PM W (List LuaString) := do
  initIth node
  ithOutputs node inputs

theorem ithRange_run {s : State W} {node : Obj} {a b : Option Int}
    (noI : truthy (rawget s.mem.fields node "i".toList) = none)
    (hfrom : HasNumber s.mem.fields node "from".toList a)
    (hto : HasNumber s.mem.fields node "to".toList b) (inputs : List LuaString) :
    (1 ≤ a.getD 1 ∧ b.getD inputs.length ≤ inputs.length → ithRange node inputs s =
      .ok ((inputs.take (b.getD inputs.length).toNat).drop ((a.getD 1).toNat - 1)) s) ∧
    (¬ (1 ≤ a.getD 1 ∧ b.getD inputs.length ≤ inputs.length) →
      ∃ message, ithRange node inputs s = .error (.exit message) s) := by
  have field : getField node "i".toList s = .ok (rawget s.mem.fields node "i".toList) s := rfl
  have first : initI node s = .ok () s := by
    rw [initI, bind_ok_run field, noI]
    rfl
  have init : initIth node s = .ok () s := by
    rw [initIth, bind_ok_run first, bind_ok_run hfrom.ensured, hto.ensured]
  rw [ithRange, bind_ok_run init, ithOutputs, bind_ok_run (hfrom.bound 1),
    bind_ok_run (hto.bound inputs.length)]
  constructor
  · rintro ⟨first, last⟩
    rw [if_neg (by omega)]
    rfl
  · intro outside
    rw [if_pos (by omega)]
    exact ⟨_, rfl⟩

/-- Both report an error, or the reference stands for the elements that the node picks. -/
def SamePicks (picks : EStateM.Result Stop (State W) (List LuaString))
    (stands : Except Stop LuaString) : Prop :=
  (∃ picked s, picks = .ok picked s ∧ stands = rendertable (some (strings picked))) ∨
  (∃ m m' s, picks = .error (.exit m) s ∧ stands = .error (.exit m'))

theorem samePicks_ok {picks : EStateM.Result Stop (State W) (List LuaString)} {t : State W}
    {picked : List LuaString} (accepted : picks = .ok picked t) (stands : Except Stop LuaString) :
    SamePicks picks stands ↔ stands = rendertable (some (strings picked)) := by
  constructor
  · rintro (⟨_, _, same, value⟩ | ⟨_, _, _, same, _⟩)
    · cases accepted.symm.trans same
      exact value
    · cases accepted.symm.trans same
  · intro value
    exact Or.inl ⟨picked, t, accepted, value⟩

theorem samePicks_error {picks : EStateM.Result Stop (State W) (List LuaString)} {t : State W}
    {message : LuaString} (rejected : picks = .error (.exit message) t)
    (stands : Except Stop LuaString) : SamePicks picks stands ↔ ∃ m, stands = .error (.exit m) := by
  constructor
  · rintro (⟨_, _, same, _⟩ | ⟨_, m, _, _, value⟩)
    · cases rejected.symm.trans same
    · exact ⟨m, value⟩
  · rintro ⟨m, value⟩
    exact Or.inr ⟨message, m, t, rejected, value⟩

theorem strings_bind (inputs : List LuaString) (lo hi : Nat) :
    ((.ok (.list (((inputs.map Value.str).take hi).drop lo)) : Except Stop Value) >>=
      fun picked => rendertable (some picked)) =
        rendertable (some (strings ((inputs.take hi).drop lo))) := by
  rw [strings, List.map_drop, List.map_take]
  rfl

/-- Only the selector rejects a range whose end lies before its start, and only the node sees
a first bound that is negative. -/
theorem ranges_agree {cfg : Settings W} {fields : Fields} {scope : List Obj} {self : Obj}
    {name : LuaString} {v : Value} {inputs : List LuaString} (word : Word name)
    (found : index fields scope self cfg.fuel name = .ok (some v))
    (items : v.items = some (inputs.map .str)) {s : State W} {node : Obj} {a b : Option Int}
    (noI : truthy (rawget s.mem.fields node "i".toList) = none)
    (hfrom : HasNumber s.mem.fields node "from".toList a)
    (hto : HasNumber s.mem.fields node "to".toList b) :
    SamePicks (ithRange node inputs s)
        (expandVariable cfg fields scope self (name ++ rangeText a b)) ↔
      (∀ x ∈ a, x < 0 → inputs = []) ∧
        ¬ (1 ≤ a.getD 1 ∧ b.getD inputs.length ≤ inputs.length ∧
          b.getD inputs.length < a.getD 1) := by
  obtain ⟨accepted, rejected⟩ := ithRange_run noI hfrom hto inputs
  obtain ⟨r, value, hidden, seen⟩ := expandVariable_range word found items a b
  rw [List.length_map] at hidden seen
  rw [value]
  by_cases negative : ∃ x ∈ a, x < 0
  · obtain ⟨x, rfl, below⟩ := negative
    obtain ⟨within, outside⟩ := hidden ⟨x, rfl, below⟩
    have low : ¬ 1 ≤ (some x).getD 1 := by
      rw [Option.getD_some]
      omega
    obtain ⟨message, stopped⟩ := rejected fun h => low h.1
    rw [samePicks_error stopped]
    constructor
    · rintro ⟨m, failed⟩
      refine ⟨fun _ _ _ => ?_, fun h => low h.1⟩
      by_contra some
      have positive := List.length_pos_iff.mpr some
      rw [List.length_map] at within
      rw [within ⟨by omega, by omega, by omega⟩, strings_bind, rendertable_strings] at failed
      cases failed
    · rintro ⟨empty, _⟩
      have none := empty x rfl below
      subst none
      obtain ⟨m, failed⟩ := outside (by simp)
      exact ⟨m, by rw [failed]; rfl⟩
  · have nonnegative : ∀ x ∈ a, 0 ≤ x := fun x hx => by
      by_contra below
      exact negative ⟨x, hx, by omega⟩
    obtain ⟨within, outside⟩ := seen nonnegative
    rw [List.length_map] at within outside
    have first : ∀ x ∈ a, x < 0 → inputs = [] := fun x hx below =>
      absurd (nonnegative x hx) (by omega)
    by_cases fits : 1 ≤ a.getD 1 ∧ b.getD inputs.length ≤ inputs.length
    · rw [samePicks_ok (accepted fits)]
      by_cases order : a.getD 1 ≤ b.getD inputs.length
      · rw [within ⟨fits.1, order, fits.2⟩, strings_bind]
        exact ⟨fun _ => ⟨first, fun h => by omega⟩, fun _ => rfl⟩
      · obtain ⟨m, failed⟩ := outside fun h => order h.2.1
        rw [failed, rendertable_strings]
        exact ⟨nofun, fun h => absurd ⟨fits.1, fits.2, by omega⟩ h.2⟩
    · obtain ⟨message, stopped⟩ := rejected fits
      obtain ⟨m, failed⟩ := outside fun h => fits ⟨h.1, h.2.2⟩
      rw [samePicks_error stopped, failed]
      exact ⟨fun _ => ⟨first, fun h => fits ⟨h.1, h.2.1⟩⟩, fun _ => ⟨m, rfl⟩⟩

/-- A node with two inputs and the bounds of a range. -/
def ranged (a b : Int) : Obj :=
  ⟨0, [("from".toList, .num (integer a)), ("to".toList, .num (integer b)),
    ("in".toList, strings ["x".toList, "y".toList])]⟩

theorem range_of_two :
    SamePicks (ithRange (ranged 1 2) ["x".toList, "y".toList] blankDesk)
        (expandVariable oneDesk (fun _ _ => none) [] (ranged 1 2)
          ("in".toList ++ rangeText (some 1) (some 2))) ↔
      (∀ x ∈ some (1 : Int), x < 0 → ["x".toList, "y".toList] = ([] : List LuaString)) ∧
        ¬ (1 ≤ (some (1 : Int)).getD 1 ∧ (some (2 : Int)).getD 2 ≤ 2 ∧
          (some (2 : Int)).getD 2 < (some (1 : Int)).getD 1) :=
  ranges_agree (Word.of_check (by decide) (by decide)) rfl rfl rfl ⟨rfl, by decide⟩ ⟨rfl, by decide⟩

/-- From the second element to the first: the node picks nothing, the selector is an error. -/
theorem reversed_range : ¬ ∀ (fields : Fields) (scope : List Obj) (self node : Obj)
    (name : LuaString) (v : Value) (inputs : List LuaString) (s : State Desk) (a b : Option Int),
    Word name → index fields scope self oneDesk.fuel name = .ok (some v) →
    v.items = some (inputs.map .str) → truthy (rawget s.mem.fields node "i".toList) = none →
    HasNumber s.mem.fields node "from".toList a → HasNumber s.mem.fields node "to".toList b →
      SamePicks (ithRange node inputs s)
        (expandVariable oneDesk fields scope self (name ++ rangeText a b)) := by
  intro all
  have agrees := all (fun _ _ => none) [] (ranged 2 1) (ranged 2 1) "in".toList _
    ["x".toList, "y".toList] blankDesk (some 2) (some 1)
    (Word.of_check (by decide) (by decide)) rfl rfl rfl ⟨rfl, by decide⟩ ⟨rfl, by decide⟩
  have picks : ithRange (ranged 2 1) ["x".toList, "y".toList] blankDesk = .ok [] blankDesk := rfl
  rw [samePicks_ok picks] at agrees
  exact absurd agrees (by decide +kernel)

end PrimeMover
