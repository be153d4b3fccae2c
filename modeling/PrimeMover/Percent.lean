import PrimeMover.Substitution
import PrimeMover.View

/-! Literal percent signs. A text whose percent signs are doubled should stand for
itself, and a path that an expansion has made should not be expanded again. -/
namespace PrimeMover
open LuaPattern Outcome

variable {W : Type}

def escapeChar (c : Char) : LuaString := if c = '%' then "%%".toList else [c]

/-- The text with every percent sign doubled. -/
def escape (x : LuaString) : LuaString := x.flatMap escapeChar

/-- The text has a part that looks like an embedded expression. -/
def HasExpression (x : LuaString) : Prop :=
  ∃ a b c, x = a ++ '%' :: '{' :: (b ++ '}' :: '%' :: c)

theorem match_expression (b c : LuaString) :
    matchItems expressionPattern.items ('%' :: '{' :: (b ++ '}' :: '%' :: c)) [] ≠ none := by
  change minExpand (fun _ => true) _ (b ++ '}' :: '%' :: c) ≠ none
  apply minExpand_some
  · intro _ _
    rfl
  · simp [matchItems]

theorem expression_of_match {s : LuaString}
    (found : matchItems expressionPattern.items s [] ≠ none) :
    ∃ b c, s = '%' :: '{' :: (b ++ '}' :: '%' :: c) := by
  rcases s with _ | ⟨d, _ | ⟨e, s⟩⟩
  · exact absurd rfl found
  · refine absurd ?_ found
    simp only [expressionPattern, matchItems]
    split <;> rfl
  · simp only [expressionPattern, matchItems, beq_iff_eq] at found
    split at found
    · rename_i percent
      split at found
      · rename_i brace
        obtain ⟨r, hr⟩ := Option.ne_none_iff_exists'.mp found
        obtain ⟨b, t, rfl, ht⟩ := minExpand_found _ _ _ r hr
        rcases t with _ | ⟨f, _ | ⟨g, c⟩⟩
        · cases ht
        · simp only at ht
          split at ht <;> cases ht
        · simp only [Option.ite_none_right_eq_some] at ht
          exact ⟨b, c, by rw [percent, brace, ht.1, ht.2.1]⟩
      · exact absurd rfl found
    · exact absurd rfl found

theorem scan_noExpression {s : LuaString} (none : ¬ HasExpression s) :
    scan expressionPattern s = s.map .char := by
  apply scan_none expressionPattern rfl
  rintro a b rfl
  by_contra found
  obtain ⟨e, c, rfl⟩ := expression_of_match found
  exact none ⟨a, e, c, rfl⟩

theorem hits_expression {s : LuaString} (some : HasExpression s) :
    0 < hits (scan expressionPattern s) := by
  obtain ⟨a, b, c, rfl⟩ := some
  exact hits_pos expressionPattern rfl a _ (match_expression b c)

theorem escape_cons (c : Char) (x : LuaString) : escape (c :: x) = escapeChar c ++ escape x := rfl

theorem escape_append (x y : LuaString) : escape (x ++ y) = escape x ++ escape y :=
  List.flatMap_append

theorem escape_plain {c : Char} (other : c ≠ '%') (x : LuaString) :
    escape (c :: x) = c :: escape x := by
  rw [escape_cons, escapeChar, if_neg other]
  rfl

theorem escape_percent (x : LuaString) : escape ('%' :: x) = '%' :: '%' :: escape x := rfl

/-- The escaped text begins as the text does, but for a percent sign. -/
theorem escape_head {c : Char} {x v : LuaString} (other : c ≠ '%') (h : escape x = c :: v) :
    ∃ y, x = c :: y ∧ escape y = v := by
  cases x with
  | nil => cases h
  | cons d x =>
    by_cases percent : d = '%'
    · rw [percent, escape_percent] at h
      cases h
      exact absurd rfl other
    · rw [escape_plain percent] at h
      cases h
      exact ⟨x, rfl, rfl⟩

theorem escape_open {x u v : LuaString} (h : escape x = u ++ '%' :: '{' :: v) :
    ∃ y z, x = y ++ '%' :: '{' :: z ∧ escape z = v := by
  induction x generalizing u with
  | nil => simp [escape] at h
  | cons d x ih =>
    by_cases percent : d = '%'
    · rw [percent, escape_percent] at h
      match u with
      | [] => simp at h
      | [_] =>
        simp only [List.cons_append, List.nil_append, List.cons.injEq, true_and] at h
        obtain ⟨z, rfl, hz⟩ := escape_head (by decide) h.2
        exact ⟨[], z, by rw [percent]; rfl, hz⟩
      | _ :: _ :: u =>
        simp only [List.cons_append, List.cons.injEq] at h
        obtain ⟨y, z, rfl, hz⟩ := ih h.2.2
        exact ⟨d :: y, z, rfl, hz⟩
    · rw [escape_plain percent] at h
      match u with
      | [] => exact absurd (List.cons.inj h).1 percent
      | _ :: u =>
        obtain ⟨y, z, rfl, hz⟩ := ih (List.cons.inj h).2
        exact ⟨d :: y, z, rfl, hz⟩

theorem escape_close {x u v : LuaString} (h : escape x = u ++ '}' :: '%' :: v) :
    ∃ y z, x = y ++ '}' :: '%' :: z := by
  induction x generalizing u with
  | nil => simp [escape] at h
  | cons d x ih =>
    by_cases percent : d = '%'
    · rw [percent, escape_percent] at h
      match u with
      | [] => simp at h
      | [_] => simp at h
      | _ :: _ :: u =>
        simp only [List.cons_append, List.cons.injEq] at h
        obtain ⟨y, z, rfl⟩ := ih h.2.2
        exact ⟨d :: y, z, rfl⟩
    · rw [escape_plain percent] at h
      match u with
      | [] =>
        obtain ⟨rfl, rest⟩ := List.cons.inj h
        cases x with
        | nil => cases rest
        | cons e x =>
          by_cases next : e = '%'
          · exact ⟨[], x, by rw [next]; rfl⟩
          · rw [escape_plain next] at rest
            exact absurd (List.cons.inj rest).1 next
      | _ :: u =>
        obtain ⟨y, z, rfl⟩ := ih (List.cons.inj h).2
        exact ⟨d :: y, z, rfl⟩

/-- Doubling the percent signs neither makes an expression nor hides one. -/
theorem escape_expression (x : LuaString) : HasExpression (escape x) ↔ HasExpression x := by
  constructor
  · rintro ⟨a, b, c, h⟩
    obtain ⟨y, z, rfl, hz⟩ := escape_open h
    obtain ⟨u, v, rfl⟩ := escape_close hz
    exact ⟨y, u, v, rfl⟩
  · rintro ⟨a, b, c, rfl⟩
    refine ⟨escape a ++ ['%'], escape b, '%' :: escape c, ?_⟩
    rw [escape_append, escape_percent, escape_plain (by decide), escape_append,
      escape_plain (by decide), escape_percent]
    simp

/-- The last step of the expansion: the sentinels become percent signs. -/
def restore (s : LuaString) : LuaString := gsub percentPattern (fun _ => "%".toList) s

/-- How many sentinels that step replaces. -/
def sentinels (s : LuaString) : Nat := hits (scan percentPattern s)

theorem restore_hit (u : LuaString) :
    restore (PERCENT ++ u) = '%' :: restore u ∧ sentinels (PERCENT ++ u) = sentinels u + 1 := by
  have hit : scan percentPattern (PERCENT ++ u) = .hit [] :: scan percentPattern u :=
    scan_hit percentPattern rfl _ _ [] (match_literal PERCENT u) (by simp [PERCENT]; omega)
  constructor
  · rw [restore, gsub, hit, replace_hit]
    rfl
  · rw [sentinels, hit, hits_hit]
    rfl

theorem restore_miss {c : Char} {s : LuaString}
    (miss : matchItems percentPattern.items (c :: s) [] = none) :
    restore (c :: s) = c :: restore s ∧ sentinels (c :: s) = sentinels s := by
  have skip := scan_miss percentPattern rfl c s miss
  constructor
  · rw [restore, gsub, skip, replace_char]
    rfl
  · rw [sentinels, skip, hits_char]
    rfl

theorem percent_cases (s : LuaString) :
    (∃ u, s = PERCENT ++ u) ∨ matchItems percentPattern.items s [] = none := by
  cases found : matchItems percentPattern.items s [] with
  | none => exact Or.inr rfl
  | some r =>
    obtain ⟨u, cs⟩ := r
    exact Or.inl ⟨u, (literal_of_match PERCENT s u cs found).1⟩

/-- Induction along the way the last step goes through a text. -/
theorem percent_induction {P : LuaString → Prop} (nil : P [])
    (hit : ∀ u, P u → P (PERCENT ++ u))
    (miss : ∀ c s, matchItems percentPattern.items (c :: s) [] = none → P s → P (c :: s))
    (s : LuaString) : P s := by
  suffices all : ∀ n s, s.length < n → P s from all (s.length + 1) s (Nat.lt_succ_self _)
  intro n
  induction n with
  | zero =>
    intro s short
    omega
  | succ n ih =>
    intro s short
    rcases percent_cases s with ⟨u, rfl⟩ | none
    · apply hit
      apply ih
      simp only [List.length_append] at short
      have : 0 < PERCENT.length := by decide
      omega
    · cases s with
      | nil => exact nil
      | cons c s => exact miss c s none (ih s (by simpa using short))

theorem restore_counts (s : LuaString) :
    (restore s).length + 8 * sentinels s = s.length ∧
      (restore s).count '\x07' + 2 * sentinels s = s.count '\x07' := by
  induction s using percent_induction with
  | nil => exact ⟨rfl, rfl⟩
  | hit u ih =>
    obtain ⟨text, number⟩ := restore_hit u
    have length : PERCENT.length = 9 := by decide
    have bells : PERCENT.count '\x07' = 2 := by decide
    have other : ('%' == '\x07') = false := by decide
    rw [text, number, List.length_append, List.count_append, length, bells]
    simp only [List.length_cons, List.count_cons, other, Bool.false_eq_true, if_false]
    omega
  | miss c s none ih =>
    obtain ⟨text, number⟩ := restore_miss none
    rw [text, number]
    simp only [List.length_cons, List.count_cons]
    omega

/-- What is in the result before its first percent sign was there before. -/
theorem restore_prefix {s w rest : LuaString} (h : restore s = w ++ rest) (free : '%' ∉ w) :
    ∃ u, s = w ++ u := by
  induction w generalizing s with
  | nil => exact ⟨s, rfl⟩
  | cons d w ih =>
    have other : d ≠ '%' := fun same => free (same ▸ List.mem_cons_self)
    rcases percent_cases s with ⟨u, rfl⟩ | none
    · rw [(restore_hit u).1] at h
      exact absurd (List.cons.inj h).1.symm other
    · cases s with
      | nil => cases h
      | cons c s =>
        rw [(restore_miss none).1] at h
        obtain ⟨same, rest⟩ := List.cons.inj h
        obtain ⟨u, rfl⟩ := ih rest fun hw => free (List.mem_cons_of_mem d hw)
        exact ⟨u, by rw [same]; rfl⟩

theorem restored_none (s a b : LuaString) (h : restore s = a ++ b) :
    matchItems percentPattern.items b [] = none := by
  have first : ∀ s, restore s = b → matchItems percentPattern.items b [] = none := by
    intro s hs
    rcases percent_cases b with ⟨v, rfl⟩ | none
    · obtain ⟨u, rfl⟩ := restore_prefix hs (by decide)
      rw [(restore_hit u).1] at hs
      exact absurd (List.cons.inj hs).1 (by decide)
    · exact none
  induction s using percent_induction generalizing a with
  | nil =>
    cases a with
    | nil => exact first [] h
    | cons d a => cases h
  | hit u ih =>
    cases a with
    | nil => exact first _ h
    | cons d a =>
      rw [(restore_hit u).1] at h
      exact ih a (List.cons.inj h).2
  | miss c s none ih =>
    cases a with
    | nil => exact first _ h
    | cons d a =>
      rw [(restore_miss none).1] at h
      exact ih a (List.cons.inj h).2

theorem restore_restore (s : LuaString) : restore (restore s) = restore s := by
  have copied := replace_chars (fun _ => "%".toList) (restore s) []
  rw [List.append_nil, replace_nil, List.append_nil] at copied
  rw [restore, gsub, scan_none percentPattern rfl (restore s) (restored_none s), copied]

/-- What a pass makes of a percent sign that was doubled. -/
def sentinelChar (c : Char) : LuaString := if c = '%' then PERCENT else [c]

def sentinel (x : LuaString) : LuaString := x.flatMap sentinelChar

theorem sentinel_plain {c : Char} (other : c ≠ '%') (x : LuaString) :
    sentinel (c :: x) = c :: sentinel x := by
  rw [sentinel, List.flatMap_cons, sentinelChar, if_neg other]
  rfl

theorem sentinel_percent (x : LuaString) : sentinel ('%' :: x) = PERCENT ++ sentinel x := rfl

theorem sentinel_noPercent (x : LuaString) : '%' ∉ sentinel x := by
  intro h
  obtain ⟨c, _, hc⟩ := List.mem_flatMap.mp h
  unfold sentinelChar at hc
  split at hc
  · exact absurd hc (by decide)
  · rename_i other
    exact other (List.mem_singleton.mp hc).symm

theorem scan_copied (s : LuaString) (free : '%' ∉ s) : scan variablePattern s = s.map .char := by
  have h := scan_free s [] free
  rw [scan_nil variablePattern rfl] at h
  simpa using h

theorem scan_unpaired {s : LuaString} (few : s.count '%' < 2) :
    scan variablePattern s = s.map .char := by
  by_cases free : '%' ∈ s
  · obtain ⟨a, b, rfl, first⟩ := List.eq_append_cons_of_mem free
    have alone : '%' ∉ b := by
      intro more
      have := List.count_pos_iff.mpr more
      simp only [List.count_append, List.count_cons_self] at few
      omega
    rw [scan_free a _ first, scan_miss variablePattern rfl '%' b (match_unclosed '%' b alone),
      scan_copied b alone]
    simp
  · exact scan_copied s free

theorem noExpression_unpaired {s : LuaString} (few : s.count '%' < 2) : ¬ HasExpression s := by
  rintro ⟨a, b, c, rfl⟩
  simp at few
  omega

section Loop

variable {cfg : Settings W} {fields : Fields} {scope : List Obj} {self : Obj}

theorem expandLoop_idle {s : LuaString} (expressions : scan expressionPattern s = s.map .char)
    (references : scan variablePattern s = s.map .char) (fuel : Nat) :
    expandLoop cfg fields scope self (fuel + 1) s = .ok (restore s) := by
  have none := hits_chars s []
  rw [List.append_nil, hits_nil] at none
  simp only [expandLoop, expressions, replaceM_chars, bind, Except.bind, references, none,
    Nat.add_zero, if_true, restore]

theorem expandLoop_unpaired {s : LuaString} (few : s.count '%' < 2) (fuel : Nat) :
    expandLoop cfg fields scope self (fuel + 1) s = .ok (restore s) :=
  expandLoop_idle (scan_noExpression (noExpression_unpaired few)) (scan_unpaired few) fuel

theorem scan_pair (n t : LuaString) (inner : '%' ∉ n) :
    scan variablePattern ('%' :: (n ++ '%' :: t)) = .hit [n] :: scan variablePattern t :=
  scan_hit variablePattern rfl _ _ [.closed n] (match_enclosed '%' n t inner) (by simp; omega)

/-- The pass over the references leaves a sentinel for every sign that was doubled. -/
theorem pass_escape (x : LuaString) :
    replaceM (captured (expandVariable cfg fields scope self)) (scan variablePattern (escape x)) =
      .ok (sentinel x) := by
  induction x with
  | nil => rfl
  | cons c x ih =>
    by_cases percent : c = '%'
    · rw [percent, escape_percent, show '%' :: '%' :: escape x = '%' :: ([] ++ '%' :: escape x) from rfl,
        scan_pair [] (escape x) List.not_mem_nil, sentinel_percent]
      simp only [replaceM, ih]
      rfl
    · have one : '%' ∉ [c] := fun h => percent (List.mem_singleton.mp h).symm
      rw [escape_plain percent, sentinel_plain percent]
      rw [show c :: escape x = [c] ++ escape x from rfl, scan_free [c] (escape x) one]
      simp only [List.map_cons, List.map_nil, List.singleton_append, replaceM, ih]
      rfl

theorem restore_sentinel {x : LuaString} (noBell : '\x07' ∉ x) : restore (sentinel x) = x := by
  induction x with
  | nil => rfl
  | cons c x ih =>
    have rest := ih fun h => noBell (List.mem_cons_of_mem c h)
    by_cases percent : c = '%'
    · rw [percent, sentinel_percent, (restore_hit _).1, rest]
    · have other : c ≠ '\x07' := fun same => noBell (same ▸ List.mem_cons_self)
      rw [sentinel_plain percent, (restore_miss (match_one_ne '\x07' c _ _ other)).1, rest]

theorem expandLoop_escape {x : LuaString} (noBell : '\x07' ∉ x) (none : ¬ HasExpression x)
    (fuel : Nat) : expandLoop cfg fields scope self (fuel + 2) (escape x) = .ok x := by
  have plain := scan_noExpression (mt (escape_expression x).mp none)
  have second : expandLoop cfg fields scope self (fuel + 1) (sentinel x) = .ok x := by
    have absent := List.count_eq_zero.mpr (sentinel_noPercent x)
    rw [expandLoop_unpaired (by omega), restore_sentinel noBell]
  have clear := hits_chars (escape x) []
  rw [List.append_nil, hits_nil] at clear
  rw [expandLoop]
  simp only [plain, replaceM_chars, bind, Except.bind, pass_escape, clear, Nat.zero_add]
  split
  · exact congrArg Except.ok (restore_sentinel noBell)
  · exact second

/-- Where no expression can be evaluated, a text with one does not expand. -/
theorem expandLoop_refused {s : LuaString} (some : HasExpression s)
    (fails : ∀ e, ∃ stop, expandExpression cfg fields scope self e = .error stop) (fuel : Nat) :
    ∃ stop, expandLoop cfg fields scope self fuel s = .error stop := by
  cases fuel with
  | zero => exact ⟨.diverges, rfl⟩
  | succ fuel =>
    obtain ⟨stop, stopped⟩ := replaceM_stops (fun cs => fails (cs.headD [])) _
      (hits_expression some)
    refine ⟨stop, ?_⟩
    change replaceM (captured (expandExpression cfg fields scope self)) _ = _ at stopped
    simp only [expandLoop, stopped, bind, Except.bind]

end Loop

/-- The law of escaping: a text without the escape character of the expansion comes back,
whatever the environment holds, exactly when no part of it looks like an expression. -/
theorem escape_expands (cfg : Settings W) (enough : 2 ≤ cfg.fuel) (x : LuaString)
    (noBell : '\x07' ∉ x) :
    (∀ evaluate fields scope self,
      expandText { cfg with evaluate := evaluate } fields scope self (escape x) = .ok x) ↔
        ¬ HasExpression x := by
  obtain ⟨fuel, hfuel⟩ := Nat.exists_eq_add_of_le' enough
  constructor
  · intro all some
    obtain ⟨stop, stopped⟩ : ∃ stop, expandText
        { cfg with evaluate := fun _ _ => .error .diverges } (fun _ _ => none) [] ⟨0, []⟩ (escape x) =
          .error stop :=
      expandLoop_refused ((escape_expression x).mpr some) (fun _ => ⟨_, rfl⟩) cfg.fuel
    cases stopped.symm.trans (all _ _ _ _)
  · intro none evaluate fields scope self
    simp only [expandText, hfuel]
    exact expandLoop_escape noBell none fuel

/-- A desk on which every expression has the value 1. -/
def oneDesk : Settings Desk :=
  { Desk.settings (fun _ => ⟨0, [], []⟩) 4 with
    evaluate := fun _ _ => .ok (some (.num "1".toList)) }

theorem percent_comes_back :
    (∀ evaluate fields scope self, expandText { oneDesk with evaluate := evaluate } fields scope
      self (escape "100%".toList) = .ok "100%".toList) ↔ ¬ HasExpression "100%".toList :=
  escape_expands oneDesk (by decide) "100%".toList (by decide)

/-- The expression between escaped signs is evaluated, and its value is taken for the
name of a variable. -/
theorem escaped_expression :
    expandText oneDesk (fun _ _ => none) [] ⟨0, []⟩ (escape "%{return 1}%".toList) =
        .error (nodeError (fun _ _ => none) ⟨0, []⟩ "doesn't understand variable '1'".toList) ∧
      ¬ ∀ (cfg : Settings Desk) (fields : Fields) (scope : List Obj) (self : Obj) (x : LuaString),
        2 ≤ cfg.fuel → '\x07' ∉ x → expandText cfg fields scope self (escape x) = .ok x := by
  have stopped : expandText oneDesk (fun _ _ => none) [] ⟨0, []⟩ (escape "%{return 1}%".toList) =
      .error (nodeError (fun _ _ => none) ⟨0, []⟩ "doesn't understand variable '1'".toList) := by
    decide +kernel
  refine ⟨stopped, fun all => ?_⟩
  cases stopped.symm.trans (all oneDesk _ _ _ "%{return 1}%".toList (by decide) (by decide))

theorem copied_of_hits {p : Pattern} (free : p.anchored = false) {s : LuaString}
    (none : hits (scan p s) = 0) : scan p s = s.map .char := by
  apply scan_none p free
  rintro a b rfl
  by_contra found
  have := hits_pos p free a b found
  omega

/-- A text in which a pass finds nothing. -/
def Idle (s : LuaString) : Prop :=
  scan expressionPattern s = s.map .char ∧ scan variablePattern s = s.map .char

/-- What the expansion returns comes from a text in which its last pass found nothing. -/
theorem expandLoop_idles {cfg : Settings W} {fields : Fields} {scope : List Obj} {self : Obj}
    {fuel : Nat} {s r : LuaString} (run : expandLoop cfg fields scope self fuel s = .ok r) :
    ∃ t, Idle t ∧ r = restore t := by
  induction fuel generalizing s with
  | zero => cases run
  | succ fuel ih =>
    rw [expandLoop] at run
    cases first : replaceM (captured (expandExpression cfg fields scope self))
        (scan expressionPattern s) with
    | error e =>
      simp only [first, bind, Except.bind] at run
      cases run
    | ok u =>
      cases second : replaceM (captured (expandVariable cfg fields scope self))
          (scan variablePattern u) with
      | error e =>
        simp only [first, second, bind, Except.bind] at run
        cases run
      | ok v =>
        simp only [first, second, bind, Except.bind] at run
        split at run
        · rename_i none
          have expressions := copied_of_hits (p := expressionPattern) (s := s) rfl (by omega)
          rw [expressions, replaceM_chars] at first
          cases first
          have references := copied_of_hits (p := variablePattern) (s := s) rfl (by omega)
          rw [references, replaceM_chars] at second
          cases second
          cases run
          exact ⟨s, ⟨expressions, references⟩, rfl⟩
        · exact ih run

theorem idle_expands {cfg : Settings W} (enough : 0 < cfg.fuel) (fields : Fields)
    (scope : List Obj) (self : Obj) {t : LuaString} (idle : Idle t) :
    expandText cfg fields scope self t = .ok (restore t) := by
  obtain ⟨fuel, hfuel⟩ := Nat.exists_eq_add_of_le' enough
  simp only [expandText, hfuel]
  exact expandLoop_idle idle.1 idle.2 fuel

/-- A path that an expansion has made, with at most one percent sign, stands for itself
in every environment. -/
theorem expand_inert {cfg : Settings W} (enough : 0 < cfg.fuel) (fields : Fields)
    (scope : List Obj) (self : Obj) {s : LuaString} (few : (restore s).count '%' < 2) :
    expandText cfg fields scope self (restore s) = .ok (restore s) := by
  have idle : Idle (restore s) :=
    ⟨scan_noExpression (noExpression_unpaired few), scan_unpaired few⟩
  rw [idle_expands enough fields scope self idle, restore_restore]

theorem restore_noBell {s : LuaString} (none : '\x07' ∉ s) : restore s = s := by
  have copied : scan percentPattern s = s.map .char := by
    refine scan_none percentPattern rfl s fun a b split => ?_
    cases b with
    | nil => rfl
    | cons c b =>
      refine match_one_ne '\x07' c _ b ?_
      rintro rfl
      exact none (by simp [split])
  have := replace_chars (fun _ => "%".toList) s []
  rw [List.append_nil] at this
  rw [restore, gsub, copied, this]
  simp

/-- A text without references stands for itself. -/
theorem expand_plain {cfg : Settings W} (enough : 0 < cfg.fuel) (fields : Fields)
    (scope : List Obj) (self : Obj) {s : LuaString} (few : s.count '%' < 2) (bell : '\x07' ∉ s) :
    expandText cfg fields scope self s = .ok s := by
  have same := restore_noBell bell
  rw [← same]
  exact expand_inert enough fields scope self (by rw [same]; exact few)

theorem reference_cases (s : LuaString) : s.count '%' < 2 ∨
    ∃ a n t, '%' ∉ a ∧ '%' ∉ n ∧ s = a ++ '%' :: (n ++ '%' :: t) := by
  by_cases few : s.count '%' < 2
  · exact Or.inl few
  · have there : '%' ∈ s := List.count_pos_iff.mp (by omega)
    obtain ⟨a, b, rfl, first⟩ := List.eq_append_cons_of_mem there
    have more : '%' ∈ b := by
      apply List.count_pos_iff.mp
      have absent := List.count_eq_zero.mpr first
      simp only [List.count_append, List.count_cons_self, absent] at few
      omega
    obtain ⟨n, t, rfl, second⟩ := List.eq_append_cons_of_mem more
    exact Or.inr ⟨a, n, t, first, second, rfl⟩

theorem replaceM_pair {E : Type} {repl : List LuaString → Except E LuaString} {a n v : LuaString}
    {qs : List Piece} (run : replaceM repl (a.map .char ++ .hit [n] :: qs) = .ok v) :
    ∃ r w, repl [n] = .ok r ∧ replaceM repl qs = .ok w ∧ v = a ++ (r ++ w) := by
  rw [replaceM_append, replaceM_chars] at run
  simp only [replaceM, bind, Except.bind] at run
  cases first : repl [n] with
  | error e =>
    rw [first] at run
    cases run
  | ok r =>
    cases rest : replaceM repl qs with
    | error e =>
      rw [first, rest] at run
      cases run
    | ok w =>
      rw [first, rest] at run
      cases run
      exact ⟨r, w, rfl, rfl, rfl⟩

section Refusing

variable {cfg : Settings W} {fields : Fields} {scope : List Obj} {self : Obj}

/-- Where no variable has a value, a pass only replaces signs that are doubled. -/
theorem pass_counts (refuses : ∀ n, n ≠ [] → ∃ e, expandVariable cfg fields scope self n = .error e)
    {s v : LuaString}
    (run : replaceM (captured (expandVariable cfg fields scope self)) (scan variablePattern s) =
      .ok v) :
    v.length = s.length + 7 * hits (scan variablePattern s) ∧
      v.count '\x07' = s.count '\x07' + 2 * hits (scan variablePattern s) ∧
      v.count '%' < 2 := by
  suffices all : ∀ k s v, s.length < k →
      replaceM (captured (expandVariable cfg fields scope self)) (scan variablePattern s) = .ok v →
        v.length = s.length + 7 * hits (scan variablePattern s) ∧
          v.count '\x07' = s.count '\x07' + 2 * hits (scan variablePattern s) ∧
          v.count '%' < 2 from all (s.length + 1) s v (Nat.lt_succ_self _) run
  clear run
  intro k
  induction k with
  | zero =>
    intro s v short
    omega
  | succ k ih =>
    intro s v short run
    rcases reference_cases s with few | ⟨a, n, t, ha, hn, rfl⟩
    · have none := hits_chars s []
      rw [List.append_nil, hits_nil] at none
      rw [scan_unpaired few, replaceM_chars] at run
      cases run
      rw [scan_unpaired few, none]
      exact ⟨rfl, rfl, few⟩
    · rw [scan_free a _ ha, scan_pair n t hn] at run ⊢
      obtain ⟨r, w, first, rest, rfl⟩ := replaceM_pair run
      have doubled : n = [] := by
        by_contra some
        obtain ⟨e, stopped⟩ := refuses n some
        cases stopped.symm.trans first
      subst doubled
      cases (show Except.ok r = Except.ok PERCENT from first.symm)
      simp only [List.length_append, List.length_cons] at short
      obtain ⟨length, bells, few⟩ := ih t w (by omega) rest
      have nine : PERCENT.length = 9 := by decide
      have two : PERCENT.count '\x07' = 2 := by decide
      have signs : PERCENT.count '%' = 0 := by decide
      have absent := List.count_eq_zero.mpr ha
      have other : ('%' == '\x07') = false := by decide
      simp only [List.length_append, List.count_append, List.length_cons, List.count_cons, hits_chars,
        hits_hit, nine, two, signs, absent, other, length, bells, List.nil_append,
        Bool.false_eq_true, if_false]
      omega

/-- There a path with two percent signs does not come back. -/
theorem expandLoop_paired (expressions : ∀ e, ∃ stop,
      expandExpression cfg fields scope self e = .error stop)
    (refuses : ∀ n, n ≠ [] → ∃ e, expandVariable cfg fields scope self n = .error e)
    {s : LuaString} (paired : 2 ≤ s.count '%') (fuel : Nat) :
    expandLoop cfg fields scope self fuel s ≠ .ok s := by
  intro run
  by_cases expression : HasExpression s
  · obtain ⟨stop, stopped⟩ := expandLoop_refused expression expressions fuel
    cases stopped.symm.trans run
  · cases fuel with
    | zero => cases run
    | succ fuel =>
      have plain := scan_noExpression expression
      have clear := hits_chars s []
      rw [List.append_nil, hits_nil] at clear
      have some : 0 < hits (scan variablePattern s) := by
        rcases reference_cases s with few | ⟨a, n, t, ha, hn, rfl⟩
        · omega
        · rw [scan_free a _ ha, scan_pair n t hn, hits_chars, hits_hit]
          omega
      rw [expandLoop] at run
      simp only [plain, replaceM_chars, bind, Except.bind, clear, Nat.zero_add] at run
      cases pass : replaceM (captured (expandVariable cfg fields scope self))
          (scan variablePattern s) with
      | error e =>
        rw [pass] at run
        cases run
      | ok v =>
        rw [pass] at run
        dsimp only at run
        rw [if_neg (by omega)] at run
        obtain ⟨length, bells, few⟩ := pass_counts refuses pass
        cases fuel with
        | zero => cases run
        | succ fuel =>
          rw [expandLoop_unpaired few] at run
          have same := Except.ok.inj run
          obtain ⟨shorter, fewer⟩ := restore_counts v
          rw [same] at shorter fewer
          omega

end Refusing

theorem index_absent (n : Nat) (self : Obj) (bare : self.props = []) (key : LuaString) :
    index (fun _ _ => none) [] self n key = .ok none ∨
      ∃ e, index (fun _ _ => none) [] self n key = .error e := by
  have step : ∀ again, indexStep (fun _ _ => none) [] self again key = .ok none ∨
      ∃ e, indexStep (fun _ _ => none) [] self again key = .error e := by
    intro again
    have absent : rawget (fun _ _ => none) self key = none := by simp [rawget, bare]
    unfold indexStep
    split
    · exact Or.inr ⟨_, rfl⟩
    · left
      split
      · simp [recurse, absent, truthy, classify]
      · rw [absent]
  cases n with
  | zero => exact step _
  | succ n => exact step _

theorem variable_absent (cfg : Settings W) {self : Obj} (bare : self.props = []) {n : LuaString}
    (some : n ≠ []) : ∃ e, expandVariable cfg (fun _ _ => none) [] self n = .error e := by
  unfold expandVariable
  rw [if_neg some]
  split
  · split
    · rename_i varname _ _ _ _
      rcases index_absent cfg.fuel self bare varname with absent | ⟨e, stopped⟩
      · simp only [absent, bind, Except.bind, truthy]
        exact ⟨_, rfl⟩
      · simp only [stopped, bind, Except.bind]
        exact ⟨_, rfl⟩
    · exact ⟨_, rfl⟩
  · exact ⟨_, rfl⟩

theorem mapM_cons_ok {A B : Type} {f : A → Except Stop B} {a : A} {l : List A} {r : List B} :
    (a :: l).mapM f = .ok r ↔ ∃ b bs, f a = .ok b ∧ l.mapM f = .ok bs ∧ r = b :: bs := by
  rw [List.mapM_cons]
  cases first : f a with
  | error e =>
    constructor
    · intro h
      cases h
    · rintro ⟨_, _, h, _⟩
      cases h
  | ok b =>
    cases rest : l.mapM f with
    | error e =>
      constructor
      · intro h
        cases h
      · rintro ⟨_, _, _, h, _⟩
        cases h
    | ok bs =>
      constructor
      · intro h
        cases h
        exact ⟨b, bs, rfl, rfl, rfl⟩
      · rintro ⟨_, _, h, h', rfl⟩
        cases h
        cases h'
        rfl

theorem collect_expand {cfg : Settings W} {self : Obj} {is outs : List LuaString}
    {s s' : State W} (run : collect (fun i => do pure [← expand cfg self i]) is s = .ok outs s') :
    is.mapM (expandText cfg s.mem.fields s.mem.scope self) = .ok outs ∧ s'.mem = s.mem := by
  induction is generalizing outs s with
  | nil =>
    cases run
    exact ⟨rfl, rfl⟩
  | cons i is ih =>
    obtain ⟨one, u, first, later⟩ := bind_eq_ok.mp run
    obtain ⟨o, v, expanded, made⟩ := bind_eq_ok.mp first
    obtain ⟨rest, w, others, made'⟩ := bind_eq_ok.mp later
    cases made
    cases made'
    obtain ⟨value, rfl⟩ := expand_ok expanded
    obtain ⟨values, same⟩ := ih others
    exact ⟨mapM_cons_ok.mpr ⟨o, rest, value, values, rfl⟩, same⟩

theorem collect_expand_run {cfg : Settings W} {self : Obj} {is outs : List LuaString} {s : State W}
    (values : is.mapM (expandText cfg s.mem.fields s.mem.scope self) = .ok outs) :
    ∃ s', collect (fun i => do pure [← expand cfg self i]) is s = .ok outs s' ∧ s'.mem = s.mem := by
  induction is generalizing outs s with
  | nil =>
    cases values
    exact ⟨s, rfl, rfl⟩
  | cons i is ih =>
    obtain ⟨o, rest, first, others, rfl⟩ := mapM_cons_ok.mp values
    have expanded : expand cfg self i s = .ok o (s.look self) := by
      rw [expand_run, first]
      rfl
    obtain ⟨s', run, same⟩ := ih (s := s.look self) others
    refine ⟨s', ?_, same⟩
    have one : (do pure [← expand cfg self i] : PM W (List LuaString)) s = .ok [o] (s.look self) :=
      bind_ok_run expanded _
    rw [collect, bind_ok_run one, bind_ok_run run]
    rfl

/-- The inputs of a file node that it puts out. -/
def filePart (fields : Fields) (self : Obj) (inputs : List LuaString) : Option (List LuaString) :=
  match truthy (rawget fields self "only_n_children_are_outputs".toList) with
  | none => some inputs
  | some v => v.number.bind fun n =>
    if n ≤ inputs.length then some (inputs.take n.toNat) else none

/-- What the outputs of a file node are: the names of some of its children, expanded. -/
theorem fileOutputs_value {cfg : Settings W} {self : Obj} {inputs outs : List LuaString}
    {s s' : State W} (run : fileOutputs cfg self inputs s = .ok outs s') :
    (∃ names : List LuaString, filePart s.mem.fields self inputs = some names ∧
      names.mapM (expandText cfg s.mem.fields s.mem.scope self) = .ok outs) ∧ s'.mem = s.mem := by
  obtain ⟨v, u, field, rest⟩ := bind_eq_ok.mp run
  cases field
  unfold filePart
  cases limit : truthy (rawget s.mem.fields self "only_n_children_are_outputs".toList) with
  | none =>
    rw [limit] at rest
    obtain ⟨values, same⟩ := collect_expand rest
    exact ⟨⟨_, rfl, values⟩, same⟩
  | some v =>
    rw [limit] at rest
    dsimp only at rest ⊢
    cases number : v.number with
    | none =>
      rw [number] at rest
      cases rest
    | some n =>
      rw [number] at rest
      by_cases enough : n ≤ inputs.length
      · simp only [if_pos enough] at rest
        obtain ⟨values, same⟩ := collect_expand rest
        exact ⟨⟨_, if_pos enough, values⟩, same⟩
      · simp only [if_neg enough] at rest
        obtain ⟨_, _, _, stopped⟩ := bind_eq_ok.mp rest
        cases stopped

theorem mem_of_mapM {A B : Type} {f : A → Except Stop B} {l : List A} {r : List B}
    (values : l.mapM f = .ok r) {b : B} (there : b ∈ r) : ∃ a ∈ l, f a = .ok b := by
  induction l generalizing r with
  | nil =>
    cases values
    cases there
  | cons a l ih =>
    obtain ⟨c, rest, first, others, rfl⟩ := mapM_cons_ok.mp values
    rcases List.mem_cons.mp there with rfl | later
    · exact ⟨a, List.mem_cons_self, first⟩
    · obtain ⟨d, member, value⟩ := ih others later
      exact ⟨d, List.mem_cons_of_mem a member, value⟩

theorem mapM_of_forall {A B : Type} {f : A → Except Stop B} {r : List B}
    (each : ∀ b ∈ r, ∃ a, f a = .ok b) : ∃ l : List A, l.mapM f = .ok r := by
  induction r with
  | nil => exact ⟨[], rfl⟩
  | cons b r ih =>
    obtain ⟨a, first⟩ := each b List.mem_cons_self
    obtain ⟨l, others⟩ := ih fun c hc => each c (List.mem_cons_of_mem b hc)
    exact ⟨a :: l, mapM_cons_ok.mpr ⟨b, r, first, others, rfl⟩⟩

/-- Every output of a file node is a text whose sentinels an expansion has replaced. -/
theorem output_restored {cfg : Settings W} {self : Obj} {inputs outs : List LuaString}
    {s s' : State W} (run : fileOutputs cfg self inputs s = .ok outs s') {o : LuaString}
    (there : o ∈ outs) : 0 < cfg.fuel ∧ ∃ t, Idle t ∧ o = restore t := by
  obtain ⟨⟨names, _, values⟩, _⟩ := fileOutputs_value run
  obtain ⟨i, _, value⟩ := mem_of_mapM values there
  refine ⟨Nat.pos_of_ne_zero fun zero => ?_, expandLoop_idles value⟩
  rw [expandText, zero] at value
  cases value

/-- One round of the loop of `file.__timestamp` on a path that is expanded already. -/
def stampPath (cfg : Settings W) (self : Obj) (path : LuaString) (rest : Int → PM W Int)
    (t : Int) : PM W Int := do
  let tt ← lift (filetime cfg.host cfg.fuel path)
  if tt = 0 then
    failNode self ("is referring to the file '".toList ++ path ++ "' which does not exist".toList)
  else rest (if tt > t then tt else t)

/-- For the output `o` the loop asks for the existence and the time of `o` itself. -/
def ChecksPath (cfg : Settings W) (mem : Mem) (self : Obj) (o : LuaString) : Prop :=
  ∀ is t (s : State W), s.mem = mem →
    fileTimestamp cfg self (o :: is) t s =
      stampPath cfg self o (fileTimestamp cfg self is) t (s.look self)

theorem fileTimestamp_round {cfg : Settings W} {self : Obj} {o p : LuaString} {s : State W}
    (value : expandText cfg s.mem.fields s.mem.scope self o = .ok p) (is : List LuaString)
    (t : Int) : fileTimestamp cfg self (o :: is) t s =
      stampPath cfg self p (fileTimestamp cfg self is) t (s.look self) := by
  have expanded : expand cfg self o s = .ok p (s.look self) := by
    rw [expand_run, value]
    rfl
  rw [fileTimestamp, bind_ok_run expanded]
  rfl

theorem fileTimestamp_stops {cfg : Settings W} {self : Obj} {o : LuaString} {e : Stop} {s : State W}
    (value : expandText cfg s.mem.fields s.mem.scope self o = .error e) (is : List LuaString)
    (t : Int) : fileTimestamp cfg self (o :: is) t s = .error e (s.look self) := by
  have expanded : expand cfg self o s = .error e (s.look self) := by
    rw [expand_run, value]
    rfl
  rw [fileTimestamp, bind_error_run expanded]

theorem stampPath_cached {cfg : Settings W} {self : Obj} {p : LuaString} {s : State W} (tt : Int)
    (cached : s.sys.stattedFiles p = some tt) (rest : Int → PM W Int) (t : Int) :
    stampPath cfg self p rest t s =
      (if tt = 0 then failNode self ("is referring to the file '".toList ++ p ++
        "' which does not exist".toList)
      else rest (if tt > t then tt else t)) s := by
  have time : lift (filetime cfg.host cfg.fuel p) s = .ok tt s := by
    unfold lift filetime
    rw [bind_run, get_run]
    simp only [cached, pure_run]
  rw [stampPath, bind_ok_run time]

theorem checksPath_iff {cfg : Settings W} {self : Obj} {o : LuaString} (u : State W) :
    ChecksPath cfg u.mem self o ↔ expandText cfg u.mem.fields u.mem.scope self o = .ok o := by
  constructor
  · intro checks
    -- a moment at which the cache knows of this one file only
    let known : LuaString → Option Int := fun f => if f = o then some 1 else some 0
    let s : State W := { u with sys := { u.sys with stattedFiles := known } }
    have round := checks [] 0 s rfl
    have found : (s.look self).sys.stattedFiles o = some 1 := if_pos rfl
    rw [stampPath_cached 1 found] at round
    cases value : expandText cfg s.mem.fields s.mem.scope self o with
    | error e =>
      rw [fileTimestamp_stops value] at round
      cases round
    | ok p =>
      by_cases same : p = o
      · rw [same]
      · have lost : (s.look self).sys.stattedFiles p = some 0 := if_neg same
        rw [fileTimestamp_round value, stampPath_cached 0 lost] at round
        cases round
  · intro value is t s same
    rw [← same] at value
    exact fileTimestamp_round value is t

/-- The paths that a file node checks are the outputs it returned, in every environment in
which it returns them, exactly when none of them holds two percent signs. -/
theorem file_checks_outputs {cfg : Settings W} {self : Obj} {inputs outs : List LuaString}
    {s s' : State W} (run : fileOutputs cfg self inputs s = .ok outs s') :
    (∀ (env : Settings W) (node : Obj) (names : List LuaString) (u u' : State W),
      fileOutputs env node names u = .ok outs u' → ∀ (k : Nat) (o : LuaString), outs[k]? = some o →
        ChecksPath env u'.mem node o) ↔ ∀ o ∈ outs, o.count '%' < 2 := by
  constructor
  · intro all o there
    by_contra paired
    let env : Settings W := { cfg with evaluate := fun _ _ => .error .diverges }
    let node : Obj := ⟨0, []⟩
    let u : State W := { s with mem := { s.mem with fields := fun _ _ => none, scope := [] } }
    obtain ⟨names, values⟩ : ∃ names : List LuaString,
        names.mapM (expandText env u.mem.fields u.mem.scope node) = .ok outs := by
      apply mapM_of_forall
      intro b hb
      obtain ⟨enough, t, idle, rfl⟩ := output_restored run hb
      have fuel : 0 < env.fuel := enough
      exact ⟨t, idle_expands fuel _ _ _ idle⟩
    obtain ⟨u', again, same⟩ := collect_expand_run (s := u) values
    have returns : fileOutputs env node names u = .ok outs u' := again
    obtain ⟨k, position⟩ := List.mem_iff_getElem?.mp there
    have checks := (checksPath_iff u').mp (all env node names u u' returns k o position)
    rw [same] at checks
    exact expandLoop_paired (fun _ => ⟨_, rfl⟩) (fun _ some => variable_absent env rfl some)
      (Nat.le_of_not_lt paired) env.fuel checks
  · intro few env node names u u' returns k o position
    have there := List.mem_of_getElem? position
    obtain ⟨enough, t, _, rfl⟩ := output_restored returns there
    exact (checksPath_iff u').mpr (expand_inert enough _ _ _ (few _ there))

def blankDesk : State Desk := start ⟨0, [], []⟩ ⟨1, []⟩ 2

theorem file_named_run (name out : LuaString)
    (value : expandText oneDesk (fun _ _ => none) [⟨1, []⟩] ⟨0, []⟩ name = .ok out) :
    ∃ u', fileOutputs oneDesk ⟨0, []⟩ [name] blankDesk = .ok [out] u' ∧ u'.mem = blankDesk.mem :=
  collect_expand_run (s := blankDesk) (mapM_cons_ok.mpr ⟨out, [], value, rfl, rfl⟩)

theorem percent_file_checked :
    ∃ u', fileOutputs oneDesk ⟨0, []⟩ ["100%%.txt".toList] blankDesk = .ok ["100%.txt".toList] u' ∧
      ((∀ (env : Settings Desk) (node : Obj) (names : List LuaString) (u u' : State Desk),
        fileOutputs env node names u = .ok ["100%.txt".toList] u' →
          ∀ (k : Nat) (o : LuaString), ["100%.txt".toList][k]? = some o →
            ChecksPath env u'.mem node o) ↔ ∀ o ∈ ["100%.txt".toList], o.count '%' < 2) := by
  obtain ⟨u', run, _⟩ := file_named_run "100%%.txt".toList "100%.txt".toList (by decide +kernel)
  exact ⟨u', run, file_checks_outputs run⟩

/-- A file whose name holds two percent signs is looked for under another name. -/
theorem two_percent_signs :
    expandText oneDesk (fun _ _ => none) [⟨1, []⟩] ⟨0, []⟩ "a%%%%b".toList = .ok "a%%b".toList ∧
      expandText oneDesk (fun _ _ => none) [⟨1, []⟩] ⟨0, []⟩ "a%%b".toList = .ok "a%b".toList ∧
      ¬ ∀ (env : Settings Desk) (node : Obj) (names outs : List LuaString) (u u' : State Desk),
        fileOutputs env node names u = .ok outs u' →
          ∀ (k : Nat) (o : LuaString), outs[k]? = some o → ChecksPath env u'.mem node o := by
  have first : expandText oneDesk (fun _ _ => none) [⟨1, []⟩] ⟨0, []⟩ "a%%%%b".toList =
      .ok "a%%b".toList := by decide +kernel
  have second : expandText oneDesk (fun _ _ => none) [⟨1, []⟩] ⟨0, []⟩ "a%%b".toList =
      .ok "a%b".toList := by decide +kernel
  refine ⟨first, second, fun all => ?_⟩
  obtain ⟨u', run, same⟩ := file_named_run _ _ first
  have checks := (checksPath_iff u').mp (all oneDesk _ _ _ _ u' run 0 "a%%b".toList rfl)
  rw [same] at checks
  exact absurd (second.symm.trans checks) (by decide)

end PrimeMover
