import Mathlib.Data.List.Basic

/-! Lua 5.0 patterns over byte strings. A pattern is the list of its items, the
matcher follows `match`, `max_expand` and `min_expand` of lstrlib.c, and `gsub` is
split into the scan of the subject and the replacement of its matches, because
the replaced text is never scanned again. -/
namespace LuaPattern

/-- One pattern item. A character class is the set of characters it accepts. -/
inductive Item where
  | one (p : Char → Bool)
  | opt (p : Char → Bool)
  | star (p : Char → Bool)
  | plus (p : Char → Bool)
  | minus (p : Char → Bool)
  | openCapture
  | closeCapture
  | atEnd

/-- A capture keeps the rest of the subject at its start until it is closed. -/
inductive Capture where
  | unfinished (start : List Char)
  | closed (text : List Char)

def Capture.text : Capture → List Char
  | .unfinished _ => []
  | .closed t => t

/-- `capture_to_close`: the last capture that is still open. -/
def closeLast (s : List Char) : List Capture → List Capture
  | [] => []
  | .closed t :: cs => .closed t :: closeLast s cs
  | .unfinished start :: cs =>
    if cs.any (fun c => match c with | .unfinished _ => true | .closed _ => false) then
      .unfinished start :: closeLast s cs
    else .closed (start.take (start.length - s.length)) :: cs

/-- `max_expand`: as many repetitions as possible, then one less at a time. -/
def maxExpand {A : Type} (p : Char → Bool) (k : List Char → Option A) : List Char → Option A
  | [] => k []
  | c :: s =>
    if p c then
      match maxExpand p k s with
      | some r => some r
      | none => k (c :: s)
    else k (c :: s)

/-- `min_expand`: as few repetitions as possible, then one more at a time. -/
def minExpand {A : Type} (p : Char → Bool) (k : List Char → Option A) : List Char → Option A
  | [] => k []
  | c :: s =>
    match k (c :: s) with
    | some r => some r
    | none => if p c then minExpand p k s else none

/-- `match`: the rest of the subject after the pattern, and the captures. -/
def matchItems : List Item → List Char → List Capture → Option (List Char × List Capture)
  | [], s, cs => some (s, cs)
  | .one p :: ps, s, cs =>
    match s with
    | [] => none
    | c :: s => if p c then matchItems ps s cs else none
  | .opt p :: ps, s, cs =>
    match s with
    | [] => matchItems ps [] cs
    | c :: s =>
      if p c then
        match matchItems ps s cs with
        | some r => some r
        | none => matchItems ps (c :: s) cs
      else matchItems ps (c :: s) cs
  | .star p :: ps, s, cs => maxExpand p (fun s => matchItems ps s cs) s
  | .plus p :: ps, s, cs =>
    match s with
    | [] => none
    | c :: s => if p c then maxExpand p (fun s => matchItems ps s cs) s else none
  | .minus p :: ps, s, cs => minExpand p (fun s => matchItems ps s cs) s
  | .openCapture :: ps, s, cs => matchItems ps s (cs ++ [.unfinished s])
  | .closeCapture :: ps, s, cs => matchItems ps s (closeLast s cs)
  | .atEnd :: ps, s, cs => if s = [] then matchItems ps s cs else none

/-- A pattern; `anchored` when it starts with `^`. -/
structure Pattern where
  anchored : Bool
  items : List Item

/-- `string.find`, as the captures of the first match. -/
def find (p : Pattern) : List Char → Option (List (List Char))
  | [] => (matchItems p.items [] []).map (fun r => r.2.map Capture.text)
  | c :: s =>
    match matchItems p.items (c :: s) [] with
    | some r => some (r.2.map Capture.text)
    | none => if p.anchored then none else find p s

/-- What `string.gsub` meets from left to right: a match, or a character it copies. -/
inductive Piece where
  | char (c : Char)
  | hit (captures : List (List Char))
  deriving DecidableEq, Repr

/-- The scan of `str_gsub`. Every round consumes a character or stops, so the
fuel `s.length + 1` never runs out. -/
def scanFrom (p : Pattern) : Nat → List Char → List Piece
  | 0, s => s.map .char
  | n + 1, s =>
    match matchItems p.items s [] with
    | some (rest, cs) =>
      let hit := Piece.hit (cs.map Capture.text)
      if rest.length < s.length then
        hit :: (if p.anchored then rest.map .char else scanFrom p n rest)
      else
        match s with
        | [] => [hit]
        | c :: s => hit :: .char c :: (if p.anchored then s.map .char else scanFrom p n s)
    | none =>
      match s with
      | [] => []
      | c :: s => .char c :: (if p.anchored then s.map .char else scanFrom p n s)

def scan (p : Pattern) (s : List Char) : List Piece := scanFrom p (s.length + 1) s

/-- The number of substitutions, the second result of `string.gsub`. -/
def hits (pieces : List Piece) : Nat :=
  (pieces.filter (fun q => match q with | .hit _ => true | .char _ => false)).length

/-- The text in which the matches are replaced. -/
def replace (repl : List (List Char) → List Char) (pieces : List Piece) : List Char :=
  pieces.flatMap (fun q => match q with | .char c => [c] | .hit cs => repl cs)

def gsub (p : Pattern) (repl : List (List Char) → List Char) (s : List Char) : List Char :=
  replace repl (scan p s)

/-- `string.gsub` with a function that may fail: the matches are replaced in order. -/
def replaceM {E : Type} (repl : List (List Char) → Except E (List Char)) :
    List Piece → Except E (List Char)
  | [] => .ok []
  | .char c :: qs => do
    let t ← replaceM repl qs
    .ok (c :: t)
  | .hit cs :: qs => do
    let r ← repl cs
    let t ← replaceM repl qs
    .ok (r ++ t)

theorem maxExpand_all {A : Type} (p : Char → Bool) (k : List Char → Option A) (s : List Char)
    (r : A) (all : ∀ c ∈ s, p c = true) (last : k [] = some r) : maxExpand p k s = some r := by
  induction s with
  | nil => exact last
  | cons c s ih =>
    have hc := all c List.mem_cons_self
    have hs := ih (fun d hd => all d (List.mem_cons_of_mem c hd))
    simp only [maxExpand, hc, if_true, hs]

theorem maxExpand_prefix {A : Type} (p : Char → Bool) (k : List Char → Option A)
    (s t : List Char) (c : Char) (r : A) (all : ∀ d ∈ s, p d = true) (stop : p c = false)
    (last : k (c :: t) = some r) : maxExpand p k (s ++ c :: t) = some r := by
  induction s with
  | nil => simp [maxExpand, stop, last]
  | cons d s ih =>
    have hd := all d List.mem_cons_self
    have hs := ih (fun e he => all e (List.mem_cons_of_mem d he))
    simp only [List.cons_append, maxExpand, hd, if_true, hs]

theorem maxExpand_none {A : Type} (p : Char → Bool) (k : List Char → Option A) (s : List Char)
    (fails : ∀ a b, s = a ++ b → k b = none) : maxExpand p k s = none := by
  induction s with
  | nil => exact fails [] [] rfl
  | cons c s ih =>
    have hk := fails [] (c :: s) rfl
    have hs := ih (fun a b h => fails (c :: a) b (by simp [h]))
    simp only [maxExpand, hk, hs, ite_self]

/-- The last place at which the rest of the pattern matches wins. -/
theorem maxExpand_last {A : Type} (p : Char → Bool) (k : List Char → Option A) (s t : List Char)
    (c : Char) (r : A) (all : ∀ d ∈ s, p d = true) (at_last : p c = true)
    (fails : ∀ a b, t = a ++ b → k b = none) (last : k (c :: t) = some r) :
    maxExpand p k (s ++ c :: t) = some r := by
  induction s with
  | nil =>
    have behind := maxExpand_none p k t fails
    simp only [List.nil_append, maxExpand, at_last, if_true, behind, last]
  | cons d s ih =>
    have hd := all d List.mem_cons_self
    have hs := ih (fun e he => all e (List.mem_cons_of_mem d he))
    simp only [List.cons_append, maxExpand, hd, if_true, hs]

/-- A run is taken as a whole where the rest of the pattern cannot start inside it. -/
theorem maxExpand_run {A : Type} {p : Char → Bool} {k : List Char → Option A}
    (fails : ∀ c s, p c = true → k (c :: s) = none) (s : List Char) :
    maxExpand p k s = k (s.dropWhile p) := by
  induction s with
  | nil => rfl
  | cons c s ih =>
    cases fits : p c with
    | false => rw [List.dropWhile_cons_of_neg (by simp [fits]), maxExpand, fits]; rfl
    | true =>
      rw [List.dropWhile_cons_of_pos fits, maxExpand, if_pos fits, ih, fails c s fits]
      cases k (s.dropWhile p) <;> rfl

/-- A run is taken as a whole where the rest of the pattern always matches. -/
theorem maxExpand_free {A : Type} {p : Char → Bool} {k : List Char → Option A}
    (matches_all : ∀ s, (k s).isSome = true) (s : List Char) :
    maxExpand p k s = k (s.dropWhile p) := by
  induction s with
  | nil => rfl
  | cons c s ih =>
    cases fits : p c with
    | false => rw [List.dropWhile_cons_of_neg (by simp [fits]), maxExpand, fits]; rfl
    | true =>
      obtain ⟨r, found⟩ := Option.isSome_iff_exists.mp (matches_all (s.dropWhile p))
      rw [List.dropWhile_cons_of_pos fits, maxExpand, if_pos fits, ih, found]

theorem minExpand_prefix {A : Type} (p : Char → Bool) (k : List Char → Option A)
    (s t : List Char) (r : A) (all : ∀ d ∈ s, p d = true)
    (fails : ∀ a d b, s = a ++ d :: b → k (d :: b ++ t) = none)
    (last : k t = some r) : minExpand p k (s ++ t) = some r := by
  induction s with
  | nil => cases t <;> simp [minExpand, last]
  | cons d s ih =>
    have hd := all d List.mem_cons_self
    have hk := fails [] d s rfl
    have hs := ih (fun e he => all e (List.mem_cons_of_mem d he))
      (fun a e b h => fails (d :: a) e b (by simp [h]))
    rw [List.cons_append] at hk
    simp only [List.cons_append, minExpand, hk, hd, if_true, hs]

theorem minExpand_none {A : Type} (p : Char → Bool) (k : List Char → Option A) (s : List Char)
    (fails : ∀ a b, s = a ++ b → k b = none) : minExpand p k s = none := by
  induction s with
  | nil => exact fails [] [] rfl
  | cons c s ih =>
    have hk := fails [] (c :: s) rfl
    have hs := ih (fun a b h => fails (c :: a) b (by simp [h]))
    simp only [minExpand, hk, hs]
    split <;> rfl

theorem minExpand_found {A : Type} (p : Char → Bool) (k : List Char → Option A) (s : List Char)
    (r : A) (h : minExpand p k s = some r) : ∃ a b, s = a ++ b ∧ k b = some r := by
  induction s with
  | nil => exact ⟨[], [], rfl, h⟩
  | cons c s ih =>
    rw [minExpand] at h
    split at h
    · rename_i found
      cases h
      exact ⟨[], c :: s, rfl, found⟩
    · split at h
      · obtain ⟨a, b, rfl, hb⟩ := ih h
        exact ⟨c :: a, b, rfl, hb⟩
      · cases h

theorem minExpand_some {A : Type} (p : Char → Bool) (k : List Char → Option A) (s t : List Char)
    (all : ∀ d ∈ s, p d = true) (last : k t ≠ none) : minExpand p k (s ++ t) ≠ none := by
  induction s with
  | nil =>
    obtain ⟨r, hr⟩ := Option.ne_none_iff_exists'.mp last
    cases t <;> simp [minExpand, hr]
  | cons c s ih =>
    have hc := all c List.mem_cons_self
    have hs := ih (fun d hd => all d (List.mem_cons_of_mem c hd))
    rw [List.cons_append, minExpand]
    split
    · simp
    · rw [if_pos hc]
      exact hs

theorem scanFrom_fuel (p : Pattern) (n : Nat) (s : List Char) (enough : s.length < n) :
    scanFrom p n s = scan p s := by
  suffices general : ∀ k s, s.length < k → ∀ n, s.length < n → scanFrom p n s = scanFrom p k s from
    general (s.length + 1) s (Nat.lt_succ_self _) n enough
  intro k
  induction k with
  | zero => intro s h; omega
  | succ k ih =>
    intro s hk n hn
    cases n with
    | zero => omega
    | succ n =>
      cases hm : matchItems p.items s [] with
      | none =>
        cases s with
        | nil => simp only [scanFrom, hm]
        | cons c s =>
          simp only [List.length_cons] at hk hn
          simp only [scanFrom, hm, ih s (by omega) n (by omega)]
      | some r =>
        obtain ⟨rest, cs⟩ := r
        simp only [scanFrom, hm]
        split
        · rename_i shorter
          rw [ih rest (by omega) n (by omega)]
        · cases s with
          | nil => rfl
          | cons c s =>
            simp only [List.length_cons] at hk hn
            simp only [ih s (by omega) n (by omega)]

theorem scan_miss (p : Pattern) (free : p.anchored = false) (c : Char) (s : List Char)
    (miss : matchItems p.items (c :: s) [] = none) : scan p (c :: s) = .char c :: scan p s := by
  rw [scan, List.length_cons, scanFrom, miss]
  simp only [free, Bool.false_eq_true, if_false]
  rw [scanFrom_fuel p _ s (by omega)]

theorem scan_hit (p : Pattern) (free : p.anchored = false) (s rest : List Char)
    (cs : List Capture) (found : matchItems p.items s [] = some (rest, cs))
    (shorter : rest.length < s.length) :
    scan p s = .hit (cs.map Capture.text) :: scan p rest := by
  cases s with
  | nil => exact absurd shorter (Nat.not_lt_zero _)
  | cons c s =>
    rw [scan, List.length_cons, scanFrom, found]
    simp only [shorter, if_true, free, Bool.false_eq_true, if_false]
    rw [scanFrom_fuel p _ rest (by simpa using shorter)]

theorem scan_nil (p : Pattern) (miss : matchItems p.items [] [] = none) : scan p [] = [] := by
  simp [scan, scanFrom, miss]

theorem scan_skip (p : Pattern) (free : p.anchored = false) (s t : List Char)
    (miss : ∀ a c b, s = a ++ c :: b → matchItems p.items (c :: b ++ t) [] = none) :
    scan p (s ++ t) = s.map .char ++ scan p t := by
  induction s with
  | nil => rfl
  | cons c s ih =>
    have hc : matchItems p.items (c :: (s ++ t)) [] = none := miss [] c s rfl
    rw [List.cons_append, scan_miss p free c (s ++ t) hc,
      ih (fun a d b h => miss (c :: a) d b (by simp [h]))]
    rfl

theorem scan_none (p : Pattern) (free : p.anchored = false) (s : List Char)
    (miss : ∀ a b, s = a ++ b → matchItems p.items b [] = none) : scan p s = s.map .char := by
  have skip := scan_skip p free s [] (fun a c b h => by
    rw [List.append_nil]
    exact miss a (c :: b) h)
  rw [scan_nil p (miss s [] (List.append_nil s).symm)] at skip
  simpa using skip

@[simp] theorem replace_nil (repl : List (List Char) → List Char) : replace repl [] = [] := rfl

@[simp] theorem replace_char (repl : List (List Char) → List Char) (c : Char) (qs : List Piece) :
    replace repl (.char c :: qs) = c :: replace repl qs := rfl

@[simp] theorem replace_hit (repl : List (List Char) → List Char) (cs : List (List Char))
    (qs : List Piece) : replace repl (.hit cs :: qs) = repl cs ++ replace repl qs := rfl

@[simp] theorem hits_nil : hits [] = 0 := rfl

@[simp] theorem hits_char (c : Char) (qs : List Piece) : hits (.char c :: qs) = hits qs := rfl

@[simp] theorem hits_hit (cs : List (List Char)) (qs : List Piece) :
    hits (.hit cs :: qs) = hits qs + 1 := rfl

@[simp] theorem replace_chars (repl : List (List Char) → List Char) (s : List Char)
    (qs : List Piece) : replace repl (s.map .char ++ qs) = s ++ replace repl qs := by
  induction s with
  | nil => rfl
  | cons c s ih => simp [ih]

@[simp] theorem hits_chars (s : List Char) (qs : List Piece) :
    hits (s.map .char ++ qs) = hits qs := by
  induction s with
  | nil => rfl
  | cons c s ih => simp [ih]

theorem hits_pos (p : Pattern) (free : p.anchored = false) (a b : List Char)
    (found : matchItems p.items b [] ≠ none) : 0 < hits (scan p (a ++ b)) := by
  have here : ∀ s, matchItems p.items s [] ≠ none → 0 < hits (scan p s) := by
    intro s hs
    cases hm : matchItems p.items s [] with
    | none => exact absurd hm hs
    | some r =>
      simp only [scan, scanFrom, hm]
      split
      · simp
      · cases s <;> simp
  induction a with
  | nil => exact here b found
  | cons c a ih =>
    by_cases miss : matchItems p.items (c :: (a ++ b)) [] = none
    · rw [List.cons_append, scan_miss p free c (a ++ b) miss]
      simpa using ih
    · exact here _ miss

theorem replaceM_stops {E : Type} {repl : List (List Char) → Except E (List Char)}
    (fails : ∀ cs, ∃ e, repl cs = .error e) (qs : List Piece) (some : 0 < hits qs) :
    ∃ e, replaceM repl qs = .error e := by
  induction qs with
  | nil => simp at some
  | cons q qs ih =>
    cases q with
    | char c =>
      obtain ⟨e, he⟩ := ih (by simpa using some)
      exact ⟨e, by simp only [replaceM, he]; rfl⟩
    | hit cs =>
      obtain ⟨e, he⟩ := fails cs
      exact ⟨e, by simp only [replaceM, he]; rfl⟩

theorem replaceM_append {E : Type} (repl : List (List Char) → Except E (List Char))
    (ps qs : List Piece) : replaceM repl (ps ++ qs) = (do
      let s ← replaceM repl ps
      let t ← replaceM repl qs
      .ok (s ++ t)) := by
  induction ps with
  | nil => cases h : replaceM repl qs <;> simp [replaceM, h] <;> rfl
  | cons p ps ih =>
    cases p with
    | char c =>
      simp only [List.cons_append, replaceM, ih]
      cases replaceM repl ps with
      | error e => rfl
      | ok s => cases replaceM repl qs <;> rfl
    | hit cs =>
      simp only [List.cons_append, replaceM, ih]
      cases repl cs with
      | error e => rfl
      | ok r =>
        cases replaceM repl ps with
        | error e => rfl
        | ok s =>
          cases replaceM repl qs with
          | error e => rfl
          | ok t => simp [bind, Except.bind]

theorem replaceM_chars {E : Type} (repl : List (List Char) → Except E (List Char))
    (s : List Char) : replaceM repl (s.map .char) = .ok s := by
  induction s with
  | nil => rfl
  | cons c s ih => simp only [List.map_cons, replaceM, ih]; rfl

@[simp] theorem hits_append (ps qs : List Piece) : hits (ps ++ qs) = hits ps + hits qs := by
  simp [hits]

/-- Replacing one character wherever it stands. -/
theorem gsub_one (d : Char) (r s : List Char) :
    gsub ⟨false, [.one (· == d)]⟩ (fun _ => r) s = s.flatMap fun c => if c = d then r else [c] := by
  unfold gsub
  induction s with
  | nil => rfl
  | cons c s ih =>
    by_cases same : c = d
    · have here : matchItems [.one (· == d)] (c :: s) [] = some (s, []) := by simp [matchItems, same]
      rw [scan_hit _ rfl (c :: s) s [] here (by simp), replace_hit, ih, List.flatMap_cons,
        if_pos same]
    · have here : matchItems [.one (· == d)] (c :: s) [] = none := by simp [matchItems, same]
      rw [scan_miss _ rfl c s here, replace_char, ih, List.flatMap_cons, if_neg same]
      rfl

theorem find_of_match {p : Pattern} {s rest : List Char} {cs : List Capture}
    (found : matchItems p.items s [] = some (rest, cs)) :
    find p s = some (cs.map Capture.text) := by
  cases s with
  | nil => simp [find, found]
  | cons c s => simp [find, found]

theorem match_word (w s : List Char) (ps : List Item) (cs : List Capture) :
    matchItems (w.map (fun c => .one (· == c)) ++ ps) (w ++ s) cs = matchItems ps s cs := by
  induction w with
  | nil => rfl
  | cons c w ih => simp [matchItems, ih]

theorem match_literal (lit rest : List Char) :
    matchItems (lit.map fun c => .one (· == c)) (lit ++ rest) [] = some (rest, []) := by
  induction lit with
  | nil => rfl
  | cons c lit ih => simp [matchItems, ih]

theorem literal_of_match (lit s r : List Char) (cs : List Capture)
    (found : matchItems (lit.map fun c => .one (· == c)) s [] = some (r, cs)) :
    s = lit ++ r ∧ cs = [] := by
  induction lit generalizing s with
  | nil =>
    cases found
    exact ⟨rfl, rfl⟩
  | cons c lit ih =>
    cases s with
    | nil => cases found
    | cons d s =>
      simp only [List.map_cons, matchItems] at found
      split at found
      · rename_i same
        obtain ⟨rfl, none⟩ := ih s found
        exact ⟨by rw [beq_iff_eq.mp same]; rfl, none⟩
      · cases found

/-- `d(.-)d`: the shortest text between two delimiters. -/
def enclosed (d : Char) : Pattern where
  anchored := false
  items := [.one (· == d), .openCapture, .minus (fun _ => true), .closeCapture, .one (· == d)]

theorem closeLast_single (name s : List Char) :
    closeLast s [.unfinished (name ++ s)] = [.closed name] := by
  simp [closeLast]

theorem match_enclosed (d : Char) (name s : List Char) (inner : d ∉ name) :
    matchItems (enclosed d).items (d :: (name ++ d :: s)) [] = some (s, [.closed name]) := by
  simp only [enclosed, matchItems, beq_self_eq_true, if_true]
  apply minExpand_prefix
  · intro _ _; rfl
  · intro a c b h
    have hc : (c == d) = false := by
      have : c ≠ d := by
        rintro rfl
        exact inner (by simp [h])
      simpa using this
    simp [hc]
  · simp [closeLast_single]

theorem match_unclosed (d : Char) (s : List Char) (absent : d ∉ s) :
    matchItems (enclosed d).items (d :: s) [] = none := by
  simp only [enclosed, matchItems, beq_self_eq_true, if_true]
  apply minExpand_none
  intro a b h
  cases b with
  | nil => rfl
  | cons c b =>
    have hc : (c == d) = false := by
      have : c ≠ d := by
        rintro rfl
        exact absent (by simp [h])
      simpa using this
    simp [hc]

theorem match_one_ne (d c : Char) (ps : List Item) (s : List Char) (other : c ≠ d) :
    matchItems (.one (· == d) :: ps) (c :: s) [] = none := by
  simp [matchItems, other]

theorem closeLast_behind (names : List (List Char)) (name s : List Char) :
    closeLast s (names.map .closed ++ [.unfinished (name ++ s)]) =
      (names ++ [name]).map .closed := by
  induction names with
  | nil => exact congrArg _ (closeLast_single name s)
  | cons n names ih =>
    rw [List.map_cons, List.cons_append, closeLast, ih]
    rfl

/-- A capture of as many characters as possible, up to one that does not belong to it. -/
theorem match_capture {p : Char → Bool} (names : List (List Char)) (name : List Char)
    {s : List Char} {c : Char} {ps : List Item} {r : List Char × List Capture} (all : ∀ d ∈ name, p d = true)
    (stop : p c = false)
    (rest : matchItems ps (c :: s) ((names ++ [name]).map .closed) = some r) :
    matchItems (.openCapture :: .star p :: .closeCapture :: ps) (name ++ c :: s)
      (names.map .closed) = some r := by
  rw [matchItems, matchItems]
  apply maxExpand_prefix p _ _ _ _ _ all stop
  rw [matchItems, closeLast_behind]
  exact rest

theorem match_capture_all {p : Char → Bool} (names : List (List Char)) (name : List Char)
    {ps : List Item} {r : List Char × List Capture} (all : ∀ d ∈ name, p d = true)
    (rest : matchItems ps [] ((names ++ [name]).map .closed) = some r) :
    matchItems (.openCapture :: .star p :: .closeCapture :: ps) name (names.map .closed) =
      some r := by
  have closed := closeLast_behind names name []
  rw [List.append_nil] at closed
  rw [matchItems, matchItems]
  apply maxExpand_all p _ _ _ all
  rw [matchItems, closed]
  exact rest

theorem match_capture_one {p : Char → Bool} (names : List (List Char)) {s : List Char} {c : Char}
    {ps : List Item} {r : List Char × List Capture} (fits : p c = true)
    (rest : matchItems ps s ((names ++ [[c]]).map .closed) = some r) :
    matchItems (.openCapture :: .opt p :: .closeCapture :: ps) (c :: s) (names.map .closed) =
      some r := by
  have closed := closeLast_behind names [c] s
  rw [List.singleton_append] at closed
  simp only [matchItems, if_pos fits, closed, rest]

theorem match_capture_absent {p : Char → Bool} (names : List (List Char)) {s : List Char} {c : Char}
    {ps : List Item} {r : List Char × List Capture} (differs : p c = false)
    (rest : matchItems ps (c :: s) ((names ++ [[]]).map .closed) = some r) :
    matchItems (.openCapture :: .opt p :: .closeCapture :: ps) (c :: s) (names.map .closed) =
      some r := by
  have closed := closeLast_behind names [] (c :: s)
  rw [List.nil_append] at closed
  simp only [matchItems, differs, Bool.false_eq_true, if_false, closed, rest]

theorem match_opt {p : Char → Bool} {s : List Char} {c : Char} {ps : List Item} {cs : List Capture}
    {r : List Char × List Capture} (fits : p c = true) (rest : matchItems ps s cs = some r) :
    matchItems (.opt p :: ps) (c :: s) cs = some r := by
  simp only [matchItems, if_pos fits, rest]

theorem maxExpand_suffix {A : Type} (p : Char → Bool) (k : List Char → Option A) (s : List Char)
    (r : A) (found : maxExpand p k s = some r) : ∃ t, t <:+ s ∧ k t = some r := by
  induction s with
  | nil => exact ⟨[], List.suffix_rfl, found⟩
  | cons c s ih =>
    rw [maxExpand] at found
    split at found
    · split at found
      · rename_i deeper
        cases found
        obtain ⟨t, inside, at_t⟩ := ih deeper
        exact ⟨t, inside.trans (List.suffix_cons c s), at_t⟩
      · exact ⟨c :: s, List.suffix_rfl, found⟩
    · exact ⟨c :: s, List.suffix_rfl, found⟩

/-- Items that cannot match without taking a character. -/
def Item.takes : Item → Bool
  | .one _ | .plus _ => true
  | _ => false

/-- Where the match goes on behind an item. -/
theorem matchItems_cons {item : Item} {items : List Item} {s r : List Char}
    {cs cs' : List Capture} (found : matchItems (item :: items) s cs = some (r, cs')) :
    ∃ t cs'', t <:+ s ∧ (item.takes = true → t.length < s.length) ∧
      (cs'' = cs ∨ cs'' = cs ++ [.unfinished s] ∨ cs'' = closeLast s cs) ∧
      matchItems items t cs'' = some (r, cs') := by
  cases item with
  | one p =>
    cases s with
    | nil => cases found
    | cons c s =>
      simp only [matchItems] at found
      split at found
      · exact ⟨s, cs, List.suffix_cons c s, fun _ => Nat.lt_succ_self _, .inl rfl, found⟩
      · cases found
  | opt p =>
    cases s with
    | nil => exact ⟨[], cs, List.suffix_rfl, (fun takes => by cases takes), .inl rfl, found⟩
    | cons c s =>
      simp only [matchItems] at found
      split at found
      · split at found
        · rename_i deeper
          cases found
          exact ⟨s, cs, List.suffix_cons c s, (fun takes => by cases takes), .inl rfl, deeper⟩
        · exact ⟨c :: s, cs, List.suffix_rfl, (fun takes => by cases takes), .inl rfl, found⟩
      · exact ⟨c :: s, cs, List.suffix_rfl, (fun takes => by cases takes), .inl rfl, found⟩
  | star p =>
    obtain ⟨t, inside, at_t⟩ := maxExpand_suffix p _ s _ found
    exact ⟨t, cs, inside, (fun takes => by cases takes), .inl rfl, at_t⟩
  | plus p =>
    cases s with
    | nil => cases found
    | cons c s =>
      simp only [matchItems] at found
      split at found
      · obtain ⟨t, inside, at_t⟩ := maxExpand_suffix p _ s _ found
        exact ⟨t, cs, inside.trans (List.suffix_cons c s),
          fun _ => Nat.lt_succ_of_le inside.length_le, .inl rfl, at_t⟩
      · cases found
  | minus p =>
    obtain ⟨a, b, rfl, at_b⟩ := minExpand_found p _ s _ found
    exact ⟨b, cs, List.suffix_append a b, (fun takes => by cases takes), .inl rfl, at_b⟩
  | openCapture =>
    exact ⟨s, _, List.suffix_rfl, (fun takes => by cases takes), .inr (.inl rfl), found⟩
  | closeCapture =>
    exact ⟨s, _, List.suffix_rfl, (fun takes => by cases takes), .inr (.inr rfl), found⟩
  | atEnd =>
    simp only [matchItems] at found
    split at found
    · exact ⟨s, cs, List.suffix_rfl, (fun takes => by cases takes), .inl rfl, found⟩
    · cases found

/-- What is left of a subject is a suffix of it. -/
theorem matchItems_suffix {items : List Item} {s r : List Char} {cs cs' : List Capture}
    (found : matchItems items s cs = some (r, cs')) : r <:+ s := by
  induction items generalizing s cs with
  | nil =>
    cases found
    exact List.suffix_rfl
  | cons item items ih =>
    obtain ⟨t, _, inside, _, _, rest⟩ := matchItems_cons found
    exact (ih rest).trans inside

theorem matchItems_shorter {items : List Item} {s r : List Char} {cs cs' : List Capture}
    (takes : items.any Item.takes = true) (found : matchItems items s cs = some (r, cs')) :
    r.length < s.length := by
  induction items generalizing s cs with
  | nil => cases takes
  | cons item items ih =>
    obtain ⟨t, _, inside, shorter, _, rest⟩ := matchItems_cons found
    rw [List.any_cons, Bool.or_eq_true] at takes
    rcases takes with here | later
    · exact Nat.lt_of_le_of_lt (matchItems_suffix rest).length_le (shorter here)
    · exact Nat.lt_of_lt_of_le (ih later rest) inside.length_le

theorem find_anchored {p : Pattern} (anchored : p.anchored = true) (s : List Char) :
    find p s = (matchItems p.items s []).map fun r => r.2.map Capture.text := by
  cases s with
  | nil => rfl
  | cons c s =>
    rw [find]
    cases matchItems p.items (c :: s) [] <;> simp [anchored]

/-- The characters that captures hold. -/
def Within (s : List Char) (cs : List Capture) : Prop :=
  ∀ c ∈ cs, match c with
    | .unfinished start => start ⊆ s
    | .closed text => text ⊆ s

theorem Within.closeLast {s t : List Char} {cs : List Capture} (within : Within s cs) :
    Within s (closeLast t cs) := by
  induction cs with
  | nil => exact within
  | cons c cs ih =>
    have later := ih fun d mem => within d (List.mem_cons_of_mem c mem)
    have here := within c List.mem_cons_self
    cases c with
    | closed text =>
      intro d mem
      rcases List.mem_cons.mp mem with rfl | mem
      · exact here
      · exact later d mem
    | unfinished start =>
      rw [LuaPattern.closeLast]
      split
      · intro d mem
        rcases List.mem_cons.mp mem with rfl | mem
        · exact here
        · exact later d mem
      · intro d mem
        rcases List.mem_cons.mp mem with rfl | mem
        · exact fun e inside => here (List.mem_of_mem_take inside)
        · exact within d (List.mem_cons_of_mem _ mem)

theorem matchItems_within {items : List Item} {s t r : List Char} {cs cs' : List Capture}
    (inside : t ⊆ s) (within : Within s cs) (found : matchItems items t cs = some (r, cs')) :
    Within s cs' := by
  induction items generalizing t cs with
  | nil =>
    cases found
    exact within
  | cons item items ih =>
    obtain ⟨u, cs'', suffix, _, captures, rest⟩ := matchItems_cons found
    refine ih (fun c mem => inside (suffix.subset mem)) ?_ rest
    rcases captures with rfl | rfl | rfl
    · exact within
    · intro c mem
      rcases List.mem_append.mp mem with mem | mem
      · exact within c mem
      · cases List.mem_singleton.mp mem
        exact inside
    · exact within.closeLast

/-- What is captured is part of the subject. -/
theorem find_within {p : Pattern} {s : List Char} {texts : List (List Char)}
    (found : find p s = some texts) : ∀ t ∈ texts, t ⊆ s := by
  have texts_within : ∀ (s r : List Char) (cs : List Capture),
      matchItems p.items s [] = some (r, cs) → ∀ t ∈ cs.map Capture.text, t ⊆ s := by
    intro s r cs matched t mem
    obtain ⟨c, known, rfl⟩ := List.mem_map.mp mem
    have within := matchItems_within (List.Subset.refl s) (fun _ none => by cases none) matched c known
    cases c with
    | unfinished start => exact List.nil_subset s
    | closed text => exact within
  induction s with
  | nil =>
    obtain ⟨⟨r, cs⟩, matched, rfl⟩ := Option.map_eq_some_iff.mp found
    exact texts_within [] r cs matched
  | cons c s ih =>
    rw [find] at found
    cases matched : matchItems p.items (c :: s) [] with
    | some r =>
      rw [matched] at found
      cases found
      exact texts_within (c :: s) r.1 r.2 matched
    | none =>
      rw [matched] at found
      dsimp only at found
      split at found
      · cases found
      · exact fun t mem => List.Subset.trans (ih found t mem) (List.subset_cons_self c s)

/-- The characters an item takes, none for an item that takes no character. -/
def Item.accepts : Item → Char → Bool
  | .one p, c | .opt p, c | .star p, c | .plus p, c | .minus p, c => p c
  | _, _ => false

/-- Items that take each character on its own account. -/
def Item.plain : Item → Bool
  | .one _ | .opt _ | .star _ | .plus _ => true
  | _ => false

theorem maxExpand_stop {A : Type} {p : Char → Bool} {k k' : List Char → Option A} {f : A → A}
    {x : List Char} (stop : ∀ d, x.head? = some d → p d = false)
    (same : ∀ s, k' (s ++ x) = (k s).map f) (s : List Char) :
    maxExpand p k' (s ++ x) = (maxExpand p k s).map f := by
  induction s with
  | nil =>
    cases x with
    | nil => exact same []
    | cons d x =>
      have here := stop d rfl
      simp only [List.nil_append, maxExpand, here]
      exact same []
  | cons c s ih =>
    have at_c := same (c :: s)
    rw [List.cons_append] at at_c ⊢
    rw [maxExpand, maxExpand, ih, at_c]
    split
    · cases maxExpand p k s <;> rfl
    · rfl

/-- A match ends where no item takes the next character. -/
theorem matchItems_stop {x : List Char} (items : List Item)
    (plain : ∀ item ∈ items, item.plain = true)
    (stop : ∀ d, x.head? = some d → ∀ item ∈ items, item.accepts d = false)
    (s : List Char) (cs : List Capture) :
    matchItems items (s ++ x) cs = (matchItems items s cs).map (fun r => (r.1 ++ x, r.2)) := by
  induction items generalizing s cs with
  | nil => rfl
  | cons item items ih =>
    have first := plain item List.mem_cons_self
    have here : ∀ d, x.head? = some d → item.accepts d = false :=
      fun d head => stop d head item List.mem_cons_self
    have later := ih (fun i mem => plain i (List.mem_cons_of_mem _ mem))
      (fun d head i mem => stop d head i (List.mem_cons_of_mem _ mem))
    cases item with
    | one p =>
      cases s with
      | nil =>
        cases x with
        | nil => rfl
        | cons d x =>
          have no : p d = false := here d rfl
          simp [matchItems, no]
      | cons c s =>
        rw [List.cons_append, matchItems, matchItems]
        split
        · exact later s cs
        · rfl
    | opt p =>
      cases s with
      | nil =>
        cases x with
        | nil => exact later [] cs
        | cons d x =>
          have no : p d = false := here d rfl
          have rest := later [] cs
          rw [List.nil_append] at rest
          simp only [List.nil_append, matchItems, no, Bool.false_eq_true, if_false, rest]
      | cons c s =>
        have rest := later (c :: s) cs
        rw [List.cons_append] at rest
        rw [List.cons_append, matchItems, matchItems]
        split
        · rw [later s cs, rest]
          cases matchItems items s cs <;> rfl
        · exact rest
    | star p => exact maxExpand_stop here (fun s => later s cs) s
    | plus p =>
      cases s with
      | nil =>
        cases x with
        | nil => rfl
        | cons d x =>
          have no : p d = false := here d rfl
          simp [matchItems, no]
      | cons c s =>
        rw [List.cons_append, matchItems, matchItems]
        split
        · exact maxExpand_stop here (fun s => later s cs) s
        · rfl
    | minus p => cases first
    | openCapture => cases first
    | closeCapture => cases first
    | atEnd => cases first

theorem match_rest (p : Char → Bool) (s : List Char) (cs : List Capture) :
    matchItems [.star p] s cs = some (s.dropWhile p, cs) := by
  rw [matchItems]
  induction s with
  | nil => rfl
  | cons c s ih =>
    rw [maxExpand, ih, List.dropWhile_cons]
    split <;> rfl

end LuaPattern
