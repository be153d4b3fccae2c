import PrimeMover.Comments

/-! The white space of a source without comments: where it stands between the pieces of
ccruncher, where it stands between the tokens of C, and what of it is left in the output. -/
namespace PrimeMover.Cruncher
open LuaPattern CTokens

/-- No comment opens and every literal ends on its line. -/
def properFrom : Mode → LuaString → Bool
  | _, [] => true
  | m, c :: t =>
    !(m.next c t).inside && (!(m.plain && quote c) || (quoteEnd c t).isSome) &&
      properFrom (m.next c t) t

/-- No comment opens outside of literals. -/
def commentFree (source : LuaString) : Bool := withoutComments source == some source

/-- White space is dropped, but where it keeps two words apart a line break is put. -/
def squeezeFrom : Mode → Bool → Bool → LuaString → LuaString
  | _, _, _, [] => []
  | m, prev, gap, c :: t =>
    if m.plain && white c then squeezeFrom .code prev true t
    else (if prev && gap && word c then ['\n'] else []) ++
      c :: squeezeFrom (m.next c t) (word c) false t

def startsWord (p : LuaString) : Bool := p.head?.any word

def endsWord (p : LuaString) : Bool := p.getLast?.any word

/-- Texts with a mark for white space in front of each. The flag tells whether a word ends
before them. -/
def rejoin : Bool → List (Bool × LuaString) → LuaString
  | _, [] => []
  | prev, (gap, p) :: parts =>
    (if prev && gap && startsWord p then ['\n'] else []) ++ p ++ rejoin (endsWord p) parts

/-- Some texts with white space in front of some of them and between them. -/
inductive Laid : Bool → List (Bool × LuaString) → LuaString → Prop
  | nil (gap : Bool) : Laid gap [] []
  | skip {c : Char} {gap : Bool} {parts : List (Bool × LuaString)} {t : LuaString}
      (blank : white c = true) (rest : Laid true parts t) : Laid gap parts (c :: t)
  | part {p : LuaString} {gap : Bool} {parts : List (Bool × LuaString)} {t : LuaString}
      (nonempty : p ≠ []) (passes : Passes .code p t) (rest : Laid false parts t) :
      Laid gap ((gap, p) :: parts) (p ++ t)

theorem endsWord_cons (c : Char) (p : LuaString) (nonempty : p ≠ []) :
    endsWord (c :: p) = endsWord p := by
  obtain ⟨d, p, rfl⟩ := List.exists_cons_of_ne_nil nonempty
  rw [endsWord, endsWord, List.getLast?_cons_cons]

theorem Passes.code {m : Mode} {p x : LuaString} (passes : Passes m p x) (empty : p = []) :
    m = .code := by
  cases passes with
  | nil => rfl
  | cons => cases empty

theorem Passes.squeeze {m : Mode} {p x : LuaString} (passes : Passes m p x) (nonempty : p ≠ [])
    (prev : Bool) : squeezeFrom m prev false (p ++ x) =
      p ++ squeezeFrom .code (endsWord p) false x := by
  induction passes generalizing prev with
  | nil x => exact absurd rfl nonempty
  | @cons m c p x _ dark _ _ rest ih =>
    have solid : (m.plain && white c) = false := by
      cases code : m.plain with
      | false => rfl
      | true => exact dark code
    have step : squeezeFrom m prev false (c :: (p ++ x)) =
        c :: squeezeFrom (m.next c (p ++ x)) (word c) false (p ++ x) := by
      rw [squeezeFrom, solid]
      simp
    rw [List.cons_append, step]
    by_cases empty : p = []
    · subst empty
      rw [rest.code rfl]
      rfl
    · rw [ih empty, endsWord_cons c p empty, List.cons_append]

theorem squeeze_white {c : Char} (blank : white c = true) (prev gap : Bool) (t : LuaString) :
    squeezeFrom .code prev gap (c :: t) = squeezeFrom .code prev true t := by
  rw [squeezeFrom, blank]
  rfl

theorem squeeze_dark {c : Char} (dark : white c = false) (prev gap : Bool) (t : LuaString) :
    squeezeFrom .code prev gap (c :: t) =
      (if prev && gap && word c then ['\n'] else []) ++ squeezeFrom .code prev false (c :: t) := by
  rw [squeezeFrom, squeezeFrom, dark]
  simp

/-- The texts that are laid out decide what is left of the layout. -/
theorem Laid.squeeze {gap : Bool} {parts : List (Bool × LuaString)} {t : LuaString}
    (laid : Laid gap parts t) (prev : Bool) :
    squeezeFrom .code prev gap t = rejoin prev parts := by
  induction laid generalizing prev with
  | nil gap => rfl
  | skip blank _ ih => rw [squeeze_white blank, ih]
  | @part p gap parts t nonempty passes _ ih =>
    obtain ⟨c, p, rfl⟩ := List.exists_cons_of_ne_nil nonempty
    have dark : white c = false := by
      cases passes with
      | cons _ dark _ _ _ => exact dark rfl
    have whole := passes.squeeze nonempty prev
    rw [List.cons_append] at whole ⊢
    rw [squeeze_dark dark, whole, ih, rejoin]
    simp [startsWord]

/-- A break is always put between words, whether there was white space or not. -/
def tight (prev : Bool) : List LuaString → LuaString
  | [] => []
  | p :: ps => (if prev && startsWord p then ['\n'] else []) ++ p ++ tight (endsWord p) ps

/-- No text ends between two word characters with nothing in front of the next. -/
def Whole : Bool → List (Bool × LuaString) → Prop
  | _, [] => True
  | prev, (gap, p) :: parts => (prev = true → gap = false → startsWord p = false) ∧
      Whole (endsWord p) parts

theorem rejoin_whole {prev : Bool} {parts : List (Bool × LuaString)} (whole : Whole prev parts) :
    rejoin prev parts = tight prev (parts.map Prod.snd) := by
  induction parts generalizing prev with
  | nil => rfl
  | cons e parts ih =>
    obtain ⟨gap, p⟩ := e
    rw [rejoin, List.map_cons, tight, ih whole.2]
    congr 2
    have here := whole.1
    cases prev <;> cases gap <;> simp_all

/-- What pieces run together makes the text longer. -/
theorem rejoin_torn (prev : Bool) (parts : List (Bool × LuaString)) :
    (rejoin prev parts).length ≤ (tight prev (parts.map Prod.snd)).length ∧
      ((rejoin prev parts).length = (tight prev (parts.map Prod.snd)).length →
        Whole prev parts) := by
  induction parts generalizing prev with
  | nil => exact ⟨Nat.le_refl 0, fun _ => trivial⟩
  | cons e parts ih =>
    obtain ⟨gap, p⟩ := e
    obtain ⟨shorter, whole⟩ := ih (endsWord p)
    have joint : (if prev && gap && startsWord p then ['\n'] else []).length ≤
        (if prev && startsWord p then ['\n'] else []).length ∧
      ((if prev && gap && startsWord p then ['\n'] else []).length =
        (if prev && startsWord p then ['\n'] else []).length →
          prev = true → gap = false → startsWord p = false) := by
      cases prev <;> cases gap <;> cases startsWord p <;> simp
    obtain ⟨fewer, same⟩ := joint
    simp only [rejoin, List.map_cons, tight, List.length_append, Whole]
    constructor
    · omega
    · intro equal
      exact ⟨same (by omega), whole (by omega)⟩

theorem Passes.proper {m : Mode} {p x : LuaString} (passes : Passes m p x)
    (proper : properFrom m (p ++ x) = true) : properFrom .code x = true := by
  induction passes with
  | nil x => exact proper
  | cons _ _ _ _ _ ih =>
    rw [List.cons_append, properFrom, Bool.and_eq_true] at proper
    exact ih proper.2

theorem proper_white {c : Char} {t : LuaString} (blank : white c = true)
    (proper : properFrom .code (c :: t) = true) : properFrom .code t = true := by
  rw [properFrom, next_white blank, Bool.and_eq_true] at proper
  exact proper.2

theorem proper_solid {c : Char} {t : LuaString} (proper : properFrom .code (c :: t) = true) :
    opensComment (c :: t) = false ∧ (quote c = true → (quoteEnd c t).isSome = true) := by
  rw [properFrom, Bool.and_eq_true, Bool.and_eq_true] at proper
  obtain ⟨⟨outside, literals⟩, _⟩ := proper
  constructor
  · cases opens : opensComment (c :: t) with
    | false => rfl
    | true =>
      rw [Mode.next, opens] at outside
      cases outside
  · intro quoted
    rw [quoted] at literals
    simpa [Mode.plain] using literals

/-- A token at the start of a text: it leads on in code, and it ends in no word that goes on. -/
structure Token (t : LuaString) (n : Nat) : Prop where
  passes : Passes .code (t.take n) (t.drop n)
  whole : ∀ d, (t.drop n).head? = some d → endsWord (t.take n) = true → word d = false

theorem word_cases {c : Char} (h : word c = true) : letter c = true ∨ c.isDigit = true := by
  rw [word, Char.isAlphanum] at h
  rw [letter]
  cases alpha : c.isAlpha with
  | true => exact .inl rfl
  | false =>
    cases digit : c.isDigit with
    | true => exact .inr rfl
    | false =>
      rw [alpha, digit] at h
      exact .inl h

theorem numberTail_joins {last c : Char} {s : LuaString} (mem : c ∈ s.take (numberTail last s)) :
    joins c = true := by
  induction s generalizing last with
  | nil => cases mem
  | cons d s ih =>
    rw [numberTail] at mem
    split at mem
    · rename_i goes_on
      rw [List.take_succ_cons] at mem
      rcases List.mem_cons.mp mem with rfl | later
      · simp only [extends_number, Bool.or_eq_true, Bool.and_eq_true] at goes_on
        rw [joins]
        rcases goes_on with (is_word | dot) | ⟨sign, _⟩
        · rw [is_word]; rfl
        · rw [dot, Bool.or_true]; rfl
        · rcases sign with plus | minus
          · rw [plus, Bool.or_true]; rfl
          · rw [minus, Bool.or_true]
      · exact ih later
    · cases mem

theorem numberTail_stops {last d : Char} {s : LuaString}
    (head : (s.drop (numberTail last s)).head? = some d) : word d = false := by
  induction s generalizing last with
  | nil => cases head
  | cons c s ih =>
    rw [numberTail] at head
    split at head
    · exact ih head
    · rename_i stops
      cases head
      rw [extends_number] at stops
      cases is_word : word d with
      | false => rfl
      | true => simp [is_word] at stops

theorem quoteEnds_last {sep : Char} {t : LuaString} {n : Nat} (ends : QuoteEnds sep t n) :
    (t.take n).getLast? = some sep := by
  induction ends with
  | close t => rfl
  | @escape d t n _ _ rest ih =>
    obtain ⟨a, as, shape⟩ := List.exists_cons_of_ne_nil (l := t.take n) (by
      intro empty
      rw [empty] at ih
      cases ih)
    rw [List.take_succ_cons, List.take_succ_cons, List.getLast?_cons_cons, shape,
      List.getLast?_cons_cons, ← shape, ih]
  | @plain c t n _ _ _ rest ih =>
    obtain ⟨a, as, shape⟩ := List.exists_cons_of_ne_nil (l := t.take n) (by
      intro empty
      rw [empty] at ih
      cases ih)
    rw [List.take_succ_cons, shape, List.getLast?_cons_cons, ← shape, ih]

theorem quote_dark {c : Char} (quoted : quote c = true) : word c = false := by
  simp only [quote, Bool.or_eq_true, beq_iff_eq] at quoted
  rcases quoted with rfl | rfl <;> rfl

theorem literal_ends {c : Char} (quoted : quote c = true) {t : LuaString} {n : Nat}
    (ends : QuoteEnds c t n) : endsWord (c :: t.take n) = false := by
  have last := quoteEnds_last ends
  rw [endsWord, List.getLast?_cons, last, Option.getD_some, Option.any_some, quote_dark quoted]

theorem token_literal {c : Char} {t : LuaString} {n : Nat} (quoted : quote c = true)
    (close : quoteEnd c t = some n) : Token (c :: t) (n + 1) := by
  have ends := quoteEnds_of close
  constructor
  · exact passes_literal quoted ends
  · intro d _ is_word
    rw [List.take_succ_cons, literal_ends quoted ends] at is_word
    cases is_word

theorem token_prefixed {t : LuaString} {n : Nat} (found : literal t = some n) :
    Token ('L' :: t) (n + 1) := by
  obtain ⟨c, u, k, rfl, either, close, rfl⟩ := literal_quoteEnd found
  have quoted : quote c = true := by
    rcases either with rfl | rfl <;> rfl
  have ends := quoteEnds_of close
  constructor
  · have next : Mode.next .code 'L' ((c :: u.take k) ++ u.drop k) = .code := by
      rw [Mode.next, opens_slash (by decide)]
      rfl
    rw [List.take_succ_cons, List.take_succ_cons, List.drop_succ_cons, List.drop_succ_cons]
    exact .cons (by decide) (fun _ => rfl) rfl (by rw [next]; rfl)
      (by rw [next]; exact passes_literal quoted ends)
  · intro d _ is_word
    rw [List.take_succ_cons, List.take_succ_cons, endsWord_cons _ _ (List.cons_ne_nil _ _),
      literal_ends quoted ends] at is_word
    cases is_word

theorem token_append {p x : LuaString} (passes : Passes .code p x)
    (whole : ∀ d, x.head? = some d → endsWord p = true → word d = false) :
    Token (p ++ x) p.length := by
  constructor
  · rw [List.take_left, List.drop_left]
    exact passes
  · rw [List.take_left, List.drop_left]
    exact whole

theorem token_word {c : Char} (first : letter c = true) (t : LuaString) :
    Token (c :: t) ((t.takeWhile word).length + 1) := by
  have shape : (c :: t.takeWhile word) ++ t.dropWhile word = c :: t := by
    rw [List.cons_append, List.takeWhile_append_dropWhile]
  have joined : ∀ d ∈ c :: t.takeWhile word, joins d = true := by
    intro d mem
    rw [joins]
    rcases List.mem_cons.mp mem with rfl | later
    · rw [letter_word first]
      rfl
    · rw [List.mem_takeWhile_imp later]
      rfl
  have token := token_append (passes_joined joined (t.dropWhile word)) (by
    intro d head _
    have stops := List.head?_dropWhile_not word t
    rw [head] at stops
    simpa using stops)
  rw [shape] at token
  exact token

theorem token_number {c : Char} {t : LuaString} (starts : startsNumber c t = true) :
    Token (c :: t) (numberTail c t + 1) := by
  have joined : ∀ d ∈ c :: t.take (numberTail c t), joins d = true := by
    intro d mem
    rcases List.mem_cons.mp mem with rfl | later
    · rw [startsNumber, Bool.or_eq_true, Bool.and_eq_true, beq_iff_eq] at starts
      rcases starts with digit | ⟨rfl, _⟩
      · rw [joins, digit_word digit]
        rfl
      · rfl
    · exact numberTail_joins later
  constructor
  · exact passes_joined joined _
  · intro d head _
    exact numberTail_stops head

/-- What the operators of more than one character are made of. -/
theorem operators_made : ∀ p ∈ operators2 ++ operators3,
    p.all (fun c => !white c && !quote c) = true ∧ p.tail.all (· != '/') = true ∧
      endsWord p = false := by decide

theorem token_long {p x : LuaString} (listed : p ∈ operators2 ++ operators3)
    (opens : opensComment (p ++ x) = false) : Token (p ++ x) p.length := by
  obtain ⟨solid, tail, ends⟩ := operators_made p listed
  refine token_append ?_ (fun d _ is_word => by rw [ends] at is_word; cases is_word)
  cases p with
  | nil => exact .nil x
  | cons c p =>
    rw [List.all_eq_true] at solid tail
    have apart : ∀ d ∈ c :: p, white d = false ∧ quote d = false := fun d mem => by
      simpa using solid d mem
    have next : Mode.next .code c (p ++ x) = .code := by
      rw [List.cons_append] at opens
      rw [Mode.next, opens, (apart c List.mem_cons_self).2]
      rfl
    have dark := (apart c List.mem_cons_self).1
    refine .cons (white_line dark) (fun _ => dark) rfl (by rw [next]; rfl) ?_
    rw [next]
    refine passes_apart (fun d mem => ?_) x
    obtain ⟨dark, plain⟩ := apart d (List.mem_cons_of_mem c mem)
    exact ⟨dark, bne_iff_ne.mp (tail d mem), plain⟩

theorem token_operator {c : Char} {t : LuaString} (dark : white c = false)
    (plain : quote c = false) (other : word c = false) (opens : opensComment (c :: t) = false) :
    Token (c :: t) (operatorLength (c :: t)) := by
  have long : ∀ n, (c :: t).take n ∈ operators2 ++ operators3 → ((c :: t).take n).length = n →
      Token (c :: t) n := by
    intro n listed length
    have token := token_long (x := (c :: t).drop n) listed (by rwa [List.take_append_drop])
    rwa [List.take_append_drop, length] at token
  rcases operatorLength_cases (c :: t) with ⟨same, three⟩ | ⟨same, two⟩ | same
  · rw [same]
    exact long 3 (List.mem_append_right _ three) (operators_lengths.1 _ three)
  · rw [same]
    exact long 2 (List.mem_append_left _ two) (operators_lengths.2 _ two)
  · rw [same]
    have ends : endsWord [c] = false := other
    exact token_append (passes_code dark opens plain) fun d _ is_word => by
      rw [ends] at is_word
      cases is_word

theorem token_munch {c : Char} {t : LuaString} (dark : white c = false)
    (proper : properFrom .code (c :: t) = true) : Token (c :: t) (munch (c :: t)) := by
  obtain ⟨opens, literals⟩ := proper_solid proper
  rw [munch]
  cases first : letter c with
  | true =>
    rw [if_pos rfl]
    cases found : prefixed c t with
    | none => exact token_word first t
    | some n =>
      rw [prefixed] at found
      split at found
      · rename_i is_prefix
        rw [beq_iff_eq.mp is_prefix]
        exact token_prefixed found
      · cases found
  | false =>
    rw [if_neg (by decide)]
    cases starts : startsNumber c t with
    | true => exact token_number starts
    | false =>
      rw [if_neg (by decide), literal]
      cases quoted : quote c with
      | true =>
        obtain ⟨n, close⟩ := Option.isSome_iff_exists.mp (literals quoted)
        rw [quote] at quoted
        rw [if_pos quoted, close]
        exact token_literal quoted close
      | false =>
        have unquoted : (c == '"' || c == '\'') = false := quoted
        rw [if_neg (by rw [unquoted]; decide)]
        refine token_operator dark quoted ?_ opens
        cases is_word : word c with
        | false => rfl
        | true =>
          rcases word_cases is_word with is_letter | digit
          · rw [is_letter] at first
            cases first
          · rw [startsNumber, digit] at starts
            cases starts

/-- The tokens of a text, laid out in it. -/
theorem lex_laid {t : LuaString} (proper : properFrom .code t = true) (gap prev : Bool)
    (start : prev = true → gap = false → ∀ d, t.head? = some d → word d = false) :
    ∃ parts, parts.map Prod.snd = lex t ∧ Laid gap parts t ∧ Whole prev parts := by
  induction n : t.length using Nat.strong_induction_on generalizing t gap prev with
  | _ n ih =>
    subst n
    cases t with
    | nil => exact ⟨[], rfl, .nil gap, trivial⟩
    | cons c t =>
      cases blank : white c with
      | true =>
        obtain ⟨parts, texts, laid, whole⟩ := ih t.length (Nat.lt_succ_self _)
          (proper_white blank proper) true prev (fun _ no => by cases no) rfl
        exact ⟨parts, texts.trans (lex_white blank t).symm, .skip blank laid, whole⟩
      | false =>
        have token := token_munch blank proper
        have bounds := munch_bounds c t
        have opens := (proper_solid proper).1
        have shape := List.take_append_drop (munch (c :: t)) (c :: t)
        have later : properFrom .code ((c :: t).drop (munch (c :: t))) = true :=
          token.passes.proper (by rwa [shape])
        obtain ⟨parts, texts, laid, whole⟩ := ih ((c :: t).drop (munch (c :: t))).length
          (by rw [List.length_drop]; omega) later false _
          (fun is_word _ d head => token.whole d head is_word) rfl
        have nonempty : (c :: t).take (munch (c :: t)) ≠ [] := by
          rw [Ne, List.take_eq_nil_iff]
          rintro (none | none)
          · omega
          · cases none
        have part : Laid gap (_ :: parts) _ := .part nonempty token.passes laid
        rw [shape] at part
        refine ⟨_, ?_, part, ?_, whole⟩
        · rw [List.map_cons, texts, lex_token blank opens]
        · intro is_word touching
          have first := start is_word touching c rfl
          obtain ⟨k, succ⟩ := Nat.exists_eq_add_of_lt bounds.1
          rw [Nat.zero_add] at succ
          rw [succ, List.take_succ_cons, startsWord, List.head?_cons, Option.any_some, first]

theorem proper_code {c : Char} {t : LuaString} (opens : opensComment (c :: t) = false)
    (plain : quote c = false) : properFrom .code (c :: t) = properFrom .code t := by
  have next : Mode.next .code c t = .code := by
    rw [Mode.next, opens, plain]
    rfl
  rw [properFrom, next, plain]
  rfl

theorem proper_joined {p : LuaString} (joined : ∀ c ∈ p, joins c = true) (x : LuaString) :
    properFrom .code (p ++ x) = properFrom .code x := by
  induction p with
  | nil => rfl
  | cons c p ih =>
    obtain ⟨_, _, slash, plain⟩ := joins_plain (joined c List.mem_cons_self)
    rw [List.cons_append, proper_code (opens_slash slash) plain,
      ih (fun d mem => joined d (List.mem_cons_of_mem c mem))]

theorem proper_quoted {sep : Char} {t : LuaString} {n : Nat}
    (ends : QuoteEnds sep t n) : properFrom (.quoted sep) t = properFrom .code (t.drop n) := by
  induction ends with
  | close t =>
    have next : Mode.next (.quoted sep) sep t = .code := by simp [Mode.next]
    rw [properFrom, next]
    rfl
  | @escape d t n other goes_on _ ih =>
    have one : Mode.next (.quoted sep) '\\' (d :: t) = .escaped sep := by
      simp [Mode.next, other.symm]
    have two : Mode.next (.escaped sep) d t = .quoted sep := by simp [Mode.next, goes_on]
    rw [properFrom, one, properFrom, two, ih]
    rfl
  | @plain c t n other no_break plain _ ih =>
    have next : Mode.next (.quoted sep) c t = .quoted sep := by
      simp [Mode.next, no_break, other, plain]
    rw [properFrom, next, ih]
    rfl

theorem proper_literal {c : Char} (quoted : quote c = true) {t : LuaString} {n : Nat}
    (close : quoteEnd c t = some n) : properFrom .code (c :: t) = properFrom .code (t.drop n) := by
  have next : Mode.next .code c t = .quoted c := by
    rw [Mode.next, (quote_solid quoted t).2.2, quoted]
    rfl
  rw [properFrom, next, close, proper_quoted (quoteEnds_of close), quoted]
  rfl

theorem joined_run {c : Char} {t : LuaString} {k : Nat} (joined : joins c = true)
    (plain : quote c = false) (found : pieceLength (c :: t) = some k) :
    ∀ d ∈ (c :: t).take k, joins d = true := by
  have shape : (c :: t).takeWhile joins ++ (c :: t).dropWhile joins = c :: t :=
    List.takeWhile_append_dropWhile
  have some_left : (c :: t).takeWhile joins ≠ [] := by
    rw [List.takeWhile_cons_of_pos joined]
    exact List.cons_ne_nil _ _
  have stop : ∀ d, ((c :: t).dropWhile joins).head? = some d → joins d = false := by
    intro d head
    have stops := List.head?_dropWhile_not joins (c :: t)
    rw [head] at stops
    simpa using stops
  have lengths := firstLength_stop some_left stop
  rw [pieceLength_cons, plain, if_neg (by decide)] at found
  rw [shape, found] at lengths
  have bounded := firstLength_le _ lengths.symm
  intro d mem
  rw [← shape, List.take_append_of_le_length bounded] at mem
  exact List.mem_takeWhile_imp (List.mem_of_mem_take mem)

theorem piece_proper {c : Char} {t : LuaString} {k : Nat} (opens : opensComment (c :: t) = false)
    (found : pieceLength (c :: t) = some k) (rest : properFrom .code ((c :: t).drop k) = true) :
    properFrom .code (c :: t) = true := by
  cases quoted : quote c with
  | true =>
    rw [pieceLength_cons, if_pos quoted] at found
    obtain ⟨n, close, rfl⟩ := Option.map_eq_some_iff.mp found
    rw [proper_literal quoted close]
    exact rest
  | false =>
    cases joined : joins c with
    | true =>
      rw [← proper_joined (joined_run joined quoted found), List.take_append_drop] at rest
      exact rest
    | false =>
      rw [pieceLength_cons, quoted, if_neg (by decide), firstLength_dark joined] at found
      split at found
      · cases found
        rw [proper_code opens quoted]
        exact rest
      · cases found

end PrimeMover.Cruncher
