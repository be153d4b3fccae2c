import PrimeMover.Pieces

/-! The lines of a file are processed like its text. -/
namespace PrimeMover.Cruncher
open LuaPattern CTokens

/-- The rest of a text behind the end of a line. -/
def Broken (x : LuaString) : Prop := ∀ d, x.head? = some d → d = '\n'

theorem below_broken (lines : List LuaString) : Broken (below lines) := by
  intro d head
  cases lines with
  | nil => cases head
  | cons s lines => exact (Option.some.inj head).symm

theorem Broken.other {x : LuaString} (broken : Broken x) {c : Char} (other : c ≠ '\n') :
    x.head? ≠ some c := fun head => other (broken c head)

theorem quoteEnd_broken {sep : Char} (line : sep ≠ '\n') {x : LuaString} (broken : Broken x) :
    quoteEnd sep x = none := by
  match x, broken with
  | [], _ => rfl
  | [c], broken =>
    rw [broken c rfl]
    simp [quoteEnd, line.symm]
  | c :: d :: x, broken =>
    rw [broken c rfl]
    simp [quoteEnd, line.symm]

theorem quoteEnd_line {sep : Char} (line : sep ≠ '\n') {x : LuaString} (broken : Broken x) :
    ∀ t : LuaString, '\n' ∉ t → quoteEnd sep (t ++ x) = quoteEnd sep t
  | [], _ => quoteEnd_broken line broken
  | [c], clean => by
    cases x with
    | nil => rfl
    | cons d x =>
      have break_here : d = '\n' := broken d rfl
      have other : c ≠ '\n' := fun same => clean (by simp [same])
      have rest := quoteEnd_broken line broken
      simp only [List.cons_append, List.nil_append, quoteEnd, break_here, beq_iff_eq, other,
        if_false, if_true] at rest ⊢
      rw [rest]
      simp
  | c :: d :: t, clean => by
    have one := quoteEnd_line line broken (d :: t) (fun mem => clean (List.mem_cons_of_mem c mem))
    have two := quoteEnd_line line broken t
      (fun mem => clean (List.mem_cons_of_mem c (List.mem_cons_of_mem d mem)))
    rw [List.cons_append] at one
    rw [List.cons_append, List.cons_append, quoteEnd, quoteEnd, one, two]

theorem pieceLength_line {t x : LuaString} (nonempty : t ≠ []) (clean : '\n' ∉ t)
    (broken : Broken x) : pieceLength (t ++ x) = pieceLength t := by
  have stop : ∀ d, x.head? = some d → joins d = false := by
    intro d head
    rw [broken d head]
    rfl
  have same := firstLength_stop nonempty stop
  obtain ⟨c, t, rfl⟩ := List.exists_cons_of_ne_nil nonempty
  rw [List.cons_append] at same ⊢
  rw [pieceLength_cons, pieceLength_cons, same]
  have line : c ≠ '\n' := fun same => clean (by simp [same])
  rw [quoteEnd_line line broken t (fun mem => clean (List.mem_cons_of_mem c mem))]

theorem lastClose_broken {x : LuaString} (broken : Broken x) : lastClose x = none := by
  cases x with
  | nil => rfl
  | cons d x =>
    rw [broken d rfl]
    rfl

theorem head_line {t x : LuaString} (broken : Broken x) {c : Char} (other : c ≠ '\n') :
    ((t ++ x).head? == some c) = (t.head? == some c) := by
  cases t with
  | cons d t => rfl
  | nil =>
    cases x with
    | nil => rfl
    | cons d x =>
      rw [broken d rfl]
      simp [other.symm]

theorem tail_line {t x : LuaString} {c : Char} (head : (t.head? == some c) = true) :
    (t ++ x).tail = t.tail ++ x := by
  cases t with
  | nil => cases head
  | cons d t => rfl

theorem lastClose_line {t x : LuaString} (clean : '\n' ∉ t) (broken : Broken x) :
    lastClose (t ++ x) = (lastClose t).map (· ++ x) := by
  induction t with
  | nil => exact lastClose_broken broken
  | cons c t ih =>
    have other : (c == '\n') = false := beq_eq_false_iff_ne.mpr (List.ne_of_not_mem_cons clean).symm
    rw [List.cons_append, lastClose, lastClose, other, ih (List.not_mem_of_not_mem_cons clean),
      head_line broken (by decide)]
    cases lastClose t with
    | some u => rfl
    | none =>
      cases head : t.head? == some '/' with
      | false => simp
      | true => cases star : c == '*' <;> simp [tail_line head]

theorem afterClose_line {t x : LuaString} (broken : Broken x) :
    afterClose (t ++ x) = ((afterClose t).map (· ++ x)).or (afterClose x) := by
  induction t with
  | nil => rfl
  | cons c t ih =>
    rw [List.cons_append, afterClose, afterClose, ih, head_line broken (by decide)]
    cases head : t.head? == some '/' with
    | false => simp
    | true => cases star : c == '*' <;> simp [tail_line head]

theorem startsDirective_line {s x : LuaString} (clean : '\n' ∉ s) (broken : Broken x) :
    startsDirective (s ++ x) = (find directivePattern s).isSome := by
  rw [find_anchored rfl, Option.isSome_map]
  induction s with
  | nil =>
    cases x with
    | nil => rfl
    | cons d x =>
      rw [broken d rfl]
      rfl
  | cons c s ih =>
    have other : (c != '\n') = true := bne_iff_ne.mpr (List.ne_of_not_mem_cons clean).symm
    have rest := ih (List.not_mem_of_not_mem_cons clean)
    simp only [startsDirective, directivePattern, matchItems] at rest ⊢
    rw [List.cons_append, List.dropWhile_cons, other, Bool.and_true, maxExpand]
    cases blank : white c with
    | false => cases hash : c == '#' <;> simp [hash]
    | true =>
      have plain : (c == '#') = false := by
        rw [beq_eq_false_iff_ne]
        rintro rfl
        cases blank
      rw [if_pos rfl, if_pos rfl, rest]
      cases maxExpand white _ s <;> simp [plain]

/-- A step that emits at most one piece and goes on at some position of a line. -/
def GoesOn (r : Except Stop (List Emission × Nat × LuaString × List LuaString))
    (emitted : List Emission) (s : LuaString) (lines : List LuaString) (rest : LuaString) : Prop :=
  ∃ pos, r = .ok (emitted, pos, s, lines) ∧ 1 ≤ pos ∧ s.drop (pos - 1) = rest

section
variable {lines : List LuaString} {s rest : LuaString} {pos : Nat}

theorem drop_behind {u : LuaString} (there : s.drop (pos - 1) = rest) (start : 1 ≤ pos)
    (inside : u <:+ rest) : s.drop (pos + (rest.length - u.length) - 1) = u := by
  have shift : pos + (rest.length - u.length) - 1 = pos - 1 + (rest.length - u.length) := by omega
  rw [shift, ← List.drop_drop, there]
  exact (List.suffix_iff_eq_drop.mp inside).symm

theorem drop_end {u : LuaString} (inside : u <:+ s) : s.drop (s.length - u.length + 1 - 1) = u :=
  (List.suffix_iff_eq_drop.mp inside).symm

theorem processToken_white (there : s.drop (pos - 1) = rest) (start : 1 ≤ pos) {c : Char}
    {t : LuaString} (shape : rest = c :: t) (blank : white c = true) :
    GoesOn (processToken lines s pos) [] s lines (t.dropWhile white) := by
  have ends : (matchItems restBlank rest []).isSome = t.all white := by
    rw [restBlank_isSome, shape, List.all_cons, blank, Bool.true_and]
  rw [processToken, there, ends]
  cases all : t.all white with
  | true =>
    refine ⟨s.length + 1, rfl, by omega, ?_⟩
    rw [List.dropWhile_eq_nil_iff.mpr (List.all_eq_true.mp all)]
    exact List.drop_eq_nil_of_le (by omega)
  | false =>
    have inside : t.dropWhile white <:+ rest := by
      rw [shape]
      exact (List.dropWhile_suffix white).trans (List.suffix_cons c t)
    have matched : matchLength [.plus white] rest =
        some (rest.length - (t.dropWhile white).length) := by
      rw [shape]
      exact plus_white blank t
    refine ⟨pos + (rest.length - (t.dropWhile white).length), ?_, by omega, ?_⟩
    · simp only [matched, Bool.false_eq_true, if_false]
    · exact drop_behind there start inside

theorem processToken_dark (there : s.drop (pos - 1) = rest) (dark : rest.head?.any white = false)
    (nonempty : rest ≠ []) : processToken lines s pos =
      match matchLength closedComment rest with
      | some n => .ok ([], pos + n, s, lines)
      | none =>
        if (matchItems openComment rest []).isSome then
          (readComment lines).map (fun r => ([], r))
        else if rest.head? = some '"' then
          (processString s pos '"').map (fun r => (r.1, r.2.1, r.2.2, lines))
        else if rest.head? = some '\'' then
          (processString s pos '\'').map (fun r => (r.1, r.2.1, r.2.2, lines))
        else
          match firstLength piecePatterns rest with
          | some n => .ok ([.emit (rest.take n)], pos + n, s, lines)
          | none => .error (luaerror ("unrecognised token at ".toList ++ rest)) := by
  have ends : (matchItems restBlank rest []).isSome = false := by
    obtain ⟨c, t, rfl⟩ := List.exists_cons_of_ne_nil nonempty
    have no : white c = false := by simpa using dark
    rw [restBlank_isSome, List.all_cons, no, Bool.false_and]
  have blank := plus_dark dark
  subst there
  refine (if_neg (by rw [ends]; decide)).trans ?_
  generalize matchLength [.plus white] (s.drop (pos - 1)) = n at blank ⊢
  subst blank
  rfl

theorem processToken_comment (there : s.drop (pos - 1) = rest) (start : 1 ≤ pos) {t : LuaString}
    (shape : rest = '/' :: '*' :: t) (clean : '\n' ∉ t) :
    match lastClose t with
    | some u => GoesOn (processToken lines s pos) [] s lines (u.dropWhile white)
    | none => processToken lines s pos = (readComment lines).map (fun r => ([], r)) := by
  rw [processToken_dark there (by rw [shape]; rfl) (by simp [shape])]
  have matched : matchLength closedComment rest =
      (lastClose t).map (fun u => rest.length - (u.dropWhile white).length) := by
    rw [matchLength, shape, match_closedComment clean]
    cases lastClose t <;> rfl
  cases close : lastClose t with
  | none =>
    have opens : (matchItems openComment rest []).isSome = true := by
      rw [shape]
      rfl
    simp only [matched, close, Option.map_none, opens, if_true]
  | some u =>
    have inside : u.dropWhile white <:+ rest := by
      rw [shape]
      exact (List.dropWhile_suffix white).trans ((lastClose_suffix close).trans
        ((List.suffix_cons '*' t).trans (List.suffix_cons '/' _)))
    refine ⟨pos + (rest.length - (u.dropWhile white).length), ?_, by omega, ?_⟩
    · simp only [matched, close, Option.map_some]
    · exact drop_behind there start inside

theorem processString_eq {sep : Char} {t : LuaString} (there : s.drop pos = t)
    (clean : '\n' ∉ t) :
    match quoteEnd sep t with
    | some n => ∃ pos', processString s pos sep = .ok ([.emit (sep :: t.take n)], pos', s) ∧
        1 ≤ pos' ∧ s.drop (pos' - 1) = t.drop n
    | none => ∃ e, processString s pos sep = .error e := by
  have loop : stringLoop sep (s.length + 1) t =
      (quoteEnd sep t).map (fun n => (t.take n, t.drop n)) := by
    apply stringLoop_eq _ t clean
    rw [← there, List.length_drop]
    omega
  rw [processString, there, loop]
  cases quoteEnd sep t with
  | none => exact ⟨_, rfl⟩
  | some n =>
    refine ⟨_, rfl, by omega, ?_⟩
    apply drop_end
    rw [← there]
    exact (List.drop_suffix n _).trans (List.drop_suffix pos s)

theorem processString_goesOn {sep : Char} {t : LuaString} (there : s.drop pos = t)
    (clean : '\n' ∉ t) :
    match (quoteEnd sep t).map (· + 1) with
    | some n => GoesOn ((processString s pos sep).map (fun r => (r.1, r.2.1, r.2.2, lines)))
        [.emit ((sep :: t).take n)] s lines ((sep :: t).drop n)
    | none => ∃ e, (processString s pos sep).map (fun r => (r.1, r.2.1, r.2.2, lines)) =
        .error e := by
  have found := @processString_eq s pos sep t there clean
  cases close : quoteEnd sep t with
  | none =>
    rw [close] at found
    obtain ⟨e, failed⟩ := found
    exact ⟨e, by rw [failed]; rfl⟩
  | some n =>
    rw [close] at found
    obtain ⟨pos', run, start, rest⟩ := found
    exact ⟨pos', by rw [run]; rfl, start, rest⟩

theorem processToken_solid (there : s.drop (pos - 1) = rest) (start : 1 ≤ pos)
    (solid : Solid rest) (nonempty : rest ≠ []) (clean : '\n' ∉ rest) :
    match pieceLength rest with
    | some n => GoesOn (processToken lines s pos) [.emit (rest.take n)] s lines (rest.drop n)
    | none => ∃ e, processToken lines s pos = .error e := by
  obtain ⟨closed, opened⟩ := closedComment_solid solid.2
  have unmatched : matchLength closedComment rest = none := by rw [matchLength, closed]; rfl
  rw [processToken_dark there solid.1 nonempty]
  simp only [unmatched, opened, Option.isSome_none, Bool.false_eq_true, if_false]
  obtain ⟨c, t, rfl⟩ := List.exists_cons_of_ne_nil nonempty
  have behind : s.drop pos = t := by
    have shift : pos = pos - 1 + 1 := by omega
    rw [shift, ← List.drop_drop, there]
    rfl
  have line : '\n' ∉ t := List.not_mem_of_not_mem_cons clean
  rw [pieceLength_cons]
  simp only [List.head?_cons, Option.some.injEq]
  by_cases double : c = '"'
  · subst double
    exact processString_goesOn behind line
  by_cases single : c = '\''
  · subst single
    exact processString_goesOn behind line
  have plain : quote c = false := by simp [quote, double, single]
  simp only [plain, double, single, Bool.false_eq_true, if_false]
  cases firstLength piecePatterns (c :: t) with
  | none => exact ⟨_, rfl⟩
  | some n =>
    refine ⟨pos + n, rfl, by omega, ?_⟩
    have shift : pos + n - 1 = pos - 1 + n := by omega
    rw [shift, ← List.drop_drop, there]

end

theorem size_cons (s : LuaString) (lines : List LuaString) :
    size (s :: lines) = s.length + 1 + size lines := rfl

theorem length_below (lines : List LuaString) : (below lines).length = size lines := by
  induction lines with
  | nil => rfl
  | cons s lines ih =>
    rw [size_cons, ← ih, below, List.flatMap_cons, List.length_append]
    rfl

theorem below_cons (s : LuaString) (lines : List LuaString) :
    below (s :: lines) = '\n' :: (s ++ below lines) := rfl

theorem readComment_text (lines : List LuaString) :
    match afterClose (below lines) with
    | some u => ∃ pos s more, readComment lines = .ok (pos, s, more) ∧ 1 ≤ pos ∧
        u = s.drop (pos - 1) ++ below more ∧ s :: more <:+ lines
    | none => ∃ e, readComment lines = .error e := by
  induction lines with
  | nil => exact ⟨_, rfl⟩
  | cons s lines ih =>
    have skip : afterClose (below (s :: lines)) = afterClose (s ++ below lines) := rfl
    rw [skip, afterClose_line (below_broken lines), readComment]
    cases close : afterClose s with
    | some u =>
      refine ⟨s.length - u.length + 1, s, lines, rfl, by omega, ?_, List.suffix_rfl⟩
      rw [drop_end (afterClose_suffix close)]
    | none =>
      simp only [Option.map_none, Option.none_or]
      cases later : afterClose (below lines) with
      | none =>
        rw [later] at ih
        exact ih
      | some u =>
        rw [later] at ih
        obtain ⟨pos, s', more, run, start, rest, inside⟩ := ih
        exact ⟨pos, s', more, run, start, rest, inside.trans (List.suffix_cons s lines)⟩

theorem afterClose_of_last {t : LuaString} (clean : '\n' ∉ t) (never : lastClose t = none) :
    afterClose t = none := by
  induction t with
  | nil => rfl
  | cons c t ih =>
    have other : (c == '\n') = false := beq_eq_false_iff_ne.mpr (List.ne_of_not_mem_cons clean).symm
    rw [lastClose, other] at never
    simp only [Bool.false_eq_true, if_false, Option.or_eq_none_iff] at never
    rw [afterClose]
    split at never
    · exact absurd never.2 (by simp)
    · rename_i open_here
      rw [if_neg open_here]
      exact ih (List.not_mem_of_not_mem_cons clean) never.1

theorem crunched_spaces {t : LuaString} (clean : '\n' ∉ t) (x : LuaString) :
    crunched (t ++ x) = crunched (t.dropWhile white ++ x) := by
  induction t with
  | nil => rfl
  | cons c t ih =>
    rw [List.dropWhile_cons]
    split
    · rename_i blank
      have line : c ≠ '\n' := fun same => clean (by simp [same])
      rw [List.cons_append, crunched_white blank _ (fun same => absurd same line)]
      exact ih (List.not_mem_of_not_mem_cons clean)
    · rfl

/-- A run of the coroutine with these pieces, to the end of the file or to an error. -/
def Agrees (r : Run) (o : List LuaString × Bool) : Prop :=
  r.1 = o.1.map .emit ∧ if o.2 then r.2 = .ok [] else ∃ e, r.2 = .error e

theorem Agrees.piece {r : Run} {o : List LuaString × Bool} (h : Agrees r o) (s : LuaString) :
    Agrees ([.emit s] ++ r.1, r.2) (s :: o.1, o.2) :=
  ⟨by rw [h.1]; rfl, h.2⟩

theorem bind_emitted (emitted : List Emission) (r : Run) (next : List LuaString → Run) :
    Run.bind (emitted ++ r.1, r.2) next =
      (emitted ++ (Run.bind r next).1, (Run.bind r next).2) := by
  rw [Run.bind, Run.bind]
  cases r.2 with
  | error e => rfl
  | ok lines => simp

section
variable (directive : List LuaString → LuaString → Run)

theorem processNormalLine_step {fuel : Nat} {lines lines' : List LuaString} {s s' : LuaString}
    {pos pos' : Nat} {emitted : List Emission} (inside : pos ≤ s.length)
    (step : processToken lines s pos = .ok (emitted, pos', s', lines')) :
    processNormalLine (fuel + 1) lines s pos =
      (emitted ++ (processNormalLine fuel lines' s' pos').1,
        (processNormalLine fuel lines' s' pos').2) := by
  simp only [processNormalLine, inside, if_true, step]

/-- The rest of a line and the lines below it are processed like the text they stand for, as
long as that is shorter than some bound. -/
def Resumes (bound : Nat) : Prop :=
  ∀ (lines : List LuaString) (s : LuaString) (pos fuel fuel' : Nat) (rest : LuaString)
    (o : List LuaString × Bool), s.drop (pos - 1) = rest → 1 ≤ pos → '\n' ∉ s →
    (∀ l ∈ lines, '\n' ∉ l) → (rest ++ below lines).length < bound →
    (rest ++ below lines).length < fuel → lines.length < fuel' →
    crunched (rest ++ below lines) = some o →
    Agrees (Run.bind (processNormalLine fuel lines s pos) (gettokens directive fuel')) o

variable {directive}

theorem Resumes.step {bound : Nat} (resumes : Resumes directive bound)
    {lines lines' : List LuaString} {s s' rest' : LuaString} {pos fuel' : Nat}
    {emitted : List Emission} {o : List LuaString × Bool} (fuel : Nat) (inside : pos ≤ s.length)
    (goes : GoesOn (processToken lines s pos) emitted s' lines' rest') (clean : '\n' ∉ s')
    (cleanLines : ∀ l ∈ lines', '\n' ∉ l) (shorter : (rest' ++ below lines').length < bound)
    (enough : (rest' ++ below lines').length < fuel) (enough' : lines'.length < fuel')
    (run : crunched (rest' ++ below lines') = some o) :
    ∃ r, Run.bind (processNormalLine (fuel + 1) lines s pos) (gettokens directive fuel') =
      (emitted ++ r.1, r.2) ∧ Agrees r o := by
  obtain ⟨pos', step, start, there⟩ := goes
  rw [processNormalLine_step inside step, bind_emitted]
  exact ⟨_, rfl, resumes lines' s' pos' fuel fuel' rest' o there start clean cleanLines shorter
    enough enough' run⟩

theorem bind_failed {fuel fuel' : Nat} {lines : List LuaString} {s : LuaString} {pos : Nat}
    {e : Stop} (inside : pos ≤ s.length) (failed : processToken lines s pos = .error e) :
    Agrees (Run.bind (processNormalLine (fuel + 1) lines s pos) (gettokens directive fuel'))
      ([], false) := by
  simp only [processNormalLine, inside, if_true, failed]
  exact ⟨rfl, e, rfl⟩

theorem resumes (directive : List LuaString → LuaString → Run) (bound : Nat) :
    Resumes directive bound := by
  induction bound with
  | zero =>
    intro _ _ _ _ _ _ _ _ _ _ _ less
    exact absurd less (Nat.not_lt_zero _)
  | succ bound ih =>
    intro lines s pos fuel fuel' rest o there start clean cleanLines less enough enough' run
    obtain ⟨fuel, rfl⟩ : ∃ k, fuel = k + 1 := ⟨fuel - 1, by omega⟩
    have line : '\n' ∉ rest := fun mem => clean (List.mem_of_mem_drop (there ▸ mem))
    match rest, there, line with
    | [], there, _ =>
      have behind : ¬ pos ≤ s.length := by
        have := List.drop_eq_nil_iff.mp there
        omega
      rw [processNormalLine, if_neg behind]
      obtain ⟨fuel', rfl⟩ : ∃ k, fuel' = k + 1 := ⟨fuel' - 1, by omega⟩
      match lines, cleanLines with
      | [], _ =>
        cases Option.some.inj run
        exact ⟨rfl, rfl⟩
      | l :: lines, cleanLines =>
        have cleanLine := cleanLines l List.mem_cons_self
        rw [List.nil_append, below_cons] at run less
        have ordinary : startsDirective (l ++ below lines) = false := by
          cases starts : startsDirective (l ++ below lines) with
          | false => rfl
          | true =>
            rw [crunched_directive starts] at run
            cases run
        rw [crunched_white rfl _ (fun _ => ordinary)] at run
        rw [startsDirective_line cleanLine (below_broken lines)] at ordinary
        have room : (l ++ below lines).length < size (l :: lines) + 1 := by
          rw [List.length_append, length_below, size_cons]
          omega
        have next := ih lines l 1 (size (l :: lines) + 1) fuel' l o rfl (Nat.le_refl 1) cleanLine
          (fun k mem => cleanLines k (List.mem_cons_of_mem l mem))
          (Nat.lt_of_succ_lt_succ less) room (Nat.lt_of_succ_lt_succ enough') run
        simpa only [Run.bind, gettokens, ordinary, Bool.false_eq_true, if_false,
          List.nil_append] using next
    | c :: t, there, line =>
      have inside : pos ≤ s.length := by
        have := congrArg List.length there
        simp only [List.length_drop, List.length_cons] at this
        omega
      have lineTail : '\n' ∉ t := List.not_mem_of_not_mem_cons line
      simp only [List.cons_append, List.length_cons] at less enough
      cases blank : white c with
      | true =>
        rw [List.cons_append, crunched_white blank _ (fun same => absurd (by simp [same]) line),
          crunched_spaces lineTail] at run
        have shrinks : (t.dropWhile white).length ≤ t.length :=
          (List.dropWhile_suffix white).length_le
        have total : (t.dropWhile white ++ below lines).length ≤ (t ++ below lines).length := by
          simp only [List.length_append]
          omega
        obtain ⟨r, same, agrees⟩ := ih.step fuel inside
          (processToken_white there start rfl blank) clean cleanLines (by omega) (by omega) enough' run
        rw [same]
        exact agrees
      | false =>
        have dark : (c :: t).head?.any white = false := blank
        cases opens : opensComment (c :: t) with
        | false =>
          have solid : Solid (c :: t) := ⟨dark, opens⟩
          have nonempty : c :: t ≠ [] := List.cons_ne_nil c t
          have whole : Solid (c :: t ++ below lines) :=
            solid.append nonempty ((below_broken lines).other (by decide))
          have token := @processToken_solid lines s _ pos there start solid nonempty line
          rw [crunched_solid whole (by simp),
            pieceLength_line nonempty line (below_broken lines)] at run
          cases piece : pieceLength (c :: t) with
          | none =>
            rw [piece] at token run
            obtain ⟨e, failed⟩ := token
            cases Option.some.inj run
            exact bind_failed inside failed
          | some k =>
            rw [piece] at token run
            have bounded := pieceLength_le piece
            have positive := pieceLength_pos piece
            simp only [List.take_append_of_le_length bounded, List.drop_append_of_le_length bounded]
              at run
            obtain ⟨o', later, rfl⟩ := Option.map_eq_some_iff.mp run
            have total : ((c :: t).drop k ++ below lines).length < (c :: t ++ below lines).length := by
              simp only [List.length_append, List.length_drop]
              omega
            simp only [List.cons_append, List.length_cons] at total
            obtain ⟨r, same, agrees⟩ := ih.step fuel inside token clean cleanLines (by omega)
              (by omega) enough' later
            rw [same]
            exact agrees.piece _
        | true =>
          obtain ⟨u, shape⟩ := (opensComment_iff _).mp opens
          obtain ⟨rfl, rfl⟩ := List.cons.inj shape
          have line : '\n' ∉ u := List.not_mem_of_not_mem_cons lineTail
          have token := @processToken_comment lines s _ pos there start u rfl line
          have broken := below_broken lines
          rw [List.cons_append, List.cons_append, crunched_comment, lastClose_line line broken,
            afterClose_line broken] at run
          simp only [List.cons_append, List.length_cons, List.length_append] at less enough
          cases close : lastClose u with
          | some v =>
            rw [close] at token run
            simp only [Option.map_some, Option.some_or] at run
            have inside_u := lastClose_suffix close
            have lineV : '\n' ∉ v := fun mem => line (inside_u.subset mem)
            rw [crunched_spaces lineV] at run
            have shrinks : (v.dropWhile white).length ≤ v.length :=
              (List.dropWhile_suffix white).length_le
            have bounded := inside_u.length_le
            obtain ⟨r, same, agrees⟩ := ih.step fuel inside token clean cleanLines
              (by rw [List.length_append]; omega) (by rw [List.length_append]; omega) enough' run
            rw [same]
            exact agrees
          | none =>
            rw [close] at token run
            simp only [Option.map_none, Option.none_or, afterClose_of_last line close] at run
            have comment := readComment_text lines
            cases behind : afterClose (below lines) with
            | none =>
              rw [behind] at comment run
              obtain ⟨e, failed⟩ := comment
              cases Option.some.inj run
              exact bind_failed inside (by rw [token, failed]; rfl)
            | some v =>
              rw [behind] at comment run
              obtain ⟨pos', s', more, read, start', rfl, part⟩ := comment
              have goes : GoesOn (processToken lines s pos) [] s' more (s'.drop (pos' - 1)) :=
                ⟨pos', by rw [token, read]; rfl, start', rfl⟩
              have bounded := (afterClose_suffix behind).length_le
              have few := part.length_le
              simp only [List.length_cons] at few
              have room : more.length < fuel' := by omega
              have cleanPart : ∀ l ∈ s' :: more, '\n' ∉ l := fun l mem =>
                cleanLines l (part.subset mem)
              obtain ⟨r, same, agrees⟩ := ih.step fuel inside goes
                (cleanPart s' List.mem_cons_self)
                (fun l mem => cleanPart l (List.mem_cons_of_mem s' mem)) (by omega) (by omega)
                room run
              rw [same]
              exact agrees

/-- A file is processed like its text, if that does not start with a directive. -/
theorem crunch_text {source : List LuaString} (clean : ∀ l ∈ source, '\n' ∉ l)
    (ordinary : startsDirective (sourceText source) = false) {o : List LuaString × Bool}
    (run : crunched (sourceText source) = some o) : Agrees (crunch directive source) o := by
  cases source with
  | nil =>
    cases Option.some.inj run
    exact ⟨rfl, rfl⟩
  | cons s lines =>
    have cleanLine := clean s List.mem_cons_self
    rw [sourceText, startsDirective_line cleanLine (below_broken lines)] at ordinary
    have room : (s ++ below lines).length < size (s :: lines) + 1 := by
      rw [List.length_append, length_below, size_cons]
      omega
    have next := resumes directive _ lines s 1 (size (s :: lines) + 1)
      (s :: lines).length s o rfl (Nat.le_refl 1) cleanLine
      (fun l mem => clean l (List.mem_cons_of_mem s mem)) (Nat.lt_succ_self _) room
      (Nat.lt_succ_self _) run
    simpa only [crunch, gettokens, ordinary, Bool.false_eq_true, if_false] using next

end

end PrimeMover.Cruncher
