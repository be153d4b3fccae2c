import Mathlib.Data.List.Basic

/-! The words of a command line, by the quoting rules of a POSIX shell. A text has words
only as far as the shell does nothing but split it: no operator, no expansion and no pattern
stands outside of quotes, and no expansion inside of them. -/
namespace PosixShell

/-- Where the reader stands, with the word it has read so far. -/
inductive Mode where
  | between
  | bare (word : List Char)
  | single (word : List Char)
  | double (word : List Char)
  | escaped (word : List Char)

/-- A character that stands for itself in any place of a word. -/
def plain (c : Char) : Bool := c.isAlphanum || "_-./,:+%@".toList.contains c

/-- Inside double quotes the shell takes the backslash from these. -/
def released : List Char := ['$', '`', '"', '\\']

/-- One character of the line, outside of quotes. -/
def outside (word : Option (List Char)) (c : Char) : Option (Option (List Char) × Mode) :=
  if c = ' ' ∨ c = '\t' then some (word, .between)
  else if c = '\'' then some (none, .single (word.getD []))
  else if c = '"' then some (none, .double (word.getD []))
  else if plain c then some (none, .bare (word.getD [] ++ [c]))
  else none

/-- One character of the line: the word it ends, and where the reader stands behind it. -/
def step : Mode → Char → Option (Option (List Char) × Mode)
  | .between, c => outside none c
  | .bare word, c => outside (some word) c
  | .single word, c =>
    if c = '\'' then some (none, .bare word)
    else if c = '\x00' then none
    else some (none, .single (word ++ [c]))
  | .double word, c =>
    if c = '"' then some (none, .bare word)
    else if c = '\\' then some (none, .escaped word)
    else if c = '$' ∨ c = '`' ∨ c = '\x00' then none
    else some (none, .double (word ++ [c]))
  | .escaped word, c =>
    if c = '\n' then some (none, .double word)
    else if c = '\x00' then none
    else if c ∈ released then some (none, .double (word ++ [c]))
    else some (none, .double (word ++ ['\\', c]))

/-- The rest of the words, from where the reader stands. -/
def read : Mode → List Char → Option (List (List Char))
  | .between, [] => some []
  | .bare word, [] => some [word]
  | .single _, [] => none
  | .double _, [] => none
  | .escaped _, [] => none
  | mode, c :: cs =>
    match step mode c with
    | none => none
    | some (ended, mode) => (read mode cs).map (ended.toList ++ ·)

def words (line : List Char) : Option (List (List Char)) := read .between line

/-- No dollar sign, backquote or NUL: what double quotes do not protect. -/
def Inert (s : List Char) : Prop := ∀ c ∈ s, c ≠ '$' ∧ c ≠ '`' ∧ c ≠ '\x00'

instance decideInert (s : List Char) : Decidable (Inert s) := List.decidableBAll _ s

/-- A text with a backslash before each backslash and double quote. -/
def protect (s : List Char) : List Char :=
  s.flatMap fun c => if c = '"' ∨ c = '\\' then ['\\', c] else [c]

theorem read_step {mode next : Mode} {c : Char} {ended : Option (List Char)}
    (one : step mode c = some (ended, next)) (cs : List Char) :
    read mode (c :: cs) = (read next cs).map (ended.toList ++ ·) := by
  cases mode <;> simp only [read, one]

theorem read_silent {mode next : Mode} {c : Char} (one : step mode c = some (none, next))
    (cs : List Char) : read mode (c :: cs) = read next cs := by
  rw [read_step one]
  cases read next cs <;> rfl

theorem outside_plain (word : Option (List Char)) {c : Char} (here : plain c = true) :
    outside word c = some (none, .bare (word.getD [] ++ [c])) := by
  have special : ∀ d, plain d = false → c ≠ d := by
    rintro d hd rfl
    cases here.symm.trans hd
  rw [outside, if_neg (not_or.mpr ⟨special ' ' (by decide), special '\t' (by decide)⟩),
    if_neg (special '\'' (by decide)), if_neg (special '"' (by decide)), if_pos here]

theorem read_plain (word : List Char) {s : List Char} (all : ∀ c ∈ s, plain c = true)
    (cs : List Char) : read (.bare word) (s ++ cs) = read (.bare (word ++ s)) cs := by
  induction s generalizing word with
  | nil => rw [List.nil_append, List.append_nil]
  | cons c s ih =>
    have one : step (.bare word) c = some (none, .bare (word ++ [c])) :=
      outside_plain (some word) (all c List.mem_cons_self)
    rw [List.cons_append, read_silent one, ih _ fun d hd => all d (List.mem_cons_of_mem c hd),
      List.append_assoc, List.singleton_append]

/-- A word of plain characters is what it spells. -/
theorem read_word {s : List Char} (nonempty : s ≠ []) (all : ∀ c ∈ s, plain c = true)
    (cs : List Char) : read .between (s ++ cs) = read (.bare s) cs := by
  obtain ⟨c, s, rfl⟩ := List.exists_cons_of_ne_nil nonempty
  have one : step .between c = some (none, .bare [c]) :=
    outside_plain none (all c List.mem_cons_self)
  rw [List.cons_append, read_silent one, read_plain [c] fun d hd => all d (List.mem_cons_of_mem c hd)]
  rfl

theorem protect_cons (c : Char) (s : List Char) :
    protect (c :: s) = (if c = '"' ∨ c = '\\' then ['\\', c] else [c]) ++ protect s := rfl

/-- In double quotes the protected text is read as it was. -/
theorem read_protect (word : List Char) {s : List Char} (inert : Inert s) (cs : List Char) :
    read (.double word) (protect s ++ cs) = read (.double (word ++ s)) cs := by
  induction s generalizing word with
  | nil =>
    rw [List.append_nil]
    rfl
  | cons c s ih =>
    have rest := ih (word ++ [c]) fun d hd => inert d (List.mem_cons_of_mem c hd)
    rw [List.append_assoc, List.singleton_append] at rest
    obtain ⟨noDollar, noQuote, noNul⟩ := inert c List.mem_cons_self
    rw [protect_cons]
    split
    · rename_i special
      have first : step (.double word) '\\' = some (none, .escaped word) := rfl
      have second : step (.escaped word) c = some (none, .double (word ++ [c])) := by
        rcases special with rfl | rfl <;> rfl
      rw [List.append_assoc, List.cons_append, List.singleton_append, read_silent first,
        read_silent second, rest]
    · rename_i ordinary
      obtain ⟨noEnd, noBackslash⟩ := not_or.mp ordinary
      have one : step (.double word) c = some (none, .double (word ++ [c])) := by
        rw [step, if_neg noEnd, if_neg noBackslash,
          if_neg (not_or.mpr ⟨noDollar, not_or.mpr ⟨noQuote, noNul⟩⟩)]
      rw [List.append_assoc, List.singleton_append, read_silent one, rest]

/-- A protected text between double quotes, in front of a blank or the end of the line. -/
theorem read_quoted {s : List Char} (inert : Inert s) (cs : List Char) :
    read .between ('"' :: (protect s ++ '"' :: cs)) = read (.bare s) cs := by
  have first : step .between '"' = some (none, .double []) := rfl
  have last : step (.double ([] ++ s)) '"' = some (none, .bare s) := rfl
  rw [read_silent first, read_protect [] inert, read_silent last]

theorem read_blank (word : List Char) (cs : List Char) :
    read (.bare word) (' ' :: cs) = (read .between cs).map (word :: ·) := by
  have one : step (.bare word) ' ' = some (some word, .between) := rfl
  rw [read_step one]
  rfl

/-- Each text protected and between double quotes, with single blanks between them. -/
def quoted (names : List (List Char)) : List Char :=
  '"' :: (List.intercalate ['"', ' ', '"'] (names.map protect) ++ ['"'])

theorem quoted_single (name : List Char) : quoted [name] = '"' :: (protect name ++ ['"']) := by
  rw [quoted, List.map_singleton, List.intercalate_singleton]

theorem quoted_cons (name next : List Char) (names : List (List Char)) :
    quoted (name :: next :: names) =
      '"' :: (protect name ++ '"' :: (' ' :: quoted (next :: names))) := by
  simp [quoted, List.intercalate]

theorem read_quoted_list {name : List Char} {names : List (List Char)} (inert : Inert name)
    (all : ∀ n ∈ names, Inert n) : read .between (quoted (name :: names)) = some (name :: names) := by
  induction names generalizing name with
  | nil =>
    rw [quoted_single, read_quoted inert]
    rfl
  | cons next names ih =>
    have rest := ih (all next List.mem_cons_self) fun n hn => all n (List.mem_cons_of_mem next hn)
    rw [quoted_cons, read_quoted inert, read_blank, rest]
    rfl

/-- The words of a line in front of a blank are read first. -/
theorem read_append {mode : Mode} {before : List Char} {ws : List (List Char)}
    (done : read mode before = some ws) (cs : List Char) :
    read mode (before ++ ' ' :: cs) = (read .between cs).map (ws ++ ·) := by
  induction before generalizing mode ws with
  | nil =>
    cases mode with
    | between =>
      cases done
      have one : step .between ' ' = some (none, .between) := rfl
      rw [List.nil_append, read_silent one]
      simp
    | bare word =>
      cases done
      exact read_blank word cs
    | single word => cases done
    | double word => cases done
    | escaped word => cases done
  | cons c before ih =>
    cases one : step mode c with
    | none =>
      cases mode <;> simp only [read, one] at done <;> cases done
    | some r =>
      obtain ⟨ended, next⟩ := r
      rw [read_step one] at done
      obtain ⟨rest, hrest, rfl⟩ := Option.map_eq_some_iff.mp done
      rw [List.cons_append, read_step one, ih hrest]
      simp [Option.map_map, Function.comp_def]

/-- A protected text is no longer read when it holds what double quotes do not protect. -/
theorem read_exposed (word : List Char) {s : List Char} (exposed : ¬ Inert s) (cs : List Char) :
    read (.double word) (protect s ++ cs) = none := by
  induction s generalizing word with
  | nil => exact absurd (fun c hc => by cases hc) exposed
  | cons c s ih =>
    rw [protect_cons]
    split
    · rename_i special
      have first : step (.double word) '\\' = some (none, .escaped word) := rfl
      have second : step (.escaped word) c = some (none, .double (word ++ [c])) := by
        rcases special with rfl | rfl <;> rfl
      rw [List.append_assoc, List.cons_append, List.singleton_append, read_silent first,
        read_silent second]
      refine ih _ fun inert => exposed fun d hd => ?_
      rcases List.mem_cons.mp hd with rfl | hd
      · rcases special with rfl | rfl <;> decide
      · exact inert d hd
    · rename_i ordinary
      obtain ⟨noEnd, noBackslash⟩ := not_or.mp ordinary
      rw [List.append_assoc, List.singleton_append]
      by_cases here : c = '$' ∨ c = '`' ∨ c = '\x00'
      · have one : step (.double word) c = none := by
          rw [step, if_neg noEnd, if_neg noBackslash, if_pos here]
        simp only [read, one]
      · have one : step (.double word) c = some (none, .double (word ++ [c])) := by
          rw [step, if_neg noEnd, if_neg noBackslash, if_neg here]
        rw [read_silent one]
        refine ih _ fun inert => exposed fun d hd => ?_
        rcases List.mem_cons.mp hd with rfl | hd
        · obtain ⟨noDollar, rest⟩ := not_or.mp here
          exact ⟨noDollar, not_or.mp rest⟩
        · exact inert d hd

theorem read_exposed_list {name : List Char} {names : List (List Char)}
    (exposed : ∃ n ∈ name :: names, ¬ Inert n) (cs : List Char) :
    read .between (quoted (name :: names) ++ cs) = none := by
  have opened : ∀ n rest, ¬ Inert n → read .between ('"' :: (protect n ++ rest)) = none := by
    intro n rest bad
    have first : step .between '"' = some (none, .double []) := rfl
    rw [read_silent first, read_exposed [] bad]
  induction names generalizing name with
  | nil =>
    obtain ⟨n, hn, bad⟩ := exposed
    cases List.mem_singleton.mp hn
    rw [quoted_single, List.cons_append, List.append_assoc, opened name _ bad]
  | cons next names ih =>
    rw [quoted_cons, List.cons_append, List.append_assoc]
    by_cases bad : Inert name
    · obtain ⟨n, hn, exposed⟩ := exposed
      have later : n ∈ next :: names := by
        rcases List.mem_cons.mp hn with rfl | hn
        · exact absurd bad exposed
        · exact hn
      rw [List.cons_append, List.cons_append, read_quoted bad, read_blank, ih ⟨n, later, exposed⟩]
      rfl
    · exact opened name _ bad

/-- A text with each single quote outside of the quotes around it, in quotes of its own. -/
def reopened (s : List Char) : List Char :=
  s.flatMap fun c => if c = '\'' then ['\'', '"', '\'', '"', '\''] else [c]

theorem reopened_cons (c : Char) (s : List Char) :
    reopened (c :: s) = (if c = '\'' then ['\'', '"', '\'', '"', '\''] else [c]) ++ reopened s := rfl

/-- In single quotes the reopened text is read as it was. -/
theorem read_reopened (word : List Char) {s : List Char} (noNul : '\x00' ∉ s) (cs : List Char) :
    read (.single word) (reopened s ++ '\'' :: cs) = read (.bare (word ++ s)) cs := by
  induction s generalizing word with
  | nil =>
    have last : step (.single word) '\'' = some (none, .bare word) := rfl
    rw [List.append_nil]
    exact read_silent last cs
  | cons c s ih =>
    have rest := ih (word ++ [c]) fun h => noNul (List.mem_cons_of_mem c h)
    rw [List.append_assoc, List.singleton_append] at rest
    rw [reopened_cons, List.append_assoc]
    by_cases quote : c = '\''
    · subst quote
      have leave : step (.single word) '\'' = some (none, .bare word) := rfl
      have enter : step (.bare word) '"' = some (none, .double word) := rfl
      have inner : step (.double word) '\'' = some (none, .double (word ++ ['\''])) := rfl
      have exit : step (.double (word ++ ['\''])) '"' = some (none, .bare (word ++ ['\''])) := rfl
      have again : step (.bare (word ++ ['\''])) '\'' = some (none, .single (word ++ ['\''])) := rfl
      rw [if_pos rfl, List.cons_append, List.cons_append, List.cons_append, List.cons_append,
        List.singleton_append, read_silent leave, read_silent enter, read_silent inner,
        read_silent exit, read_silent again, rest]
    · have one : step (.single word) c = some (none, .single (word ++ [c])) := by
        have other : c ≠ '\x00' := by
          rintro rfl
          exact noNul List.mem_cons_self
        rw [step, if_neg quote, if_neg other]
      rw [if_neg quote, List.singleton_append, read_silent one, rest]

theorem count_protect {c : Char} (noQuote : c ≠ '"') (noBackslash : c ≠ '\\') (s : List Char) :
    (protect s).count c = s.count c := by
  induction s with
  | nil => rfl
  | cons d s ih =>
    rw [protect_cons, List.count_append, ih, List.count_cons]
    split
    · rename_i special
      have other : d ≠ c := by
        rintro rfl
        exact special.elim noQuote noBackslash
      simp [other, Ne.symm noBackslash]
    · rw [List.count_singleton, Nat.add_comm]

/-- Quoting adds quotes, backslashes and blanks only. -/
theorem count_quoted {c : Char} (noQuote : c ≠ '"') (noBackslash : c ≠ '\\') (noBlank : c ≠ ' ')
    (names : List (List Char)) : (quoted names).count c = names.flatten.count c := by
  have one : (['"'] : List Char).count c = 0 := by simp [Ne.symm noQuote]
  cases names with
  | nil => simp [quoted, Ne.symm noQuote]
  | cons name names =>
    induction names generalizing name with
    | nil =>
      rw [quoted_single, List.count_cons_of_ne (Ne.symm noQuote), List.count_append,
        count_protect noQuote noBackslash, one]
      simp
    | cons next names ih =>
      rw [quoted_cons, List.count_cons_of_ne (Ne.symm noQuote), List.count_append,
        count_protect noQuote noBackslash, List.count_cons_of_ne (Ne.symm noQuote),
        List.count_cons_of_ne (Ne.symm noBlank), ih, ← List.count_append]
      rfl

end PosixShell
