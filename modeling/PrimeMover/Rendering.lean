import PrimeMover.Node
import PrimeMover.ShellWords

/-! Texts between quotes: what `rendertable` and `posix.copy` write, read back by the
convention of the code and by the rules of the shell. -/
namespace PrimeMover
open LuaPattern PosixShell

variable {W : Type}

theorem quoteElement_protect (j : LuaString) : quoteElement j = PosixShell.protect j := by
  rw [quoteElement, gsub_one, gsub_one, PosixShell.protect, List.flatMap_assoc]
  congr 1
  funext c
  by_cases slash : c = '\\'
  · subst slash
    rfl
  · rw [if_neg slash, List.flatMap_singleton]
    by_cases quote : c = '"'
    · rw [if_pos quote, if_pos (Or.inl quote), quote]
      rfl
    · rw [if_neg quote, if_neg (not_or.mpr ⟨quote, slash⟩)]

theorem rendertable_strings (outs : List LuaString) :
    rendertable (some (strings outs)) = .ok (PosixShell.quoted outs) := by
  have items : (outs.map Value.str).mapM renderItem = .ok (outs.map PosixShell.protect) := by
    induction outs with
    | nil => rfl
    | cons o outs ih =>
      rw [List.map_cons, List.mapM_cons, ih, renderItem, quoteElement_protect]
      rfl
  simp only [rendertable, strings, Value.items, items, bind, Except.bind]
  rfl

/-- Where a reader of rendered lists stands: in front of a word, in one, behind a backslash
in one, or behind one. -/
inductive ListReader where
  | start
  | inside (word : LuaString)
  | escaped (word : LuaString)
  | behind (word : LuaString)

/-- Words in double quotes with single blanks between them. A backslash stands before a
backslash or a double quote that is meant. -/
def unquote : ListReader → LuaString → Option (List LuaString)
  | .start, [] => none
  | .start, c :: cs => if c = '"' then unquote (.inside []) cs else none
  | .inside _, [] => none
  | .inside word, c :: cs =>
    if c = '"' then unquote (.behind word) cs
    else if c = '\\' then unquote (.escaped word) cs
    else unquote (.inside (word ++ [c])) cs
  | .escaped _, [] => none
  | .escaped word, c :: cs =>
    if c = '"' ∨ c = '\\' then unquote (.inside (word ++ [c])) cs else none
  | .behind word, [] => some [word]
  | .behind word, c :: cs =>
    if c = ' ' then (unquote .start cs).map (word :: ·) else none

theorem unquote_protect (word s cs : LuaString) :
    unquote (.inside word) (protect s ++ cs) = unquote (.inside (word ++ s)) cs := by
  induction s generalizing word with
  | nil =>
    rw [List.append_nil]
    rfl
  | cons c s ih =>
    have rest := ih (word ++ [c])
    rw [List.append_assoc, List.singleton_append] at rest
    rw [protect_cons, List.append_assoc, ← rest]
    split
    · rename_i special
      have first : unquote (.inside word) ('\\' :: c :: (protect s ++ cs)) =
          unquote (.escaped word) (c :: (protect s ++ cs)) := rfl
      rw [List.cons_append, List.singleton_append, first, unquote, if_pos special]
    · rename_i ordinary
      obtain ⟨noQuote, noBackslash⟩ := not_or.mp ordinary
      rw [List.singleton_append, unquote, if_neg noQuote, if_neg noBackslash]

theorem unquote_word (s cs : LuaString) :
    unquote .start ('"' :: (protect s ++ '"' :: cs)) = unquote (.behind s) cs := by
  have first : unquote .start ('"' :: (protect s ++ '"' :: cs)) =
      unquote (.inside []) (protect s ++ '"' :: cs) := rfl
  rw [first, unquote_protect]
  rfl

theorem unquote_quoted (name : LuaString) (names : List LuaString) :
    unquote .start (quoted (name :: names)) = some (name :: names) := by
  induction names generalizing name with
  | nil =>
    rw [quoted_single, unquote_word]
    rfl
  | cons next names ih =>
    have blank : unquote (.behind name) (' ' :: quoted (next :: names)) =
        (unquote .start (quoted (next :: names))).map (name :: ·) := rfl
    rw [quoted_cons, unquote_word, blank, ih]
    rfl

/-- A rendered list that is not empty can be read back. -/
theorem rendertable_reads_back :
    (∀ l : List LuaString, l ≠ [] → ∃ text, rendertable (some (strings l)) = .ok text ∧
      unquote .start text = some l) ∧
    ∀ l m : List LuaString, rendertable (some (strings l)) = rendertable (some (strings m)) →
      l = m ∨ (l = [] ∧ m = [[]]) ∨ (l = [[]] ∧ m = []) := by
  have empty : quoted [] = quoted [[]] := rfl
  constructor
  · intro l nonempty
    obtain ⟨name, names, rfl⟩ := List.exists_cons_of_ne_nil nonempty
    exact ⟨_, rendertable_strings _, unquote_quoted name names⟩
  · intro l m same
    rw [rendertable_strings, rendertable_strings] at same
    have same := Except.ok.inj same
    cases l with
    | nil =>
      cases m with
      | nil => exact Or.inl rfl
      | cons name names =>
        rw [empty] at same
        have read := congrArg (unquote .start) same
        rw [unquote_quoted, unquote_quoted] at read
        exact Or.inr (Or.inl ⟨rfl, (Option.some.inj read).symm⟩)
    | cons name names =>
      cases m with
      | nil =>
        rw [empty] at same
        have read := congrArg (unquote .start) same
        rw [unquote_quoted, unquote_quoted] at read
        exact Or.inr (Or.inr ⟨Option.some.inj read, rfl⟩)
      | cons other others =>
        have read := congrArg (unquote .start) same
        rw [unquote_quoted, unquote_quoted] at read
        exact Or.inl (Option.some.inj read)

/-- Quotes and a backslash, and a blank. -/
theorem quotes_read_back : ∃ text,
    rendertable (some (strings ["a\"b\\".toList, " ".toList])) = .ok text ∧
      unquote .start text = some ["a\"b\\".toList, " ".toList] :=
  rendertable_reads_back.1 _ (by decide)

/-- In every command line the text stands for these words. -/
def StandsFor (text : LuaString) (ws : List LuaString) : Prop :=
  ∀ before after first last, words before = some first → words after = some last →
    words (before ++ ' ' :: (text ++ ' ' :: after)) = some (first ++ (ws ++ last))

theorem standsFor_quoted {name : LuaString} {names : List LuaString}
    (noNul : ∀ s ∈ name :: names, '\x00' ∉ s) :
    StandsFor (quoted (name :: names)) (name :: names) ↔
      ∀ s ∈ name :: names, '$' ∉ s ∧ '`' ∉ s := by
  constructor
  · intro stands s hs
    have blank : words (' ' :: (quoted (name :: names) ++ [' '])) = some (name :: names) := by
      have := stands [] [] [] [] rfl rfl
      simpa using this
    have inert : Inert s := by
      by_contra bad
      have first : step .between ' ' = some (none, .between) := rfl
      rw [words, read_silent first, read_exposed_list ⟨s, hs, bad⟩] at blank
      cases blank
    exact ⟨fun h => (inert _ h).1 rfl, fun h => (inert _ h).2.1 rfl⟩
  · intro plain before after first last hbefore hafter
    have inert : ∀ s ∈ name :: names, Inert s := fun s hs c hc =>
      ⟨fun h => (plain s hs).1 (h ▸ hc), fun h => (plain s hs).2 (h ▸ hc),
        fun h => noNul s hs (h ▸ hc)⟩
    have list := read_quoted_list (inert name List.mem_cons_self) fun n hn =>
      inert n (List.mem_cons_of_mem name hn)
    have tail := read_append list after
    have rest : read .between after = some last := hafter
    rw [words, read_append hbefore, tail, rest]
    rfl

/-- The shell reads the words of a rendered list exactly if none holds a dollar sign or a
backquote. -/
theorem rendertable_words (l : List LuaString) (nonempty : l ≠ []) (noNul : ∀ s ∈ l, '\x00' ∉ s) :
    ∃ text, rendertable (some (strings l)) = .ok text ∧
      (StandsFor text l ↔ ∀ s ∈ l, '$' ∉ s ∧ '`' ∉ s) := by
  obtain ⟨name, names, rfl⟩ := List.exists_cons_of_ne_nil nonempty
  exact ⟨_, rendertable_strings _, standsFor_quoted noNul⟩

theorem blank_name_words : ∃ text, rendertable (some (strings ["a b".toList])) = .ok text ∧
    (StandsFor text ["a b".toList] ↔ ∀ s ∈ ["a b".toList], '$' ∉ s ∧ '`' ∉ s) :=
  rendertable_words _ (by decide) (by decide)

/-- The shell replaces a variable in the name `$HOME`. -/
theorem dollar_exposed : ¬ ∀ l : List LuaString, l ≠ [] → (∀ s ∈ l, '\x00' ∉ s) →
    ∃ text, rendertable (some (strings l)) = .ok text ∧ StandsFor text l := by
  intro all
  obtain ⟨text, rendered, stands⟩ := all ["$HOME".toList] (by decide) (by decide)
  rw [rendertable_strings] at rendered
  cases rendered
  have plain := (standsFor_quoted (by decide)).mp stands
  exact (plain "$HOME".toList (by decide)).1 (by decide)

/-- `'"'"'` for each single quote. -/
def copyQuote (s : LuaString) : LuaString :=
  gsub ⟨false, [.one (· == '\'')]⟩ (fun _ => "'\"'\"'".toList) s

def copyCommand (src dest : LuaString) : LuaString :=
  "cp '".toList ++ copyQuote src ++ "' '".toList ++ copyQuote dest ++ "'".toList

/-- `posix.copy` -/
def copy (host : Host W) (w : W) (src dest : LuaString) : Except LuaString Unit × W :=
  let r := host.execute w (copyCommand src dest)
  (if r.1 ≠ 0 then .error "unable to copy file".toList else .ok (), r.2)

theorem copyQuote_reopened (s : LuaString) : copyQuote s = reopened s := gsub_one _ _ _

/-- What is executed to copy a file has the words `cp`, source and destination. -/
theorem copy_words (src dest : LuaString) (noNul : '\x00' ∉ src) (noNul' : '\x00' ∉ dest) :
    ∃ command, (∀ (W : Type) (host : Host W) (w : W),
        (copy host w src dest).2 = (host.execute w command).2) ∧
      words command = some ["cp".toList, src, dest] := by
  refine ⟨copyCommand src dest, fun _ _ _ => rfl, ?_⟩
  have opened : ∀ cs, read .between ('\'' :: cs) = read (.single []) cs := fun cs =>
    read_silent (rfl : step .between '\'' = some (none, .single [])) cs
  have line : copyCommand src dest =
      "cp".toList ++ ' ' :: '\'' :: (reopened src ++ '\'' :: ' ' :: '\'' :: (reopened dest ++ ['\''])) := by
    have start : "cp '".toList = "cp".toList ++ [' ', '\''] := by decide
    have between : "' '".toList = ['\'', ' ', '\''] := by decide
    have stop : "'".toList = ['\''] := by decide
    -- its equation would be checked by decoding the texts
    delta copyCommand
    simp only [copyQuote_reopened, start, between, stop, List.append_assoc, List.cons_append,
      List.nil_append]
  have last : read (.bare dest) [] = some [dest] := rfl
  have name : ∀ c ∈ "cp".toList, plain c = true := List.all_eq_true.mp (by decide)
  have quoted_names : read (.single []) (reopened src ++ '\'' :: ' ' :: '\'' ::
      (reopened dest ++ ['\''])) = some [src, dest] := by
    rw [read_reopened [] noNul, List.nil_append, read_blank, opened, read_reopened [] noNul',
      List.nil_append, last]
    rfl
  calc words (copyCommand src dest)
      = read (.bare "cp".toList) (' ' :: '\'' :: (reopened src ++ '\'' :: ' ' :: '\'' ::
          (reopened dest ++ ['\'']))) := by rw [line]; exact read_word (by decide) name _
    _ = (some [src, dest]).map ("cp".toList :: ·) := by rw [read_blank, opened, quoted_names]
    _ = some ["cp".toList, src, dest] := rfl

theorem copy_quotes : ∃ command, (∀ (W : Type) (host : Host W) (w : W),
      (copy host w "it's".toList "$x\n".toList).2 = (host.execute w command).2) ∧
    words command = some ["cp".toList, "it's".toList, "$x\n".toList] :=
  copy_words _ _ (by decide) (by decide)

end PrimeMover
