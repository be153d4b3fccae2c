import PrimeMover.Registry

/-! What is read after the index was only partly written. The writer empties the file
and starts with the count, so an interruption leaves a prefix of the text. -/
namespace PrimeMover
open LineReader AssocTable

theorem readLoop_last (size fuel : Nat) (acc line : List Char) (positive : 0 < size)
    (clean : LineText line) (enough : line.length < fuel) :
    readLoop size fuel acc line = (if acc ++ line = [] then none else some (acc ++ line), []) := by
  induction fuel generalizing acc line with
  | zero => omega
  | succ fuel ih =>
    cases line with
    | nil => simp [readLoop]
    | cons c s =>
      by_cases short : (c :: s).length < size
      · have hf := fgets_last size (c :: s) clean.1 short
        have rest := ih (acc ++ c :: s) [] ⟨by simp, by simp⟩ (by simp at enough ⊢; omega)
        simp only [readLoop, hf, cstring_clean _ clean.2, getLast_clean clean.1, if_false, rest,
          List.append_nil]
      · have hf := fgets_long size (c :: s) [] clean.1 (by omega)
        rw [List.append_nil, List.append_nil] at hf
        have htake : newline ∉ (c :: s).take size := fun h => clean.1 (List.mem_of_mem_take h)
        have hnul : nul ∉ (c :: s).take size := fun h => clean.2 (List.mem_of_mem_take h)
        have hdrop : LineText ((c :: s).drop size) :=
          ⟨fun h => clean.1 (List.mem_of_mem_drop h), fun h => clean.2 (List.mem_of_mem_drop h)⟩
        have rest := ih (acc ++ (c :: s).take size) ((c :: s).drop size) hdrop
          (by rw [List.length_drop]; omega)
        simp only [readLoop, hf, cstring_clean _ hnul, getLast_clean htake, if_false, rest]
        rw [List.append_assoc, List.take_append_drop]

/-- The last line of a file may lack its newline. -/
theorem readLine_last (size : Nat) (line : List Char) (positive : 0 < size)
    (clean : LineText line) :
    readLine size line = (if line = [] then none else some line, []) :=
  readLoop_last size _ [] line positive clean (Nat.lt_succ_self _)

/-- The entries as the reader keeps them. -/
def readTable (entries : List (LuaString × Id)) : List (LuaString × Id) :=
  entries.foldl (fun t e => setEntry t e.1 (.str e.2.text)) []

/-- What a cut leaves behind the last whole entry: a piece of the next key's line, or
that line and the first digits of the id. -/
inductive Remnant : List (LuaString × Id) → LuaString → Prop where
  | nothing (after) : Remnant after []
  | key (e after q) : q <+: writeLine e.1 → Remnant (e :: after) q
  | id (e after digits) : digits ≠ [] → digits <+: e.2.text →
      Remnant (e :: after) (writeLine e.1 ++ digits)

theorem prefix_append_cases {A : Type} {p s t : List A} (h : p <+: s ++ t) :
    p <+: s ∨ ∃ q, p = s ++ q ∧ q <+: t := by
  obtain ⟨u, whole⟩ := h
  rcases List.append_eq_append_iff.mp whole with ⟨a, hs, _⟩ | ⟨a, hp, ht⟩
  · exact Or.inl ⟨a, hs.symm⟩
  · exact Or.inr ⟨a, hp, u, ht.symm⟩

theorem entryLines_cut {entries : List (LuaString × Id)} {p : LuaString}
    (cut : p <+: entryLines entries) : ∃ before after q,
      entries = before ++ after ∧ p = entryLines before ++ q ∧ Remnant after q := by
  induction entries generalizing p with
  | nil =>
    have empty : p = [] := List.prefix_nil.mp cut
    exact ⟨[], [], [], rfl, by simp [empty, entryLines], .nothing []⟩
  | cons e entries ih =>
    have text : entryLines (e :: entries) =
        writeLine e.1 ++ (writeLine e.2.text ++ entryLines entries) := by
      simp [entryLines]
    rw [text] at cut
    rcases prefix_append_cases cut with inKey | ⟨q, rfl, below⟩
    · exact ⟨[], e :: entries, p, rfl, rfl, .key e entries p inKey⟩
    rcases prefix_append_cases below with inId | ⟨r, rfl, rest⟩
    · rcases List.prefix_concat_iff.mp inId with whole | inId
      · refine ⟨[e], entries, [], rfl, ?_, .nothing entries⟩
        rw [whole]
        simp [entryLines, writeLine]
      · by_cases empty : q = []
        · refine ⟨[], e :: entries, writeLine e.1, rfl, by simp [empty, entryLines], ?_⟩
          exact .key e entries _ (List.prefix_refl _)
        · exact ⟨[], e :: entries, _, rfl, rfl, .id e entries q empty inId⟩
    · obtain ⟨before, after, q, rfl, rfl, left⟩ := ih rest
      exact ⟨e :: before, after, q, rfl, by simp [entryLines], left⟩

theorem digits_cut {d s : LuaString} (digits : s.all Char.isDigit = true) (cut : d <+: s) :
    d.all Char.isDigit = true := by
  rw [List.all_eq_true] at digits ⊢
  exact fun c hc => digits c (cut.subset hc)

theorem lineText_cut {d s : LuaString} (line : LineText s) (cut : d <+: s) : LineText d :=
  ⟨fun h => line.1 (cut.subset h), fun h => line.2 (cut.subset h)⟩

theorem tointeger_tonumber {d : LuaString} {n : Nat} (number : tonumber d = some n) :
    tointeger d = some (n : Int) := by
  have digits : ∀ c ∈ d, c.isDigit = true := by
    unfold tonumber at number
    split at number
    · rename_i whole
      exact List.all_eq_true.mp whole.2
    · cases number
  rw [tointeger_digits digits, number]
  rfl

theorem tonumber_prefix {d s : LuaString} {n : Nat} (whole : tonumber s = some n) (cut : d <+: s)
    (nonempty : d ≠ []) : ∃ m, tonumber d = some m ∧ m ≤ n := by
  obtain ⟨rest, rfl⟩ := cut
  unfold tonumber at whole ⊢
  split at whole
  · rename_i hs
    cases whole
    have digits := digits_cut hs.2 (List.prefix_append d rest)
    rw [if_pos ⟨nonempty, digits⟩]
    refine ⟨_, rfl, ?_⟩
    rw [Nat.ofDigitChars_append]
    generalize Nat.ofDigitChars 10 d 0 = m
    rw [Nat.ofDigitChars_eq_ofDigitChars_zero]
    have tens : 1 ≤ 10 ^ rest.length := Nat.one_le_pow _ _ (by decide)
    calc m = 1 * m := (Nat.one_mul m).symm
      _ ≤ 10 ^ rest.length * m := Nat.mul_le_mul_right m tens
      _ ≤ _ := Nat.le_add_right _ _
  · cases whole

section
variable {count : Id} {before : List (LuaString × Id)} (hcount : count.Numeral)
  (lines : ∀ e ∈ before, LineText e.1 ∧ LineText e.2.text)
include hcount lines

theorem decode_before (q : LuaString) : ∃ fuel,
    decodeIndex (indexText count before ++ q) [] =
      (some (.str count.text), readEntries (fuel + 1) q (readTable before)) := by
  have text : indexText count before ++ q =
      count.text ++ newline :: (entryLines before ++ q) := by
    simp [indexText, entryLines, writeLine]
  have enough : before.length ≤ (indexText count before).length := by
    have := length_le_flatMap before
    rw [indexText, List.length_append]
    omega
  have first := readLine_line bufferSize count.text (entryLines before ++ q) (by decide)
    hcount.lineText
  obtain ⟨fuel, hf⟩ : ∃ fuel, (indexText count before ++ q).length + 1 =
      before.length + (fuel + 1) := by
    refine ⟨(indexText count before ++ q).length - before.length, ?_⟩
    rw [List.length_append]
    omega
  refine ⟨fuel, ?_⟩
  rw [decodeIndex, hf, text, first]
  simp only [Option.map_some, readEntries_append before (fuel + 1) q [] lines]
  rfl

end

theorem readEntries_nil (fuel : Nat) (table : List (LuaString × Id)) :
    readEntries fuel [] table = table := by
  cases fuel <;> rfl

theorem read_key {key q : LuaString} (clean : LineText key) (cut : q <+: writeLine key)
    (fuel : Nat) (table : List (LuaString × Id)) : readEntries (fuel + 1) q table = table := by
  have second : ∀ rest : LuaString, rest = [] → (readLine bufferSize rest).1 = none := by
    rintro _ rfl
    rfl
  rcases List.prefix_concat_iff.mp cut with rfl | piece
  · have first := readLine_line bufferSize key [] (by decide) clean
    simp only [readEntries, first, second [] rfl]
  · have line : LineText q :=
      ⟨fun h => clean.1 (piece.subset h), fun h => clean.2 (piece.subset h)⟩
    have first := readLine_last bufferSize q (by decide) line
    simp only [readEntries, first, second [] rfl]
    split
    · contradiction
    · rfl

theorem read_id {key digits : LuaString} (clean : LineText key) (line : LineText digits)
    (nonempty : digits ≠ []) (fuel : Nat) (table : List (LuaString × Id)) :
    readEntries (fuel + 1) (writeLine key ++ digits) table = setEntry table key (.str digits) := by
  have text : writeLine key ++ digits = key ++ newline :: digits := by simp [writeLine]
  have second := readLine_last bufferSize digits (by decide) line
  rw [if_neg nonempty] at second
  rw [text]
  simp only [readEntries, readLine_line bufferSize key digits (by decide) clean, second]
  exact readEntries_nil fuel _

/-- What a next run may rely on: no id stands for two keys, none exceeds the count, and
the count is beyond every id that was given. -/
structure Recovered (r : Registry) (loaded : Option Id × List (LuaString × Id)) : Prop where
  distinct : ∀ j k u v, loaded.2.lookup j = some u → loaded.2.lookup k = some v →
    u.text = v.text → j = k
  bounded : ∀ k u, loaded.2.lookup k = some u →
    ∃ n c, u.number = some n ∧ loaded.1.bind Id.number = some c ∧ n ≤ c
  covers : ∀ e ∈ r.ids, ∃ c, loaded.1.bind Id.number = some c ∧ e.2 ≤ c

/-- A harmless place to stop: what is there of the count is not below an id, and what
is there of a last id is not the id of an entry before it. -/
structure SafeCut (r : Registry) (count : Id) (entries : List (LuaString × Id)) (p : LuaString) :
    Prop where
  counter : p <+: count.text → ∀ e ∈ r.ids, ∃ c, tonumber p = some c ∧ e.2 ≤ c
  entry : ∀ before e after digits, entries = before ++ e :: after →
    p = indexText count before ++ (writeLine e.1 ++ digits) → digits ≠ [] →
    digits <+: e.2.text → ∀ d ∈ before, d.2.text ≠ digits

/-- A cut in the first line leaves no table and at most some digits of the count. -/
theorem decode_count {count : Id} {p : LuaString} (numeral : count.Numeral)
    (cut : p <+: count.text) :
    decodeIndex p [] = (if p = [] then none else some (.str p), []) := by
  have line : LineText p := lineText_cut numeral.lineText cut
  have first := readLine_last bufferSize p (by decide) line
  simp only [decodeIndex, first]
  rw [readEntries_nil]
  split <;> rfl

theorem lookup_readTable {before : List (LuaString × Id)} (distinct : (before.map Prod.fst).Nodup)
    (k : LuaString) :
    (readTable before).lookup k = (before.lookup k).map (fun u => .str u.text) := by
  rw [readTable, foldl_setEntry (fun u => Id.str u.text) before [] distinct]
  cases before.lookup k <;> rfl

/-- Entries of a table that represents the registry. -/
structure Held (r : Registry) (entries : List (LuaString × Id)) : Prop where
  distinct : (entries.map Prod.fst).Nodup
  id : ∀ e ∈ entries, ∃ n, e.2.text = decimal n ∧ (e.1, n) ∈ r.ids

theorem Represents.held {count : Option Id} {cache entries : List (LuaString × Id)}
    {r : Registry} (rep : Represents count cache r) (perm : entries.Perm cache) :
    Held r entries where
  distinct := (perm.map Prod.fst).nodup_iff.mpr rep.distinct
  id := fun _ he => rep.mem (perm.mem_iff.mp he)

theorem Held.front {r : Registry} {before after : List (LuaString × Id)}
    (held : Held r (before ++ after)) : Held r before where
  distinct := by
    have := held.distinct
    rw [List.map_append] at this
    exact this.of_append_left
  id := fun e he => held.id e (List.mem_append_left _ he)

theorem Held.lines {r : Registry} {entries : List (LuaString × Id)} (held : Held r entries)
    (lines : ∀ e ∈ r.ids, LineText e.1) : ∀ e ∈ entries, LineText e.1 ∧ LineText e.2.text := by
  intro e he
  obtain ⟨n, text, hn⟩ := held.id e he
  refine ⟨lines _ hn, ?_⟩
  rw [text]
  exact (Id.Numeral.lineText (u := .num n) rfl)

theorem Held.recovered {r : Registry} {before : List (LuaString × Id)} (held : Held r before)
    {c : Id} (count : c.text = decimal r.count) :
    Recovered r (some (.str c.text), readTable before) := by
  have number : (Option.some (Id.str c.text)).bind Id.number = some (r.count : Int) := by
    rw [Option.bind_some, number_of_text (u := .str c.text) count]
  have entry : ∀ k u, (readTable before).lookup k = some u →
      ∃ n, u.text = decimal n ∧ (k, n) ∈ r.ids := by
    intro k u found
    rw [lookup_readTable held.distinct] at found
    obtain ⟨v, hv, rfl⟩ := Option.map_eq_some_iff.mp found
    exact held.id (k, v) (mem_of_lookup hv)
  refine ⟨?_, ?_, ?_⟩
  · intro j k u v hj hk same
    obtain ⟨m, tm, hm⟩ := entry j u hj
    obtain ⟨n, tn, hn⟩ := entry k v hk
    rw [tm, tn] at same
    cases decimal_inj same
    exact r.id_unique hm hn
  · intro k u hk
    obtain ⟨n, text, hn⟩ := entry k u hk
    exact ⟨n, r.count, number_of_text text, number, Int.ofNat_le.mpr (r.bounded _ hn)⟩
  · intro e he
    exact ⟨r.count, number, Int.ofNat_le.mpr (r.bounded e he)⟩

/-- One more entry, with what is left of its id. -/
theorem Held.recovered_cut {r : Registry} {before after : List (LuaString × Id)}
    {e : LuaString × Id} (held : Held r (before ++ e :: after)) {c : Id}
    (count : c.text = decimal r.count) {digits : LuaString} (nonempty : digits ≠ [])
    (cut : digits <+: e.2.text) :
    Recovered r (some (.str c.text), setEntry (readTable before) e.1 (.str digits)) ↔
      ∀ d ∈ before, d.2.text ≠ digits := by
  have whole := held.front.recovered count
  have distinct : (before.map Prod.fst).Nodup := held.front.distinct
  have new : ∀ d ∈ before, d.1 ≠ e.1 := by
    intro d hd same
    have := held.distinct
    rw [List.map_append, List.nodup_append] at this
    exact this.2.2 d.1 (List.mem_map_of_mem hd) e.1 (by simp) same
  constructor
  · intro recovered d hd same
    apply new d hd
    apply recovered.distinct d.1 e.1 (.str d.2.text) (.str digits)
    · rw [lookup_setEntry, if_neg (by simpa using new d hd), lookup_readTable distinct,
        lookup_of_mem distinct hd]
      rfl
    · rw [lookup_setEntry, if_pos (by simp)]
    · exact same
  · intro apart
    have other : ∀ k u, (readTable before).lookup k = some u → u.text ≠ digits := by
      intro k u found
      rw [lookup_readTable distinct] at found
      obtain ⟨v, hv, rfl⟩ := Option.map_eq_some_iff.mp found
      exact apart (k, v) (mem_of_lookup hv)
    refine ⟨?_, ?_, whole.covers⟩
    · intro j k u v hj hk same
      rw [lookup_setEntry] at hj hk
      split at hj
      · rename_i hje
        cases hj
        split at hk
        · rename_i hke
          rw [beq_iff_eq.mp hje, beq_iff_eq.mp hke]
        · exact absurd same.symm (other k v hk)
      · split at hk
        · cases hk
          exact absurd same (other j u hj)
        · exact whole.distinct j k u v hj hk same
    · intro k u hk
      rw [lookup_setEntry] at hk
      split at hk
      · cases hk
        obtain ⟨n, text, hn⟩ := held.id e (by simp)
        rw [text] at cut
        obtain ⟨m, hm, small⟩ := tonumber_prefix (tonumber_decimal n) cut nonempty
        have number : (Option.some (Id.str c.text)).bind Id.number = some (r.count : Int) := by
          rw [Option.bind_some, number_of_text (u := .str c.text) count]
        exact ⟨m, r.count, tointeger_tonumber hm, number,
          Int.ofNat_le.mpr (Nat.le_trans small (r.bounded _ hn))⟩
      · exact whole.bounded k u hk

/-- A cut after the count is read as the entries before it, and perhaps one more. -/
theorem decode_remnant {r : Registry} {count : Id} {before after : List (LuaString × Id)}
    {q : LuaString} (held : Held r (before ++ after)) (numeral : count.Numeral)
    (lines : ∀ e ∈ r.ids, LineText e.1) (left : Remnant after q) :
    decodeIndex (indexText count before ++ q) [] = (some (.str count.text), readTable before) ∨
      ∃ e rest digits, after = e :: rest ∧ q = writeLine e.1 ++ digits ∧ digits ≠ [] ∧
        digits <+: e.2.text := by
  obtain ⟨fuel, decoded⟩ := decode_before numeral (held.front.lines lines) q
  rw [decoded]
  cases left with
  | nothing => exact Or.inl (by rw [readEntries_nil])
  | key e rest _ cut =>
    have clean := (held.lines lines e (by simp)).1
    exact Or.inl (by rw [read_key clean cut])
  | id e rest digits nonempty cut => exact Or.inr ⟨e, rest, digits, rfl, rfl, nonempty, cut⟩

theorem decode_entry {r : Registry} {count : Id} {before after : List (LuaString × Id)}
    {e : LuaString × Id} {digits : LuaString} (held : Held r (before ++ e :: after))
    (numeral : count.Numeral) (lines : ∀ e ∈ r.ids, LineText e.1) (nonempty : digits ≠ [])
    (cut : digits <+: e.2.text) :
    decodeIndex (indexText count before ++ (writeLine e.1 ++ digits)) [] =
      (some (.str count.text), setEntry (readTable before) e.1 (.str digits)) := by
  obtain ⟨fuel, decoded⟩ := decode_before numeral (held.front.lines lines) (writeLine e.1 ++ digits)
  obtain ⟨n, text, hn⟩ := held.id e (by simp)
  have line : LineText digits := by
    rw [text] at cut
    exact lineText_cut (Id.Numeral.lineText (u := .num n) rfl) cut
  rw [decoded, read_id (held.lines lines e (by simp)).1 line nonempty]

theorem count_digits {count : Id} {n : Nat} {p : LuaString} (text : count.text = decimal n)
    (cut : p <+: count.text) : ∀ c ∈ p, c.isDigit = true := by
  rw [text] at cut
  exact fun c hc => decimal_digits n c (cut.subset hc)

/-- Every cut of the index of a table whose keys are lines: what the next run loads is
in order exactly when the cut is safe. -/
theorem recovered_iff {r : Registry} {count : Id} {entries : List (LuaString × Id)}
    (held : Held r entries) (text : count.text = decimal r.count)
    (lines : ∀ e ∈ r.ids, LineText e.1) {p : LuaString} (cut : p <+: indexText count entries) :
    Recovered r (decodeIndex p []) ↔ SafeCut r count entries p := by
  have numeral : count.Numeral := by
    rw [Id.Numeral, number_of_text text]
    rfl
  constructor
  · intro recovered
    refine ⟨fun inCount e he => ?_, fun before e after digits split here nonempty piece => ?_⟩
    · obtain ⟨c, number, small⟩ := recovered.covers e he
      rw [decode_count numeral inCount] at number
      by_cases empty : p = []
      · simp [empty] at number
      · rw [if_neg empty] at number
        have whole : tointeger p = some c := number
        rw [tointeger_digits (count_digits text inCount)] at whole
        obtain ⟨n, found, rfl⟩ := Option.map_eq_some_iff.mp whole
        exact ⟨n, found, Int.ofNat_le.mp small⟩
    · subst split
      rw [here, decode_entry held numeral lines nonempty piece] at recovered
      exact (held.recovered_cut text nonempty piece).mp recovered
  · intro safe
    have first : indexText count entries = writeLine count.text ++ entryLines entries := rfl
    rw [first] at cut
    rcases prefix_append_cases cut with inCount | ⟨q, rfl, inEntries⟩
    · rcases List.prefix_concat_iff.mp inCount with rfl | inCount
      · have unread : Held r ([] ++ entries) := held
        have whole := decode_remnant unread numeral lines (.nothing entries)
        rcases whole with whole | ⟨_, _, digits, _, empty, nonempty, _⟩
        · have text' : indexText count [] ++ [] = writeLine count.text := by simp [indexText]
          rw [text'] at whole
          rw [show count.text ++ [newline] = writeLine count.text from rfl, whole]
          exact unread.front.recovered text
        · exact absurd empty (by simp [writeLine])
      · rw [decode_count numeral inCount]
        refine ⟨by simp, by simp, fun e he => ?_⟩
        obtain ⟨c, number, small⟩ := safe.counter inCount e he
        have nonempty : p ≠ [] := by
          rintro rfl
          cases number
        rw [if_neg nonempty]
        exact ⟨c, tointeger_tonumber number, Int.ofNat_le.mpr small⟩
    · obtain ⟨before, after, r', rfl, rfl, left⟩ := entryLines_cut inEntries
      have here : writeLine count.text ++ (entryLines before ++ r') =
          indexText count before ++ r' := by
        rw [← List.append_assoc]
        rfl
      rw [here] at safe ⊢
      rcases decode_remnant held numeral lines left with whole |
        ⟨e, rest, digits, rfl, rfl, nonempty, piece⟩
      · rw [whole]
        exact held.front.recovered text
      · rw [decode_entry held numeral lines nonempty piece]
        exact (held.recovered_cut text nonempty piece).mpr
          (safe.entry before e rest digits rfl rfl nonempty piece)

/-- An interrupted save: the loaded state is in order exactly at the safe cuts, and at
every cut only when no id has been given. -/
theorem index_cut (r : Registry) (count : Id) (cache entries : List (LuaString × Id))
    (rep : Represents (some count) cache r) (perm : entries.Perm cache) :
    ((∀ e ∈ r.ids, LineText e.1) → ∀ p, p <+: indexText count entries →
      (Recovered r (decodeIndex p []) ↔ SafeCut r count entries p)) ∧
    ((∀ p, p <+: indexText count entries → Recovered r (decodeIndex p [])) ↔ r.ids = []) := by
  have held := rep.held perm
  have text : count.text = decimal r.count := Option.some.inj rep.count
  refine ⟨fun lines p cut => recovered_iff held text lines cut, fun every => ?_, fun empty p cut => ?_⟩
  · rw [List.eq_nil_iff_forall_not_mem]
    intro e he
    obtain ⟨c, number, _⟩ := (every [] List.nil_prefix).covers e he
    cases number
  · have lines : ∀ e ∈ r.ids, LineText e.1 := by simp [empty]
    rw [recovered_iff held text lines cut]
    refine ⟨by simp [empty], fun before e after digits split _ _ _ => ?_⟩
    obtain ⟨n, _, hn⟩ := held.id e (by simp [split])
    rw [empty] at hn
    cases hn

def twoRules : Registry where
  count := 12
  ids := [("cc a.c".toList, 1), ("cc b.c".toList, 12)]
  distinct := by decide
  injective := by decide
  bounded := by decide

def twoRulesTable : List (LuaString × Id) := [("cc a.c".toList, .num 1), ("cc b.c".toList, .num 12)]

theorem twoRules_represented : Represents (some (.num 12)) twoRulesTable twoRules where
  count := rfl
  distinct := by decide
  ids := by
    intro key
    unfold twoRulesTable twoRules
    rw [lookup_cons, lookup_cons, lookup_cons, lookup_cons]
    split
    · rfl
    · split <;> rfl

/-- The last digit of the second id is missing. -/
theorem id_cut_short : ∃ p, p <+: indexText (.num 12) twoRulesTable ∧
    ¬ Recovered twoRules (decodeIndex p []) := by
  refine ⟨"12\ncc a.c\n1\ncc b.c\n1".toList, by decide, fun recovered => ?_⟩
  have loaded : decodeIndex "12\ncc a.c\n1\ncc b.c\n1".toList [] =
      (some (.str "12".toList),
        [("cc a.c".toList, .str "1".toList), ("cc b.c".toList, .str "1".toList)]) := by
    decide +kernel
  rw [loaded] at recovered
  have same := recovered.distinct "cc a.c".toList "cc b.c".toList _ _ rfl rfl rfl
  exact absurd same (by decide)

theorem twoRules_cut :
    (Recovered twoRules (decodeIndex "1".toList []) ↔
      SafeCut twoRules (.num 12) twoRulesTable "1".toList) ∧
    ¬ ∀ p, p <+: indexText (.num 12) twoRulesTable → Recovered twoRules (decodeIndex p []) := by
  have both := index_cut twoRules (.num 12) twoRulesTable twoRulesTable twoRules_represented
    (List.Perm.refl _)
  refine ⟨both.1 (by decide) "1".toList (by decide), ?_⟩
  rw [both.2]
  exact List.cons_ne_nil _ _

end PrimeMover
