import PrimeMover.Driver
import PrimeMover.Outcome

/-! The index file. Its reader undoes its writer exactly on tables whose keys are
lines, and on such tables the ids issued by any number of runs stay consistent. -/
namespace PrimeMover
open LineReader AssocTable Outcome

variable {W : Type}

/-- What is asked of the system and of `pairs` for the index: a written file is
read back, and the entries of a table come in some order. -/
structure IndexLaws (cfg : Settings W) : Prop where
  pairs_perm : ∀ w t, (cfg.host.pairs w t).Perm t
  read_write : ∀ w w' text, cfg.host.writeFile w (indexFile cfg) text = some w' →
    cfg.host.readFile w' (indexFile cfg) = some text

theorem tonumber_decimal (n : Nat) : tonumber (decimal n) = some n := by
  have digits : (decimal n).all Char.isDigit = true :=
    List.all_eq_true.mpr fun _ hc => Nat.isDigit_of_mem_toDigits (by decide) (by decide) hc
  have value : Nat.ofDigitChars 10 (decimal n) 0 = n := Nat.ofDigitChars_ten_toDigits
  have nonempty : decimal n ≠ [] := Nat.toDigits_ne_nil
  simp [tonumber, digits, value, nonempty]

theorem decimal_inj {m n : Nat} (h : decimal m = decimal n) : m = n := by
  have := congrArg tonumber h
  rw [tonumber_decimal, tonumber_decimal] at this
  exact Option.some.inj this

theorem decimal_digits (n : Nat) : ∀ c ∈ decimal n, c.isDigit = true :=
  fun _ hc => Nat.isDigit_of_mem_toDigits (by decide) (by decide) hc

theorem integer_chars (x : Int) : ∀ c ∈ integer x, c.isDigit = true ∨ c = '-' := by
  intro c hc
  cases x with
  | ofNat n => exact Or.inl (decimal_digits n c hc)
  | negSucc n =>
    rcases List.mem_cons.mp hc with minus | digit
    · exact Or.inr minus
    · exact Or.inl (decimal_digits (n + 1) c digit)

theorem tointeger_digits {s : LuaString} (digits : ∀ c ∈ s, c.isDigit = true) :
    tointeger s = (tonumber s).map Int.ofNat := by
  unfold tointeger
  split
  · exact absurd (digits '-' List.mem_cons_self) (by decide)
  · rfl

theorem tointeger_integer (x : Int) : tointeger (integer x) = some x := by
  cases x with
  | ofNat n =>
    rw [integer, tointeger_digits (decimal_digits n), tonumber_decimal]
    rfl
  | negSucc n =>
    change (tonumber (decimal (n + 1))).map (fun n : Nat => -(n : Int)) = some (Int.negSucc n)
    rw [tonumber_decimal]
    rfl

theorem tointeger_chars {s : LuaString} (number : (tointeger s).isSome) :
    ∀ c ∈ s, c.isDigit = true ∨ c = '-' := by
  have digits : ∀ {d : LuaString}, (tonumber d).isSome → ∀ c ∈ d, c.isDigit = true := by
    intro d number
    unfold tonumber at number
    split at number
    · rename_i whole
      exact List.all_eq_true.mp whole.2
    · cases number
  unfold tointeger at number
  intro c hc
  split at number
  · rw [Option.isSome_map] at number
    rcases List.mem_cons.mp hc with minus | hc
    · exact Or.inr minus
    · exact Or.inl (digits number c hc)
  · rw [Option.isSome_map] at number
    exact Or.inl (digits number c hc)

theorem integer_lineText {s : LuaString} (chars : ∀ c ∈ s, c.isDigit = true ∨ c = '-') :
    LineText s :=
  ⟨fun h => absurd (chars _ h) (by decide), fun h => absurd (chars _ h) (by decide)⟩

/-- An entry that stands for a number. -/
def Id.Numeral (u : Id) : Prop := u.number.isSome

theorem Id.Numeral.lineText {u : Id} (h : u.Numeral) : LineText u.text := by
  cases u with
  | num n => exact integer_lineText (integer_chars n)
  | str s => exact integer_lineText (tointeger_chars h)

theorem number_of_text {u : Id} {n : Nat} (h : u.text = decimal n) : u.number = some (n : Int) := by
  have number : tointeger u.text = some (n : Int) := by
    rw [h]
    exact tointeger_integer n
  cases u with
  | num m =>
    rw [Id.text, tointeger_integer] at number
    exact number
  | str s => exact number

def entryLines (entries : List (LuaString × Id)) : LuaString :=
  entries.flatMap (fun e => writeLine e.1 ++ writeLine e.2.text)

theorem readEntries_append (entries : List (LuaString × Id)) (fuel : Nat) (rest : LuaString)
    (cache : List (LuaString × Id)) (lines : ∀ e ∈ entries, LineText e.1 ∧ LineText e.2.text) :
    readEntries (entries.length + fuel) (entryLines entries ++ rest) cache =
      readEntries fuel rest
        (entries.foldl (fun t e => setEntry t e.1 (.str e.2.text)) cache) := by
  induction entries generalizing cache with
  | nil => rw [List.length_nil, Nat.zero_add]; rfl
  | cons e entries ih =>
    have he := lines e List.mem_cons_self
    have text : entryLines (e :: entries) ++ rest =
        e.1 ++ newline :: (e.2.text ++ newline :: (entryLines entries ++ rest)) := by
      simp [entryLines, writeLine]
    rw [text, List.length_cons, Nat.add_right_comm]
    simp only [readEntries, readLine_line bufferSize _ _ (by decide) he.1,
      readLine_line bufferSize _ _ (by decide) he.2, List.foldl_cons]
    exact ih _ fun d hd => lines d (List.mem_cons_of_mem e hd)

theorem readEntries_lines (entries : List (LuaString × Id)) (fuel : Nat)
    (cache : List (LuaString × Id)) (lines : ∀ e ∈ entries, LineText e.1 ∧ LineText e.2.text)
    (enough : entries.length < fuel) :
    readEntries fuel (entries.flatMap (fun e => writeLine e.1 ++ writeLine e.2.text)) cache =
      entries.foldl (fun t e => setEntry t e.1 (.str e.2.text)) cache := by
  obtain ⟨more, rfl⟩ := Nat.exists_eq_add_of_lt enough
  have whole := readEntries_append entries (more + 1) [] cache lines
  rw [List.append_nil] at whole
  exact whole.trans (by simp [readEntries, readLine_nil])

theorem length_le_flatMap (entries : List (LuaString × Id)) : entries.length ≤
    (entries.flatMap (fun e => writeLine e.1 ++ writeLine e.2.text)).length := by
  induction entries with
  | nil => simp
  | cons e es ih =>
    simp only [List.flatMap_cons, List.length_append, List.length_cons, writeLine] at ih ⊢
    omega

theorem decodeIndex_text (count : Id) (entries : List (LuaString × Id)) (hcount : count.Numeral)
    (lines : ∀ e ∈ entries, LineText e.1 ∧ LineText e.2.text) :
    decodeIndex (indexText count entries) [] = (some (.str count.text),
      entries.foldl (fun t e => setEntry t e.1 (.str e.2.text)) []) := by
  have text : indexText count entries = count.text ++ newline ::
      entries.flatMap (fun e => writeLine e.1 ++ writeLine e.2.text) := by
    simp [indexText, writeLine]
  have enough : entries.length < (indexText count entries).length + 1 := by
    have := length_le_flatMap entries
    rw [text, List.length_append, List.length_cons]
    omega
  have first := readLine_line bufferSize count.text
    (entries.flatMap (fun e => writeLine e.1 ++ writeLine e.2.text)) (by decide) hcount.lineText
  rw [← text] at first
  simp only [decodeIndex, first, readEntries_lines entries _ [] lines enough, Option.map_some]

/-- A table of ids as the program can hold it: distinct keys, and numerals for the
count and the ids. -/
structure IdTable where
  count : Id
  entries : List (LuaString × Id)
  distinct : (entries.map Prod.fst).Nodup
  countNumeral : count.Numeral
  idNumeral : ∀ e ∈ entries, e.2.Numeral

theorem saveIntermediateCache_run {cfg : Settings W} {count : Id}
    {cache : List (LuaString × Id)} {sys sys' : Sys W}
    (saved : saveIntermediateCache cfg (some count) cache sys = .ok () sys') :
    ∃ w, cfg.host.writeFile sys.world (indexFile cfg)
        (indexText count (cfg.host.pairs sys.world cache)) = some w ∧
      sys' = { sys with world := w } := by
  rw [saveIntermediateCache_eq] at saved
  split at saved
  · cases saved
  · rename_i w hw
    cases saved
    exact ⟨w, hw, rfl⟩

theorem loadIntermediateCache_run {cfg : Settings W} {st : State W} {text : LuaString}
    (there : cfg.host.readFile st.sys.world (indexFile cfg) = some text) :
    loadIntermediateCache cfg st = .ok () { st with mem := { st.mem with
      intermediateCacheCount := (decodeIndex text st.mem.intermediateCache).1
      intermediateCache := (decodeIndex text st.mem.intermediateCache).2 } } := by
  simp [loadIntermediateCache, bind_run, there]

/-- Loading the saved index gives the table back. An id comes back as the string
that prints the same. -/
def IdTable.RoundTrips (cfg : Settings W) (t : IdTable) : Prop :=
  ∀ sys sys', saveIntermediateCache cfg (some t.count) t.entries sys = .ok () sys' →
    ∀ st : State W, st.mem.intermediateCache = [] → st.sys.world = sys'.world →
      ∃ st', loadIntermediateCache cfg st = .ok () st' ∧
        st'.mem.intermediateCacheCount.map Id.text = some t.count.text ∧
        ∀ key, (st'.mem.intermediateCache.lookup key).map Id.text =
          (t.entries.lookup key).map Id.text

theorem IdTable.roundTrips_of_lines (cfg : Settings W) (laws : IndexLaws cfg) (t : IdTable)
    (lines : ∀ e ∈ t.entries, LineText e.1) : t.RoundTrips cfg := by
  intro sys sys' saved st empty same
  obtain ⟨w, hw, rfl⟩ := saveIntermediateCache_run saved
  have perm := laws.pairs_perm sys.world t.entries
  have there := laws.read_write _ _ _ hw
  have whole : ∀ e ∈ cfg.host.pairs sys.world t.entries, LineText e.1 ∧ LineText e.2.text :=
    fun e he => ⟨lines e (perm.mem_iff.mp he),
      (t.idNumeral e (perm.mem_iff.mp he)).lineText⟩
  have decoded := decodeIndex_text t.count _ t.countNumeral whole
  rw [← show st.sys.world = w from same] at there
  refine ⟨_, loadIntermediateCache_run there, ?_, ?_⟩
  · simp [empty, decoded, Id.text]
  · intro key
    have distinct := (perm.map Prod.fst).nodup_iff.mpr t.distinct
    simp only [empty, decoded]
    rw [foldl_setEntry (fun u => Id.str u.text) _ _ distinct, lookup_perm t.distinct perm]
    cases t.entries.lookup key <;> simp [Id.text]

theorem readEntries_keys (fuel : Nat) (text : LuaString) (cache : List (LuaString × Id))
    (clean : ∀ key, (cache.lookup key).isSome → LineText key) (key : LuaString)
    (found : ((readEntries fuel text cache).lookup key).isSome) : LineText key := by
  induction fuel generalizing text cache with
  | zero => exact clean key found
  | succ fuel ih =>
    simp only [readEntries] at found
    split at found
    · rename_i k u hk hu
      apply ih _ _ _ found
      intro key hkey
      rw [lookup_setEntry] at hkey
      split at hkey
      · rename_i same
        exact beq_iff_eq.mp same ▸ readLine_clean bufferSize _ _ (by decide) hk
      · exact clean key hkey
    · exact clean key found

theorem deskIndexLaws (shell : LuaString → Desk.Effect) (fuel : Nat) :
    IndexLaws (Desk.settings shell fuel) where
  pairs_perm _ _ := List.Perm.refl _
  read_write := by
    intro d d' text h
    cases Option.some.inj h
    simp [Desk.settings, Desk.host, Desk.write]

/-- The machine with an empty index loads no key that is not a line. -/
theorem IdTable.lines_of_roundTrips (t : IdTable)
    (trip : t.RoundTrips (Desk.settings (fun _ => ⟨0, [], []⟩) 0)) :
    ∀ e ∈ t.entries, LineText e.1 := by
  intro e he
  obtain ⟨st', loaded, _, table⟩ := trip ⟨⟨0, [], []⟩, fun _ => none, []⟩ _ rfl
    (start _ sandboxVariables 0) rfl rfl
  have found : (st'.mem.intermediateCache.lookup e.1).isSome := by
    have h := table e.1
    rw [lookup_of_mem t.distinct (show (e.1, e.2) ∈ t.entries from he)] at h
    cases hl : st'.mem.intermediateCache.lookup e.1 with
    | none => simp [hl] at h
    | some u => rfl
  rw [loadIntermediateCache_run ((deskIndexLaws _ _).read_write _ _ _ rfl)] at loaded
  cases loaded
  exact readEntries_keys _ _ [] (by simp) e.1 found

/-- The index restores a table under every order of its entries exactly when all
keys are lines. -/
theorem index_round_trip (t : IdTable) :
    (∀ (W : Type) (cfg : Settings W), IndexLaws cfg → t.RoundTrips cfg) ↔
      ∀ e ∈ t.entries, LineText e.1 := by
  constructor
  · intro every
    exact t.lines_of_roundTrips (every Desk _ (deskIndexLaws _ _))
  · intro lines W cfg laws
    exact t.roundTrips_of_lines cfg laws lines

/-- A rule with two commands, written as one text with a newline. -/
def twoLines : IdTable where
  count := .num 1
  entries := [("echo a\necho b".toList, .num 1)]
  distinct := by simp
  countNumeral := rfl
  idNumeral := by simp [Id.Numeral, Id.number]

theorem twoLines_lost : ¬ twoLines.RoundTrips (Desk.settings (fun _ => ⟨0, [], []⟩) 0) := by
  intro trip
  have line := twoLines.lines_of_roundTrips trip _ List.mem_cons_self
  exact absurd line (by decide)

end PrimeMover
