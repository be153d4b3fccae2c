import PrimeMover.Cruncher
import PrimeMover.Renaming

/-! What the map of new names does to the text that ccruncher writes: each identifier is replaced
where it stands, and nothing else changes. -/
namespace PrimeMover.Cruncher
open LuaPattern CTokens AssocTable

/-- The text of an identifier. -/
def IsName (s : LuaString) : Prop := s.head?.any letter = true ∧ s.all word = true

theorem IsName.ends {s : LuaString} (name : IsName s) : s.getLast?.any word = true := by
  cases last : s.getLast? with
  | none =>
    rw [List.getLast?_eq_none_iff.mp last] at name
    cases name.1
  | some c => exact List.all_eq_true.mp name.2 c (List.mem_of_getLast? last)

section
variable {swaptable : List (LuaString × LuaString)}

/-- New names end like the old ones, and no separator is renamed. -/
structure KeepsBreaks (swaptable : List (LuaString × LuaString)) : Prop where
  ends : ∀ s v, swaptable.lookup s = some v → v.getLast?.any word = s.getLast?.any word
  line : swaptable.lookup ['\n'] = none
  blank : swaptable.lookup [' '] = none

theorem emit_swapped (keeps : KeepsBreaks swaptable) (w : Writer) (s : LuaString) :
    emit swaptable w s =
      ((emit [] w s).1.map (swapped swaptable), (emit [] w s).2) := by
  have last : (swapped swaptable s).getLast?.any word = s.getLast?.any word := by
    rw [swapped]
    cases found : swaptable.lookup s with
    | none => rfl
    | some v => exact keeps.ends s v found
  have line : swapped swaptable ['\n'] = ['\n'] := by rw [swapped, keeps.line]; rfl
  have blank : swapped swaptable [' '] = [' '] := by rw [swapped, keeps.blank]; rfl
  rw [swapped] at last
  simp only [emit, List.lookup_nil, Option.getD_none, last, List.map_append, List.map_cons,
    List.map_nil]
  congr 2
  split
  · rw [List.map_cons, List.map_nil]
    split
    · rw [line]
    · rw [blank]
  · rfl

/-- The texts are written in the same places, each under its new name. -/
theorem write_swapped (keeps : KeepsBreaks swaptable) (emissions : List Emission) (w : Writer) :
    write swaptable w emissions = (write [] w emissions).map (swapped swaptable) := by
  induction emissions generalizing w with
  | nil => rfl
  | cons e emissions ih =>
    cases e with
    | emit s =>
      simp only [write, List.map_append]
      rw [emit_swapped keeps, ih]
    | _ => exact ih _

end

theorem scan_found {p : Pattern} {P : LuaString → Prop} {captures : List LuaString}
    (holds : ∀ s rest cs, matchItems p.items s [] = some (rest, cs) →
      ∀ name, (cs.map Capture.text).head? = some name → P name) :
    ∀ (n : Nat) (s : LuaString), Piece.hit captures ∈ scanFrom p n s →
      ∀ name, captures.head? = some name → P name := by
  intro n
  induction n with
  | zero =>
    intro s mem
    rw [scanFrom] at mem
    obtain ⟨c, _, same⟩ := List.mem_map.mp mem
    cases same
  | succ n ih =>
    have copied : ∀ s : LuaString, Piece.hit captures ∉ s.map Piece.char := by
      intro s mem
      obtain ⟨c, _, same⟩ := List.mem_map.mp mem
      cases same
    have behind : ∀ s : LuaString, Piece.hit captures ∈
        (if p.anchored then s.map .char else scanFrom p n s) →
          ∀ name, captures.head? = some name → P name := by
      intro s mem
      split at mem
      · exact absurd mem (copied s)
      · exact ih s mem
    intro s mem
    unfold scanFrom at mem
    cases found : matchItems p.items s [] with
    | none =>
      rw [found] at mem
      cases s with
      | nil => cases mem
      | cons c s =>
        rcases List.mem_cons.mp mem with same | later
        · cases same
        · exact behind s later
    | some r =>
      obtain ⟨rest, cs⟩ := r
      rw [found] at mem
      have here : ∀ name, (cs.map Capture.text).head? = some name → P name := holds s rest cs found
      simp only at mem
      split at mem
      · rcases List.mem_cons.mp mem with same | later
        · cases same
          exact here
        · exact behind rest later
      · cases s with
        | nil =>
          cases List.mem_singleton.mp mem
          exact here
        | cons c s =>
          rcases List.mem_cons.mp mem with same | later
          · cases same
            exact here
          · rcases List.mem_cons.mp later with same | later
            · cases same
            · exact behind s later

theorem identifier_matched {s rest : LuaString} {cs : List Capture}
    (matched : matchItems identifierPattern.items s [] = some (rest, cs)) :
    ∀ name, (cs.map Capture.text).head? = some name → IsName name := by
  cases s with
  | nil => cases matched
  | cons c s =>
    cases first : letter c with
    | false => simp [identifierPattern, matchItems, first] at matched
    | true =>
      have whole : matchItems identifierPattern.items (c :: s) [] =
          some (s.dropWhile word, [.closed (c :: s.takeWhile word)]) := by
        have shape : c :: s = (c :: s.takeWhile word) ++ s.dropWhile word := by
          rw [List.cons_append, List.takeWhile_append_dropWhile]
        simp only [identifierPattern, matchItems, first, if_true, List.nil_append]
        rw [maxExpand_free (fun _ => rfl), shape, closeLast_single]
      rw [whole] at matched
      cases matched
      rintro name same
      cases same
      refine ⟨first, ?_⟩
      have letters : (c :: s.takeWhile word).all word = true := by
        rw [List.all_cons, letter_word first, List.all_takeWhile]
        rfl
      exact letters

theorem foundNames_names {datafile t : LuaString} (found : t ∈ foundNames datafile) :
    IsName t := by
  obtain ⟨piece, mem, head⟩ := List.mem_filterMap.mp found
  cases piece with
  | char c => cases head
  | hit captures => exact scan_found (fun _ _ _ => identifier_matched) _ _ mem t head

theorem frequencies_names (datafile : LuaString) (safe : List LuaString) :
    ∀ k, ((frequencies datafile safe).lookup k).isSome = true → IsName k := by
  have keeps : ∀ (found : List LuaString) (t : List (LuaString × Nat)), (∀ k ∈ found, IsName k) →
      (∀ k, (t.lookup k).isSome = true → IsName k) →
      ∀ k, ((found.foldl (countToken safe) t).lookup k).isSome = true → IsName k := by
    intro found
    induction found with
    | nil => exact fun t _ names => names
    | cons w found ih =>
      intro t all names
      refine ih _ (fun k mem => all k (List.mem_cons_of_mem w mem)) ?_
      intro k there
      unfold countToken at there
      split at there
      · rw [lookup_setEntry] at there
        split at there
        · rename_i same
          exact beq_iff_eq.mp same ▸ all w List.mem_cons_self
        · exact names k there
      · exact names k there
  exact keeps _ [] (fun k mem => foundNames_names mem) (fun k there => by cases there)

theorem nthToken_name (n : Nat) : IsName (nthToken n) := by
  have shape : TokenShape (nthToken n) := by
    rw [nthToken_numeral, tokenShape_iff]
    exact ⟨by simp [Numeration.numeralOf_succ], Numeration.numeralOf_inAlphabets alphabets (n + 1)⟩
  obtain ⟨c, rest, same, alpha, -, further⟩ := shape
  have first : letter c = true := by rw [letter, alpha]; rfl
  have words : rest.all word = true := by
    rcases further with rfl | ⟨d, tail, rfl, second, more⟩
    · rfl
    · rw [List.all_cons, Bool.and_eq_true, List.all_eq_true]
      constructor
      · rcases second with rfl | digit
        · rfl
        · exact digit_word digit
      · intro x mem
        rcases more x mem with rfl | alnum
        · rfl
        · rw [word, alnum]
          rfl
  rw [same]
  refine ⟨first, ?_⟩
  rw [List.all_cons, letter_word first, words]
  rfl

/-- What is printed: identifiers of the list, each with a shorter name. -/
structure Printed (map : List LuaString) (e : LuaString × LuaString) : Prop where
  old : e.1 ∈ map
  shorter : e.2.length < e.1.length
  name : IsName e.2

theorem outputLoop_printed (tokens : List (LuaString × Nat)) {pairs : List (LuaString × LuaString)}
    (map : List LuaString) (k : Nat)
    (run : outputLoop tokens map (nthToken k, k + 1) = some pairs) :
    ∀ e ∈ pairs, Printed map e := by
  induction map generalizing k pairs with
  | nil =>
    cases run
    exact fun e mem => by cases mem
  | cons v map ih =>
    by_cases longer : (nthToken k).length < v.length
    · obtain ⟨m, _, _, _, next⟩ := nexttoken_offered tokens k
      simp only [outputLoop, longer, if_true, next, Option.bind_eq_bind, Option.bind_some,
        Option.bind_eq_some_iff, Option.some.injEq] at run
      obtain ⟨rest, later, rfl⟩ := run
      intro e mem
      rcases List.mem_cons.mp mem with rfl | mem
      · exact ⟨List.mem_cons_self, longer, nthToken_name k⟩
      · obtain ⟨old, shorter, name⟩ := ih m later e mem
        exact ⟨List.mem_cons_of_mem v old, shorter, name⟩
    · simp only [outputLoop, longer, if_false] at run
      intro e mem
      obtain ⟨old, shorter, name⟩ := ih k run e mem
      exact ⟨List.mem_cons_of_mem v old, shorter, name⟩

theorem length_swapped {swaptable : List (LuaString × LuaString)}
    (shorter : ∀ s v, swaptable.lookup s = some v → v.length ≤ s.length) (texts : List LuaString) :
    (texts.map (swapped swaptable)).flatten.length ≤ texts.flatten.length := by
  induction texts with
  | nil => exact Nat.le_refl 0
  | cons s texts ih =>
    have here : (swapped swaptable s).length ≤ s.length := by
      rw [swapped]
      cases found : swaptable.lookup s with
      | none => exact Nat.le_refl _
      | some v => exact shorter s v found
    simp only [List.map_cons, List.flatten_cons, List.length_append]
    omega

/-- Whatever ccruncher reads, with the map that tokenmapper prints it writes the texts and the
separators that it writes without one, with the identifiers exchanged one for one, and the
file does not become longer. -/
theorem swaps_in_place (datafile : LuaString) (safe order : List LuaString)
    (sorted : SortedKeys (frequencies datafile safe) order) :
    ∃ pairs, tokenmapper datafile safe order = some pairs ∧ ∀ emissions,
      write (readSwaps (printed pairs) []) Writer.start emissions =
        (write [] Writer.start emissions).map (swapped (readSwaps (printed pairs) [])) ∧
      (written (readSwaps (printed pairs) []) emissions).length ≤ (written [] emissions).length := by
  obtain ⟨pairs, result, old, _⟩ :=
    outputLoop_prints (frequencies datafile safe) order 0 (.inl rfl)
  have distinct : (pairs.map Prod.fst).Nodup :=
    old.nodup (sorted.keys.nodup_iff.mpr (frequencies_distinct datafile safe))
  have listed := outputLoop_printed (frequencies datafile safe) order 0 result
  have table : ∀ s, (readSwaps (printed pairs) []).lookup s = pairs.lookup s := by
    intro s
    rw [readSwaps_printed, foldl_setEntry (fun v => v) pairs [] distinct s]
    cases pairs.lookup s <;> rfl
  have old_name : ∀ s v, pairs.lookup s = some v → IsName s := by
    intro s v found
    have mem := sorted.keys.mem_iff.mp (listed _ (mem_of_lookup found)).old
    obtain ⟨e, inside, rfl⟩ := List.mem_map.mp mem
    refine frequencies_names datafile safe e.1 ?_
    rw [lookup_of_mem (frequencies_distinct datafile safe) inside]
    rfl
  have keeps : KeepsBreaks (readSwaps (printed pairs) []) := by
    have apart : ∀ c, word c = false → pairs.lookup [c] = none := by
      intro c other
      cases found : pairs.lookup [c] with
      | none => rfl
      | some v =>
        have name := (old_name _ v found).ends
        rw [List.getLast?_singleton, Option.any_some, other] at name
        cases name
    constructor
    · intro s v found
      rw [table] at found
      rw [(old_name s v found).ends, (listed _ (mem_of_lookup found)).name.ends]
    · rw [table]
      exact apart '\n' rfl
    · rw [table]
      exact apart ' ' rfl
  refine ⟨pairs, result, fun emissions => ?_⟩
  have same := write_swapped keeps emissions Writer.start
  refine ⟨same, ?_⟩
  have shorter : ∀ s v, (readSwaps (printed pairs) []).lookup s = some v → v.length ≤ s.length := by
    intro s v found
    rw [table] at found
    exact Nat.le_of_lt (listed _ (mem_of_lookup found)).shorter
  have total := length_swapped shorter (write [] Writer.start emissions)
  rw [← same] at total
  simpa [written] using total

theorem foo_swapped_in_place :
    ∃ pairs, tokenmapper clashing ["foo".toList] ["foo".toList] = some pairs ∧ ∀ emissions,
      write (readSwaps (printed pairs) []) Writer.start emissions =
        (write [] Writer.start emissions).map (swapped (readSwaps (printed pairs) [])) ∧
      (written (readSwaps (printed pairs) []) emissions).length ≤ (written [] emissions).length :=
  swaps_in_place clashing ["foo".toList] ["foo".toList] clashing_sorted

end PrimeMover.Cruncher
