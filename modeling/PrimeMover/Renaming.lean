import PrimeMover.Table
import PrimeMover.TokenMapper
import PrimeMover.CTokens
import Mathlib.Data.List.Forall2

/-! The map of new names that tokenmapper.lua prints, and how ccruncher.lua reads it back. -/
namespace PrimeMover
open LuaPattern AssocTable CTokens

def reserved : List LuaString :=
  ["j0".toList, "j1".toList, "y0".toList, "y1".toList, "j0f".toList, "j1f".toList, "y0f".toList,
    "y1f".toList, "j0l".toList, "j1l".toList, "y0l".toList, "y1l".toList]

def literally (text : LuaString) : List Item := text.map (fun c => .one (· == c))

/-- The substitutions made on the source before it is searched, in their order. -/
def passes : List (Pattern × LuaString) :=
  [(⟨false, literally "\n#include".toList ++ [.star (· != '\n')]⟩, []),
    (⟨false, literally "\n#line".toList ++ [.star (· != '\n')]⟩, []),
    (⟨false, literally "\n#".toList ++ [.star Char.isAlpha]⟩, "\n".toList),
    (⟨false, literally "\\\\".toList⟩, []),
    (⟨false, literally "\\\"".toList⟩, []),
    (⟨false, literally "\\'".toList⟩, []),
    (⟨false, [.one (· == '\''), .one (· != '\''), .one (· == '\'')]⟩, " ".toList),
    (⟨false, [.one (· == '"'), .minus (· != '"'), .one (· == '"')]⟩, " ".toList)]

/-- `([A-Za-z_][A-Za-z0-9_]*)` -/
def identifierPattern : Pattern := ⟨false, [.openCapture, .one letter, .star word, .closeCapture]⟩

/-- What `string_gfind` gives for the source after the substitutions. -/
def foundNames (datafile : LuaString) : List LuaString :=
  let s := passes.foldl (fun s pass => gsub pass.1 (fun _ => pass.2) s) ("\n".toList ++ datafile)
  (scan identifierPattern s).filterMap
    (fun piece => match piece with | .hit captures => captures.head? | .char _ => none)

def countToken (validtokens : List LuaString) (tokens : List (LuaString × Nat)) (t : LuaString) :
    List (LuaString × Nat) :=
  if t ∈ validtokens then setEntry tokens t ((tokens.lookup t).getD 0 + 1) else tokens

/-- `tokens`: how often each safe identifier was found. -/
def frequencies (datafile : LuaString) (validtokens : List LuaString) : List (LuaString × Nat) :=
  (foundNames datafile).foldl (countToken validtokens) []

def score (tokens : List (LuaString × Nat)) (k : LuaString) : Nat :=
  (tokens.lookup k).getD 0 * k.length

/-- What `map` may be once it is sorted: `pairs` gives the keys in any order, and keys of the
same score stay in any order. -/
structure SortedKeys (tokens : List (LuaString × Nat)) (map : List LuaString) : Prop where
  keys : map.Perm (tokens.map Prod.fst)
  sorted : map.Pairwise (fun e1 e2 => score tokens e2 ≤ score tokens e1)

/-- The loop `while true` of `nexttoken`. -/
def nexttoken (tokens : List (LuaString × Nat)) : Nat → Nat → Option (LuaString × Nat)
  | 0, _ => none
  | fuel + 1, tokennumber =>
    let t := gettoken tokennumber
    if t.1 ∉ reserved ∧ tokens.lookup t.1 = none then some t
    else nexttoken tokens fuel t.2

/-- The loop over the sorted identifiers; the state is `currenttoken` and `tokennumber`. -/
def outputLoop (tokens : List (LuaString × Nat)) :
    List LuaString → LuaString × Nat → Option (List (LuaString × LuaString))
  | [], _ => some []
  | v :: map, (currenttoken, tokennumber) =>
    if currenttoken.length < v.length then do
      let next ← nexttoken tokens (reserved.length + tokens.length + 1) tokennumber
      let rest ← outputLoop tokens map next
      some ((v, currenttoken) :: rest)
    else outputLoop tokens map (currenttoken, tokennumber)

/-- The pairs that are printed. -/
def tokenmapper (datafile : LuaString) (validtokens map : List LuaString) :
    Option (List (LuaString × LuaString)) :=
  outputLoop (frequencies datafile validtokens) map (gettoken 0)

/-- The lines on standard output. -/
def printed (pairs : List (LuaString × LuaString)) : List LuaString :=
  pairs.flatMap (fun e => [e.1, e.2])

/-- How ccruncher reads the map file. -/
def readSwaps : List LuaString → List (LuaString × LuaString) → List (LuaString × LuaString)
  | k :: v :: rest, swaptable => readSwaps rest (setEntry swaptable k v)
  | _, swaptable => swaptable

/-- What `emit` writes for a token. -/
def swapped (swaptable : List (LuaString × LuaString)) (s : LuaString) : LuaString :=
  (swaptable.lookup s).getD s

/-- The text behind the blanks and comments of a directive. -/
def skipBlanks : Nat → LuaString → LuaString
  | 0, s => s
  | _ + 1, [] => []
  | n + 1, c :: s =>
    if white c && c != '\n' then skipBlanks n s
    else if opensComment (c :: s) then skipBlanks n (afterComment s.tail)
    else c :: s

/-- The text behind the name of a header in angle brackets or quotes, if one stands there. -/
def behindHeader : LuaString → LuaString
  | [] => []
  | c :: s =>
    let close := if c == '<' then '>' else c
    let rest := s.dropWhile (fun d => d != close && d != '\n')
    if (c == '<' || c == '"') && rest.head? == some close then rest.tail else c :: s

/-- The text behind the name of a directive. Of an include only the name of a header is left
out: a macro in its place is an identifier of the source. -/
def behindDirective (s : LuaString) : LuaString :=
  let s := skipBlanks s.length s
  let rest := s.dropWhile word
  if s.takeWhile word = "include".toList then behindHeader (skipBlanks rest.length rest) else rest

def identifiersFrom : Nat → Bool → LuaString → List LuaString
  | 0, _, _ => []
  | _ + 1, _, [] => []
  | n + 1, start, c :: s =>
    if white c then identifiersFrom n (start || c == '\n') s
    else if opensComment (c :: s) then identifiersFrom n start (afterComment s.tail)
    else if start && c == '#' then identifiersFrom n false (behindDirective s)
    else
      let t := (c :: s).take (munch (c :: s))
      let rest := identifiersFrom n false ((c :: s).drop (munch (c :: s)))
      if letter c && t.all word then t :: rest else rest

/-- The identifiers of a C source, outside of literals and comments. -/
def identifiers (source : LuaString) : List LuaString :=
  identifiersFrom source.length true source

example : identifiers "#include <x.h>\n#include a\n#define f(x) L'x' /* y */\nz=1e5;".toList =
    ["a".toList, "f".toList, "x".toList, "z".toList] := by decide +kernel

/-- The new names differ, and none of them is an identifier of the source. -/
structure CaptureFree (source : LuaString) (pairs : List (LuaString × LuaString)) : Prop where
  distinct : (pairs.map Prod.snd).Nodup
  fresh : ∀ e ∈ pairs, e.2 ∉ identifiers source

/-- The numbers of the tokens that are offered as new names. The first is never tested. -/
def Offered (tokens : List (LuaString × Nat)) (n : Nat) : Prop :=
  n = 0 ∨ nthToken n ∉ reserved ∧ tokens.lookup (nthToken n) = none

instance (tokens : List (LuaString × Nat)) : DecidablePred (Offered tokens) :=
  fun n => inferInstanceAs
    (Decidable (n = 0 ∨ nthToken n ∉ reserved ∧ tokens.lookup (nthToken n) = none))

/-- The offered numbers from k to n. -/
def offers (tokens : List (LuaString × Nat)) (k n : Nat) : List Nat :=
  (List.range' k (n + 1 - k)).filter (Offered tokens)

def Shorter (n : Nat) (v : LuaString) : Prop := (nthToken n).length < v.length

/-- The offers from k to n find longer identifiers in the order of the list. -/
def InUse (tokens : List (LuaString × Nat)) (k n : Nat) (map : List LuaString) : Prop :=
  List.SublistForall₂ Shorter (offers tokens k n) map

theorem gettoken_eq (n : Nat) : gettoken n = (nthToken n, n + 1) := by
  rw [← gettoken_nth]
  rfl

section
variable (tokens : List (LuaString × Nat))

/-- The token passes the test of `nexttoken`. -/
def Free (n : Nat) : Prop := nthToken n ∉ reserved ∧ tokens.lookup (nthToken n) = none

/-- Fewer names are avoided than there are tokens in a long run of them. -/
theorem some_free (number fuel : Nat) (enough : reserved.length + tokens.length < fuel) :
    ∃ j < fuel, Free tokens (number + j) := by
  by_contra hn
  have blocked : ∀ j < fuel, ¬ Free tokens (number + j) := fun j hj free => hn ⟨j, hj, free⟩
  let names := (List.range fuel).map (fun j => nthToken (number + j))
  have distinct : names.Nodup := by
    apply List.Nodup.map _ List.nodup_range
    intro i j same
    have := nthToken_injective same
    omega
  have avoided : names ⊆ reserved ++ tokens.map Prod.fst := by
    intro name mem
    obtain ⟨j, hj, rfl⟩ := List.mem_map.mp mem
    by_cases hr : nthToken (number + j) ∈ reserved
    · exact List.mem_append_left _ hr
    · apply List.mem_append_right
      cases hl : tokens.lookup (nthToken (number + j)) with
      | none => exact absurd ⟨hr, hl⟩ (blocked j (List.mem_range.mp hj))
      | some v => exact List.mem_map.mpr ⟨_, mem_of_lookup hl, rfl⟩
  have few := distinct.length_le_of_subset avoided
  simp only [names, List.length_map, List.length_range, List.length_append] at few
  omega

theorem nexttoken_first (fuel number : Nat) (found : ∃ j < fuel, Free tokens (number + j)) :
    ∃ m, number ≤ m ∧ Free tokens m ∧ (∀ j, number ≤ j → j < m → ¬ Free tokens j) ∧
      nexttoken tokens fuel number = some (nthToken m, m + 1) := by
  induction fuel generalizing number with
  | zero =>
    obtain ⟨j, hj, _⟩ := found
    omega
  | succ fuel ih =>
    by_cases free : Free tokens number
    · refine ⟨number, Nat.le_refl _, free, ?_, ?_⟩
      · omega
      · simp only [nexttoken, gettoken_eq]
        exact if_pos free
    · obtain ⟨j, hj, later⟩ := found
      have positive : j ≠ 0 := by
        rintro rfl
        exact free later
      obtain ⟨m, lower, passes, first, result⟩ :=
        ih (number + 1) ⟨j - 1, by omega, by rwa [show number + 1 + (j - 1) = number + j by omega]⟩
      refine ⟨m, by omega, passes, ?_, ?_⟩
      · intro i low high
        by_cases here : i = number
        · rw [here]
          exact free
        · exact first i (by omega) high
      · simp only [nexttoken, gettoken_eq]
        rw [← result]
        exact if_neg free

theorem nexttoken_offered (k : Nat) :
    ∃ m, k < m ∧ Offered tokens m ∧ (∀ j, k < j → j < m → ¬ Offered tokens j) ∧
      nexttoken tokens (reserved.length + tokens.length + 1) (k + 1) = some (nthToken m, m + 1) := by
  have found := some_free tokens (k + 1) (reserved.length + tokens.length + 1) (by omega)
  obtain ⟨m, lower, free, first, result⟩ := nexttoken_first tokens _ _ found
  refine ⟨m, lower, .inr free, ?_, result⟩
  rintro j above below (rfl | other)
  · omega
  · exact first j above below other

theorem offers_self {k : Nat} (offered : Offered tokens k) : offers tokens k k = [k] := by
  simp [offers, offered]

theorem offers_next {k m n : Nat} (offered : Offered tokens k) (above : k < m) (upto : m ≤ n)
    (first : ∀ j, k < j → j < m → ¬ Offered tokens j) :
    offers tokens k n = k :: offers tokens m n := by
  have split : List.range' k (n + 1 - k) =
      k :: (List.range' (k + 1) (m - (k + 1)) ++ List.range' m (n + 1 - m)) := by
    have whole : n + 1 - k = (m - (k + 1) + (n + 1 - m)) + 1 := by omega
    have middle : m = k + 1 + (m - (k + 1)) := by omega
    rw [whole, List.range'_succ]
    conv => rhs; arg 2; arg 2; rw [middle]
    rw [List.range'_append_1, ← middle]
  have passed : (List.range' (k + 1) (m - (k + 1))).filter (Offered tokens) = [] := by
    rw [List.filter_eq_nil_iff]
    intro j mem
    have bounds := List.mem_range'_1.mp mem
    simpa using first j (by omega) (by omega)
  rw [offers, split, List.filter_cons_of_pos (by simpa using offered), List.filter_append, passed,
    List.nil_append, offers]

/-- A fitting pair of heads can be taken without loss. -/
theorem sublist_take {A B : Type} {R : A → B → Prop} {a : A} {b : B} {as : List A} {bs : List B}
    (fits : R a b) :
    List.SublistForall₂ R (a :: as) (b :: bs) ↔ List.SublistForall₂ R as bs := by
  constructor
  · intro h
    cases h with
    | cons _ rest => exact rest
    | cons_right rest =>
      obtain ⟨cs, pairs, sub⟩ := List.sublistForall₂_iff.mp rest
      cases pairs with
      | cons _ pairs =>
        exact List.sublistForall₂_iff.mpr ⟨_, pairs, (List.sublist_cons_self _ _).trans sub⟩
  · exact fun h => .cons fits h

theorem sublist_skip {A B : Type} {R : A → B → Prop} {a : A} {b : B} {as : List A} {bs : List B}
    (unfit : ¬ R a b) :
    List.SublistForall₂ R (a :: as) (b :: bs) ↔ List.SublistForall₂ R (a :: as) bs := by
  constructor
  · intro h
    cases h with
    | cons fits _ => exact absurd fits unfit
    | cons_right rest => exact rest
  · exact fun h => .cons_right h

/-- What the loop prints when it stands before the offer k. -/
structure Prints (k : Nat) (map : List LuaString) (pairs : List (LuaString × LuaString)) :
    Prop where
  old : (pairs.map Prod.fst).Sublist map
  numbers : ∃ ms : List Nat, pairs.map Prod.snd = ms.map nthToken ∧ ms.Pairwise (· < ·) ∧
    (∀ m ∈ ms, k ≤ m ∧ Offered tokens m) ∧
    ∀ n, k ≤ n → Offered tokens n → (n ∈ ms ↔ InUse tokens k n map)

theorem outputLoop_prints (map : List LuaString) (k : Nat) (offered : Offered tokens k) :
    ∃ pairs, outputLoop tokens map (nthToken k, k + 1) = some pairs ∧ Prints tokens k map pairs := by
  induction map generalizing k with
  | nil =>
    refine ⟨[], rfl, List.Sublist.refl [], [], rfl, .nil, by simp, ?_⟩
    intro n above last
    have inside : n ∈ offers tokens k n := by
      simp only [offers, List.mem_filter, List.mem_range'_1, decide_eq_true_eq]
      exact ⟨by omega, last⟩
    simp only [List.not_mem_nil, false_iff, InUse]
    intro h
    cases hp : offers tokens k n with
    | nil => simp [hp] at inside
    | cons a as =>
      rw [hp] at h
      cases h
  | cons v map ih =>
    by_cases longer : (nthToken k).length < v.length
    · obtain ⟨m, above, next, first, found⟩ := nexttoken_offered tokens k
      obtain ⟨pairs, rest, old, ms, names, rising, bounds, used⟩ := ih m next
      refine ⟨(v, nthToken k) :: pairs, ?_, ?_, k :: ms, ?_, ?_, ?_, ?_⟩
      · simp [outputLoop, longer, found, rest]
      · exact old.cons_cons v
      · simp [names]
      · refine List.pairwise_cons.mpr ⟨?_, rising⟩
        intro j mem
        have := (bounds j mem).1
        omega
      · intro j mem
        rcases List.mem_cons.mp mem with rfl | mem
        · exact ⟨Nat.le_refl _, offered⟩
        · have := bounds j mem
          exact ⟨by omega, this.2⟩
      · intro n upto last
        by_cases here : n = k
        · subst here
          simp only [List.mem_cons, true_or, true_iff, InUse, offers_self tokens offered]
          exact .cons longer .nil
        · have beyond : m ≤ n := by
            by_contra short
            exact first n (by omega) (by omega) last
          have split := offers_next tokens offered above beyond first
          simp only [List.mem_cons, here, false_or, InUse, split]
          rw [used n beyond last, sublist_take (R := Shorter) longer, InUse]
    · obtain ⟨pairs, rest, old, ms, names, rising, bounds, used⟩ := ih k offered
      refine ⟨pairs, ?_, old.cons v, ms, names, rising, bounds, ?_⟩
      · simp [outputLoop, longer, rest]
      · intro n upto last
        rw [used n upto last, InUse, InUse]
        by_cases here : n = k
        · subst here
          rw [offers_self tokens offered, sublist_skip (R := Shorter) longer]
        · obtain ⟨m, above, next, first, _⟩ := nexttoken_offered tokens k
          have beyond : m ≤ n := by
            by_contra short
            exact first n (by omega) (by omega) last
          rw [offers_next tokens offered above beyond first, sublist_skip (R := Shorter) longer]

theorem frequencies_distinct (datafile : LuaString) (validtokens : List LuaString) :
    ((frequencies datafile validtokens).map Prod.fst).Nodup := by
  have keeps : ∀ (found : List LuaString) (t : List (LuaString × Nat)), (t.map Prod.fst).Nodup →
      ((found.foldl (countToken validtokens) t).map Prod.fst).Nodup := by
    intro found
    induction found with
    | nil => exact fun t distinct => distinct
    | cons w found ih =>
      intro t distinct
      apply ih
      unfold countToken
      split
      · exact nodup_setEntry distinct w _
      · exact distinct
  exact keeps _ [] .nil

theorem readSwaps_printed (pairs t : List (LuaString × LuaString)) :
    readSwaps (printed pairs) t = pairs.foldl (fun t e => setEntry t e.1 e.2) t := by
  induction pairs generalizing t with
  | nil => rfl
  | cons e pairs ih => exact ih (setEntry t e.1 e.2)

theorem swapped_printed {pairs : List (LuaString × LuaString)}
    (distinct : (pairs.map Prod.fst).Nodup) (w : LuaString) :
    swapped (readSwaps (printed pairs) []) w = (pairs.lookup w).getD w := by
  have table := foldl_setEntry (fun v => v) pairs [] distinct w
  rw [swapped, readSwaps_printed, table]
  simp

/-- Names that differ from each other and from all identifiers make no two identifiers the
same. -/
theorem CaptureFree.injective {source : LuaString} {pairs : List (LuaString × LuaString)}
    (free : CaptureFree source pairs) (distinct : (pairs.map Prod.fst).Nodup) {x y : LuaString}
    (hx : x ∈ identifiers source) (hy : y ∈ identifiers source)
    (same : swapped (readSwaps (printed pairs) []) x = swapped (readSwaps (printed pairs) []) y) :
    x = y := by
  rw [swapped_printed distinct, swapped_printed distinct] at same
  cases ax : pairs.lookup x with
  | none =>
    cases ay : pairs.lookup y with
    | none => simpa [ax, ay] using same
    | some b =>
      have other : x = b := by simpa [ax, ay] using same
      exact absurd hx (other ▸ free.fresh _ (mem_of_lookup ay))
  | some a =>
    cases ay : pairs.lookup y with
    | none =>
      have other : a = y := by simpa [ax, ay] using same
      exact absurd hy (other ▸ free.fresh _ (mem_of_lookup ax))
    | some b =>
      have equal : a = b := by simpa [ax, ay] using same
      have entry := List.inj_on_of_nodup_map free.distinct (mem_of_lookup ax) (mem_of_lookup ay) equal
      exact congrArg Prod.fst entry

end

/-- The map is free of capture exactly when no identifier of the source is a name that is
offered and comes into use. -/
theorem capture_free_iff (source : LuaString) (safe order : List LuaString)
    (sorted : SortedKeys (frequencies source safe) order) :
    ∃ pairs, tokenmapper source safe order = some pairs ∧
      (CaptureFree source pairs ↔
        ∀ n, nthToken n ∈ identifiers source → Offered (frequencies source safe) n →
          ¬ InUse (frequencies source safe) 0 n order) ∧
      (CaptureFree source pairs →
        ∀ x ∈ identifiers source, ∀ y ∈ identifiers source,
          swapped (readSwaps (printed pairs) []) x = swapped (readSwaps (printed pairs) []) y →
            x = y) := by
  obtain ⟨pairs, result, old, ms, names, rising, bounds, used⟩ :=
    outputLoop_prints (frequencies source safe) order 0 (.inl rfl)
  have keys : (pairs.map Prod.fst).Nodup :=
    old.nodup (sorted.keys.nodup_iff.mpr (frequencies_distinct source safe))
  have distinct : (pairs.map Prod.snd).Nodup := by
    rw [names]
    apply List.Nodup.map (fun a b same => nthToken_injective same)
    exact rising.imp (fun smaller => Nat.ne_of_lt smaller)
  have printed_iff : ∀ n, nthToken n ∈ pairs.map Prod.snd ↔ n ∈ ms := by
    intro n
    rw [names, List.mem_map]
    constructor
    · rintro ⟨m, mem, same⟩
      rwa [← nthToken_injective same]
    · exact fun mem => ⟨n, mem, rfl⟩
  refine ⟨pairs, by rw [tokenmapper, gettoken_eq, result], ?_, ?_⟩
  · constructor
    · intro free n occurs offered inUse
      have mem := (printed_iff n).mpr ((used n (Nat.zero_le n) offered).mpr inUse)
      obtain ⟨e, he, new⟩ := List.mem_map.mp mem
      exact free.fresh e he (new ▸ occurs)
    · intro clear
      refine ⟨distinct, ?_⟩
      intro e he occurs
      have mem : e.2 ∈ ms.map nthToken := names ▸ List.mem_map_of_mem he
      obtain ⟨n, hn, new⟩ := List.mem_map.mp mem
      have offered := (bounds n hn).2
      exact clear n (new ▸ occurs) offered ((used n (Nat.zero_le n) offered).mp hn)
  · intro free x hx y hy same
    exact free.injective keys hx hy same

def clashing : LuaString := "foo=a;".toList

theorem clashing_sorted :
    SortedKeys (frequencies clashing ["foo".toList]) ["foo".toList] where
  keys := by decide +kernel
  sorted := by simp

theorem capture_free_foo :
    ∃ pairs, tokenmapper clashing ["foo".toList] ["foo".toList] = some pairs ∧
      (CaptureFree clashing pairs ↔
        ∀ n, nthToken n ∈ identifiers clashing →
          Offered (frequencies clashing ["foo".toList]) n →
          ¬ InUse (frequencies clashing ["foo".toList]) 0 n ["foo".toList]) ∧
      (CaptureFree clashing pairs →
        ∀ x ∈ identifiers clashing, ∀ y ∈ identifiers clashing,
          swapped (readSwaps (printed pairs) []) x = swapped (readSwaps (printed pairs) []) y →
            x = y) :=
  capture_free_iff clashing ["foo".toList] ["foo".toList] clashing_sorted

/-- The first name is given without a look at the source, and `foo=a;` becomes `a=a;`. -/
theorem first_name_captures :
    SortedKeys (frequencies clashing ["foo".toList]) ["foo".toList] ∧
      tokenmapper clashing ["foo".toList] ["foo".toList] = some [("foo".toList, "a".toList)] ∧
      ¬ CaptureFree clashing [("foo".toList, "a".toList)] := by
  refine ⟨clashing_sorted, by decide +kernel, ?_⟩
  intro free
  exact free.fresh ("foo".toList, "a".toList) (by simp) (by decide +kernel)

end PrimeMover
