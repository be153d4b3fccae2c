import Mathlib.Data.List.TakeWhile

/-! Reading lines with `fgets` and `strlen`, as `read_line` of liolib.c does. A
NUL character hides the rest of its chunk and the newline with it, so the reader
is a line splitter only on text without NUL characters. -/
namespace LineReader

def newline : Char := '\n'
def nul : Char := Char.ofNat 0

/-- `fgets`: at most `n` characters, up to and including a newline. -/
def fgets : Nat → List Char → List Char × List Char
  | 0, s => ([], s)
  | _, [] => ([], [])
  | n + 1, c :: s =>
    if c = newline then ([c], s)
    else ((c :: (fgets n s).1), (fgets n s).2)

/-- The characters before the first NUL, whose number is `strlen`. -/
def cstring (s : List Char) : List Char := s.takeWhile (· ≠ nul)

/-- The loop of `read_line`. The chunk is a line's end when its last character
before the NUL is a newline; an empty one is not. -/
def readLoop (size : Nat) : Nat → List Char → List Char → Option (List Char) × List Char
  | 0, acc, s => (some acc, s)
  | fuel + 1, acc, s =>
    match s with
    | [] => (if acc = [] then none else some acc, [])
    | c :: s =>
      let chunk := fgets size (c :: s)
      let text := cstring chunk.1
      if text.getLast? = some newline then (some (acc ++ text.dropLast), chunk.2)
      else readLoop size fuel (acc ++ text) chunk.2

/-- One line without its newline, and the rest; `none` at the end of the file.
A chunk holds at least one character, so the fuel is enough. -/
def readLine (size : Nat) (s : List Char) : Option (List Char) × List Char :=
  readLoop size (s.length + 1) [] s

/-- Text a line can carry. -/
def LineText (s : List Char) : Prop := newline ∉ s ∧ nul ∉ s

instance (s : List Char) : Decidable (LineText s) := inferInstanceAs (Decidable (_ ∧ _))

theorem LineText.append {s t : List Char} (hs : LineText s) (ht : LineText t) :
    LineText (s ++ t) := by
  simp only [LineText, List.mem_append, not_or] at *
  exact ⟨⟨hs.1, ht.1⟩, hs.2, ht.2⟩

theorem LineText.tail {c : Char} {s : List Char} (h : LineText (c :: s)) : LineText s :=
  ⟨fun hc => h.1 (List.mem_cons_of_mem c hc), fun hc => h.2 (List.mem_cons_of_mem c hc)⟩

theorem fgets_append (n : Nat) (s : List Char) : (fgets n s).1 ++ (fgets n s).2 = s := by
  induction n generalizing s with
  | zero => cases s <;> rfl
  | succ n ih =>
    cases s with
    | nil => rfl
    | cons c s =>
      simp only [fgets]
      split
      · rfl
      · simp [ih]

/-- A chunk is either part of a line or ends with its newline. -/
theorem fgets_cases (n : Nat) (s : List Char) :
    newline ∉ (fgets n s).1 ∨ ∃ t, newline ∉ t ∧ (fgets n s).1 = t ++ [newline] := by
  induction n generalizing s with
  | zero => left; cases s <;> simp [fgets]
  | succ n ih =>
    cases s with
    | nil => left; simp [fgets]
    | cons c s =>
      simp only [fgets]
      split
      · rename_i h
        exact Or.inr ⟨[], by simp, by simp [h]⟩
      · rename_i h
        rcases ih s with hn | ⟨t, ht, he⟩
        · left
          simp only [List.mem_cons, not_or]
          exact ⟨fun e => h e.symm, hn⟩
        · right
          refine ⟨c :: t, ?_, by simp [he]⟩
          simp only [List.mem_cons, not_or]
          exact ⟨fun e => h e.symm, ht⟩

/-- On a line too long for the buffer a chunk is a piece of it. -/
theorem fgets_long (n : Nat) (line rest : List Char) (clean : newline ∉ line)
    (long : n ≤ line.length) :
    fgets n (line ++ rest) = (line.take n, line.drop n ++ rest) := by
  induction n generalizing line with
  | zero => cases line <;> cases rest <;> simp [fgets]
  | succ n ih =>
    cases line with
    | nil => simp at long
    | cons c line =>
      simp only [List.mem_cons, not_or] at clean
      have hc : c ≠ newline := fun e => clean.1 e.symm
      have h := ih line clean.2 (by simpa using long)
      simp only [List.cons_append, fgets, if_neg hc, h, List.take_succ_cons, List.drop_succ_cons]

theorem fgets_line (n : Nat) (line rest : List Char) (clean : newline ∉ line)
    (short : line.length < n) :
    fgets n (line ++ newline :: rest) = (line ++ [newline], rest) := by
  induction n generalizing line with
  | zero => omega
  | succ n ih =>
    cases line with
    | nil => simp [fgets]
    | cons c line =>
      simp only [List.mem_cons, not_or] at clean
      have hc : c ≠ newline := fun e => clean.1 e.symm
      have h := ih line clean.2 (by simpa using short)
      simp only [List.cons_append, fgets, if_neg hc, h]

theorem fgets_last (n : Nat) (line : List Char) (clean : newline ∉ line)
    (short : line.length < n) : fgets n line = (line, []) := by
  induction n generalizing line with
  | zero => omega
  | succ n ih =>
    cases line with
    | nil => rfl
    | cons c line =>
      simp only [List.mem_cons, not_or] at clean
      have hc : c ≠ newline := fun e => clean.1 e.symm
      have h := ih line clean.2 (by simpa using short)
      simp only [fgets, if_neg hc, h]

theorem cstring_clean (s : List Char) (clean : nul ∉ s) : cstring s = s := by
  apply List.takeWhile_eq_self_iff.mpr
  intro c hc
  have : c ≠ nul := by
    rintro rfl
    exact clean hc
  simpa using this

theorem nul_ne_newline : nul ≠ newline := by decide

theorem getLast_clean {s : List Char} (clean : newline ∉ s) : s.getLast? ≠ some newline := by
  intro h
  exact clean (List.mem_of_getLast? h)

theorem readLoop_line (size fuel : Nat) (acc line rest : List Char) (positive : 0 < size)
    (clean : LineText line) (enough : line.length < fuel) :
    readLoop size fuel acc (line ++ newline :: rest) = (some (acc ++ line), rest) := by
  induction fuel generalizing acc line with
  | zero => omega
  | succ fuel ih =>
    obtain ⟨c, s, hs⟩ : ∃ c s, line ++ newline :: rest = c :: s := by
      cases line with
      | nil => exact ⟨_, _, rfl⟩
      | cons c line => exact ⟨_, _, rfl⟩
    by_cases short : line.length < size
    · have hf := fgets_line size line rest clean.1 short
      have hc : cstring (line ++ [newline]) = line ++ [newline] := by
        apply cstring_clean
        simp only [List.mem_append, List.mem_singleton, not_or]
        exact ⟨clean.2, nul_ne_newline⟩
      rw [hs] at hf ⊢
      simp [readLoop, hf, hc]
    · have hf := fgets_long size line (newline :: rest) clean.1 (by omega)
      have htake : newline ∉ line.take size := fun h => clean.1 (List.mem_of_mem_take h)
      have hnul : nul ∉ line.take size := fun h => clean.2 (List.mem_of_mem_take h)
      have hdrop : LineText (line.drop size) :=
        ⟨fun h => clean.1 (List.mem_of_mem_drop h), fun h => clean.2 (List.mem_of_mem_drop h)⟩
      have step := ih (acc ++ line.take size) (line.drop size) hdrop
        (by rw [List.length_drop]; omega)
      rw [hs] at hf ⊢
      simp only [readLoop, hf, cstring_clean _ hnul, getLast_clean htake, if_false, step]
      rw [List.append_assoc, List.take_append_drop]

theorem readLine_line (size : Nat) (line rest : List Char) (positive : 0 < size)
    (clean : LineText line) : readLine size (line ++ newline :: rest) = (some line, rest) := by
  have enough : line.length < (line ++ newline :: rest).length + 1 := by
    rw [List.length_append]
    omega
  rw [readLine, readLoop_line size _ [] line rest positive clean enough]
  rfl

theorem readLine_nil (size : Nat) : readLine size [] = (none, []) := rfl

theorem readLoop_clean (size fuel : Nat) (acc s line : List Char) (clean : LineText acc)
    (enough : s.length < fuel) (positive : 0 < size)
    (found : (readLoop size fuel acc s).1 = some line) : LineText line := by
  induction fuel generalizing acc s with
  | zero => omega
  | succ fuel ih =>
    cases s with
    | nil =>
      simp only [readLoop] at found
      split at found
      · contradiction
      · cases Option.some.inj found
        exact clean
    | cons c s =>
      have hnul : nul ∉ cstring (fgets size (c :: s)).1 := by
        intro h
        have := List.mem_takeWhile_imp h
        simp at this
      have hsub : ∀ d ∈ cstring (fgets size (c :: s)).1, d ∈ (fgets size (c :: s)).1 :=
        fun d hd => (List.takeWhile_prefix _).subset hd
      simp only [readLoop] at found
      split at found
      · rename_i hlast
        cases Option.some.inj found
        refine clean.append ⟨?_, fun h => hnul (List.dropLast_subset _ h)⟩
        -- the newline is the last character of the chunk and nowhere before it
        rcases fgets_cases size (c :: s) with h | ⟨t, ht, he⟩
        · exact fun hd => h (hsub _ (List.dropLast_subset _ hd))
        · have hpre : cstring (fgets size (c :: s)).1 <+: t ++ [newline] :=
            he ▸ List.takeWhile_prefix _
          have hdrop : (cstring (fgets size (c :: s)).1).dropLast <+: t := by
            rcases List.prefix_concat_iff.mp hpre with heq | hpt
            · simp [heq]
            · exact (List.dropLast_prefix _).trans hpt
          exact fun hd => ht (hdrop.subset hd)
      · rename_i hlast
        have hlen : (fgets size (c :: s)).2.length < fuel := by
          have h := congrArg List.length (fgets_append size (c :: s))
          have : 0 < (fgets size (c :: s)).1.length := by
            cases size with
            | zero => omega
            | succ n => simp only [fgets]; split <;> simp
          simp only [List.length_append, List.length_cons] at h enough
          omega
        refine ih _ _ (clean.append ⟨?_, hnul⟩) hlen found
        rcases fgets_cases size (c :: s) with h | ⟨t, ht, he⟩
        · exact fun hd => h (hsub _ hd)
        · have hpre : cstring (fgets size (c :: s)).1 <+: t ++ [newline] :=
            he ▸ List.takeWhile_prefix _
          rcases List.prefix_concat_iff.mp hpre with heq | hpt
          · exact absurd (by rw [heq]; simp) hlast
          · exact fun hd => ht (hpt.subset hd)

theorem readLine_clean (size : Nat) (s line : List Char) (positive : 0 < size)
    (found : (readLine size s).1 = some line) : LineText line :=
  readLoop_clean size _ [] s line ⟨by simp, by simp⟩ (Nat.lt_succ_self _) positive found

end LineReader
