import PrimeMover.Value

/-! Path names and the stat cache: the utilities of pm.lua that talk to the
system. -/
namespace PrimeMover
open LuaPattern

variable {W : Type}

/-- `/[^/]*$` -/
def lastComponent : Pattern :=
  ⟨false, [.one (· == '/'), .star (· != '/'), .atEnd]⟩

def dirname (f : LuaString) : LuaString :=
  let pieces := scan lastComponent f
  if hits pieces = 0 then ".".toList else replace (fun _ => []) pieces

def absname (host : Host W) (w : W) (f : LuaString) : LuaString :=
  if f.head? = some '/' then f else host.getcwd w ++ "/".toList ++ f

def mkcontainerdir (host : Host W) : Nat → LuaString → SysM W Unit
  | 0, _ => throw .diverges
  | fuel + 1, f => do
    let d := dirname f
    if (host.stat (← get).world d).isNone then
      mkcontainerdir host fuel d
      match host.mkdir (← get).world d with
      | none => usererror ("unable to create directory '".toList ++ d ++ "'".toList)
      | some w => modify (fun s => { s with world := w, log := s.log ++ [.mkdir d] })

/-- The `readlink` loop of `filetime`. -/
def followLinks (host : Host W) (w : W) : Nat → LuaString → Option LuaString
  | 0, _ => none
  | fuel + 1, f =>
    match host.readlink w f with
    | none => some f
    | some g => followLinks host w fuel g

/-- What `filetime` finds without the cache: 0 for a missing file. -/
def stamp (host : Host W) (fuel : Nat) (w : W) (f : LuaString) : Option Int :=
  (followLinks host w fuel f).map
    (fun g => ((host.stat w g).map (fun s => luaNumber s.mtime)).getD 0)

def filetime (host : Host W) (fuel : Nat) (f : LuaString) : SysM W Int := do
  match (← get).stattedFiles f with
  | some t => pure t
  | none =>
    match stamp host fuel (← get).world f with
    | none => throw .diverges
    | some t =>
      modify (fun s => { s with
        stattedFiles := fun g => if g = f then some t else s.stattedFiles g })
      pure t

def filetouch (host : Host W) (fs : List LuaString) : SysM W Unit :=
  modify (fun s => { s with
    stattedFiles := fun g =>
      if g ∈ fs then some (luaNumber (host.time s.world)) else s.stattedFiles g })

/-- `os.execute`, with the result that the log keeps. -/
def osExecute (host : Host W) (owner : Nat) (phase : Phase) (command : LuaString) :
    SysM W Int := do
  let (code, w) := host.execute (← get).world command
  modify (fun s => { s with world := w, log := s.log ++ [.execute owner phase command code] })
  pure code

theorem match_lastComponent (b : LuaString) (clean : '/' ∉ b) :
    matchItems lastComponent.items ('/' :: b) [] = some ([], []) := by
  simp only [lastComponent, matchItems, beq_self_eq_true, if_true]
  apply maxExpand_all
  · intro c hc
    have : c ≠ '/' := by
      rintro rfl
      exact clean hc
    simpa using this
  · rfl

theorem miss_lastComponent (c : Char) (b t : LuaString) :
    matchItems lastComponent.items (c :: (b ++ '/' :: t)) [] = none := by
  simp only [lastComponent, matchItems]
  split
  · -- the class stops at the slash, where the pattern wants the end
    generalize hk : (fun s : LuaString => if s = [] then some (s, ([] : List Capture)) else none) = k
    have fails : ∀ u : LuaString, u ≠ [] → k u = none := by
      intro u hu
      simp [← hk, hu]
    clear hk
    induction b with
    | nil => simp [maxExpand, fails]
    | cons d b ih =>
      simp only [List.cons_append, maxExpand]
      split
      · rw [ih]
        exact fails _ (by simp)
      · exact fails _ (by simp)
  · rfl

theorem scan_lastComponent (a b : LuaString) (clean : '/' ∉ b) :
    scan lastComponent (a ++ '/' :: b) = a.map .char ++ [.hit []] := by
  rw [scan_skip lastComponent rfl a]
  · rw [scan_hit lastComponent rfl _ [] [] (match_lastComponent b clean) (by simp),
      scan_nil lastComponent rfl]
    rfl
  · intro _ c d _
    exact miss_lastComponent c d b

theorem scan_noComponent (b : LuaString) (clean : '/' ∉ b) :
    scan lastComponent b = b.map .char := by
  have h := scan_skip lastComponent rfl b [] (by
    intro a c d hs
    have hc : c ≠ '/' := by
      rintro rfl
      exact clean (by simp [hs])
    exact match_one_ne '/' c _ _ hc)
  rw [scan_nil lastComponent rfl] at h
  simpa using h

theorem last_split {c : Char} {s : LuaString} (there : c ∈ s) :
    ∃ a b, s = a ++ c :: b ∧ c ∉ b := by
  obtain ⟨b, a, split, clean⟩ := List.eq_append_cons_of_mem (List.mem_reverse.mpr there)
  refine ⟨a.reverse, b.reverse, ?_, by simpa using clean⟩
  have := congrArg List.reverse split
  simpa using this

theorem dirname_append (a b : LuaString) (clean : '/' ∉ b) : dirname (a ++ '/' :: b) = a := by
  simp [dirname, scan_lastComponent a b clean]

theorem dirname_plain (b : LuaString) (clean : '/' ∉ b) : dirname b = ".".toList := by
  have h := hits_chars b []
  simp only [List.append_nil, hits_nil] at h
  simp [dirname, scan_noComponent b clean, h]

theorem dirname_cases (p : LuaString) : ('/' ∉ p ∧ dirname p = ".".toList) ∨
    ∃ a b, '/' ∉ b ∧ p = a ++ '/' :: b ∧ dirname p = a := by
  by_cases slash : '/' ∈ p
  · obtain ⟨a, b, rfl, clean⟩ := last_split slash
    exact Or.inr ⟨a, b, clean, rfl, dirname_append a b clean⟩
  · exact Or.inl ⟨slash, dirname_plain p slash⟩

end PrimeMover
