import PrimeMover.Acyclic
import PrimeMover.Driver

/-! Templates as they are meant: text, `%%` and `%name%`. The passes of `node:__expand`
over the whole string compute the recursive substitution of the references. -/
namespace PrimeMover
open LuaPattern

variable {W : Type}

inductive Token where
  | text (s : LuaString)
  | escape
  | ref (name : LuaString)
  deriving DecidableEq

def Token.render : Token → LuaString
  | .text s => s
  | .escape => "%%".toList
  | .ref name => "%".toList ++ name ++ "%".toList

def render (ts : List Token) : LuaString := ts.flatMap Token.render

/-- Text without the characters that mean something to the expansion. -/
def Literal (s : LuaString) : Prop := ∀ c ∈ s, c ≠ '%' ∧ c ≠ '{' ∧ c ≠ '}' ∧ c ≠ '\x07'

/-- Letters, digits and underscores. -/
def Word (s : LuaString) : Prop := s ≠ [] ∧ ∀ c ∈ s, c.isAlphanum = true ∨ c = '_'

def Token.WellFormed : Token → Prop
  | .text s => Literal s
  | .escape => True
  | .ref name => Word name

/-- Variables with the templates that are their values. -/
abbrev Definitions := List (LuaString × List Token)

/-- The recursive substitution of a template. -/
inductive Expands (defs : Definitions) : List Token → LuaString → Prop where
  | nil : Expands defs [] []
  | text (s : LuaString) (ts : List Token) (r : LuaString) (rest : Expands defs ts r) :
      Expands defs (.text s :: ts) (s ++ r)
  | escape (ts : List Token) (r : LuaString) (rest : Expands defs ts r) :
      Expands defs (.escape :: ts) ('%' :: r)
  | ref (name : LuaString) (body ts : List Token) (b r : LuaString)
      (known : defs.lookup name = some body) (value : Expands defs body b)
      (rest : Expands defs ts r) : Expands defs (.ref name :: ts) (b ++ r)

/-- What the loop works on: tokens, and escapes that a pass has replaced. -/
inductive Part where
  | token (t : Token)
  | percent

def Part.render : Part → LuaString
  | .token t => t.render
  | .percent => PERCENT

def renderParts (ps : List Part) : LuaString := ps.flatMap Part.render

def Part.WellFormed : Part → Prop
  | .token t => t.WellFormed
  | .percent => True

inductive PartsExpand (defs : Definitions) : List Part → LuaString → Prop where
  | nil : PartsExpand defs [] []
  | text (s : LuaString) (ps : List Part) (r : LuaString) (rest : PartsExpand defs ps r) :
      PartsExpand defs (.token (.text s) :: ps) (s ++ r)
  | escape (ps : List Part) (r : LuaString) (rest : PartsExpand defs ps r) :
      PartsExpand defs (.token .escape :: ps) ('%' :: r)
  | percent (ps : List Part) (r : LuaString) (rest : PartsExpand defs ps r) :
      PartsExpand defs (.percent :: ps) ('%' :: r)
  | ref (name : LuaString) (body : List Token) (ps : List Part) (b r : LuaString)
      (known : defs.lookup name = some body) (value : Expands defs body b)
      (rest : PartsExpand defs ps r) : PartsExpand defs (.token (.ref name) :: ps) (b ++ r)

/-- What one pass makes of a part. -/
def Part.pass (defs : Definitions) : Part → List Part
  | .token (.text s) => [.token (.text s)]
  | .token .escape => [.percent]
  | .token (.ref name) => ((defs.lookup name).getD []).map .token
  | .percent => [.percent]

theorem Word.noPercent {s : LuaString} (h : Word s) : '%' ∉ s := by
  intro hc
  rcases h.2 _ hc with h | h
  · exact absurd h (by decide)
  · exact absurd h (by decide)

theorem Word.avoid {s : LuaString} (h : Word s) (d : Char) (other : d.isAlphanum = false)
    (notUnderscore : d ≠ '_') : ∀ c ∈ s, (c != d) = true := by
  intro c hc
  rcases h.2 c hc with hc | hc
  · have : c ≠ d := by
      rintro rfl
      rw [other] at hc
      cases hc
    simpa using this
  · rw [hc]
    simpa using fun h => notUnderscore h.symm

theorem Expands.append {defs : Definitions} {ss ts : List Token} {q r : LuaString}
    (hs : Expands defs ss q) (ht : Expands defs ts r) : Expands defs (ss ++ ts) (q ++ r) := by
  induction hs with
  | nil => exact ht
  | text s ss q _ ih =>
    rw [List.append_assoc]
    exact .text s _ _ ih
  | escape ss q _ ih => exact .escape _ _ ih
  | ref name body ss b q known value _ _ ih =>
    rw [List.append_assoc]
    exact .ref name body _ b _ known value ih

theorem PartsExpand.of_tokens {defs : Definitions} {ts : List Token} {r : LuaString}
    (h : Expands defs ts r) {ps : List Part} {q : LuaString} (hp : PartsExpand defs ps q) :
    PartsExpand defs (ts.map .token ++ ps) (r ++ q) := by
  induction h with
  | nil => exact hp
  | text s ts r _ ih =>
    rw [List.append_assoc]
    exact .text s _ _ ih
  | escape ts r _ ih => exact .escape _ _ ih
  | ref name body ts b r known value _ _ ih =>
    rw [List.append_assoc]
    exact .ref name body _ b _ known value ih

/-- A pass does not change what the parts stand for. -/
theorem PartsExpand.pass {defs : Definitions} {ps : List Part} {r : LuaString}
    (h : PartsExpand defs ps r) : PartsExpand defs (ps.flatMap (Part.pass defs)) r := by
  induction h with
  | nil => exact .nil
  | text s ps r _ ih => exact .text s _ _ ih
  | escape ps r _ ih => exact .percent _ _ ih
  | percent ps r _ ih => exact .percent _ _ ih
  | ref name body ps b r known value _ ih =>
    rw [List.flatMap_cons, Part.pass, known, Option.getD_some]
    exact of_tokens value ih

/-- What `gsub` meets in a part. -/
def Part.pieces : Part → List Piece
  | .token (.text s) => s.map .char
  | .token .escape => [.hit [[]]]
  | .token (.ref name) => [.hit [name]]
  | .percent => PERCENT.map .char

theorem scan_free (s t : LuaString) (free : '%' ∉ s) :
    scan variablePattern (s ++ t) = s.map .char ++ scan variablePattern t := by
  apply scan_skip variablePattern rfl
  intro a c b hs
  apply match_one_ne
  rintro rfl
  exact free (by simp [hs])

theorem Literal.noPercent {s : LuaString} (h : Literal s) : '%' ∉ s :=
  fun hc => (h _ hc).1 rfl

/-- The pairing of percent signs keeps to the parts. -/
theorem scan_parts (ps : List Part) (wf : ∀ p ∈ ps, p.WellFormed) :
    scan variablePattern (renderParts ps) = ps.flatMap Part.pieces := by
  induction ps with
  | nil => rfl
  | cons p ps ih =>
    have hp := wf p List.mem_cons_self
    have rest := ih fun q hq => wf q (List.mem_cons_of_mem p hq)
    have enclosed : ∀ name : LuaString, '%' ∉ name →
        scan variablePattern ('%' :: (name ++ '%' :: renderParts ps)) =
          .hit [name] :: scan variablePattern (renderParts ps) := by
      intro name inner
      exact scan_hit variablePattern rfl _ _ [.closed name]
        (match_enclosed '%' name (renderParts ps) inner) (by simp; omega)
    rw [renderParts, List.flatMap_cons, List.flatMap_cons, ← rest]
    change scan variablePattern (p.render ++ renderParts ps) = _
    cases p with
    | percent => exact scan_free PERCENT _ (by decide)
    | token t =>
      cases t with
      | text s => exact scan_free s _ (Literal.noPercent hp)
      | escape => exact enclosed [] List.not_mem_nil
      | ref name =>
        have := enclosed name (Word.noPercent hp)
        simpa [Part.render, Token.render, Part.pieces] using this

theorem scan_expressions (s : LuaString) (free : '{' ∉ s) :
    scan expressionPattern s = s.map .char := by
  have h := scan_skip expressionPattern rfl s [] (by
    intro a c b hs
    simp only [expressionPattern, matchItems, List.append_nil]
    split
    · cases b with
      | nil => rfl
      | cons d b =>
        have hd : (d == '{') = false := by
          have : d ≠ '{' := by
            rintro rfl
            exact free (by simp [hs])
          simpa using this
        simp [hd]
    · rfl)
  rw [scan_nil expressionPattern rfl] at h
  simpa using h

theorem noBrace_parts (ps : List Part) (wf : ∀ p ∈ ps, p.WellFormed) : '{' ∉ renderParts ps := by
  intro h
  obtain ⟨p, hp, hc⟩ := List.mem_flatMap.mp h
  cases p with
  | percent => exact absurd hc (by decide)
  | token t =>
    cases t with
    | text s => exact (wf _ hp _ hc).2.1 rfl
    | escape => exact absurd hc (by decide)
    | ref name =>
      simp only [Part.render, Token.render, List.mem_append] at hc
      rcases hc with (hc | hc) | hc
      · exact absurd hc (by decide)
      · have := (Word.avoid (wf _ hp) '{' (by decide) (by decide)) _ hc
        simp at this
      · exact absurd hc (by decide)

theorem find_colon (name : LuaString) (word : Word name) :
    find colonPattern name = some [name, []] := by
  refine find_of_match (show _ = some ([], [Capture.closed name, .closed []]) from ?_)
  simp only [colonPattern, matchItems]
  apply maxExpand_all
  · exact word.avoid ':' (by decide) (by decide)
  · simp [closeLast, maxExpand]

theorem find_selector (name : LuaString) (word : Word name) :
    find selectorPattern name = some [name, [], [], []] := by
  refine find_of_match (show _ = some ([], [Capture.closed name, .closed [], .closed [],
    .closed []]) from ?_)
  simp only [selectorPattern, matchItems]
  apply maxExpand_all
  · exact word.avoid '[' (by decide) (by decide)
  · simp [closeLast, maxExpand]

/-- The lookup of a name ends with a value. -/
def Defined (fields : Fields) (scope : List Obj) (self : Obj) (name : LuaString) (v : Value) :
    Prop :=
  ∃ n, ∀ fuel, n ≤ fuel → index fields scope self fuel name = .ok (some v)

/-- The variables on `self` are those of `defs`: the text of each is a template. -/
def Environment (fields : Fields) (scope : List Obj) (self : Obj) (defs : Definitions) : Prop :=
  ∀ name body, defs.lookup name = some body → (∀ t ∈ body, t.WellFormed) ∧
    ∃ v, Defined fields scope self name v ∧ truthy (some v) = some v ∧
      rendertable (some v) = .ok (render body)

theorem expandVariable_word {cfg : Settings W} {fields : Fields} {scope : List Obj} {self : Obj}
    {name : LuaString} {v : Value} {text : LuaString} (word : Word name)
    (found : index fields scope self cfg.fuel name = .ok (some v))
    (isTrue : truthy (some v) = some v) (rendered : rendertable (some v) = .ok text) :
    expandVariable cfg fields scope self name = .ok text := by
  simp only [expandVariable, if_neg word.1, find_colon name word, find_selector name word, found,
    bind, Except.bind, isTrue, select, true_and, if_true, rendered]

/-- One round of the loop turns the parts into what a pass makes of them. -/
theorem replace_parts {cfg : Settings W} {fields : Fields} {scope : List Obj} {self : Obj}
    {defs : Definitions} (ps : List Part) (wf : ∀ p ∈ ps, p.WellFormed)
    (known : ∀ name, .token (.ref name) ∈ ps → (defs.lookup name).isSome)
    (value : ∀ name body, defs.lookup name = some body →
      Word name → expandVariable cfg fields scope self name = .ok (render body)) :
    replaceM (captured (expandVariable cfg fields scope self)) (ps.flatMap Part.pieces) =
      .ok (renderParts (ps.flatMap (Part.pass defs))) := by
  induction ps with
  | nil => rfl
  | cons p ps ih =>
    have rest := ih (fun q hq => wf q (List.mem_cons_of_mem p hq))
      fun name hn => known name (List.mem_cons_of_mem p hn)
    have here : replaceM (captured (expandVariable cfg fields scope self)) p.pieces =
        .ok (renderParts (p.pass defs)) := by
      cases p with
      | percent => rw [Part.pieces, replaceM_chars]; rfl
      | token t =>
        cases t with
        | text s =>
          rw [Part.pieces, replaceM_chars]
          simp [Part.pass, renderParts, Part.render, Token.render]
        | escape => rfl
        | ref name =>
          obtain ⟨body, hbody⟩ := Option.isSome_iff_exists.mp (known name List.mem_cons_self)
          have := value name body hbody (wf _ List.mem_cons_self)
          simp only [Part.pieces, replaceM, captured, List.headD_cons, this, bind, Except.bind,
            Part.pass, hbody, Option.getD_some, renderParts, List.append_nil, render]
          rw [List.flatMap_map]
          rfl
    rw [List.flatMap_cons, replaceM_append, here, rest, List.flatMap_cons]
    simp only [bind, Except.bind, renderParts, List.flatMap_append]

/-- A part in which no pass finds anything to replace. -/
def Part.Closed : Part → Prop
  | .token (.text _) => True
  | .percent => True
  | _ => False

theorem closed_of_hits (ps : List Part) (none : hits (ps.flatMap Part.pieces) = 0) :
    ∀ p ∈ ps, p.Closed := by
  intro p hp
  have hits : LuaPattern.hits p.pieces = 0 := by
    induction ps with
    | nil => cases hp
    | cons q ps ih =>
      rw [List.flatMap_cons, hits_append] at none
      rcases List.mem_cons.mp hp with rfl | hp
      · omega
      · exact ih (by omega) hp
  cases p with
  | percent => trivial
  | token t =>
    cases t with
    | text s => trivial
    | escape => cases hits
    | ref name => cases hits

theorem hits_of_closed (ps : List Part) (closed : ∀ p ∈ ps, p.Closed) :
    hits (ps.flatMap Part.pieces) = 0 := by
  induction ps with
  | nil => rfl
  | cons p ps ih =>
    rw [List.flatMap_cons, hits_append, ih fun q hq => closed q (List.mem_cons_of_mem p hq)]
    have chars : ∀ s : LuaString, hits (s.map Piece.char) = 0 := fun s => by
      have := hits_chars s []
      simpa using this
    have hp := closed p List.mem_cons_self
    cases p with
    | percent => exact chars PERCENT
    | token t =>
      cases t with
      | text s => exact chars s
      | escape => exact hp.elim
      | ref name => exact hp.elim

theorem pass_closed (defs : Definitions) (ps : List Part) (closed : ∀ p ∈ ps, p.Closed) :
    ps.flatMap (Part.pass defs) = ps := by
  induction ps with
  | nil => rfl
  | cons p ps ih =>
    rw [List.flatMap_cons, ih fun q hq => closed q (List.mem_cons_of_mem p hq)]
    have hp := closed p List.mem_cons_self
    cases p with
    | percent => rfl
    | token t =>
      cases t with
      | text s => rfl
      | escape => exact hp.elim
      | ref name => exact hp.elim

/-- At the end every sentinel becomes one percent sign, and no text looks like one. -/
theorem gsub_percent {defs : Definitions} {ps : List Part} {r : LuaString}
    (expands : PartsExpand defs ps r) (wf : ∀ p ∈ ps, p.WellFormed)
    (closed : ∀ p ∈ ps, p.Closed) :
    gsub percentPattern (fun _ => "%".toList) (renderParts ps) = r := by
  induction expands with
  | nil => rfl
  | text s ps r _ ih =>
    have rest := ih (fun q hq => wf q (List.mem_cons_of_mem _ hq))
      fun q hq => closed q (List.mem_cons_of_mem _ hq)
    have skip : scan percentPattern (s ++ renderParts ps) =
        s.map .char ++ scan percentPattern (renderParts ps) := by
      apply scan_skip percentPattern rfl
      intro a c b hs
      have : c ≠ '\x07' := (wf _ List.mem_cons_self c (by simp [hs])).2.2.2
      exact match_one_ne '\x07' c _ _ this
    change gsub percentPattern _ (s ++ renderParts ps) = _
    rw [gsub, skip, replace_chars]
    exact congrArg (s ++ ·) rest
  | percent ps r _ ih =>
    have rest := ih (fun q hq => wf q (List.mem_cons_of_mem _ hq))
      fun q hq => closed q (List.mem_cons_of_mem _ hq)
    have hit : scan percentPattern (PERCENT ++ renderParts ps) =
        .hit [] :: scan percentPattern (renderParts ps) :=
      scan_hit percentPattern rfl _ _ [] (match_literal PERCENT (renderParts ps))
        (by simp [PERCENT]; omega)
    change gsub percentPattern _ (PERCENT ++ renderParts ps) = _
    rw [gsub, hit, replace_hit]
    exact congrArg ('%' :: ·) rest
  | escape ps r _ _ => exact (closed _ List.mem_cons_self).elim
  | ref name body ps b r _ _ _ _ => exact (closed _ List.mem_cons_self).elim

section Loop

variable {cfg : Settings W} {fields : Fields} {scope : List Obj} {self : Obj}
  {defs : Definitions}

theorem loop_round (ps : List Part) (wf : ∀ p ∈ ps, p.WellFormed)
    (known : ∀ name, .token (.ref name) ∈ ps → (defs.lookup name).isSome)
    (value : ∀ name body, defs.lookup name = some body →
      Word name → expandVariable cfg fields scope self name = .ok (render body)) (fuel : Nat) :
    expandLoop cfg fields scope self (fuel + 1) (renderParts ps) =
      if hits (ps.flatMap Part.pieces) = 0 then
        .ok (gsub percentPattern (fun _ => "%".toList)
          (renderParts (ps.flatMap (Part.pass defs))))
      else expandLoop cfg fields scope self fuel (renderParts (ps.flatMap (Part.pass defs))) := by
  have plain := scan_expressions _ (noBrace_parts ps wf)
  have none : hits ((renderParts ps).map Piece.char) = 0 := by
    have := hits_chars (renderParts ps) []
    simpa using this
  simp only [expandLoop, plain, replaceM_chars, bind, Except.bind, scan_parts ps wf,
    replace_parts ps wf known value, none, Nat.zero_add]

theorem known_of_expands {ps : List Part} {r : LuaString} (h : PartsExpand defs ps r) :
    ∀ name, .token (.ref name) ∈ ps → (defs.lookup name).isSome := by
  intro name hn
  induction h with
  | nil => cases hn
  | text s ps r _ ih | escape ps r _ ih | percent ps r _ ih =>
    rcases List.mem_cons.mp hn with h | h
    · cases h
    · exact ih h
  | ref other body ps b r found _ _ ih =>
    rcases List.mem_cons.mp hn with h | h
    · cases h
      rw [found]
      rfl
    · exact ih h

theorem pass_wellFormed (bodies : ∀ name body, defs.lookup name = some body →
      ∀ t ∈ body, t.WellFormed) (ps : List Part) (wf : ∀ p ∈ ps, p.WellFormed) :
    ∀ p ∈ ps.flatMap (Part.pass defs), p.WellFormed := by
  intro q hq
  obtain ⟨p, hp, hq⟩ := List.mem_flatMap.mp hq
  have same := wf p hp
  cases p with
  | percent =>
    rw [List.mem_singleton.mp hq]
    trivial
  | token t =>
    cases t with
    | text s =>
      rw [List.mem_singleton.mp hq]
      exact same
    | escape =>
      rw [List.mem_singleton.mp hq]
      trivial
    | ref name =>
      obtain ⟨t, ht, rfl⟩ := List.mem_map.mp hq
      cases h : defs.lookup name with
      | none => simp [h] at ht
      | some body =>
        rw [h] at ht
        exact bodies name body h t ht

/-- The references of a template that has none left to a pass, or lower ones. -/
theorem pass_refs (ps : List Part) {name : LuaString}
    (hn : Part.token (.ref name) ∈ ps.flatMap (Part.pass defs)) :
    ∃ user body, .token (.ref user) ∈ ps ∧ defs.lookup user = some body ∧ .ref name ∈ body := by
  obtain ⟨p, hp, hn⟩ := List.mem_flatMap.mp hn
  cases p with
  | percent => cases List.mem_singleton.mp hn
  | token t =>
    cases t with
    | text s => cases List.mem_singleton.mp hn
    | escape => cases List.mem_singleton.mp hn
    | ref user =>
      obtain ⟨t, ht, same⟩ := List.mem_map.mp hn
      cases same
      cases h : defs.lookup user with
      | none => simp [h] at ht
      | some body =>
        rw [h] at ht
        exact ⟨user, body, hp, h, ht⟩

theorem loop_closed (ps : List Part) (wf : ∀ p ∈ ps, p.WellFormed)
    (closed : ∀ p ∈ ps, p.Closed) {r : LuaString} (expands : PartsExpand defs ps r)
    (value : ∀ name body, defs.lookup name = some body →
      Word name → expandVariable cfg fields scope self name = .ok (render body))
    (fuel : Nat) (enough : 1 ≤ fuel) :
    expandLoop cfg fields scope self fuel (renderParts ps) = .ok r := by
  cases fuel with
  | zero => omega
  | succ fuel =>
    rw [loop_round ps wf (known_of_expands expands) value, if_pos (hits_of_closed ps closed),
      pass_closed defs ps closed, gsub_percent expands wf closed]

/-- As many passes as the references are deep, and two for the escapes and the end. -/
theorem loop_parts (bodies : ∀ name body, defs.lookup name = some body →
      ∀ t ∈ body, t.WellFormed)
    (value : ∀ name body, defs.lookup name = some body →
      Word name → expandVariable cfg fields scope self name = .ok (render body))
    (rank : LuaString → Nat) (lower : ∀ user name body, defs.lookup user = some body →
      .ref name ∈ body → rank name < rank user) (depth : Nat) (ps : List Part)
    (wf : ∀ p ∈ ps, p.WellFormed) {r : LuaString} (expands : PartsExpand defs ps r)
    (level : ∀ name, .token (.ref name) ∈ ps → rank name < depth) (fuel : Nat)
    (enough : depth + 2 ≤ fuel) :
    expandLoop cfg fields scope self fuel (renderParts ps) = .ok r := by
  induction depth generalizing ps fuel with
  | zero =>
    cases fuel with
    | zero => omega
    | succ fuel =>
      have closed : ∀ p ∈ ps.flatMap (Part.pass defs), p.Closed := by
        intro p hp
        obtain ⟨q, hq, hp⟩ := List.mem_flatMap.mp hp
        cases q with
        | percent =>
          rw [List.mem_singleton.mp hp]
          trivial
        | token t =>
          cases t with
          | text s =>
            rw [List.mem_singleton.mp hp]
            trivial
          | escape =>
            rw [List.mem_singleton.mp hp]
            trivial
          | ref name => exact absurd (level name hq) (Nat.not_lt_zero _)
      have after := pass_wellFormed bodies ps wf
      rw [loop_round ps wf (known_of_expands expands) value]
      split
      · rw [gsub_percent expands.pass after closed]
      · exact loop_closed _ after closed expands.pass value fuel (by omega)
  | succ depth ih =>
    cases fuel with
    | zero => omega
    | succ fuel =>
      rw [loop_round ps wf (known_of_expands expands) value]
      split
      · rename_i none
        have closed := closed_of_hits ps none
        rw [pass_closed defs ps closed, gsub_percent expands wf closed]
      · apply ih _ (pass_wellFormed bodies ps wf) expands.pass _ fuel (by omega)
        intro name hn
        obtain ⟨user, body, hu, hbody, hr⟩ := pass_refs ps hn
        have := lower user name body hbody hr
        have := level user hu
        omega

end Loop

/-- One variable mentions another. -/
def Refers (defs : Definitions) (user name : LuaString) : Prop :=
  ∃ body, defs.lookup user = some body ∧ .ref name ∈ body

theorem Expands.unique {defs : Definitions} {ts : List Token} {q r : LuaString}
    (hq : Expands defs ts q) (hr : Expands defs ts r) : q = r := by
  induction hq generalizing r with
  | nil =>
    cases hr
    rfl
  | text s ts q _ ih =>
    cases hr with
    | text _ _ r rest => rw [ih rest]
  | escape ts q _ ih =>
    cases hr with
    | escape _ r rest => rw [ih rest]
  | ref name body ts b q known _ _ ihb ih =>
    cases hr with
    | ref _ body' _ b' r known' value' rest' =>
      cases known.symm.trans known'
      rw [ihb value', ih rest']

theorem exists_expands (defs : Definitions) (rank : LuaString → Nat)
    (lower : ∀ user name, Refers defs user name → rank name < rank user)
    (known : ∀ user name, Refers defs user name → (defs.lookup name).isSome) (depth : Nat)
    (ts : List Token) (level : ∀ name, .ref name ∈ ts → rank name < depth)
    (defined : ∀ name, .ref name ∈ ts → (defs.lookup name).isSome) :
    ∃ r, Expands defs ts r := by
  induction depth generalizing ts with
  | zero =>
    induction ts with
    | nil => exact ⟨[], .nil⟩
    | cons t ts ih =>
      obtain ⟨r, rest⟩ := ih (fun name hn => level name (List.mem_cons_of_mem t hn))
        fun name hn => defined name (List.mem_cons_of_mem t hn)
      cases t with
      | text s => exact ⟨_, .text s ts r rest⟩
      | escape => exact ⟨_, .escape ts r rest⟩
      | ref name => exact absurd (level name List.mem_cons_self) (Nat.not_lt_zero _)
  | succ depth ih =>
    induction ts with
    | nil => exact ⟨[], .nil⟩
    | cons t ts ihTs =>
      obtain ⟨r, rest⟩ := ihTs (fun name hn => level name (List.mem_cons_of_mem t hn))
        fun name hn => defined name (List.mem_cons_of_mem t hn)
      cases t with
      | text s => exact ⟨_, .text s ts r rest⟩
      | escape => exact ⟨_, .escape ts r rest⟩
      | ref name =>
        obtain ⟨body, hbody⟩ := Option.isSome_iff_exists.mp (defined name List.mem_cons_self)
        have top := level name List.mem_cons_self
        obtain ⟨b, value⟩ := ih body (fun inner hi => by
            have := lower name inner ⟨body, hbody, hi⟩
            omega)
          fun inner hi => known name inner ⟨body, hbody, hi⟩
        exact ⟨_, .ref name body ts b r hbody value rest⟩

theorem exists_bound {A : Type} (l : List A) (P : A → Nat → Prop)
    (grow : ∀ a m n, m ≤ n → P a m → P a n) (each : ∀ a ∈ l, ∃ n, P a n) :
    ∃ n, ∀ a ∈ l, P a n := by
  induction l with
  | nil => exact ⟨0, by simp⟩
  | cons a l ih =>
    obtain ⟨m, hm⟩ := each a List.mem_cons_self
    obtain ⟨n, hn⟩ := ih fun b hb => each b (List.mem_cons_of_mem a hb)
    refine ⟨max m n, fun b hb => ?_⟩
    rcases List.mem_cons.mp hb with rfl | hb
    · exact grow b m _ (Nat.le_max_left _ _) hm
    · exact grow b n _ (Nat.le_max_right _ _) (hn b hb)

theorem exists_values (cfg : Settings W) {fields : Fields} {scope : List Obj} {self : Obj}
    {defs : Definitions} (env : Environment fields scope self defs) :
    ∃ n, ∀ fuel, n ≤ fuel → ∀ name body, defs.lookup name = some body → Word name →
      expandVariable { cfg with fuel := fuel } fields scope self name = .ok (render body) := by
  obtain ⟨n, hn⟩ := exists_bound (defs.map Prod.fst)
    (fun name n => ∀ body, defs.lookup name = some body → Word name → ∀ fuel, n ≤ fuel →
      expandVariable { cfg with fuel := fuel } fields scope self name = .ok (render body))
    (fun name m n le h body known word fuel enough =>
      h body known word fuel (Nat.le_trans le enough))
    (fun name _ => by
      cases known : defs.lookup name with
      | none => exact ⟨0, fun body h => by cases h⟩
      | some body =>
        obtain ⟨_, v, ⟨n, found⟩, isTrue, rendered⟩ := env name body known
        refine ⟨n, fun body' h word fuel enough => ?_⟩
        cases h
        exact expandVariable_word word (found fuel enough) isTrue rendered)
  refine ⟨n, fun fuel enough name body known word => ?_⟩
  have member : name ∈ defs.map Prod.fst :=
    List.mem_map.mpr ⟨_, AssocTable.mem_of_lookup known, rfl⟩
  exact hn name member body known word fuel enough

/-- The expansion of a template ends with its recursive substitution. -/
theorem expand_substitutes (cfg : Settings W) (fields : Fields) (scope : List Obj) (self : Obj)
    (defs : Definitions) (ts : List Token) (env : Environment fields scope self defs)
    (template : ∀ t ∈ ts, t.WellFormed)
    (defined : ∀ name, .ref name ∈ ts → (defs.lookup name).isSome)
    (complete : ∀ user name, Refers defs user name → (defs.lookup name).isSome)
    (acyclic : ∀ name, ¬ Relation.TransGen (Refers defs) name name) :
    ∃ r, (∀ r', Expands defs ts r' ↔ r' = r) ∧ ∃ enough, ∀ fuel, enough ≤ fuel →
      expandText { cfg with fuel := fuel } fields scope self (render ts) = .ok r := by
  obtain ⟨rank, lower, bound⟩ := Acyclic.exists_rank (defs.map Prod.fst).toFinset
    (fun user name h => by
      obtain ⟨body, known, _⟩ := h
      exact List.mem_toFinset.mpr (List.mem_map.mpr ⟨_, AssocTable.mem_of_lookup known, rfl⟩))
    acyclic
  let depth := (defs.map Prod.fst).toFinset.card + 2
  have level : ∀ name, rank name < depth := fun name => Nat.lt_succ_of_le (bound name)
  obtain ⟨r, expands⟩ := exists_expands defs rank lower complete depth ts
    (fun name _ => level name) defined
  obtain ⟨n, values⟩ := exists_values cfg env
  refine ⟨r, fun r' => ⟨fun h => h.unique expands, fun h => h ▸ expands⟩,
    max n (depth + 2), fun fuel enough => ?_⟩
  have parts := PartsExpand.of_tokens expands .nil
  rw [List.append_nil, List.append_nil] at parts
  have text : renderParts (ts.map .token) = render ts := by
    rw [renderParts, List.flatMap_map]
    rfl
  rw [expandText, ← text]
  apply loop_parts (fun name body known => (env name body known).1)
    (values fuel (Nat.le_trans (Nat.le_max_left _ _) enough)) rank
    (fun user name body known mention => lower user name ⟨body, known, mention⟩) depth _ _ parts
    (fun name _ => level name) fuel (Nat.le_trans (Nat.le_max_right _ _) enough)
  intro p hp
  obtain ⟨t, ht, rfl⟩ := List.mem_map.mp hp
  exact template t ht

section Examples

/-- A rule with a flag that ends in a percent sign. -/
def ruleVariables : Definitions :=
  [("CC".toList, [.text "gcc ".toList, .ref "FLAGS".toList]),
    ("FLAGS".toList, [.text "-O".toList, .escape])]

def ruleObject : Obj :=
  ⟨1, [("CC".toList, .str "gcc %FLAGS%".toList), ("FLAGS".toList, .str "-O%%".toList)]⟩

theorem Literal.of_check {s : LuaString}
    (all : s.all (fun c => c != '%' && c != '{' && c != '}' && c != '\x07') = true) :
    Literal s := by
  intro c hc
  have := List.all_eq_true.mp all c hc
  simpa [and_assoc] using this

theorem Word.of_check {s : LuaString} (nonempty : s ≠ [])
    (all : s.all (fun c => c.isAlphanum || c == '_') = true) : Word s := by
  refine ⟨nonempty, fun c hc => ?_⟩
  have := List.all_eq_true.mp all c hc
  simpa using this

theorem rule_refers {user name : LuaString} (h : Refers ruleVariables user name) :
    user = "CC".toList ∧ name = "FLAGS".toList := by
  obtain ⟨body, known, mention⟩ := h
  have entry := AssocTable.mem_of_lookup known
  simp only [ruleVariables, List.mem_cons, List.not_mem_nil, or_false, Prod.mk.injEq] at entry
  rcases entry with ⟨rfl, rfl⟩ | ⟨rfl, rfl⟩
  · simpa using mention
  · simp at mention

theorem rule_environment : Environment (fun _ _ => none) [] ruleObject ruleVariables := by
  intro name body known
  have entry := AssocTable.mem_of_lookup known
  simp only [ruleVariables, List.mem_cons, List.not_mem_nil, or_false, Prod.mk.injEq] at entry
  rcases entry with ⟨rfl, rfl⟩ | ⟨rfl, rfl⟩
  · constructor
    · simp only [List.forall_mem_cons, List.not_mem_nil, false_imp_iff, implies_true, and_true]
      exact ⟨Literal.of_check (by decide), Word.of_check (by decide) (by decide)⟩
    · exact ⟨_, ⟨0, fun fuel _ => by cases fuel <;> rfl⟩, rfl, rfl⟩
  · constructor
    · simp only [List.forall_mem_cons, List.not_mem_nil, false_imp_iff, implies_true, and_true]
      exact ⟨Literal.of_check (by decide), trivial⟩
    · exact ⟨_, ⟨0, fun fuel _ => by cases fuel <;> rfl⟩, rfl, rfl⟩

theorem rule_expands : ∃ r, (∀ r', Expands ruleVariables [.ref "CC".toList, .escape] r' ↔ r' = r) ∧
    ∃ enough, ∀ fuel, enough ≤ fuel →
      expandText { Desk.settings (fun _ => ⟨0, [], []⟩) 0 with fuel := fuel } (fun _ _ => none) []
        ruleObject (render [.ref "CC".toList, .escape]) = .ok r := by
  apply expand_substitutes
  · exact rule_environment
  · simp only [List.forall_mem_cons, List.not_mem_nil, false_imp_iff, implies_true, and_true]
    exact ⟨Word.of_check (by decide) (by decide), trivial⟩
  · intro name hn
    have : name = "CC".toList := by simpa using hn
    rw [this]
    rfl
  · intro user name h
    rw [(rule_refers h).2]
    rfl
  · intro name cycle
    obtain ⟨next, first, _⟩ := Relation.TransGen.head'_iff.mp cycle
    obtain ⟨previous, _, last⟩ := Relation.TransGen.tail'_iff.mp cycle
    have := (rule_refers first).1.symm.trans (rule_refers last).2
    exact absurd this (by decide)

end Examples

end PrimeMover
