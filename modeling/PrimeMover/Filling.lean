import PrimeMover.Classes

/-! What `node:__init` leaves on a clone: the properties that are copied and the children
that are inserted. -/
namespace PrimeMover
open AssocTable LuaArray

variable (lua : Lua)

@[simp] theorem checkint_nat (n : ℕ) : checkint lua (some (.num n)) = some n := by
  simp only [checkint, Rat.num_natCast, Rat.den_natCast, Nat.cast_one, Int.tdiv_one]
  rfl

@[simp] theorem lookup_rawset (o : LuaObject) (key k : LuaString) (v : Datum) :
    (o.rawset key v).fields.lookup k = if k == key then some v else o.fields.lookup k :=
  lookup_setEntry o.fields key k v

@[simp] theorem clone_cells (o : LuaObject) : o.clone.cells = o.cells := rfl

theorem lookup_clone (o : LuaObject) (k : LuaString) : o.clone.fields.lookup k =
    if k == "definedat".toList then none else o.fields.lookup k :=
  lookup_dropEntry o.fields _ k

@[simp] theorem tableInsert_cells (o : LuaObject) (v : Datum) :
    (tableInsert lua o v).cells = put o.cells (getn lua o) v := rfl

theorem setn_counted {o : LuaObject} {p : Nat}
    (count : checkint lua (o.fields.lookup "n".toList) = some p) (n : Nat) :
    setn lua o n = o.rawset "n".toList (.num n) := by
  rw [setn, count]

theorem setn_sized {o : LuaObject} (count : checkint lua (o.fields.lookup "n".toList) = none)
    (n : Nat) : setn lua o n = { o with size := some n } := by
  rw [setn, count]

theorem lookup_tableInsert (o : LuaObject) (v : Datum) (k : LuaString) :
    (tableInsert lua o v).fields.lookup k =
      if k = "n".toList ∧ (checkint lua (o.fields.lookup "n".toList)).isSome then
        some (.num (getn lua o + 1 : ℕ))
      else o.fields.lookup k := by
  cases count : checkint lua (o.fields.lookup "n".toList) with
  | none =>
    rw [tableInsert, setn_sized lua count, if_neg (by rintro ⟨_, h⟩; cases h)]
  | some p =>
    rw [tableInsert, setn_counted lua count]
    simp only [lookup_rawset, Option.isSome_some, and_true, beq_iff_eq]

theorem checkint_tableInsert (o : LuaObject) (v : Datum) :
    checkint lua ((tableInsert lua o v).fields.lookup "n".toList) =
      (checkint lua (o.fields.lookup "n".toList)).map fun _ => getn lua o + 1 := by
  rw [lookup_tableInsert]
  cases count : checkint lua (o.fields.lookup "n".toList) with
  | none =>
    simp only [Option.isSome_none, Bool.false_eq_true, and_false, if_false, count, Option.map_none]
  | some p => simp only [Option.isSome_some, and_self, if_true, checkint_nat, Option.map_some]

theorem getn_tableInsert (o : LuaObject) (v : Datum) :
    getn lua (tableInsert lua o v) = getn lua o + 1 := by
  rw [getn, checkint_tableInsert]
  cases count : checkint lua (o.fields.lookup "n".toList) with
  | none => rw [tableInsert, setn_sized lua count]; rfl
  | some p => rfl

/-- The children of `t`, inserted one by one. -/
def insertAll (o : LuaObject) (items : List Datum) : LuaObject := items.foldl (tableInsert lua) o

theorem insertAll_cells (o : LuaObject) (items : List Datum) :
    (insertAll lua o items).cells = putAll o.cells (getn lua o) items := by
  induction items generalizing o with
  | nil => rfl
  | cons v items ih =>
    have step : insertAll lua o (v :: items) = insertAll lua (tableInsert lua o v) items := rfl
    rw [step, ih, tableInsert_cells, getn_tableInsert, putAll]

theorem lookup_insertAll (o : LuaObject) (items : List Datum) {k : LuaString}
    (other : k ≠ "n".toList ∨ checkint lua (o.fields.lookup "n".toList) = none) :
    (insertAll lua o items).fields.lookup k = o.fields.lookup k := by
  induction items generalizing o with
  | nil => rfl
  | cons v items ih =>
    have step : insertAll lua o (v :: items) = insertAll lua (tableInsert lua o v) items := rfl
    have still : k ≠ "n".toList ∨
        checkint lua ((tableInsert lua o v).fields.lookup "n".toList) = none := by
      rcases other with h | h
      · exact .inl h
      · exact .inr (by rw [checkint_tableInsert, h]; rfl)
    rw [step, ih _ still, lookup_tableInsert]
    rcases other with h | h
    · rw [if_neg (fun c => h c.1)]
    · rw [if_neg (fun c => by rw [h] at c; exact absurd c.2 (by simp))]

/-- A numeric `n` counts the children inserted. -/
theorem counted_insertAll (o : LuaObject) (items : List Datum) {p : Nat}
    (count : checkint lua (o.fields.lookup "n".toList) = some p) :
    checkint lua ((insertAll lua o items).fields.lookup "n".toList) = some (p + items.length) := by
  induction items generalizing o p with
  | nil => exact count
  | cons v items ih =>
    have next : getn lua o = p := by rw [getn, count]; rfl
    have step : insertAll lua o (v :: items) = insertAll lua (tableInsert lua o v) items := rfl
    rw [step, ih (tableInsert lua o v) (p := p + 1) (by
      rw [checkint_tableInsert, count, next]; rfl), List.length_cons]
    congr 1
    omega

/-- The copy of a property reaches the object itself. -/
def Direct (o : LuaObject) (key : LuaString) : Prop :=
  (o.fields.lookup key).isSome ∨ key = "definedat".toList ∨
    o.fields.lookup "__newindex".toList = none

theorem assign_direct {o : LuaObject} {key : LuaString} (direct : Direct o key) (v : Datum) :
    assign lua o key v = .ok (o.rawset key v) := by
  unfold assign
  split
  · rfl
  · rename_i absent
    have none : o.fields.lookup "__newindex".toList = none := by
      rcases direct with h | h | h
      · exact absurd (.inl h) absent
      · exact absurd (.inr h) absent
      · exact h
    rw [none]

/-- No function receives the assignments that `__newindex` takes. -/
def Unhandled (hook : Option Datum) : Prop := ∀ f, hook ≠ some (.func f)

theorem assign_unhandled {o o' : LuaObject} {key : LuaString} {v : Datum}
    (unhandled : Unhandled (o.fields.lookup "__newindex".toList))
    (run : assign lua o key v = .ok o') :
    (Direct o key ∧ o' = o.rawset key v) ∨ (o.fields.lookup key = none ∧ o' = o) := by
  by_cases direct : Direct o key
  · rw [assign_direct lua direct] at run
    cases run
    exact .inl ⟨direct, rfl⟩
  · right
    simp only [Direct, not_or] at direct
    obtain ⟨absent, named, hooked⟩ := direct
    rw [assign, if_neg (by rintro (h | h); exacts [absent h, named h])] at run
    refine ⟨Option.not_isSome_iff_eq_none.mp absent, ?_⟩
    split at run
    · rename_i h
      exact absurd h hooked
    · rename_i f h
      exact absurd h (unhandled f)
    · rename_i object fields cells h
      cases stored : lua.store (.table object fields cells) key v with
      | error e => rw [stored] at run; cases run
      | ok u =>
        rw [stored] at run
        cases run
        rfl
    · cases run

/-- The fields of an object once the properties have been copied onto it. -/
def overlay (entries : List (LuaString × Datum)) (fields : LuaString → Option Datum) (k : LuaString) :
    Option Datum :=
  match lua.numeral k with
  | some _ => fields k
  | none => (entries.lookup k).or (fields k)

/-- Every property of the list reaches the object itself when it is copied. -/
def Undiverted (o : LuaObject) (entries : List (LuaString × Datum)) : Prop :=
  ∀ before key v after, entries = before ++ (key, v) :: after → lua.numeral key = none →
    (o.fields.lookup key).isSome ∨ key = "definedat".toList ∨
      o.fields.lookup "__newindex".toList = none ∧ before.lookup "__newindex".toList = none

theorem Undiverted.head {o : LuaObject} {key : LuaString} {v : Datum}
    {rest : List (LuaString × Datum)} (direct : Undiverted lua o ((key, v) :: rest))
    (name : lua.numeral key = none) : Direct o key := by
  rcases direct [] key v rest rfl name with h | h | h
  · exact .inl h
  · exact .inr (.inl h)
  · exact .inr (.inr h.1)

theorem Undiverted.skip {o : LuaObject} {key : LuaString} {v : Datum}
    {rest : List (LuaString × Datum)} (direct : Undiverted lua o ((key, v) :: rest)) :
    Undiverted lua o rest := by
  intro before k w after split name
  rcases direct ((key, v) :: before) k w after (by rw [split]; rfl) name with h | h | h
  · exact .inl h
  · exact .inr (.inl h)
  · rw [lookup_cons] at h
    by_cases hook : "__newindex".toList = key
    · rw [if_pos (by simp [hook])] at h
      cases h.2
    · rw [if_neg (by simpa using hook)] at h
      exact .inr (.inr h)

theorem Undiverted.tail {o : LuaObject} {key : LuaString} {v : Datum}
    {rest : List (LuaString × Datum)} (direct : Undiverted lua o ((key, v) :: rest)) :
    Undiverted lua (o.rawset key v) rest := by
  intro before k w after split name
  rcases direct ((key, v) :: before) k w after (by rw [split]; rfl) name with h | h | h
  · left
    rw [lookup_rawset]
    split
    · rfl
    · exact h
  · exact .inr (.inl h)
  · right; right
    rw [lookup_cons] at h
    rw [lookup_rawset]
    by_cases hook : "__newindex".toList = key
    · rw [if_pos (by simp [hook])] at h
      cases h.2
    · rw [if_neg (by simpa using hook)] at h
      rw [if_neg (by simpa using hook)]
      exact h

/-- The copy, where no `__newindex` takes a property: the object has the properties of both,
those of the table first. -/
theorem copyFields_undiverted {entries : List (LuaString × Datum)} {o : LuaObject}
    (distinct : (entries.map Prod.fst).Nodup) (direct : Undiverted lua o entries) :
    ∃ o', copyFields lua entries o = .ok o' ∧ o'.cells = o.cells ∧ o'.size = o.size ∧
      ∀ k, o'.fields.lookup k = overlay lua entries (o.fields.lookup ·) k := by
  induction entries generalizing o with
  | nil =>
    refine ⟨o, rfl, rfl, rfl, fun k => ?_⟩
    rw [overlay]
    split <;> rfl
  | cons e rest ih =>
    obtain ⟨key, v⟩ := e
    simp only [List.map_cons, List.nodup_cons] at distinct
    cases name : lua.numeral key with
    | some x =>
      obtain ⟨o', run, cells, size, fields⟩ := ih distinct.2 direct.skip
      refine ⟨o', by rw [copyFields, name]; exact run, cells, size, fun k => ?_⟩
      rw [fields, overlay, overlay]
      cases read : lua.numeral k with
      | some y => rfl
      | none =>
        have other : k ≠ key := by rintro rfl; rw [name] at read; cases read
        rw [lookup_cons, if_neg (by simpa using other)]
    | none =>
      obtain ⟨o', run, cells, size, fields⟩ := ih distinct.2 direct.tail
      refine ⟨o', ?_, cells, size, fun k => ?_⟩
      · rw [copyFields, name]
        simp only [assign_direct lua (direct.head lua name), bind, Except.bind]
        exact run
      · rw [fields, overlay, overlay]
        cases read : lua.numeral k with
        | some y =>
          have other : k ≠ key := by rintro rfl; rw [name] at read; cases read
          rw [lookup_rawset, if_neg (by simpa using other)]
        | none =>
          rw [lookup_cons, lookup_rawset]
          by_cases same : k = key
          · have fresh : rest.lookup k = none := by
              cases found : rest.lookup k with
              | none => rfl
              | some w => exact absurd (List.mem_map.mpr ⟨_, mem_of_lookup found, same⟩) distinct.1
            rw [fresh, if_pos (by simpa using same), if_pos (by simpa using same)]
            rfl
          · rw [if_neg (by simpa using same), if_neg (by simpa using same)]

/-- No function of the pmfile is, or becomes during the copy, the `__newindex`. -/
structure NoHandler (o : LuaObject) (entries : List (LuaString × Datum)) : Prop where
  before : Unhandled (o.fields.lookup "__newindex".toList)
  copied : ∀ v, ("__newindex".toList, v) ∈ entries → Unhandled (some v)

theorem NoHandler.skip {o : LuaObject} {e : LuaString × Datum} {rest : List (LuaString × Datum)}
    (plain : NoHandler o (e :: rest)) : NoHandler o rest :=
  ⟨plain.before, fun v member => plain.copied v (List.mem_cons_of_mem e member)⟩

theorem NoHandler.rawset {o : LuaObject} {key : LuaString} {v : Datum}
    {rest : List (LuaString × Datum)} (plain : NoHandler o ((key, v) :: rest)) :
    NoHandler (o.rawset key v) rest := by
  refine ⟨?_, plain.skip.copied⟩
  rw [lookup_rawset]
  split
  · rename_i hook
    exact plain.copied v (by rw [beq_iff_eq.mp hook]; exact List.mem_cons_self)
  · exact plain.before

/-- One round of the copy: the property is left out, set, or taken by another table. -/
theorem copyFields_cons {o o' : LuaObject} {key : LuaString} {v : Datum}
    {rest : List (LuaString × Datum)} (plain : NoHandler o ((key, v) :: rest))
    (run : copyFields lua ((key, v) :: rest) o = .ok o') :
    ((∃ x, lua.numeral key = some x) ∧ copyFields lua rest o = .ok o') ∨
    (lua.numeral key = none ∧ Direct o key ∧ copyFields lua rest (o.rawset key v) = .ok o') ∨
    (lua.numeral key = none ∧ o.fields.lookup key = none ∧ copyFields lua rest o = .ok o') := by
  rw [copyFields] at run
  cases name : lua.numeral key with
  | some x =>
    rw [name] at run
    exact .inl ⟨⟨x, rfl⟩, run⟩
  | none =>
    rw [name] at run
    cases first : assign lua o key v with
    | error e => simp [first, bind, Except.bind] at run
    | ok o1 =>
      simp only [first, bind, Except.bind] at run
      rcases assign_unhandled lua plain.before first with ⟨direct, rfl⟩ | ⟨absent, rfl⟩
      · exact .inr (.inl ⟨rfl, direct, run⟩)
      · exact .inr (.inr ⟨rfl, absent, run⟩)

theorem copyFields_cells {entries : List (LuaString × Datum)} {o o' : LuaObject}
    (plain : NoHandler o entries) (run : copyFields lua entries o = .ok o') :
    o'.cells = o.cells ∧ o'.size = o.size := by
  induction entries generalizing o with
  | nil => cases run; exact ⟨rfl, rfl⟩
  | cons e rest ih =>
    rcases copyFields_cons lua plain run with ⟨_, run⟩ | ⟨_, _, run⟩ | ⟨_, _, run⟩
    · exact ih plain.skip run
    · have kept := ih plain.rawset run
      exact kept
    · exact ih plain.skip run

/-- What no copied property is named stays as it is. -/
theorem copyFields_frame {entries : List (LuaString × Datum)} {o o' : LuaObject}
    (plain : NoHandler o entries) (run : copyFields lua entries o = .ok o') {k : LuaString}
    (left_out : ∀ v, (k, v) ∈ entries → (lua.numeral k).isSome) :
    o'.fields.lookup k = o.fields.lookup k := by
  induction entries generalizing o with
  | nil => cases run; rfl
  | cons e rest ih =>
    obtain ⟨key, v⟩ := e
    have later : ∀ v, (k, v) ∈ rest → (lua.numeral k).isSome :=
      fun w member => left_out w (List.mem_cons_of_mem _ member)
    rcases copyFields_cons lua plain run with ⟨_, run⟩ | ⟨name, _, run⟩ | ⟨_, _, run⟩
    · exact ih plain.skip run later
    · rw [ih plain.rawset run later, lookup_rawset]
      have other : k ≠ key := by
        rintro rfl
        have := left_out v List.mem_cons_self
        rw [name] at this
        cases this
      rw [if_neg (by simpa using other)]
    · exact ih plain.skip run later

theorem copyFields_member {entries : List (LuaString × Datum)} {o o' : LuaObject}
    (distinct : (entries.map Prod.fst).Nodup) (plain : NoHandler o entries)
    (run : copyFields lua entries o = .ok o') {k : LuaString} {v : Datum}
    (member : (k, v) ∈ entries) (name : lua.numeral k = none) :
    o'.fields.lookup k = some v ∨ o'.fields.lookup k = none := by
  induction entries generalizing o with
  | nil => cases member
  | cons e rest ih =>
    obtain ⟨key, w⟩ := e
    simp only [List.map_cons, List.nodup_cons] at distinct
    have step := copyFields_cons lua plain run
    rcases List.mem_cons.mp member with same | member
    · cases same
      have fresh : ∀ w, (k, w) ∈ rest → (lua.numeral k).isSome :=
        fun w again => absurd (List.mem_map.mpr ⟨_, again, rfl⟩) distinct.1
      rcases step with ⟨⟨x, read⟩, _⟩ | ⟨_, _, run⟩ | ⟨_, absent, run⟩
      · rw [name] at read; cases read
      · left
        rw [copyFields_frame lua plain.rawset run fresh, lookup_rawset, if_pos (by simp)]
      · right
        rw [copyFields_frame lua plain.skip run fresh, absent]
    · rcases step with ⟨_, run⟩ | ⟨_, _, run⟩ | ⟨_, _, run⟩
      · exact ih distinct.2 plain.skip run member
      · exact ih distinct.2 plain.rawset run member
      · exact ih distinct.2 plain.skip run member

theorem Undiverted.cons_skipped {o : LuaObject} {key : LuaString} {v : Datum}
    {rest : List (LuaString × Datum)} {x : ℚ} (numeral : lua.numeral key = some x)
    (there : (o.fields.lookup key).isSome) (later : Undiverted lua o rest) :
    Undiverted lua o ((key, v) :: rest) := by
  intro before k w after split name
  cases before with
  | nil => cases split; rw [name] at numeral; cases numeral
  | cons b before =>
    cases split
    rcases later before k w after rfl name with h | h | h
    · exact .inl h
    · exact .inr (.inl h)
    · right; right
      refine ⟨h.1, ?_⟩
      rw [lookup_cons]
      split
      · rename_i hook
        have same : "__newindex".toList = key := beq_iff_eq.mp hook
        rw [← same, h.1] at there
        cases there
      · exact h.2

theorem Undiverted.cons_set {o : LuaObject} {key : LuaString} {v : Datum}
    {rest : List (LuaString × Datum)} (fresh : key ∉ rest.map Prod.fst) (here : Direct o key)
    (later : Undiverted lua (o.rawset key v) rest) : Undiverted lua o ((key, v) :: rest) := by
  intro before k w after split name
  cases before with
  | nil =>
    cases split
    rcases here with h | h | h
    · exact .inl h
    · exact .inr (.inl h)
    · exact .inr (.inr ⟨h, rfl⟩)
  | cons b before =>
    cases split
    have other : k ≠ key := by
      rintro rfl
      exact fresh (List.mem_map.mpr ⟨(k, w), by simp, rfl⟩)
    rcases later before k w after rfl name with h | h | h
    · rw [lookup_rawset, if_neg (by simpa using other)] at h
      exact .inl h
    · exact .inr (.inl h)
    · right; right
      rw [lookup_rawset] at h
      by_cases hook : "__newindex".toList = key
      · rw [if_pos (by simpa using hook)] at h
        cases h.1
      · rw [if_neg (by simpa using hook)] at h
        rw [lookup_cons, if_neg (by simpa using hook)]
        exact h

/-- Where every property arrives, none has gone to a `__newindex`. -/
theorem undiverted_of_arrived {entries : List (LuaString × Datum)} {o o' : LuaObject}
    (distinct : (entries.map Prod.fst).Nodup) (plain : NoHandler o entries)
    (run : copyFields lua entries o = .ok o')
    (arrived : ∀ k v, (k, v) ∈ entries → o'.fields.lookup k = some v) :
    Undiverted lua o entries := by
  induction entries generalizing o with
  | nil =>
    intro before k v after split
    cases before <;> cases split
  | cons e rest ih =>
    obtain ⟨key, w⟩ := e
    simp only [List.map_cons, List.nodup_cons] at distinct
    have fresh : ∀ w, (key, w) ∈ rest → (lua.numeral key).isSome :=
      fun w again => absurd (List.mem_map.mpr ⟨_, again, rfl⟩) distinct.1
    have later : ∀ k v, (k, v) ∈ rest → o'.fields.lookup k = some v :=
      fun k v member => arrived k v (List.mem_cons_of_mem _ member)
    have here := arrived key w List.mem_cons_self
    rcases copyFields_cons lua plain run with ⟨⟨x, read⟩, run⟩ | ⟨_, direct, run⟩ | ⟨_, absent, run⟩
    · rw [copyFields_frame lua plain.skip run fresh] at here
      exact .cons_skipped lua read (by rw [here]; rfl) (ih distinct.2 plain.skip run later)
    · exact .cons_set lua distinct.1 direct (ih distinct.2 plain.rawset run later)
    · rw [copyFields_frame lua plain.skip run fresh, absent] at here
      cases here

/-- The new object has the children of its class, then those of the table, and every
property of the table. -/
structure Kept (C : LuaObject) (t : Properties) (o : LuaObject) : Prop where
  children : front o.cells = front C.cells ++ t.items
  properties : ∀ key v, (key, v) ∈ t.fields → o.fields.lookup key = some v

/-- No property is called like a number unless the class has it already, none goes to a
`__newindex`, and a numeric `n` is that of the class and counts its children. -/
structure KeepsAll (C : LuaObject) (t : Properties) : Prop where
  names : ∀ key v, (key, v) ∈ t.fields →
    lua.numeral key = none ∨ C.clone.fields.lookup key = some v
  undiverted : Undiverted lua C.clone t.fields
  count : t.items = [] ∨
    (∀ v, t.fields.lookup "n".toList = some v → checkint lua (some v) = none) ∧
    (t.fields.lookup "n".toList = none →
      ∀ p, checkint lua (C.fields.lookup "n".toList) = some p → p = (front C.cells).length) ∧
    cell C.cells ((front C.cells).length + t.items.length) = none

theorem fill_eq_ok {o o' : LuaObject} {t : Properties} (run : fill lua o t = .ok o') :
    ∃ copied, copyFields lua t.fields o = .ok copied ∧ o' = insertAll lua copied t.items := by
  rw [fill] at run
  cases copy : copyFields lua t.fields o with
  | error e => simp [copy, bind, Except.bind] at run
  | ok copied =>
    simp only [copy, bind, Except.bind, Except.ok.injEq] at run
    exact ⟨copied, rfl, run.symm⟩

theorem clone_n (C : LuaObject) :
    C.clone.fields.lookup "n".toList = C.fields.lookup "n".toList := by
  rw [lookup_clone, if_neg (by decide)]

/-- The position behind the children of a fresh clone. -/
theorem getn_behind {C o : LuaObject} (size : o.size = none) (cells : o.cells = C.cells)
    (count : ∀ p, checkint lua (o.fields.lookup "n".toList) = some p →
      p = (front C.cells).length) : getn lua o = (front C.cells).length := by
  rw [getn, size, cells]
  cases number : checkint lua (o.fields.lookup "n".toList) with
  | none => rfl
  | some p => exact count p number

theorem kept_of_keepsAll {C o : LuaObject} {t : Properties} (run : fill lua C.clone t = .ok o)
    (keeps : KeepsAll lua C t) : Kept C t o := by
  obtain ⟨copied, copy, rfl⟩ := fill_eq_ok lua run
  obtain ⟨o', copy', cells, size, fields⟩ := copyFields_undiverted lua t.distinct keeps.undiverted
  rw [copy] at copy'
  cases copy'
  have n : copied.fields.lookup "n".toList =
      (t.fields.lookup "n".toList).or (C.fields.lookup "n".toList) := by
    rw [fields, overlay, lua.numeral_n, ← clone_n C]
  have arrived : ∀ key v, (key, v) ∈ t.fields → copied.fields.lookup key = some v := by
    intro key v member
    rw [fields, overlay]
    cases name : lua.numeral key with
    | some x =>
      rcases keeps.names key v member with h | h
      · rw [name] at h; cases h
      · exact h
    | none => rw [lookup_of_mem t.distinct member]; rfl
  rcases keeps.count with empty | ⟨plain, behind, clear⟩
  · have unchanged : insertAll lua copied t.items = copied := by rw [empty]; rfl
    rw [unchanged]
    exact ⟨by rw [cells, clone_cells, empty, List.append_nil], arrived⟩
  · refine ⟨?_, fun key v member => ?_⟩
    · have position : getn lua copied = (front C.cells).length := by
        refine getn_behind lua size cells fun p number => ?_
        rw [n] at number
        cases own : t.fields.lookup "n".toList with
        | some v =>
          rw [own] at number
          have := plain v own
          rw [Option.some_or] at number
          rw [number] at this
          cases this
        | none =>
          rw [own] at number
          exact behind own p number
      rw [insertAll_cells, cells, clone_cells, position]
      exact front_putAll rfl clear
    · rw [lookup_insertAll lua copied t.items]
      · exact arrived key v member
      · by_cases counter : key = "n".toList
        · right
          rw [← counter, arrived key v member]
          exact plain v (by rw [← counter]; exact lookup_of_mem t.distinct member)
        · exact .inl counter

theorem keepsAll_of_kept {C o : LuaObject} {t : Properties} (run : fill lua C.clone t = .ok o)
    (plain : NoHandler C.clone t.fields) (whole : C.cells = (front C.cells).map some)
    (kept : Kept C t o) : KeepsAll lua C t := by
  obtain ⟨copied, copy, rfl⟩ := fill_eq_ok lua run
  obtain ⟨cells, size⟩ := copyFields_cells lua plain copy
  have counted : ∀ p, checkint lua (copied.fields.lookup "n".toList) = some p →
      ∀ v, ("n".toList, v) ∈ t.fields → t.items = [] := by
    intro p number v member
    have total := counted_insertAll lua copied t.items number
    rw [kept.properties _ v member] at total
    have own : copied.fields.lookup "n".toList = some v := by
      rcases copyFields_member lua t.distinct plain copy member lua.numeral_n with h | h
      · exact h
      · rw [h] at number; cases number
    rw [own, total] at number
    have := Option.some.inj number
    exact List.length_eq_zero_iff.mp (by omega)
  have arrived : ∀ key v, (key, v) ∈ t.fields → copied.fields.lookup key = some v := by
    intro key v member
    rw [← kept.properties key v member]
    by_cases counter : key = "n".toList
    · subst counter
      cases number : checkint lua (copied.fields.lookup "n".toList) with
      | none => rw [lookup_insertAll lua copied t.items (.inr number)]
      | some p => rw [counted p number v member]; rfl
    · rw [lookup_insertAll lua copied t.items (.inl counter)]
  refine ⟨fun key v member => ?_, undiverted_of_arrived lua t.distinct plain copy arrived, ?_⟩
  · cases name : lua.numeral key with
    | none => exact .inl rfl
    | some x =>
      right
      rw [← copyFields_frame lua plain copy (fun _ _ => by rw [name]; rfl)]
      exact arrived key v member
  · by_cases empty : t.items = []
    · exact .inl empty
    refine .inr ⟨fun v own => ?_, fun absent p number => ?_, ?_⟩
    · have member := mem_of_lookup own
      cases number : checkint lua (some v) with
      | none => rfl
      | some p =>
        have there := arrived _ v member
        exact absurd (counted p (by rw [there, number]) v member) empty
    · have still : copied.fields.lookup "n".toList = C.fields.lookup "n".toList := by
        rw [copyFields_frame lua plain copy, clone_n]
        intro v member
        rw [lookup_of_mem t.distinct member] at absent
        cases absent
      have position : getn lua copied = p := by rw [getn, still, number]; rfl
      have children := kept.children
      rw [insertAll_cells, cells, clone_cells, position] at children
      exact (front_putAll_iff empty whole).mp children
    · rw [whole, front_some]
      simp [cell]

/-- What `node:__init` copies and appends without an error is all there exactly when no name
gets in the way. -/
theorem children_and_properties_kept {C o : LuaObject} {t : Properties}
    (run : fill lua C.clone t = .ok o) :
    (KeepsAll lua C t → Kept C t o) ∧
    (NoHandler C.clone t.fields → C.cells = (front C.cells).map some →
      Kept C t o → KeepsAll lua C t) :=
  ⟨kept_of_keepsAll lua run, keepsAll_of_kept lua run⟩

/-- Numerals are decimal integers; a `__newindex` of the pmfile does what `rawset` does. -/
def decimals : Lua where
  numeral s := (tointeger s).map fun n => (n : ℚ)
  numeral_n := rfl
  numeral_i := rfl
  newindex _ o key v := .ok (o.rawset key v)
  store _ _ _ := .ok ()
  construct _ s := .ok (some (.str s))
  initialise _ o _ := .ok o

example : call decimals (fun _ _ => .ok none) [] Builtin.node (.table ⟨[("class".toList,
    .str "deponly".toList), ("ensure_at_least_one_child".toList, .bool true)], [], by decide⟩) =
    .ok Builtin.deponly := rfl

/-- `{name = "x", "a.c", "b.c"}` -/
def listing : Properties :=
  ⟨[("name".toList, .str "x".toList)], [.str "a.c".toList, .str "b.c".toList], by simp⟩

theorem listing_kept : ∃ o, fill decimals Builtin.group.clone listing = .ok o ∧
    (KeepsAll decimals Builtin.group listing ↔ Kept Builtin.group listing o) := by
  refine ⟨_, rfl, ?_⟩
  have both := children_and_properties_kept decimals (C := Builtin.group) (t := listing) rfl
  refine ⟨both.1, both.2 ⟨?_, ?_⟩ rfl⟩
  · intro f h
    cases h
  · intro v member
    cases member with
    | tail _ rest => cases rest

/-- `{n = 1, "a.c"}` -/
def numbered : Properties := ⟨[("n".toList, .num 1)], [.str "a.c".toList], by simp⟩

theorem child_behind_nil : ¬ ∀ (lua : Lua) (make : Datum → LuaString → Except Stop (Option Datum))
    (position : LuaString) (C : LuaObject) (t : Properties) (o o' : LuaObject),
    fill lua C.clone t = .ok o → verify lua make position o = .ok o' → Kept C t o := by
  intro keeps
  have kept := keeps decimals (fun _ _ => .ok none) [] Builtin.group numbered _ _ rfl rfl
  have children : [] = [Datum.str "a.c".toList] := kept.children
  cases children

end PrimeMover
