import PrimeMover.Filling

/-! When the checks of `__init` accept an object that no `__newindex` watches, and what they
change on it. The position a call is made from shows in its errors only. -/
namespace PrimeMover
open AssocTable LuaArray

/-- Two computations that succeed alike. -/
def Alike {A : Type} (x y : Except Stop A) : Prop := ∀ a, x = .ok a ↔ y = .ok a

namespace Alike

variable {A B : Type}

theorem refl (x : Except Stop A) : Alike x x := fun _ => Iff.rfl

theorem errors (e e' : Stop) : Alike (.error e : Except Stop A) (.error e') := by
  intro a
  constructor <;> intro h <;> cases h

theorem bind {x y : Except Stop A} {f g : A → Except Stop B} (first : Alike x y)
    (rest : ∀ a, Alike (f a) (g a)) : Alike (x >>= f) (y >>= g) := by
  intro b
  cases x with
  | error e =>
    cases y with
    | error e' => exact errors e e' b
    | ok a => exact absurd ((first a).mpr rfl) (by simp)
  | ok a =>
    rw [(first a).mp rfl]
    exact rest a b

end Alike

theorem except_bind_ok {A B : Type} {x : Except Stop A} {f : A → Except Stop B} {b : B} :
    (x >>= f) = .ok b ↔ ∃ a, x = .ok a ∧ f a = .ok b := by
  cases x <;> simp [bind, Except.bind]

section Position
variable (lua : Lua) (p q : LuaString)

theorem checkChildren_alike (o : LuaObject) (type : LuaString) (i : Nat) (js : List Datum) :
    Alike (checkChildren o p type i js) (checkChildren o q type i js) := by
  induction js generalizing i with
  | nil => exact .refl _
  | cons j js ih =>
    unfold checkChildren
    split
    · exact ih (i + 1)
    · exact .errors _ _

theorem ensureAtLeastOneChild_alike (o : LuaObject) :
    Alike (ensureAtLeastOneChild lua p o) (ensureAtLeastOneChild lua q o) := by
  unfold ensureAtLeastOneChild
  split
  · exact .errors _ _
  · exact .refl _

theorem allChildrenAreObjects_alike (o : LuaObject) :
    Alike (allChildrenAreObjects p o) (allChildrenAreObjects q o) := by
  unfold allChildrenAreObjects
  split
  · exact .refl _
  · exact checkChildren_alike p q o _ 1 _

theorem verifyInstall_alike (o : LuaObject) :
    Alike (verifyInstall lua p o) (verifyInstall lua q o) := by
  unfold verifyInstall
  split <;> first | exact .refl _ | exact .errors _ _

theorem numberProperty_alike (key : LuaString) (o : LuaObject) :
    Alike (numberProperty p key o) (numberProperty q key o) := by
  unfold numberProperty
  split <;> first | exact .refl _ | exact .errors _ _

theorem selectOne_alike (o : LuaObject) : Alike (selectOne lua p o) (selectOne lua q o) := by
  unfold selectOne
  split
  · exact .refl _
  · split
    · exact .errors _ _
    · exact (numberProperty_alike p q _ o).bind fun _ => .refl _

theorem verifyOutputs_alike (o : LuaObject) : Alike (verifyOutputs p o) (verifyOutputs q o) := by
  unfold verifyOutputs
  split <;> first | exact .refl _ | exact .errors _ _

theorem verifyCommand_alike (o : LuaObject) :
    Alike (verifyCommand lua p o) (verifyCommand lua q o) := by
  unfold verifyCommand
  split <;> first | exact .refl _ | exact .errors _ _

theorem verifySimple_alike (o : LuaObject) :
    Alike (verifySimple lua p o) (verifySimple lua q o) :=
  (verifyOutputs_alike p q o).bind fun _ => verifyCommand_alike lua p q o

theorem verifyDynamicheaders_alike (o : LuaObject) :
    Alike (verifyDynamicheaders lua p o) (verifyDynamicheaders lua q o) := by
  unfold verifyDynamicheaders
  split
  · exact .refl _
  · exact .refl _
  · exact .errors _ _

theorem verifyOwn_alike (c : Constructor) (o : LuaObject) :
    Alike (c.verify lua p o) (c.verify lua q o) := by
  cases c with
  | node => exact .refl _
  | file => exact (checkChildren_alike p q o _ 1 _).bind fun _ => .refl _
  | ith =>
    refine (selectOne_alike lua p q o).bind fun o => ?_
    refine (numberProperty_alike p q _ o).bind fun _ => ?_
    exact (numberProperty_alike p q _ o).bind fun _ => .refl _
  | foreach =>
    simp only [Constructor.verify]
    unfold verifyForeach
    split <;> first | exact .refl _ | exact .errors _ _
  | simple => exact verifySimple_alike lua p q o
  | clike =>
    exact (verifySimple_alike lua p q o).bind fun o => verifyDynamicheaders_alike lua p q o

variable {make make' : Datum → LuaString → Except Stop (Option Datum)}

theorem constructCells_alike {make make' : LuaString → Except Stop (Option Datum)}
    (same : ∀ s, Alike (make s) (make' s)) (cells : List (Option Datum)) :
    Alike (constructCells make cells) (constructCells make' cells) := by
  induction cells with
  | nil => exact .refl _
  | cons c cells ih =>
    match c with
    | some (.str s) => exact (same s).bind fun _ => ih.bind fun _ => .refl _
    | some (.num _) | some (.bool _) | some (.func _) | some (.table ..) =>
      exact ih.bind fun _ => .refl _
    | none => exact .refl _

theorem constructStringChildren_alike (same : ∀ c s, Alike (make c s) (make' c s)) (o : LuaObject) :
    Alike (constructStringChildren make o) (constructStringChildren make' o) := by
  unfold constructStringChildren
  split
  · exact .refl _
  · exact (constructCells_alike (same _) o.cells).bind fun _ => .refl _

theorem verify_alike (same : ∀ c s, Alike (make c s) (make' c s)) (o : LuaObject) :
    Alike (verify lua make p o) (verify lua make' q o) := by
  refine (Alike.refl _).bind fun _ => ?_
  refine (ensureAtLeastOneChild_alike lua p q o).bind fun _ => ?_
  refine (constructStringChildren_alike same o).bind fun o => ?_
  exact (allChildrenAreObjects_alike p q o).bind fun _ => verifyInstall_alike lua p q o

theorem call_alike (same : ∀ c s, Alike (make c s) (make' c s)) (self : LuaObject) (a : Argument) :
    Alike (call lua make p self a) (call lua make' q self a) := by
  unfold call
  split
  · refine Alike.bind ?_ fun o => ?_
    · unfold nodeInit
      split
      · exact .errors _ _
      · refine (Alike.refl _).bind fun o => ?_
        split
        · exact .refl _
        · exact verify_alike lua p q same o
    · split
      · exact .refl _
      · exact verifyOwn_alike lua p q _ o
  · exact .refl _
  · exact .errors _ _

/-- A child is constructed alike wherever the call stands. -/
theorem construct_alike (fuel : Nat) (c : Datum) (s : LuaString) :
    Alike (construct lua p fuel c s) (construct lua q fuel c s) := by
  induction fuel generalizing c s with
  | zero => exact .refl _
  | succ fuel ih =>
    match c with
    | .table true fields cells =>
      exact (call_alike lua p q ih ⟨fields, cells, none⟩ _).bind fun _ => .refl _
    | .func f => exact .refl _
    | .table false fields cells | .str _ | .num _ | .bool _ => exact .errors _ _

end Position

/-- An object of which the class system reads nothing but what it wrote there itself: no
`__newindex`, no numeric `n`, no nil among the children. -/
structure Tame (lua : Lua) (o : LuaObject) : Prop where
  hook : o.fields.lookup "__newindex".toList = none
  count : checkint lua (o.fields.lookup "n".toList) = none
  whole : o.cells = (front o.cells).map some
  size : o.size = none ∨ o.size = some (front o.cells).length

def Datum.isTable : Datum → Bool
  | .table .. => true
  | _ => false

def Datum.isString : Datum → Bool
  | .str _ => true
  | _ => false

def Datum.isFunction : Datum → Bool
  | .func _ => true
  | _ => false

def Datum.isNumber : Datum → Bool
  | .num _ => true
  | _ => false

theorem typeName_table (v : Datum) : v.typeName = "table".toList ↔ v.isTable = true := by
  cases v with
  | str s => exact iff_of_false (by decide : "string".toList ≠ "table".toList) Bool.false_ne_true
  | num x => exact iff_of_false (by decide : "number".toList ≠ "table".toList) Bool.false_ne_true
  | bool b => exact iff_of_false (by decide : "boolean".toList ≠ "table".toList) Bool.false_ne_true
  | func f => exact iff_of_false (by decide : "function".toList ≠ "table".toList) Bool.false_ne_true
  | table object fields cells => exact iff_of_true rfl rfl

theorem typeName_string (v : Datum) : v.typeName = "string".toList ↔ v.isString = true := by
  cases v with
  | str s => exact iff_of_true rfl rfl
  | num x => exact iff_of_false (by decide : "number".toList ≠ "string".toList) Bool.false_ne_true
  | bool b => exact iff_of_false (by decide : "boolean".toList ≠ "string".toList) Bool.false_ne_true
  | func f => exact iff_of_false (by decide : "function".toList ≠ "string".toList) Bool.false_ne_true
  | table object fields cells =>
    exact iff_of_false (by decide : "table".toList ≠ "string".toList) Bool.false_ne_true

/-- A property whose value, where it is set, is of a type. -/
def Typed (type : Datum → Bool) (v : Option Datum) : Prop :=
  ∀ w, Datum.given v = some w → type w = true

def Required (type : Datum → Bool) (v : Option Datum) : Prop :=
  ∃ w, Datum.given v = some w ∧ type w = true

theorem typed_none {type : Datum → Bool} {v : Option Datum} (h : Datum.given v = none) :
    Typed type v := by
  intro w found
  rw [h] at found
  cases found

theorem typed_iff {type : Datum → Bool} {v : Option Datum} {w : Datum}
    (h : Datum.given v = some w) : Typed type v ↔ type w = true := by
  simp only [Typed, h, Option.some.injEq, forall_eq']

theorem required_iff {type : Datum → Bool} {v : Option Datum} {w : Datum}
    (h : Datum.given v = some w) : Required type v ↔ type w = true := by
  simp only [Required, h, Option.some.injEq, exists_eq_left']

theorem not_required {type : Datum → Bool} {v : Option Datum} (h : Datum.given v = none) :
    ¬ Required type v := by
  rintro ⟨w, found, _⟩
  rw [h] at found
  cases found

def Datum.installable (v : Datum) : Bool := v.isTable || v.isString || v.isFunction

def Datum.commands (v : Datum) : Bool := v.isTable || v.isString

/-- What a child becomes: strings are constructed, the rest stays. -/
def Child (make : LuaString → Except Stop (Option Datum)) (x y : Datum) : Prop :=
  match x with
  | .str s => make s = .ok (some y)
  | x => y = x

def Constructed (make : Datum → LuaString → Except Stop (Option Datum)) (c : Option Datum)
    (xs ys : List Datum) : Prop :=
  match c with
  | none => ys = xs
  | some c => List.Forall₂ (Child (make c)) xs ys

/-- A constructor that gives objects. -/
def MakesObjects (make : LuaString → Except Stop (Option Datum)) : Prop :=
  ∀ s m, make s = .ok m → ∃ fields cells, m = some (.table true fields cells)

/-- The verification of `node:__init`, as a condition on the properties `F`, the children
`xs` and the children `ys` constructed from them. -/
structure Checked (make : Datum → LuaString → Except Stop (Option Datum))
    (F : LuaString → Option Datum) (xs ys : List Datum) : Prop where
  count : ∀ v, Datum.given (F "ensure_n_children".toList) = some v → v = .num (xs.length : ℕ)
  filled : (Datum.given (F "ensure_at_least_one_child".toList)).isSome → xs ≠ []
  children : Constructed make (Datum.given (F "construct_string_children_with".toList)) xs ys
  objects : (Datum.given (F "all_children_are_objects".toList)).isSome →
    ∀ y ∈ ys, y.isTable = true
  install : Typed Datum.installable (F "install".toList)

/-- What `ith` accepts of the three properties that bound its range. -/
def Bounds (F : LuaString → Option Datum) : Prop :=
  (∀ i, Datum.given (F "i".toList) = some i → Datum.given (F "from".toList) = none ∧
    Datum.given (F "to".toList) = none ∧ i.isNumber = true) ∧
  Typed Datum.isNumber (F "from".toList) ∧ Typed Datum.isNumber (F "to".toList)

/-- The verification of each `__init`. -/
def Constructor.Accepts (F : LuaString → Option Datum) (ys : List Datum) : Constructor → Prop
  | .node => True
  | .file => ∀ y ∈ ys, y.isString = true
  | .ith => Bounds F
  | .foreach => Required Datum.isTable (F "rule".toList)
  | .simple => Required Datum.isTable (F "outputs".toList) ∧
    Required Datum.commands (F "command".toList)
  | .clike => (Required Datum.isTable (F "outputs".toList) ∧
    Required Datum.commands (F "command".toList)) ∧
    Typed Datum.isTable (F "dynamicheaders".toList)

section Specs
variable (lua : Lua)

theorem getn_tame {o : LuaObject} (tame : Tame lua o) : getn lua o = (front o.cells).length := by
  rw [getn, tame.count]
  rcases tame.size with size | size <;> rw [size] <;> rfl

theorem ensureNChildren_ok {o : LuaObject} (tame : Tame lua o) :
    ensureNChildren lua o = .ok () ↔ ∀ v, property o "ensure_n_children".toList = some v →
      v = .num ((front o.cells).length : ℕ) := by
  unfold ensureNChildren
  rw [getn_tame lua tame]
  split
  · rename_i h
    simp only [h, true_iff]
    intro v found
    cases found
  · rename_i n h
    simp only [h, Option.some.injEq]
    split
    · rename_i same
      simp only [true_iff]
      rintro v rfl
      rw [same]
    · rename_i differ
      constructor
      · intro failed; cases failed
      · intro right
        have := right _ rfl
        injection this with this
        exact absurd this.symm differ
  · rename_i s h
    simp only [h]
    constructor
    · intro failed; cases failed
    · intro right
      cases right _ rfl
  · rename_i n number string h
    simp only [h]
    constructor
    · intro failed; cases failed
    · intro right
      exact (number _ (right _ rfl)).elim

theorem ensureAtLeastOneChild_ok {o : LuaObject} (tame : Tame lua o) (position : LuaString) :
    ensureAtLeastOneChild lua position o = .ok () ↔
      ((property o "ensure_at_least_one_child".toList).isSome → front o.cells ≠ []) := by
  unfold ensureAtLeastOneChild
  rw [getn_tame lua tame]
  split
  · rename_i h
    constructor
    · intro failed; cases failed
    · intro some_child
      have := List.length_pos_iff.mpr (some_child h.1)
      exact absurd h.2 (by omega)
  · rename_i h
    simp only [true_iff]
    intro required empty
    exact h ⟨required, by rw [empty]; exact Nat.zero_lt_one⟩

theorem checkChildren_ok (o : LuaObject) (position type : LuaString) (i : Nat) (js : List Datum) :
    checkChildren o position type i js = .ok () ↔ ∀ j ∈ js, j.typeName = type := by
  induction js generalizing i with
  | nil => simp [checkChildren]
  | cons j js ih =>
    unfold checkChildren
    split
    · rename_i same
      rw [ih]
      simp [same]
    · rename_i differ
      constructor
      · intro failed; cases failed
      · intro all
        exact absurd (all j List.mem_cons_self) differ

theorem constructCells_ok {make : LuaString → Except Stop (Option Datum)}
    (objects : MakesObjects make) (xs : List Datum) (cells : List (Option Datum)) :
    constructCells make (xs.map some) = .ok cells ↔
      ∃ ys, cells = ys.map some ∧ List.Forall₂ (Child make) xs ys := by
  induction xs generalizing cells with
  | nil =>
    simp only [List.map_nil, constructCells, Except.ok.injEq, List.forall₂_nil_left_iff]
    constructor
    · rintro rfl; exact ⟨[], rfl, rfl⟩
    · rintro ⟨ys, rfl, rfl⟩; rfl
  | cons x xs ih =>
    match x with
    | .str s =>
      simp only [List.map_cons, constructCells, except_bind_ok, ih, Except.ok.injEq]
      constructor
      · rintro ⟨m, made, _, ⟨ys, rfl, rest⟩, rfl⟩
        obtain ⟨fields, children, rfl⟩ := objects s m made
        exact ⟨_ :: ys, rfl, .cons made rest⟩
      · rintro ⟨ys, rfl, all⟩
        cases all with
        | cons made rest => exact ⟨_, made, _, ⟨_, rfl, rest⟩, rfl⟩
    | .num _ | .bool _ | .func _ | .table .. =>
      simp only [List.map_cons, constructCells, except_bind_ok, ih, Except.ok.injEq]
      constructor
      · rintro ⟨_, ⟨ys, rfl, rest⟩, rfl⟩
        exact ⟨_ :: ys, rfl, .cons rfl rest⟩
      · rintro ⟨ys, rfl, all⟩
        cases all with
        | cons same rest =>
          cases same
          exact ⟨_, ⟨_, rfl, rest⟩, rfl⟩

/-- The object with these children instead. -/
def LuaObject.withChildren (o : LuaObject) (ys : List Datum) : LuaObject :=
  { o with cells := ys.map some }

theorem constructStringChildren_ok {make : Datum → LuaString → Except Stop (Option Datum)}
    {o o' : LuaObject} (whole : o.cells = (front o.cells).map some)
    (objects : ∀ c, property o "construct_string_children_with".toList = some c →
      MakesObjects (make c)) :
    constructStringChildren make o = .ok o' ↔ ∃ ys,
      Constructed make (property o "construct_string_children_with".toList) (front o.cells) ys ∧
        o' = o.withChildren ys := by
  unfold constructStringChildren
  split
  · rename_i h
    simp only [h, Constructed, Except.ok.injEq, exists_eq_left, LuaObject.withChildren, ← whole]
    exact eq_comm
  · rename_i c h
    rw [whole]
    simp only [h, except_bind_ok, constructCells_ok (objects c h), front_some, Constructed,
      Except.ok.injEq]
    constructor
    · rintro ⟨cells, ⟨ys, rfl, made⟩, rfl⟩
      exact ⟨ys, made, rfl⟩
    · rintro ⟨ys, made, rfl⟩
      exact ⟨_, ⟨ys, rfl, made⟩, rfl⟩

theorem allChildrenAreObjects_ok (o : LuaObject) (position : LuaString) :
    allChildrenAreObjects position o = .ok () ↔
      ((property o "all_children_are_objects".toList).isSome →
        ∀ y ∈ front o.cells, y.isTable = true) := by
  unfold allChildrenAreObjects
  cases h : property o "all_children_are_objects".toList with
  | none => simp only [Option.isSome_none, Bool.false_eq_true, false_implies]
  | some v =>
    simp only [Option.isSome_some, forall_const, ← typeName_table]
    exact checkChildren_ok o position _ 1 _

/-- `self[key] = {self[key]}`, where the property is of the type. -/
def LuaObject.wrapWhere (o : LuaObject) (type : Datum → Bool) (key : LuaString) : LuaObject :=
  match property o key with
  | some v => if type v then o.rawset key (.list v) else o
  | none => o

def Datum.invocable (v : Datum) : Bool := v.isString || v.isFunction

def LuaObject.wrapInstall (o : LuaObject) : LuaObject := o.wrapWhere Datum.invocable "install".toList

def LuaObject.wrapCommand (o : LuaObject) : LuaObject := o.wrapWhere Datum.isString "command".toList

def LuaObject.wrapHeaders (o : LuaObject) : LuaObject :=
  o.wrapWhere Datum.isObject "dynamicheaders".toList

/-- `self.from = self.i`, `self.to = self.i` -/
def LuaObject.selectOne (o : LuaObject) : LuaObject :=
  match property o "i".toList with
  | some i => (o.rawset "from".toList i).rawset "to".toList i
  | none => o

theorem assign_plain {o : LuaObject} (hook : o.fields.lookup "__newindex".toList = none)
    (key : LuaString) (v : Datum) : assign lua o key v = .ok (o.rawset key v) :=
  assign_direct lua (.inr (.inr hook)) v

theorem accepted {A : Type} {x y : A} {P : Prop} (holds : P) :
    (.ok x : Except Stop A) = .ok y ↔ P ∧ y = x := by
  rw [Except.ok.injEq, and_iff_right holds, eq_comm]

theorem refused {A : Type} {e : Stop} {y : A} {P Q : Prop} (fails : ¬ P) :
    (.error e : Except Stop A) = .ok y ↔ P ∧ Q := by
  constructor
  · intro h; cases h
  · intro h; exact absurd h.1 fails

theorem verifyInstall_ok {o o' : LuaObject} (hook : o.fields.lookup "__newindex".toList = none)
    (position : LuaString) : verifyInstall lua position o = .ok o' ↔
      Typed Datum.installable (o.fields.lookup "install".toList) ∧ o' = o.wrapInstall := by
  unfold verifyInstall LuaObject.wrapInstall LuaObject.wrapWhere
  cases h : property o "install".toList with
  | none => exact accepted (typed_none h)
  | some v =>
    cases v with
    | str s => simp only [assign_plain lua hook]; exact accepted ((typed_iff h).mpr rfl)
    | func f => simp only [assign_plain lua hook]; exact accepted ((typed_iff h).mpr rfl)
    | table object fields cells => exact accepted ((typed_iff h).mpr rfl)
    | num x => exact refused fun c => Bool.noConfusion ((typed_iff h).mp c)
    | bool b => exact refused fun c => Bool.noConfusion ((typed_iff h).mp c)

theorem numberProperty_ok (position key : LuaString) (o : LuaObject) :
    numberProperty position key o = .ok () ↔ Typed Datum.isNumber (o.fields.lookup key) := by
  unfold numberProperty
  cases h : property o key with
  | none => exact iff_of_true rfl (typed_none h)
  | some v =>
    rw [typed_iff h]
    cases v <;> simp only [Datum.isNumber, reduceCtorEq]

theorem verifyOutputs_ok (position : LuaString) (o : LuaObject) :
    verifyOutputs position o = .ok () ↔
      Required Datum.isTable (o.fields.lookup "outputs".toList) := by
  unfold verifyOutputs
  cases h : property o "outputs".toList with
  | none => exact iff_of_false (fun c => by cases c) (not_required h)
  | some v =>
    rw [required_iff h]
    cases v <;> simp only [Datum.isTable, reduceCtorEq]

theorem verifyForeach_ok {o o' : LuaObject} (position : LuaString) :
    verifyForeach position o = .ok o' ↔
      Required Datum.isTable (o.fields.lookup "rule".toList) ∧ o' = o := by
  unfold verifyForeach
  cases h : property o "rule".toList with
  | none => exact refused (not_required h)
  | some v =>
    cases v with
    | table object fields cells => exact accepted ((required_iff h).mpr rfl)
    | _ => exact refused fun c => Bool.noConfusion ((required_iff h).mp c)

theorem verifyCommand_ok {o o' : LuaObject} (hook : o.fields.lookup "__newindex".toList = none)
    (position : LuaString) : verifyCommand lua position o = .ok o' ↔
      Required Datum.commands (o.fields.lookup "command".toList) ∧ o' = o.wrapCommand := by
  unfold verifyCommand LuaObject.wrapCommand LuaObject.wrapWhere
  cases h : property o "command".toList with
  | none => exact refused (not_required h)
  | some v =>
    cases v with
    | str s => simp only [assign_plain lua hook]; exact accepted ((required_iff h).mpr rfl)
    | table object fields cells => exact accepted ((required_iff h).mpr rfl)
    | _ => exact refused fun c => Bool.noConfusion ((required_iff h).mp c)

theorem verifyDynamicheaders_ok {o o' : LuaObject}
    (hook : o.fields.lookup "__newindex".toList = none) (position : LuaString) :
    verifyDynamicheaders lua position o = .ok o' ↔
      Typed Datum.isTable (o.fields.lookup "dynamicheaders".toList) ∧ o' = o.wrapHeaders := by
  unfold verifyDynamicheaders LuaObject.wrapHeaders LuaObject.wrapWhere
  cases h : property o "dynamicheaders".toList with
  | none => exact accepted (typed_none h)
  | some v =>
    cases v with
    | table object fields cells =>
      simp only [assign_plain lua hook]
      split <;> exact accepted ((typed_iff h).mpr rfl)
    | _ => exact refused fun c => Bool.noConfusion ((typed_iff h).mp c)

theorem selectOne_ok {o o' : LuaObject} (hook : o.fields.lookup "__newindex".toList = none)
    (position : LuaString) : PrimeMover.selectOne lua position o = .ok o' ↔
      (∀ i, property o "i".toList = some i → property o "from".toList = none ∧
        property o "to".toList = none ∧ i.isNumber = true) ∧ o' = o.selectOne := by
  unfold PrimeMover.selectOne LuaObject.selectOne
  cases h : property o "i".toList with
  | none => exact accepted fun i found => by cases found
  | some i =>
    simp only
    split
    · rename_i bounds
      refine refused fun c => ?_
      obtain ⟨no_from, no_to, _⟩ := c i rfl
      rcases bounds with b | b
      · rw [no_from] at b; cases b
      · rw [no_to] at b; cases b
    · rename_i bounds
      simp only [not_or, Option.not_isSome_iff_eq_none] at bounds
      have hook' : (o.rawset "from".toList i).fields.lookup "__newindex".toList = none := by
        rw [lookup_rawset, if_neg (by decide), hook]
      simp only [except_bind_ok, assign_plain lua hook, Except.ok.injEq, exists_eq_left',
        assign_plain lua hook']
      constructor
      · rintro ⟨_, number, rfl⟩
        exact ⟨fun _ same => ⟨bounds.1, bounds.2, by
          cases same
          exact (typed_iff h).mp ((numberProperty_ok position _ o).mp number)⟩, rfl⟩
      · rintro ⟨all, rfl⟩
        have number := (typed_iff h).mpr (all i rfl).2.2
        exact ⟨(), (numberProperty_ok position _ o).mpr number, rfl⟩

end Specs

/-- `{v}` where `v` is of the type. -/
def Datum.wrapWhere (type : Datum → Bool) (v : Datum) : Datum := if type v then .list v else v

theorem property_none {o : LuaObject} {key : LuaString} (h : property o key = none) :
    o.fields.lookup key = none ∨ o.fields.lookup key = some (.bool false) := by
  unfold property Datum.given at h
  split at h
  · rename_i found
    exact .inr found
  · exact .inl h

theorem given_some {v : Option Datum} {w : Datum} (h : Datum.given v = some w) : v = some w := by
  unfold Datum.given at h
  split at h
  · cases h
  · exact h

theorem property_some {o : LuaObject} {key : LuaString} {v : Datum}
    (h : property o key = some v) : o.fields.lookup key = some v := given_some h

theorem lookup_wrapWhere {type : Datum → Bool} (plain : type (.bool false) = false) (o : LuaObject)
    (key k : LuaString) : (o.wrapWhere type key).fields.lookup k =
      if k = key then (o.fields.lookup k).map (Datum.wrapWhere type) else o.fields.lookup k := by
  unfold LuaObject.wrapWhere
  by_cases here : k = key
  · subst here
    rw [if_pos rfl]
    cases h : property o k with
    | none =>
      rcases property_none h with found | found
      · simp only [found, Option.map_none]
      · simp only [found, Option.map_some, Datum.wrapWhere, plain, Bool.false_eq_true, if_false]
    | some v =>
      simp only [property_some h, Option.map_some, Datum.wrapWhere]
      split
      · rw [lookup_rawset, beq_self_eq_true, if_pos rfl]
      · exact property_some h
  · rw [if_neg here]
    split
    · split
      · rw [lookup_rawset, if_neg (by simpa using here)]
      · rfl
    · rfl

theorem wrapWhere_frame (o : LuaObject) (type : Datum → Bool) (key : LuaString) :
    (o.wrapWhere type key).cells = o.cells ∧ (o.wrapWhere type key).size = o.size := by
  unfold LuaObject.wrapWhere
  split
  · split <;> exact ⟨rfl, rfl⟩
  · exact ⟨rfl, rfl⟩

theorem selectOne_frame (o : LuaObject) :
    o.selectOne.cells = o.cells ∧ o.selectOne.size = o.size := by
  unfold LuaObject.selectOne
  split <;> exact ⟨rfl, rfl⟩

theorem lookup_selectOne (o : LuaObject) (k : LuaString) : o.selectOne.fields.lookup k =
    if (k = "from".toList ∨ k = "to".toList) ∧ (property o "i".toList).isSome then
      o.fields.lookup "i".toList
    else o.fields.lookup k := by
  unfold LuaObject.selectOne
  cases h : property o "i".toList with
  | none => rw [if_neg (by simp)]
  | some i =>
    simp only [lookup_rawset, Option.isSome_some, and_true, property_some h, beq_iff_eq]
    by_cases last : k = "to".toList
    · rw [if_pos last, if_pos (.inr last)]
    · rw [if_neg last]
      by_cases first : k = "from".toList
      · rw [if_pos first, if_pos (.inl first)]
      · rw [if_neg first, if_neg (by rintro (c | c); exacts [first c, last c])]

/-- What each `__init` changes on an object it accepts. -/
def Constructor.finish : Constructor → LuaObject → LuaObject
  | .ith, o => o.selectOne
  | .simple, o => o.wrapCommand
  | .clike, o => o.wrapCommand.wrapHeaders
  | _, o => o

theorem verifySimple_ok (lua : Lua) {o o' : LuaObject}
    (hook : o.fields.lookup "__newindex".toList = none) (position : LuaString) :
    verifySimple lua position o = .ok o' ↔
      (Required Datum.isTable (o.fields.lookup "outputs".toList) ∧
        Required Datum.commands (o.fields.lookup "command".toList)) ∧ o' = o.wrapCommand := by
  unfold verifySimple
  rw [except_bind_ok, and_assoc, ← verifyCommand_ok lua hook position, ← verifyOutputs_ok position]
  constructor
  · rintro ⟨_, outputs, command⟩
    exact ⟨outputs, command⟩
  · rintro ⟨outputs, command⟩
    exact ⟨(), outputs, command⟩

/-- The bounds that an i property gives are numbers like itself. -/
theorem typed_selectOne {o : LuaObject}
    (single : ∀ i, property o "i".toList = some i → property o "from".toList = none ∧
      property o "to".toList = none ∧ i.isNumber = true) {key : LuaString}
    (bound : key = "from".toList ∨ key = "to".toList) :
    Typed Datum.isNumber (o.selectOne.fields.lookup key) ↔
      Typed Datum.isNumber (o.fields.lookup key) := by
  rw [lookup_selectOne]
  cases h : property o "i".toList with
  | none => rw [if_neg (by simp)]
  | some i =>
    obtain ⟨no_from, no_to, number⟩ := single i h
    rw [if_pos ⟨bound, rfl⟩]
    refine iff_of_true ((typed_iff h).mpr number) ?_
    rcases bound with rfl | rfl
    · exact typed_none no_from
    · exact typed_none no_to

theorem verifyIth_ok (lua : Lua) {o o' : LuaObject}
    (hook : o.fields.lookup "__newindex".toList = none) (position : LuaString) :
    verifyIth lua position o = .ok o' ↔ Bounds (o.fields.lookup ·) ∧ o' = o.selectOne := by
  simp only [verifyIth, except_bind_ok, selectOne_ok lua hook, Except.ok.injEq]
  constructor
  · rintro ⟨_, ⟨single, rfl⟩, _, start, _, stop, rfl⟩
    rw [numberProperty_ok] at start stop
    exact ⟨⟨single, (typed_selectOne single (.inl rfl)).mp start,
      (typed_selectOne single (.inr rfl)).mp stop⟩, rfl⟩
  · rintro ⟨⟨single, start, stop⟩, rfl⟩
    refine ⟨_, ⟨single, rfl⟩, (), ?_, (), ?_, rfl⟩
    · exact (numberProperty_ok position _ _).mpr ((typed_selectOne single (.inl rfl)).mpr start)
    · exact (numberProperty_ok position _ _).mpr ((typed_selectOne single (.inr rfl)).mpr stop)

theorem verifyOwn_ok (lua : Lua) {o o' : LuaObject}
    (hook : o.fields.lookup "__newindex".toList = none) (position : LuaString) (c : Constructor) :
    c.verify lua position o = .ok o' ↔
      c.Accepts (o.fields.lookup ·) (front o.cells) ∧ o' = c.finish o := by
  cases c with
  | node => exact accepted trivial
  | file =>
    simp only [Constructor.verify, verifyFile, except_bind_ok, Constructor.Accepts,
      Constructor.finish, ← typeName_string, ← checkChildren_ok o position "string".toList 1]
    constructor
    · rintro ⟨_, strings, h⟩
      exact ⟨strings, (Except.ok.inj h).symm⟩
    · rintro ⟨strings, rfl⟩
      exact ⟨(), strings, rfl⟩
  | ith => exact verifyIth_ok lua hook position
  | foreach => exact verifyForeach_ok position
  | simple => exact verifySimple_ok lua hook position
  | clike =>
    have hook' : o.wrapCommand.fields.lookup "__newindex".toList = none := by
      rw [LuaObject.wrapCommand, lookup_wrapWhere rfl, if_neg (by decide), hook]
    have headers : o.wrapCommand.fields.lookup "dynamicheaders".toList =
        o.fields.lookup "dynamicheaders".toList := by
      rw [LuaObject.wrapCommand, lookup_wrapWhere rfl, if_neg (by decide)]
    simp only [Constructor.verify, except_bind_ok, verifySimple_ok lua hook]
    constructor
    · rintro ⟨_, ⟨simple, rfl⟩, rest⟩
      rw [verifyDynamicheaders_ok lua hook', headers] at rest
      exact ⟨⟨simple, rest.1⟩, rest.2⟩
    · rintro ⟨⟨simple, typed⟩, rfl⟩
      refine ⟨_, ⟨simple, rfl⟩, ?_⟩
      rw [verifyDynamicheaders_ok lua hook', headers]
      exact ⟨typed, rfl⟩

end PrimeMover
