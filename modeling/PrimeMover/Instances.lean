import PrimeMover.Construction

/-! An instance used as a class: calling it with more properties and children gives what its
class gives for both tables at once. -/
namespace PrimeMover
open AssocTable LuaArray

variable {lua : Lua}

theorem wrapWhere_twice {type : Datum → Bool} (lists : ∀ v, type (.list v) = false) (v : Datum) :
    Datum.wrapWhere type (Datum.wrapWhere type v) = Datum.wrapWhere type v := by
  unfold Datum.wrapWhere
  by_cases h : type v = true
  · rw [if_pos h, if_neg (by rw [lists]; exact Bool.false_ne_true)]
  · rw [if_neg h, if_neg h]

/-- The constructors tolerate what they made of a property. -/
theorem fix_twice (c : Constructor) (k : LuaString) (v : Datum) :
    c.fix k (c.fix k v) = c.fix k v := by
  unfold Constructor.fix
  split
  · exact wrapWhere_twice (fun _ => rfl) v
  · split
    · exact wrapWhere_twice (fun _ => rfl) v
    · split
      · exact wrapWhere_twice (fun _ => rfl) v
      · rfl

theorem given_wrapWhere {type : Datum → Bool} (plain : type (.bool false) = false)
    (v : Option Datum) : Datum.given (v.map (Datum.wrapWhere type)) =
      (Datum.given v).map (Datum.wrapWhere type) := by
  cases v with
  | none => rfl
  | some v =>
    by_cases unset : v = .bool false
    · subst unset
      simp only [Option.map_some, Datum.wrapWhere, plain, Bool.false_eq_true, if_false]
      rfl
    · have set : Datum.given (some v) = some v := by
        unfold Datum.given
        split
        · rename_i h; exact absurd (Option.some.inj h) unset
        · rfl
      rw [set, Option.map_some]
      unfold Datum.wrapWhere
      split
      · rfl
      · exact set

theorem given_fix (c : Constructor) (k : LuaString) (v : Option Datum) :
    Datum.given (v.map (c.fix k)) = (Datum.given v).map (c.fix k) := by
  unfold Constructor.fix
  split
  · exact given_wrapWhere rfl v
  · split
    · exact given_wrapWhere rfl v
    · split
      · exact given_wrapWhere rfl v
      · rw [Option.map_id_fun]; rfl

/-- A condition on a property that its constructor's changes do not affect. -/
theorem typed_fix {type : Datum → Bool} {c : Constructor} {k : LuaString}
    (stable : ∀ v, type (c.fix k v) = type v) (v : Option Datum) :
    Typed type (v.map (c.fix k)) ↔ Typed type v := by
  unfold Typed
  rw [given_fix]
  cases Datum.given v with
  | none => simp
  | some w => simp only [Option.map_some, Option.some.injEq, forall_eq', stable]

theorem required_fix {type : Datum → Bool} {c : Constructor} {k : LuaString}
    (stable : ∀ v, type (c.fix k v) = type v) (v : Option Datum) :
    Required type (v.map (c.fix k)) ↔ Required type v := by
  unfold Required
  rw [given_fix]
  cases Datum.given v with
  | none => simp
  | some w => simp only [Option.map_some, Option.some.injEq, exists_eq_left', stable]

theorem installable_fix (c : Constructor) (v : Datum) :
    (c.fix "install".toList v).installable = v.installable := by
  rw [Constructor.fix, if_pos rfl]
  cases v <;> rfl

theorem commands_fix (c : Constructor) (v : Datum) :
    (c.fix "command".toList v).commands = v.commands := by
  rw [Constructor.fix, if_neg (by decide)]
  split
  · cases v <;> rfl
  · rw [if_neg fun h => absurd h.1 (by decide)]; rfl

theorem headers_fix (c : Constructor) (v : Datum) :
    (c.fix "dynamicheaders".toList v).isTable = v.isTable := by
  rw [Constructor.fix, if_neg (by decide), if_neg fun h => absurd h.1 (by decide)]
  split
  · unfold Datum.wrapWhere
    split
    · rename_i object
      cases v <;> first | rfl | cases object
    · rfl
  · rfl

/-- The properties that a constructor may put into a list. -/
def wrapped : List LuaString := ["install".toList, "command".toList, "dynamicheaders".toList]

/-- Every other property stays as it is. -/
theorem fix_other (c : Constructor) {k : LuaString} (other : k ∉ wrapped) : c.fix k = id := by
  simp only [wrapped, List.mem_cons, List.not_mem_nil, or_false, not_or] at other
  obtain ⟨no_install, no_command, no_headers⟩ := other
  rw [Constructor.fix, if_neg no_install, if_neg fun h => no_command h.1,
    if_neg fun h => no_headers h.1]

section Again
variable {c : Constructor} {F : LuaString → Option Datum} {entries : List (LuaString × Datum)}

/-- A property of the second table hides what the first call made of the class's. -/
theorem overlay_fixed (entries : List (LuaString × Datum)) {G : LuaString → Option Datum}
    (k : LuaString) (made : G k = (F k).map (c.fix k)) :
    (overlay lua entries G k).map (c.fix k) = (overlay lua entries F k).map (c.fix k) := by
  have twice : (G k).map (c.fix k) = (F k).map (c.fix k) := by
    rw [made, Option.map_map]
    exact congrArg (fun f => (F k).map f) (funext (fix_twice c k))
  unfold overlay
  split
  · exact twice
  · cases entries.lookup k with
    | none => exact twice
    | some v => rfl

theorem overlay_other (entries : List (LuaString × Datum)) {G : LuaString → Option Datum}
    {k : LuaString} (made : G k = (F k).map (c.fix k)) (other : k ∉ wrapped) :
    overlay lua entries G k = overlay lua entries F k := by
  have again : (overlay lua entries G k).map (c.fix k) = (overlay lua entries F k).map (c.fix k) :=
    overlay_fixed entries k made
  rw [fix_other c other, Option.map_id_fun] at again
  exact again

variable (single : ¬ (c = .ith ∧ (Datum.given (F "i".toList)).isSome))
include single

theorem normal_again (entries : List (LuaString × Datum)) (k : LuaString) :
    c.normal (overlay lua entries (c.normal F)) k = c.normal (overlay lua entries F) k := by
  have made (k : LuaString) : c.normal F k = (F k).map (c.fix k) := normal_of_unselected single k
  have i : overlay lua entries (c.normal F) "i".toList = overlay lua entries F "i".toList :=
    overlay_other entries (made _) (by decide)
  rw [Constructor.normal, Constructor.normal, i, overlay_fixed entries k (made k)]

theorem typed_again {type : Datum → Bool} {k : LuaString}
    (stable : ∀ v, type (c.fix k v) = type v) :
    Typed type (overlay lua entries (c.normal F) k) ↔ Typed type (overlay lua entries F k) := by
  rw [← typed_fix stable, overlay_fixed entries k (normal_of_unselected single k), typed_fix stable]

theorem required_again {type : Datum → Bool} {k : LuaString}
    (stable : ∀ v, type (c.fix k v) = type v) :
    Required type (overlay lua entries (c.normal F) k) ↔
      Required type (overlay lua entries F k) := by
  rw [← required_fix stable, overlay_fixed entries k (normal_of_unselected single k),
    required_fix stable]

/-- What a constructor accepts does not depend on whether it has seen the class before. -/
theorem accepts_again (ys : List Datum) :
    c.Accepts (overlay lua entries (c.normal F)) ys ↔ c.Accepts (overlay lua entries F) ys := by
  have same (k : LuaString) (other : k ∉ wrapped) :
      overlay lua entries (c.normal F) k = overlay lua entries F k :=
    overlay_other entries (normal_of_unselected single k) other
  cases c with
  | node | file => exact Iff.rfl
  | ith =>
    simp only [Constructor.Accepts, Bounds]
    rw [same "i".toList (by decide),
      same "from".toList (by decide),
      same "to".toList (by decide)]
  | foreach =>
    simp only [Constructor.Accepts]
    rw [same "rule".toList (by decide)]
  | simple =>
    simp only [Constructor.Accepts]
    rw [same "outputs".toList (by decide),
      required_again single (commands_fix _)]
  | clike =>
    simp only [Constructor.Accepts]
    rw [same "outputs".toList (by decide),
      required_again single (commands_fix _), typed_again single (headers_fix _)]

end Again

section Children
variable {make : LuaString → Except Stop (Option Datum)} {xs ys : List Datum}

theorem child_unique {x y z : Datum} (first : Child make x y) (second : Child make x z) : y = z := by
  cases x with
  | str s => exact Option.some.inj (Except.ok.inj (first.symm.trans second))
  | _ => exact first.trans second.symm

theorem child_made (objects : MakesObjects make) {x y : Datum} (made : Child make x y) :
    Child make y y := by
  cases x with
  | str s =>
    obtain ⟨fields, cells, same⟩ := objects s _ made
    cases Option.some.inj same
    rfl
  | _ => cases made; rfl

theorem child_again (objects : MakesObjects make) {x y z : Datum} (made : Child make x y) :
    Child make y z ↔ Child make x z := by
  constructor
  · intro again
    rwa [← child_unique (child_made objects made) again]
  · intro again
    rw [← child_unique made again]
    exact child_made objects made

/-- Children that have been constructed once are constructed no further. -/
theorem children_again (objects : MakesObjects make) (made : List.Forall₂ (Child make) xs ys)
    (more zs : List Datum) :
    List.Forall₂ (Child make) (ys ++ more) zs ↔ List.Forall₂ (Child make) (xs ++ more) zs := by
  induction made generalizing zs with
  | nil => exact Iff.rfl
  | cons made _ ih =>
    cases zs with
    | nil => constructor <;> intro h <;> cases h
    | cons z zs =>
      rw [List.cons_append, List.cons_append, List.forall₂_cons, List.forall₂_cons,
        child_again objects made, ih]

end Children

section Verified
variable {make make' : Datum → LuaString → Except Stop (Option Datum)}
  {F F' : LuaString → Option Datum} {xs ys : List Datum}

theorem constructed_length {c : Option Datum} (made : Constructed make c xs ys) :
    ys.length = xs.length := by
  cases c with
  | none => cases made; rfl
  | some c => exact (List.Forall₂.length_eq made).symm

theorem constructed_again {c : Option Datum} (objects : ∀ x, c = some x → MakesObjects (make x))
    (made : Constructed make c xs ys) (more zs : List Datum) :
    Constructed make c (ys ++ more) zs ↔ Constructed make c (xs ++ more) zs := by
  cases c with
  | none => cases made; exact Iff.rfl
  | some c => exact children_again (objects c rfl) made more zs

theorem constructed_congr (same : ∀ c s, Alike (make c s) (make' c s)) {c : Option Datum}
    (made : Constructed make c xs ys) : Constructed make' c xs ys := by
  cases c with
  | none => exact made
  | some c =>
    refine List.Forall₂.imp (fun x y child => ?_) made
    cases x with
    | str s => exact (same c s _).mp child
    | _ => exact child

/-- The verification reads nothing but properties other than `definedat`. -/
theorem checked_congr (same : ∀ c s, Alike (make c s) (make' c s))
    (fields : ∀ k, k ≠ "definedat".toList → F k = F' k) (checked : Checked make F xs ys) :
    Checked make' F' xs ys := by
  refine ⟨?_, ?_, ?_, ?_, ?_⟩
  · rw [← fields _ (by decide)]; exact checked.count
  · rw [← fields _ (by decide)]; exact checked.filled
  · rw [← fields _ (by decide)]; exact constructed_congr same checked.children
  · rw [← fields _ (by decide)]; exact checked.objects
  · rw [← fields _ (by decide)]; exact checked.install

/-- The verification of an instance that is called once more. -/
theorem checked_again {c : Constructor} {entries : List (LuaString × Datum)}
    (single : ¬ (c = .ith ∧ (Datum.given (F "i".toList)).isSome))
    (objects : ∀ x, Datum.given (F "construct_string_children_with".toList) = some x →
      MakesObjects (make x))
    (made : Constructed make (Datum.given (F "construct_string_children_with".toList)) xs ys)
    (kept : overlay lua entries F "construct_string_children_with".toList =
      F "construct_string_children_with".toList) (more zs : List Datum) :
    Checked make (overlay lua entries (c.normal F)) (ys ++ more) zs ↔
      Checked make (overlay lua entries F) (xs ++ more) zs := by
  have same (k : LuaString) (other : k ∉ wrapped) :
      overlay lua entries (c.normal F) k = overlay lua entries F k :=
    overlay_other entries (normal_of_unselected single k) other
  have size : (ys ++ more).length = (xs ++ more).length := by
    rw [List.length_append, List.length_append, constructed_length made]
  have filled : ys ++ more ≠ [] ↔ xs ++ more ≠ [] := by
    rw [← List.length_pos_iff, ← List.length_pos_iff, size]
  have children := constructed_again objects made more zs
  have install : Typed Datum.installable (overlay lua entries (c.normal F) "install".toList) ↔
      Typed Datum.installable (overlay lua entries F "install".toList) :=
    typed_again single (installable_fix c)
  have count := same "ensure_n_children".toList (by decide)
  have least := same "ensure_at_least_one_child".toList (by decide)
  have builder := same "construct_string_children_with".toList (by decide)
  have all := same "all_children_are_objects".toList (by decide)
  constructor
  · intro h
    refine ⟨?_, ?_, ?_, ?_, install.mp h.install⟩
    · rw [← count, ← size]; exact h.count
    · rw [← least, ← filled]; exact h.filled
    · rw [kept, ← children, ← kept, ← builder]; exact h.children
    · rw [← all]; exact h.objects
  · intro h
    refine ⟨?_, ?_, ?_, ?_, install.mpr h.install⟩
    · rw [count, size]; exact h.count
    · rw [least, filled]; exact h.filled
    · rw [builder, kept, children, ← kept]; exact h.children
    · rw [all]; exact h.objects

end Verified

/-- The same children and the same properties, `definedat` apart. -/
def SameObject (o o' : LuaObject) : Prop :=
  o.cells = o'.cells ∧ ∀ k, k ≠ "definedat".toList → o.fields.lookup k = o'.fields.lookup k

/-- Both calls fail or both give the same object. -/
def SameOutcome (x y : Except Stop LuaObject) : Prop :=
  (∀ o, x = .ok o → ∃ o', y = .ok o' ∧ SameObject o o') ∧
    ∀ o', y = .ok o' → ∃ o, x = .ok o ∧ SameObject o o'

/-- `t` has the properties of `t1`, overridden by those of `t2`, and the children of both. -/
structure Merges (t1 t2 t : Properties) : Prop where
  fields : ∀ k, t.fields.lookup k = (t2.fields.lookup k).or (t1.fields.lookup k)
  items : t.items = t1.items ++ t2.items

def Properties.extend (t1 t2 : Properties) : Properties where
  fields := t2.fields.foldl (fun t e => setEntry t e.1 e.2) t1.fields
  items := t1.items ++ t2.items
  distinct := nodup_foldl_setEntry id t2.fields t1.fields t1.distinct

/-- The properties of an instance that may be called: they leave the call and the
constructor to the class and construct children with nothing but an object. -/
structure Prototype (lua : Lua) (t : Properties) : Prop where
  ordinary : Ordinary lua t
  call : t.fields.lookup "__call".toList = none
  init : t.fields.lookup "__init".toList = none
  builder : ∀ f, t.fields.lookup "construct_string_children_with".toList ≠ some (.func f)

/-- The properties an instance is called with: they keep what its children were constructed
with. -/
structure Override (lua : Lua) (t : Properties) : Prop where
  ordinary : Ordinary lua t
  builder : t.fields.lookup "construct_string_children_with".toList = none

/-- Calling the instance `o1` is calling `C` with the properties and the children of both. -/
def Composes (lua : Lua) (fuel : Nat) (C : LuaObject) (t1 : Properties) (o1 : LuaObject) : Prop :=
  ∀ t2, Override lua t2 → ∀ t, Merges t1 t2 t → ∀ p q,
    SameOutcome (call lua (construct lua p fuel) p o1 (.table t2))
      (call lua (construct lua q fuel) q C (.table t))

theorem construct_objects {position : LuaString} {fuel : Nat} {x : Datum}
    (no_function : ∀ f, x ≠ .func f) : MakesObjects (construct lua position fuel x) := by
  intro s m made
  cases fuel with
  | zero => cases made
  | succ fuel =>
    cases x with
    | table object fields cells =>
      cases object with
      | true =>
        simp only [construct, except_bind_ok, Except.ok.injEq] at made
        obtain ⟨o, _, rfl⟩ := made
        exact ⟨o.fields, o.cells, rfl⟩
      | false => cases made
    | func f => exact absurd rfl (no_function f)
    | _ => cases made

theorem Ordinary.extends {t1 t2 t : Properties} (first : Ordinary lua t1)
    (second : Ordinary lua t2) (merged : Merges t1 t2 t) : Ordinary lua t := by
  refine ⟨?_, ?_, ?_, fun k member => ?_⟩
  · rw [merged.fields, second.instance_only, first.instance_only]; rfl
  · rw [merged.fields, second.hook, first.hook]; rfl
  · rw [merged.fields]
    cases own : t2.fields.lookup "n".toList with
    | none => exact first.count
    | some v => rw [Option.some_or, ← own]; exact second.count
  · rw [merged.fields, second.methods k member, first.methods k member]; rfl

theorem overlay_some {entries : List (LuaString × Datum)} {F : LuaString → Option Datum}
    {k : LuaString} {v : Datum} (h : overlay lua entries F k = some v) :
    entries.lookup k = some v ∨ F k = some v := by
  unfold overlay at h
  split at h
  · exact .inr h
  · rcases Option.or_eq_some_iff.mp h with own | ⟨_, own⟩
    · exact .inl own
    · exact .inr own

theorem overlay_extends {t1 t2 t : Properties} (merged : Merges t1 t2 t)
    (F : LuaString → Option Datum) (k : LuaString) :
    overlay lua t.fields F k = overlay lua t2.fields (overlay lua t1.fields F) k := by
  cases name : lua.numeral k with
  | some x => simp only [overlay, name]
  | none => simp only [overlay, name, merged.fields, Option.or_assoc]

/-- What the classes of pm have in common. -/
theorem builtin_base (lua : Lua) {C : LuaObject} (builtin : C ∈ Builtin.classes) :
    ∃ c, Base lua c C ∧ (c = .ith → C = Builtin.ith) ∧
      (C.fields.lookup "construct_string_children_with".toList = none ∨
        C.fields.lookup "construct_string_children_with".toList = some Builtin.file.datum) := by
  simp only [Builtin.classes, List.mem_cons, List.not_mem_nil, or_false] at builtin
  rcases builtin with rfl | rfl | rfl | rfl | rfl | rfl | rfl | rfl | rfl | rfl | rfl | rfl
  · exact ⟨.file, ⟨rfl, rfl, rfl, rfl⟩, fun h => (by cases h), .inl rfl⟩
  · exact ⟨.node, ⟨rfl, rfl, rfl, rfl⟩, fun h => (by cases h), .inl rfl⟩
  · exact ⟨.node, ⟨rfl, rfl, rfl, rfl⟩, fun h => (by cases h), .inl rfl⟩
  · exact ⟨.ith, ⟨rfl, rfl, rfl, rfl⟩, fun _ => rfl, .inl rfl⟩
  · exact ⟨.foreach, ⟨rfl, rfl, rfl, rfl⟩, fun h => (by cases h), .inl rfl⟩
  · exact ⟨.simple, ⟨rfl, rfl, rfl, rfl⟩, fun h => (by cases h), .inr rfl⟩
  · exact ⟨.clike, ⟨rfl, rfl, rfl, rfl⟩, fun h => (by cases h), .inr rfl⟩
  · exact ⟨.clike, ⟨rfl, rfl, rfl, rfl⟩, fun h => (by cases h), .inr rfl⟩
  · exact ⟨.clike, ⟨rfl, rfl, rfl, rfl⟩, fun h => (by cases h), .inr rfl⟩
  · exact ⟨.simple, ⟨rfl, rfl, rfl, rfl⟩, fun h => (by cases h), .inr rfl⟩
  · exact ⟨.simple, ⟨rfl, rfl, rfl, rfl⟩, fun h => (by cases h), .inr rfl⟩
  · exact ⟨.simple, ⟨rfl, rfl, rfl, rfl⟩, fun h => (by cases h), .inr rfl⟩

/-- A first call: the properties `F` of the clone, the children before and after their
construction, and what the instance has of them. -/
structure FirstCall (lua : Lua) (fuel : Nat) (c : Constructor) (C : LuaObject) (t1 : Properties)
    (o1 : LuaObject) (F : LuaString → Option Datum) (ys : List Datum) : Prop where
  base : Base lua c C
  fields : F = overlay lua t1.fields (C.clone.fields.lookup ·)
  objects : ∀ p x, Datum.given (F "construct_string_children_with".toList) = some x →
    MakesObjects (construct lua p fuel x)
  checked : ∀ p, Checked (construct lua p fuel) F (front C.cells ++ t1.items) ys
  accepts : c.Accepts F ys
  cells : o1.cells = ys.map some
  lookups : ∀ k, o1.fields.lookup k = c.normal F k

theorem made_of_call {C : LuaObject} {c : Constructor} (base : Base lua c C)
    (builder : C.fields.lookup "construct_string_children_with".toList = none ∨
      C.fields.lookup "construct_string_children_with".toList = some Builtin.file.datum)
    {t1 : Properties} (first : Prototype lua t1) {p : LuaString} {fuel : Nat} {o1 : LuaObject}
    (made : call lua (construct lua p fuel) p C (.table t1) = .ok o1) :
    ∃ F ys, FirstCall lua fuel c C t1 o1 F ys := by
  have no_function : ∀ f, overlay lua t1.fields (C.clone.fields.lookup ·)
      "construct_string_children_with".toList ≠ some (.func f) := by
    intro f h
    rcases overlay_some h with own | own
    · exact first.builder f own
    · rw [lookup_clone, if_neg (by decide)] at own
      rcases builder with none | file
      · rw [none] at own; cases own
      · rw [file] at own; exact Datum.noConfusion (Option.some.inj own)
  have objects : ∀ p x, Datum.given (overlay lua t1.fields (C.clone.fields.lookup ·)
      "construct_string_children_with".toList) = some x → MakesObjects (construct lua p fuel x) :=
    fun p x h => construct_objects fun f same => no_function f (same ▸ given_some h)
  obtain ⟨ys, checked, accepts, cells, lookups⟩ :=
    (call_ok _ p base first.ordinary (fun _ => rfl) (objects p)).1 o1 made
  exact ⟨_, ys, base, rfl, objects,
    fun q => checked_congr (construct_alike lua p q fuel) (fun _ _ => rfl) checked, accepts, cells,
    lookups⟩

theorem normal_other (c : Constructor) (F : LuaString → Option Datum) {k : LuaString}
    (other : k ∉ "from".toList :: "to".toList :: wrapped) : c.normal F k = F k := by
  simp only [List.mem_cons, not_or] at other
  obtain ⟨no_from, no_to, other⟩ := other
  rw [Constructor.normal, if_neg (by rintro ⟨_, h | h, _⟩; exacts [no_from h, no_to h]),
    fix_other c other, Option.map_id_fun]
  rfl

namespace FirstCall

variable {fuel : Nat} {c : Constructor} {C o1 : LuaObject} {t1 : Properties}
  {F : LuaString → Option Datum} {ys : List Datum}

/-- An instance can be called like its class. -/
theorem instance_base (made : FirstCall lua fuel c C t1 o1 F ys) (first : Prototype lua t1) :
    Base lua c o1 := by
  have class_field {k : LuaString} (absent : t1.fields.lookup k = none)
      (present : k ≠ "definedat".toList) : F k = C.fields.lookup k := by
    rw [made.fields, overlay_none absent, lookup_clone, if_neg (by simpa using present)]
  refine ⟨?_, ?_, ?_, ?_⟩
  · rw [made.lookups, normal_other c F (by decide),
      class_field first.init (by decide), made.base.init]
  · rw [made.lookups, normal_other c F (by decide),
      class_field first.ordinary.hook (by decide), made.base.hook]
  · rw [made.lookups, normal_other c F (by decide),
      made.fields, overlay, lua.numeral_n, clone_n]
    cases own : t1.fields.lookup "n".toList with
    | none => exact made.base.count
    | some v => rw [Option.some_or, ← own]; exact first.ordinary.count
  · rw [made.cells, front_some]

/-- The clone of the instance lacks a `definedat` that the first table may have set. -/
theorem seen (made : FirstCall lua fuel c C t1 o1 F ys) (entries : List (LuaString × Datum))
    {k : LuaString} (present : k ≠ "definedat".toList) :
    overlay lua entries (o1.clone.fields.lookup ·) k = overlay lua entries (c.normal F) k := by
  have field : o1.clone.fields.lookup k = c.normal F k := by
    rw [lookup_clone, if_neg (by simpa using present), made.lookups]
  simp only [overlay, field]

theorem seen_other (made : FirstCall lua fuel c C t1 o1 F ys) {t2 : Properties} {k : LuaString}
    (absent : t2.fields.lookup k = none) (present : k ≠ "definedat".toList)
    (other : k ∉ "from".toList :: "to".toList :: wrapped) :
    overlay lua t2.fields (o1.clone.fields.lookup ·) k = F k := by
  rw [made.seen t2.fields present, overlay_none absent, normal_other c F other]

/-- Without an i property, the second call sees what the class sees of both tables. -/
theorem composes (made : FirstCall lua fuel c C t1 o1 F ys) (first : Prototype lua t1)
    (single : ¬ (c = .ith ∧ (Datum.given (F "i".toList)).isSome)) :
    Composes lua fuel C t1 o1 := by
  intro t2 second t merged p q
  have again := made.instance_base first
  have both : Ordinary lua t := first.ordinary.extends second.ordinary merged
  have whole (k : LuaString) : overlay lua t2.fields F k =
      overlay lua t.fields (C.clone.fields.lookup ·) k := by
    rw [overlay_extends merged, made.fields]
  have kept : overlay lua t2.fields F "construct_string_children_with".toList =
      F "construct_string_children_with".toList := overlay_none second.builder
  have seen (k : LuaString) (present : k ≠ "definedat".toList) :
      overlay lua t2.fields (o1.clone.fields.lookup ·) k =
        overlay lua t2.fields (c.normal F) k := made.seen t2.fields present
  have builder := made.seen_other second.builder (by decide) (by decide)
  have from_instance := call_ok (construct lua p fuel) p again second.ordinary
    (fun _ => rfl) (by rw [builder]; exact made.objects p)
  have from_class := call_ok (construct lua q fuel) q made.base both whole
    (by rw [kept]; exact made.objects q)
  have children : front o1.cells ++ t2.items = ys ++ t2.items := by rw [made.cells, front_some]
  have items : front C.cells ++ t.items = (front C.cells ++ t1.items) ++ t2.items := by
    rw [merged.items, List.append_assoc]
  rw [children] at from_instance
  rw [items] at from_class
  have verified (zs : List Datum) :
      Checked (construct lua p fuel) (overlay lua t2.fields (o1.clone.fields.lookup ·))
        (ys ++ t2.items) zs ↔
      Checked (construct lua q fuel) (overlay lua t2.fields F)
        ((front C.cells ++ t1.items) ++ t2.items) zs := by
    rw [← checked_again single (made.objects q) (made.checked q).children kept]
    constructor
    · exact checked_congr (construct_alike lua p q fuel) seen
    · exact checked_congr (construct_alike lua q p fuel) fun k present => (seen k present).symm
  have accepted (zs : List Datum) :
      c.Accepts (overlay lua t2.fields (o1.clone.fields.lookup ·)) zs ↔
        c.Accepts (overlay lua t2.fields F) zs := by
    rw [← accepts_again single]
    exact accepts_congr (fun k _ present => seen k present) c zs
  have result (k : LuaString) (present : k ≠ "definedat".toList) :
      c.normal (overlay lua t2.fields (o1.clone.fields.lookup ·)) k =
        c.normal (overlay lua t2.fields F) k := by
    have i := seen "i".toList (by decide)
    rw [← normal_again single, Constructor.normal, seen k present, i]
    rfl
  constructor
  · intro o run
    obtain ⟨zs, checked, accepts, cells, lookups⟩ := from_instance.1 o run
    obtain ⟨o', run', cells', lookups'⟩ :=
      from_class.2 zs ((verified zs).mp checked) ((accepted zs).mp accepts)
    refine ⟨o', run', cells.trans cells'.symm, fun k present => ?_⟩
    rw [lookups, lookups', result k present]
  · intro o' run
    obtain ⟨zs, checked, accepts, cells', lookups'⟩ := from_class.1 o' run
    obtain ⟨o, run', cells, lookups⟩ :=
      from_instance.2 zs ((verified zs).mpr checked) ((accepted zs).mpr accepts)
    refine ⟨o, run', cells.trans cells'.symm, fun k present => ?_⟩
    rw [lookups, lookups', result k present]

/-- With an i property, the instance has the bounds that its constructor refuses. -/
theorem single_refused (made : FirstCall lua fuel .ith C t1 o1 F ys) (first : Prototype lua t1)
    (single : (Datum.given (F "i".toList)).isSome) : ¬ Composes lua fuel C t1 o1 := by
  intro composes
  let empty : Properties := ⟨[], [], by simp⟩
  have nothing : Override lua empty := ⟨⟨rfl, rfl, rfl, fun _ _ => rfl⟩, rfl⟩
  have merged : Merges t1 empty t1 := ⟨fun k => by rfl, by simp [empty]⟩
  obtain ⟨o, run⟩ : ∃ o, call lua (construct lua [] fuel) [] C (.table t1) = .ok o := by
    obtain ⟨o, run, _⟩ := (call_ok (construct lua [] fuel) [] made.base first.ordinary
      (fun k => by rw [made.fields]) (made.objects [])).2 ys (made.checked []) made.accepts
    exact ⟨o, run⟩
  obtain ⟨o2, again, _⟩ := (composes empty nothing t1 merged [] []).2 o run
  have builder := made.seen_other nothing.builder (by decide) (by decide)
  obtain ⟨zs, _, accepts, _⟩ := (call_ok (construct lua [] fuel) [] (made.instance_base first)
    nothing.ordinary (fun _ => rfl) (by rw [builder]; exact made.objects [])).1 o2 again
  obtain ⟨i, present⟩ := Option.isSome_iff_exists.mp single
  have number : overlay lua empty.fields (o1.clone.fields.lookup ·) "i".toList = F "i".toList :=
    made.seen_other rfl (by decide) (by decide)
  have bound : overlay lua empty.fields (o1.clone.fields.lookup ·) "from".toList =
      F "i".toList := by
    rw [made.seen empty.fields (by decide), overlay_none rfl, Constructor.normal,
      if_pos ⟨rfl, .inl rfl, single⟩]
  have clash := (accepts.1 i (by rw [number, present])).1
  rw [bound, present] at clash
  cases clash

end FirstCall

/-- An instance of a class of pm composes exactly when it is no `ith` with an i property. -/
theorem instance_composes {C : LuaObject} (builtin : C ∈ Builtin.classes) {t1 : Properties}
    (first : Prototype lua t1) {p : LuaString} {fuel : Nat} {o1 : LuaObject}
    (made : call lua (construct lua p fuel) p C (.table t1) = .ok o1) :
    Composes lua fuel C t1 o1 ↔
      ¬ (C = Builtin.ith ∧ (Datum.given (t1.fields.lookup "i".toList)).isSome) := by
  obtain ⟨c, base, only_ith, builder⟩ := builtin_base lua builtin
  obtain ⟨F, ys, instanced⟩ := made_of_call base builder first made
  have number (is_ith : C = Builtin.ith) : F "i".toList = t1.fields.lookup "i".toList := by
    rw [instanced.fields, overlay, lua.numeral_i]
    subst is_ith
    exact Option.or_none
  constructor
  · rintro composes ⟨rfl, single⟩
    have ith : c = .ith := by
      have init : Builtin.ith.fields.lookup "__init".toList = some (.func (.init .ith)) := rfl
      have same := base.init.symm.trans init
      injection same with same
      injection same with same
      injection same
    subst ith
    exact instanced.single_refused first (by rw [number rfl]; exact single) composes
  · intro no_single
    refine instanced.composes first ?_
    rintro ⟨is_ith, single⟩
    rw [number (only_ith is_ith)] at single
    exact no_single ⟨only_ith is_ith, single⟩

/-- `{"a.c"}` -/
def oneSource : Properties := .singleton (.str "a.c".toList)

theorem cfile_composes : ∃ o1,
    call decimals (construct decimals [] 1) [] Builtin.cfile (.table oneSource) = .ok o1 ∧
      Composes decimals 1 Builtin.cfile oneSource o1 := by
  refine ⟨_, rfl, ?_⟩
  refine (instance_composes (by simp [Builtin.classes]) ?_ (p := []) rfl).mpr fun h => ?_
  · exact ⟨⟨rfl, rfl, rfl, fun _ _ => rfl⟩, rfl, rfl, fun f h => by cases h⟩
  · cases h.2

/-- `{i = 1, "a.c"}` -/
def firstOutput : Properties := ⟨[("i".toList, .num 1)], [.str "a.c".toList], by simp⟩

theorem single_not_called_again : ¬ ∀ (lua : Lua) (fuel : Nat) (p : LuaString) (C : LuaObject),
    C ∈ Builtin.classes → ∀ (t1 : Properties) (o1 : LuaObject),
      t1.fields.lookup "class".toList = none →
      call lua (construct lua p fuel) p C (.table t1) = .ok o1 →
      ∃ o2, call lua (construct lua p fuel) p o1 (.table ⟨[], [], by simp⟩) = .ok o2 := by
  intro again
  obtain ⟨o2, run⟩ := again decimals 1 [] Builtin.ith (by simp [Builtin.classes]) firstOutput _ rfl rfl
  cases run

end PrimeMover
