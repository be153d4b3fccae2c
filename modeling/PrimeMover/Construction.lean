import PrimeMover.Verification

/-! A call of a class with an ordinary table, in terms of the properties and the children of
both. -/
namespace PrimeMover
open AssocTable LuaArray

section Making
variable {lua : Lua} {make : Datum → LuaString → Except Stop (Option Datum)} {position : LuaString}

theorem verify_ok {o o' : LuaObject} (tame : Tame lua o)
    (objects : ∀ c, property o "construct_string_children_with".toList = some c →
      MakesObjects (make c)) :
    verify lua make position o = .ok o' ↔ ∃ ys,
      Checked make (o.fields.lookup ·) (front o.cells) ys ∧ o' = (o.withChildren ys).wrapInstall := by
  simp only [verify, except_bind_ok, constructStringChildren_ok tame.whole objects]
  constructor
  · rintro ⟨_, count, _, filled, _, ⟨ys, made, rfl⟩, _, types, last⟩
    rw [verifyInstall_ok lua (o := o.withChildren ys) tame.hook] at last
    have all := (allChildrenAreObjects_ok (o.withChildren ys) position).mp types
    rw [LuaObject.withChildren, front_some] at all
    exact ⟨ys, ⟨(ensureNChildren_ok lua tame).mp count,
      (ensureAtLeastOneChild_ok lua tame position).mp filled, made, all, last.1⟩, last.2⟩
  · rintro ⟨ys, checked, rfl⟩
    refine ⟨(), (ensureNChildren_ok lua tame).mpr checked.count, (),
      (ensureAtLeastOneChild_ok lua tame position).mpr checked.filled, _,
      ⟨ys, checked.children, rfl⟩, (), ?_, ?_⟩
    · refine (allChildrenAreObjects_ok (o.withChildren ys) position).mpr ?_
      rw [LuaObject.withChildren, front_some]
      exact checked.objects
    · exact (verifyInstall_ok lua (o := o.withChildren ys) tame.hook position).mpr
        ⟨checked.install, rfl⟩

/-- An object that can be called like a class of pm. -/
structure Base (lua : Lua) (c : Constructor) (C : LuaObject) : Prop where
  init : C.fields.lookup "__init".toList = some (.func (.init c))
  hook : C.fields.lookup "__newindex".toList = none
  count : checkint lua (C.fields.lookup "n".toList) = none
  whole : C.cells = (front C.cells).map some

/-- A table that makes no class and sets none of the properties that the class system reads
for itself: `__newindex`, a numeric `n`, and the methods that the model takes for granted. -/
structure Ordinary (lua : Lua) (t : Properties) : Prop where
  instance_only : t.fields.lookup "class".toList = none
  hook : t.fields.lookup "__newindex".toList = none
  count : checkint lua (t.fields.lookup "n".toList) = none
  methods : ∀ k ∈ ["__index".toList, "__error".toList, "_error".toList], t.fields.lookup k = none

theorem sized_insertAll {o : LuaObject} (items : List Datum)
    (count : checkint lua (o.fields.lookup "n".toList) = none) :
    (insertAll lua o items).fields = o.fields ∧
      ((insertAll lua o items).size = o.size ∧ items = [] ∨
        (insertAll lua o items).size = some (getn lua o + items.length)) := by
  induction items generalizing o with
  | nil => exact ⟨rfl, .inl ⟨rfl, rfl⟩⟩
  | cons v items ih =>
    have fields : (tableInsert lua o v).fields = o.fields := by rw [tableInsert, setn_sized lua count]
    have size : (tableInsert lua o v).size = some (getn lua o + 1) := by
      rw [tableInsert, setn_sized lua count]
    obtain ⟨same, grown⟩ := ih (o := tableInsert lua o v) (by rw [fields, count])
    have step : insertAll lua o (v :: items) = insertAll lua (tableInsert lua o v) items := rfl
    rw [step]
    refine ⟨same.trans fields, .inr ?_⟩
    rcases grown with ⟨last, rfl⟩ | more
    · rw [last, size]; rfl
    · rw [more, getn_tableInsert, List.length_cons]
      congr 1
      omega

theorem overlay_none {t : Properties} {F : LuaString → Option Datum} {k : LuaString}
    (absent : t.fields.lookup k = none) : overlay lua t.fields F k = F k := by
  unfold overlay
  split
  · rfl
  · rw [absent, Option.none_or]

/-- A clone that is filled with an ordinary table. -/
theorem fill_ordinary {c : Constructor} {C : LuaObject} (base : Base lua c C) {t : Properties}
    (ordinary : Ordinary lua t) : ∃ o, fill lua C.clone t = .ok o ∧ Tame lua o ∧
      front o.cells = front C.cells ++ t.items ∧
      ∀ k, o.fields.lookup k = overlay lua t.fields (C.clone.fields.lookup ·) k := by
  have hook : C.clone.fields.lookup "__newindex".toList = none := by
    rw [lookup_clone, if_neg (by decide), base.hook]
  have direct : Undiverted lua C.clone t.fields := by
    intro before key v after split _
    refine .inr (.inr ⟨hook, ?_⟩)
    have absent := ordinary.hook
    rw [split, List.lookup_append] at absent
    exact (Option.or_eq_none_iff.mp absent).1
  obtain ⟨copied, copy, cells, size, fields⟩ := copyFields_undiverted lua t.distinct direct
  have count : checkint lua (copied.fields.lookup "n".toList) = none := by
    rw [fields, overlay, lua.numeral_n, clone_n]
    cases own : t.fields.lookup "n".toList with
    | none => exact base.count
    | some v =>
      rw [Option.some_or, ← own]
      exact ordinary.count
  have behind : getn lua copied = (front C.cells).length :=
    getn_behind lua size cells fun p number => by rw [count] at number; cases number
  obtain ⟨same, grown⟩ := sized_insertAll t.items count
  have inserted : (insertAll lua copied t.items).cells = (front C.cells ++ t.items).map some := by
    rw [insertAll_cells, cells, clone_cells, behind, ← putAll_map, ← base.whole]
  refine ⟨insertAll lua copied t.items, ?_, ?_, ?_, fun k => ?_⟩
  · rw [fill, copy]; rfl
  · refine ⟨?_, by rw [same, count], by rw [inserted, front_some], ?_⟩
    · rw [same, fields, overlay_none ordinary.hook, hook]
    · rw [inserted, front_some, List.length_append, ← behind]
      rcases grown with ⟨h, _⟩ | h
      · exact .inl (h.trans size)
      · exact .inr h
  · rw [inserted, front_some]
  · rw [same, fields]

theorem accepts_congr {F F' : LuaString → Option Datum}
    (same : ∀ k, k ≠ "install".toList → k ≠ "definedat".toList → F k = F' k)
    (c : Constructor) (ys : List Datum) : c.Accepts F ys ↔ c.Accepts F' ys := by
  cases c with
  | node | file => exact Iff.rfl
  | ith =>
    simp only [Constructor.Accepts, Bounds]
    rw [same "i".toList (by decide) (by decide), same "from".toList (by decide) (by decide),
      same "to".toList (by decide) (by decide)]
  | foreach =>
    simp only [Constructor.Accepts]
    rw [same "rule".toList (by decide) (by decide)]
  | simple =>
    simp only [Constructor.Accepts]
    rw [same "outputs".toList (by decide) (by decide), same "command".toList (by decide) (by decide)]
  | clike =>
    simp only [Constructor.Accepts]
    rw [same "outputs".toList (by decide) (by decide), same "command".toList (by decide) (by decide),
      same "dynamicheaders".toList (by decide) (by decide)]

/-- What a property becomes on an object that an `__init` accepts. -/
def Constructor.fix (c : Constructor) (k : LuaString) : Datum → Datum :=
  if k = "install".toList then Datum.wrapWhere Datum.invocable
  else if k = "command".toList ∧ (c = .simple ∨ c = .clike) then Datum.wrapWhere Datum.isString
  else if k = "dynamicheaders".toList ∧ c = .clike then Datum.wrapWhere Datum.isObject
  else id

def Constructor.normal (c : Constructor) (F : LuaString → Option Datum) (k : LuaString) :
    Option Datum :=
  if c = .ith ∧ (k = "from".toList ∨ k = "to".toList) ∧ (Datum.given (F "i".toList)).isSome then
    F "i".toList
  else (F k).map (c.fix k)

theorem normal_of_unselected {c : Constructor} {F : LuaString → Option Datum}
    (single : ¬ (c = .ith ∧ (Datum.given (F "i".toList)).isSome)) (k : LuaString) :
    c.normal F k = (F k).map (c.fix k) :=
  if_neg fun h => single ⟨h.1, h.2.2⟩

theorem lookup_installed (o : LuaObject) (k : LuaString) : o.wrapInstall.fields.lookup k =
    (o.fields.lookup k).map
      (if k = "install".toList then Datum.wrapWhere Datum.invocable else id) := by
  rw [LuaObject.wrapInstall, lookup_wrapWhere rfl]
  split
  · rfl
  · rw [Option.map_id_fun]; rfl

theorem lookup_commanded (o : LuaObject) (k : LuaString) :
    o.wrapInstall.wrapCommand.fields.lookup k = (o.fields.lookup k).map
      (if k = "install".toList then Datum.wrapWhere Datum.invocable
      else if k = "command".toList then Datum.wrapWhere Datum.isString else id) := by
  rw [LuaObject.wrapCommand, lookup_wrapWhere rfl, lookup_installed]
  by_cases command : k = "command".toList
  · subst command
    rw [if_pos rfl, if_neg (by decide), if_neg (by decide), if_pos rfl, Option.map_id_fun]
    rfl
  · rw [if_neg command, if_neg command]

theorem lookup_finish (c : Constructor) (o : LuaObject) (k : LuaString) :
    (c.finish o.wrapInstall).fields.lookup k = c.normal (o.fields.lookup ·) k := by
  cases c with
  | node | file | foreach =>
    rw [normal_of_unselected (by simp)]
    simp only [Constructor.finish, lookup_installed, Constructor.fix, reduceCtorEq, or_self,
      and_false, if_false]
  | ith =>
    have number : property o.wrapInstall "i".toList = property o "i".toList := by
      rw [property, lookup_installed, if_neg (by decide), Option.map_id_fun]; rfl
    rw [Constructor.finish, lookup_selectOne, number, Constructor.normal]
    by_cases selected : (k = "from".toList ∨ k = "to".toList) ∧ (property o "i".toList).isSome
    · rw [if_pos selected, if_pos ⟨rfl, selected⟩, lookup_installed, if_neg (by decide),
        Option.map_id_fun]
      rfl
    · rw [if_neg selected, if_neg fun h => selected h.2, lookup_installed]
      simp only [Constructor.fix, reduceCtorEq, or_self, and_false, if_false]
  | simple =>
    rw [normal_of_unselected (by simp), Constructor.finish, lookup_commanded]
    simp only [Constructor.fix, reduceCtorEq, or_false, and_true, and_false, if_false]
  | clike =>
    rw [normal_of_unselected (by simp), Constructor.finish, LuaObject.wrapHeaders,
      lookup_wrapWhere rfl, lookup_commanded]
    simp only [Constructor.fix, or_true, and_true]
    by_cases headers : k = "dynamicheaders".toList
    · subst headers
      rw [if_pos rfl, if_neg (by decide), if_neg (by decide), if_neg (by decide),
        if_neg (by decide), if_pos rfl, Option.map_id_fun]
      rfl
    · rw [if_neg headers, if_neg headers]

theorem finish_cells (c : Constructor) (o : LuaObject) : (c.finish o.wrapInstall).cells = o.cells := by
  have installed : o.wrapInstall.cells = o.cells := (wrapWhere_frame o _ _).1
  cases c with
  | node | file | foreach => exact installed
  | ith => exact (selectOne_frame _).1.trans installed
  | simple => exact (wrapWhere_frame _ _ _).1.trans installed
  | clike => exact ((wrapWhere_frame _ _ _).1.trans (wrapWhere_frame _ _ _).1).trans installed

variable (make position) in
/-- A call of a class, or of an instance used as one, with an ordinary table: whether it
succeeds and what it gives, by the properties and the children of both. -/
theorem call_ok {c : Constructor} {C : LuaObject} (base : Base lua c C) {t : Properties}
    (ordinary : Ordinary lua t) {F : LuaString → Option Datum}
    (fields : ∀ k, F k = overlay lua t.fields (C.clone.fields.lookup ·) k)
    (objects : ∀ x, Datum.given (F "construct_string_children_with".toList) = some x →
      MakesObjects (make x)) :
    (∀ o, call lua make position C (.table t) = .ok o → ∃ ys,
      Checked make F (front C.cells ++ t.items) ys ∧ c.Accepts F ys ∧
        o.cells = ys.map some ∧ ∀ k, o.fields.lookup k = c.normal F k) ∧
    (∀ ys, Checked make F (front C.cells ++ t.items) ys → c.Accepts F ys →
      ∃ o, call lua make position C (.table t) = .ok o ∧
        o.cells = ys.map some ∧ ∀ k, o.fields.lookup k = c.normal F k) := by
  obtain ⟨filled, fill, tame, children, lookups⟩ := fill_ordinary base ordinary
  have same : (filled.fields.lookup ·) = F := funext fun k => (lookups k).trans (fields k).symm
  have plain : (Argument.table t).isClass = false := by
    rw [Argument.isClass, ordinary.instance_only]; rfl
  have steps : ∀ o, call lua make position C (.table t) = .ok o ↔ ∃ ys,
      Checked make F (front C.cells ++ t.items) ys ∧ c.Accepts F ys ∧
        o = c.finish (filled.withChildren ys).wrapInstall := by
    intro o
    have hook (ys : List Datum) :
        (filled.withChildren ys).wrapInstall.fields.lookup "__newindex".toList = none := by
      rw [lookup_installed, if_neg (by decide), Option.map_id_fun]
      exact tame.hook
    have own (ys : List Datum) :
        c.Accepts ((filled.withChildren ys).wrapInstall.fields.lookup ·)
          (front (filled.withChildren ys).wrapInstall.cells) ↔ c.Accepts F ys := by
      have cells : (filled.withChildren ys).wrapInstall.cells = ys.map some :=
        (wrapWhere_frame _ _ _).1
      rw [cells, front_some, ← same]
      refine accepts_congr (fun k not_install _ => ?_) c ys
      rw [lookup_installed, if_neg not_install, Option.map_id_fun]
      rfl
    have init : call lua make position C (.table t) = .ok o ↔
        ∃ a, verify lua make position filled = .ok a ∧ c.verify lua position a = .ok o := by
      simp only [call, base.init, Constructor.init, nodeInit, Argument.properties, fill, plain,
        Bool.false_eq_true, if_false, except_bind_ok, Except.ok.injEq, exists_eq_left']
    rw [init]
    have objects' : ∀ x, property filled "construct_string_children_with".toList = some x →
        MakesObjects (make x) := by
      intro x h
      rw [property, lookups, ← fields] at h
      exact objects x h
    constructor
    · rintro ⟨a, verified, rest⟩
      obtain ⟨ys, checked, rfl⟩ := (verify_ok tame objects').mp verified
      rw [verifyOwn_ok lua (hook ys), own] at rest
      rw [same, children] at checked
      exact ⟨ys, checked, rest⟩
    · rintro ⟨ys, checked, accepts, rfl⟩
      refine ⟨_, (verify_ok tame objects').mpr ⟨ys, ?_, rfl⟩, ?_⟩
      · rw [same, children]
        exact checked
      · rw [verifyOwn_ok lua (hook ys), own]
        exact ⟨accepts, rfl⟩
  have result (ys : List Datum) (k : LuaString) :
      (c.finish (filled.withChildren ys).wrapInstall).fields.lookup k = c.normal F k := by
    rw [lookup_finish]
    change c.normal (filled.fields.lookup ·) k = _
    rw [same]
  constructor
  · intro o run
    obtain ⟨ys, checked, accepts, rfl⟩ := (steps o).mp run
    exact ⟨ys, checked, accepts, finish_cells c _, result ys⟩
  · intro ys checked accepts
    exact ⟨_, (steps _).mpr ⟨ys, checked, accepts, rfl⟩, finish_cells c _, result ys⟩

end Making

end PrimeMover
