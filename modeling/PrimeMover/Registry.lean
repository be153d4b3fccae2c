import PrimeMover.Index
import Mathlib.Data.List.Dedup

/-! Ids across runs. A registry gives every key the next number once; the table of a
running pm and the text of its index both represent one registry. -/
namespace PrimeMover
open LineReader AssocTable Outcome

variable {W : Type}

/-- The ids given so far: one for each key, none twice, none above the count. -/
structure Registry where
  count : Nat
  ids : List (LuaString × Nat)
  distinct : (ids.map Prod.fst).Nodup
  injective : (ids.map Prod.snd).Nodup
  bounded : ∀ e ∈ ids, e.2 ≤ count

namespace Registry

def empty : Registry := ⟨0, [], by simp, by simp, by simp⟩

/-- A new key takes the next number. -/
def add (r : Registry) (key : LuaString) (fresh : r.ids.lookup key = none) : Registry where
  count := r.count + 1
  ids := r.ids ++ [(key, r.count + 1)]
  distinct := nodup_append_new r.distinct fresh
  injective := by
    rw [List.map_append, List.nodup_append]
    refine ⟨r.injective, by simp, ?_⟩
    intro n hn m hm
    obtain ⟨e, he, rfl⟩ := List.mem_map.mp hn
    have := r.bounded e he
    have : m = r.count + 1 := by simpa using hm
    omega
  bounded := by
    intro e he
    rcases List.mem_append.mp he with h | h
    · have := r.bounded e h
      omega
    · have : e = (key, r.count + 1) := by simpa using h
      simp [this]

theorem lookup_add (r : Registry) (key : LuaString) (fresh : r.ids.lookup key = none)
    (k : LuaString) :
    (r.add key fresh).ids.lookup k = if k == key then some (r.count + 1) else r.ids.lookup k := by
  change (r.ids ++ [(key, r.count + 1)]).lookup k = _
  rw [← setEntry_new fresh, lookup_setEntry]

/-- The id of a key, and the registry after the request. -/
def request (r : Registry) (key : LuaString) : Registry × Nat :=
  match h : r.ids.lookup key with
  | some n => (r, n)
  | none => (r.add key h, r.count + 1)

theorem request_known {r : Registry} {key : LuaString} {n : Nat}
    (known : r.ids.lookup key = some n) : r.request key = (r, n) := by
  unfold request
  split
  · rename_i m h
    rw [known] at h
    cases h
    rfl
  · rename_i h
    rw [known] at h
    cases h

theorem request_new {r : Registry} {key : LuaString} (fresh : r.ids.lookup key = none) :
    r.request key = (r.add key fresh, r.count + 1) := by
  unfold request
  split
  · rename_i m h
    rw [fresh] at h
    cases h
  · rfl

/-- One registry continues another: every key keeps its id. -/
def Extends (r s : Registry) : Prop := r.count ≤ s.count ∧ ∀ e ∈ r.ids, e ∈ s.ids

theorem Extends.refl (r : Registry) : r.Extends r := ⟨Nat.le_refl _, fun _ he => he⟩

theorem Extends.trans {r s t : Registry} (h : r.Extends s) (h' : s.Extends t) : r.Extends t :=
  ⟨Nat.le_trans h.1 h'.1, fun e he => h'.2 e (h.2 e he)⟩

theorem request_extends (r : Registry) (key : LuaString) : r.Extends (r.request key).1 := by
  cases h : r.ids.lookup key with
  | some n =>
    rw [request_known h]
    exact Extends.refl r
  | none =>
    rw [request_new h]
    exact ⟨Nat.le_succ _, fun e he => List.mem_append_left _ he⟩

theorem request_mem (r : Registry) (key : LuaString) :
    (key, (r.request key).2) ∈ (r.request key).1.ids := by
  cases h : r.ids.lookup key with
  | some n =>
    rw [request_known h]
    exact mem_of_lookup h
  | none =>
    rw [request_new h]
    exact List.mem_append_right _ (List.mem_singleton.mpr rfl)

theorem request_ids {r : Registry} {key : LuaString} {e : LuaString × Nat}
    (he : e ∈ (r.request key).1.ids) : e ∈ r.ids ∨ e.1 = key := by
  cases h : r.ids.lookup key with
  | some n =>
    rw [request_known h] at he
    exact Or.inl he
  | none =>
    rw [request_new h] at he
    rcases List.mem_append.mp he with he | he
    · exact Or.inl he
    · exact Or.inr (congrArg Prod.fst (List.mem_singleton.mp he))

theorem request_lines (r : Registry) {key : LuaString} (lines : ∀ e ∈ r.ids, LineText e.1)
    (line : LineText key) : ∀ e ∈ (r.request key).1.ids, LineText e.1 := by
  intro e he
  rcases request_ids he with he | same
  · exact lines e he
  · rw [same]
    exact line

theorem request_counted (r : Registry) (counted : r.count = r.ids.length) (key : LuaString) :
    (r.request key).1.count = (r.request key).1.ids.length := by
  cases h : r.ids.lookup key with
  | some n =>
    rw [request_known h]
    exact counted
  | none =>
    rw [request_new h]
    simp [add, counted]

theorem key_unique (r : Registry) {k : LuaString} {m n : Nat} (hm : (k, m) ∈ r.ids)
    (hn : (k, n) ∈ r.ids) : m = n := by
  have := (lookup_of_mem r.distinct hm).symm.trans (lookup_of_mem r.distinct hn)
  exact Option.some.inj this

theorem id_unique (r : Registry) {j k : LuaString} {n : Nat} (hj : (j, n) ∈ r.ids)
    (hk : (k, n) ∈ r.ids) : j = k := by
  have := List.inj_on_of_nodup_map r.injective hj hk rfl
  exact congrArg Prod.fst this

end Registry

/-- A count and a table that print as the registry does. -/
structure Represents (count : Option Id) (cache : List (LuaString × Id)) (r : Registry) : Prop where
  count : count.map Id.text = some (decimal r.count)
  distinct : (cache.map Prod.fst).Nodup
  ids : ∀ key, (cache.lookup key).map Id.text = (r.ids.lookup key).map decimal

namespace Represents

theorem mem {count : Option Id} {cache : List (LuaString × Id)} {r : Registry}
    (h : Represents count cache r) {e : LuaString × Id} (he : e ∈ cache) :
    ∃ n, e.2.text = decimal n ∧ (e.1, n) ∈ r.ids := by
  have := h.ids e.1
  rw [lookup_of_mem h.distinct (show (e.1, e.2) ∈ cache from he)] at this
  cases hr : r.ids.lookup e.1 with
  | none => simp [hr] at this
  | some n =>
    rw [hr] at this
    exact ⟨n, Option.some.inj this, mem_of_lookup hr⟩

/-- A represented table is one that the index can hold. -/
def table {count : Id} {cache : List (LuaString × Id)} {r : Registry}
    (h : Represents (some count) cache r) : IdTable where
  count := count
  entries := cache
  distinct := h.distinct
  countNumeral := by
    rw [Id.Numeral, number_of_text (Option.some.inj h.count)]
    rfl
  idNumeral := by
    intro e he
    obtain ⟨n, hn, _⟩ := h.mem he
    rw [Id.Numeral, number_of_text hn]
    rfl

theorem add {count : Option Id} {cache : List (LuaString × Id)} {r : Registry}
    (h : Represents count cache r) {key : LuaString} (fresh : r.ids.lookup key = none) :
    Represents (some (.num (r.count + 1 : Nat))) (setEntry cache key (.num (r.count + 1 : Nat)))
      (r.add key fresh) where
  count := rfl
  distinct := by
    have hc : cache.lookup key = none := by
      have := h.ids key
      rw [fresh] at this
      simpa using this
    rw [setEntry_new hc]
    exact nodup_append_new h.distinct hc
  ids := by
    intro k
    rw [lookup_setEntry, Registry.lookup_add]
    split
    · rfl
    · exact h.ids k

/-- The reader finds the registry in the text of its table, in any order. -/
theorem decode {count : Id} {cache entries : List (LuaString × Id)} {r : Registry}
    (h : Represents (some count) cache r) (lines : ∀ e ∈ r.ids, LineText e.1)
    (perm : entries.Perm cache) :
    Represents (decodeIndex (indexText count entries) []).1
      (decodeIndex (indexText count entries) []).2 r := by
  have whole : ∀ e ∈ entries, LineText e.1 ∧ LineText e.2.text := by
    intro e he
    obtain ⟨n, _, hn⟩ := h.mem (perm.mem_iff.mp he)
    exact ⟨lines _ hn, (h.table.idNumeral e (perm.mem_iff.mp he)).lineText⟩
  have distinct := (perm.map Prod.fst).nodup_iff.mpr h.distinct
  rw [decodeIndex_text count entries h.table.countNumeral whole]
  constructor
  · exact h.count
  · exact nodup_foldl_setEntry (fun u => Id.str u.text) entries [] (by simp)
  · intro key
    rw [foldl_setEntry (fun u => Id.str u.text) _ _ distinct, lookup_perm h.distinct perm]
    have := h.ids key
    cases hc : cache.lookup key with
    | none => simpa [hc] using this
    | some u => simpa [hc, Id.text] using this

end Represents

/-- What the index file says: nothing yet, or the registry. -/
def Stored (cfg : Settings W) (w : W) (r : Registry) : Prop :=
  match cfg.host.readFile w (indexFile cfg) with
  | none => r = Registry.empty
  | some text => Represents (decodeIndex text []).1 (decodeIndex text []).2 r

theorem Stored.elsewhere {cfg : Settings W} {w w' : W} {r : Registry} (h : Stored cfg w r)
    (same : cfg.host.readFile w' (indexFile cfg) = cfg.host.readFile w (indexFile cfg)) :
    Stored cfg w' r := by
  rw [Stored, same]
  exact h

/-- A request that fails has changed no file. -/
theorem createKey_fails {cfg : Settings W} {key : LuaString} {st st' : State W} {e : Stop}
    (run : createIntermediateCacheKey cfg key st = .error e st') :
    st'.sys.world = st.sys.world := by
  cases known : st.mem.intermediateCache.lookup key with
  | some u =>
    rw [createKey_known cfg known] at run
    cases run
  | none =>
    cases count : st.mem.intermediateCacheCount.bind Id.number with
    | none =>
      simp only [createIntermediateCacheKey, bind_run, get_run, known, count] at run
      cases run
      rfl
    | some n =>
      rw [createKey_new cfg known count] at run
      dsimp only at run
      split at run
      · cases run
        rfl
      · cases run

/-- A request on the table is a request on the registry, and leaves it in the index, as long as
the numbers last. -/
theorem request_run (cfg : Settings W) (laws : IndexLaws cfg) (r : Registry) (key : LuaString)
    (lines : ∀ e ∈ (r.request key).1.ids, LineText e.1)
    (few : (r.request key).1.count < 0x80000000) :
    Ensures
      (fun st => Represents st.mem.intermediateCacheCount st.mem.intermediateCache r ∧
        Stored cfg st.sys.world r)
      (createIntermediateCacheKey cfg key)
      (fun u st => u.text = decimal (r.request key).2 ∧
        Represents st.mem.intermediateCacheCount st.mem.intermediateCache (r.request key).1 ∧
        Stored cfg st.sys.world (r.request key).1)
      (fun _ st => Stored cfg st.sys.world r) := by
  rintro st ⟨rep, stored⟩
  have same := rep.ids key
  cases hr : r.ids.lookup key with
  | some n =>
    rw [hr] at same
    obtain ⟨u, hu, text⟩ := Option.map_eq_some_iff.mp same
    rw [Registry.request_known hr, createKey_known cfg hu]
    exact ⟨text, rep, stored⟩
  | none =>
    rw [hr] at same
    have hu : st.mem.intermediateCache.lookup key = none := by simpa using same
    obtain ⟨c, hc, text⟩ := Option.map_eq_some_iff.mp rep.count
    have added := rep.add hr
    rw [Registry.request_new hr] at lines few ⊢
    have few : r.count + 1 < 0x80000000 := few
    have next : luaNumber (r.count + 1) = (r.count + 1 : Nat) :=
      luaNumber_of_small (by omega) (by omega)
    rw [createKey_new cfg hu (n := r.count) (by rw [hc, Option.bind_some, number_of_text text]),
      next]
    dsimp only
    cases hw : cfg.host.writeFile st.sys.world (indexFile cfg) (indexText (.num (r.count + 1 : Nat))
        (cfg.host.pairs st.sys.world (st.mem.issue key (r.count + 1 : Nat)).intermediateCache)) with
    | none => exact stored
    | some w =>
      refine ⟨rfl, added, ?_⟩
      rw [Stored, laws.read_write _ _ _ hw]
      exact added.decode lines (laws.pairs_perm _ _)

/-- Making and wiping directories does not put an index there. -/
structure CacheLaws (cfg : Settings W) : Prop extends IndexLaws cfg where
  mkdir_unread : ∀ w w' f, cfg.host.mkdir w f = some w' →
    cfg.host.readFile w (indexFile cfg) = none → cfg.host.readFile w' (indexFile cfg) = none
  unlink_unread : ∀ w w' f, cfg.host.unlink w f = some w' →
    cfg.host.readFile w (indexFile cfg) = none → cfg.host.readFile w' (indexFile cfg) = none
  rmdir_unread : ∀ w w' f, cfg.host.rmdir w f = some w' →
    cfg.host.readFile w (indexFile cfg) = none → cfg.host.readFile w' (indexFile cfg) = none

theorem create_unread (cfg : Settings W) (laws : CacheLaws cfg) :
    Keeps (fun s : Sys W => cfg.host.readFile s.world (indexFile cfg) = none)
      (createIntermediateCache cfg) := by
  apply Keeps.get_bind
  intro s hs
  split
  · refine (Keeps.bind (mkcontainerdir_keeps cfg.host _ ?_ cfg.fuel _) fun _ =>
      Keeps.get_bind ?_).from hs
    · intro t w f hw ht
      exact laws.mkdir_unread _ _ _ hw ht
    · intro t ht
      split
      · exact (Keeps.throw _).from ht
      · rename_i w hw
        apply Ensures.modify
        rintro _ rfl
        exact laws.mkdir_unread _ _ _ hw ht
  · refine (rmdir_keeps cfg.host _ (fun _ => True) (fun _ => True)
      (fun _ _ _ _ _ _ _ _ _ _ => ⟨trivial, trivial⟩) ?_ cfg.fuel _ trivial).from hs
    intro t w f ht _ hw
    rcases hw with hw | hw
    · exact laws.unlink_unread _ _ _ hw ht
    · exact laws.rmdir_unread _ _ _ hw ht

/-- A run begins with the registry that the index stores. -/
theorem load_run (cfg : Settings W) (laws : CacheLaws cfg) (r : Registry) (w : W) (sandbox : Obj)
    (objects : Nat) (stored : Stored cfg w r) :
    match loadIntermediateCache cfg (start w sandbox objects) with
    | .ok _ st => Represents st.mem.intermediateCacheCount st.mem.intermediateCache r ∧
        Stored cfg st.sys.world r
    | .error _ st => Stored cfg st.sys.world r := by
  cases there : cfg.host.readFile w (indexFile cfg) with
  | some text =>
    have run : loadIntermediateCache cfg (start w sandbox objects) = _ :=
      loadIntermediateCache_run there
    rw [run]
    refine ⟨?_, stored⟩
    rw [Stored, there] at stored
    exact stored
  | none =>
    have unread := create_unread cfg laws (start w sandbox objects).sys there
    rw [Stored, there] at stored
    have after : ∀ w', cfg.host.readFile w' (indexFile cfg) = none → Stored cfg w' r := by
      intro w' none
      rw [Stored, none]
      exact stored
    have run : loadIntermediateCache cfg (start w sandbox objects) =
        lift (createIntermediateCache cfg) (start w sandbox objects) := by
      simp only [loadIntermediateCache, bind_run, get_run]
      rw [show (start w sandbox objects).sys.world = w from rfl, there]
    rw [run, lift]
    cases hc : createIntermediateCache cfg (start w sandbox objects).sys with
    | ok _ sys =>
      rw [hc] at unread
      refine ⟨?_, after _ unread⟩
      rw [stored]
      exact ⟨rfl, by simp [start], by simp [start, Registry.empty]⟩
    | error _ sys =>
      rw [hc] at unread
      exact after _ unread

/-- pm processes that share a cache directory, one after the other. `issued` are the
answers that requests for ids were given so far. -/
structure Session (W : Type) where
  proc : Option Mem
  sys : Sys W
  issued : List (LuaString × Id)

namespace Session

/-- A process loads the index, asks for ids of keys that `Key` admits, and exits or
dies; meanwhile anything else may happen to the files, except to the index. -/
inductive Step (cfg : Settings W) (Key : LuaString → Prop) : Session W → Session W → Prop where
  | load (s : Session W) (sandbox : Obj) (objects : Nat) (st : State W)
      (idle : s.proc = none)
      (run : loadIntermediateCache cfg (start s.sys.world sandbox objects) = .ok () st) :
      Step cfg Key s ⟨some st.mem, st.sys, s.issued⟩
  | loadFails (s : Session W) (sandbox : Obj) (objects : Nat) (e : Stop) (st : State W)
      (idle : s.proc = none)
      (run : loadIntermediateCache cfg (start s.sys.world sandbox objects) = .error e st) :
      Step cfg Key s ⟨none, st.sys, s.issued⟩
  | request (s : Session W) (m : Mem) (key : LuaString) (u : Id) (st : State W)
      (running : s.proc = some m) (admitted : Key key)
      (run : createIntermediateCacheKey cfg key ⟨m, s.sys, [], []⟩ = .ok u st) :
      Step cfg Key s ⟨some st.mem, st.sys, s.issued ++ [(key, u)]⟩
  | requestFails (s : Session W) (m : Mem) (key : LuaString) (e : Stop) (st : State W)
      (running : s.proc = some m) (admitted : Key key)
      (run : createIntermediateCacheKey cfg key ⟨m, s.sys, [], []⟩ = .error e st) :
      Step cfg Key s ⟨none, st.sys, s.issued⟩
  | exit (s : Session W) : Step cfg Key s ⟨none, s.sys, s.issued⟩
  | elsewhere (s : Session W) (sys : Sys W)
      (same : cfg.host.readFile sys.world (indexFile cfg) =
        cfg.host.readFile s.sys.world (indexFile cfg)) :
      Step cfg Key s ⟨s.proc, sys, s.issued⟩

inductive Reachable (cfg : Settings W) (Key : LuaString → Prop) : Session W → Prop where
  | fresh (sys : Sys W) (unread : cfg.host.readFile sys.world (indexFile cfg) = none) :
      Reachable cfg Key ⟨none, sys, []⟩
  | step (s s' : Session W) (reach : Reachable cfg Key s) (step : Step cfg Key s s') :
      Reachable cfg Key s'

/-- A count that is a number and bounds the ids of its table. -/
def Bounded (count : Option Id) (cache : List (LuaString × Id)) : Prop :=
  ∃ c, count.bind Id.number = some c ∧ ∀ e ∈ cache, ∃ n, e.2.number = some n ∧ n ≤ c

/-- One id for each key and one key for each id; the count bounds the table, in memory
and in the index; an id given for the first time is above all those given before. -/
structure Consistent (cfg : Settings W) (s : Session W) : Prop where
  unique : ∀ a ∈ s.issued, ∀ b ∈ s.issued, a.1 = b.1 ↔ a.2.text = b.2.text
  table : ∀ m, s.proc = some m → Bounded m.intermediateCacheCount m.intermediateCache
  file : ∀ text, cfg.host.readFile s.sys.world (indexFile cfg) = some text →
    Bounded (decodeIndex text []).1 (decodeIndex text []).2
  fresh : ∀ before key u after, s.issued = before ++ (key, u) :: after →
    (∀ a ∈ before, a.1 ≠ key) →
    ∀ a ∈ before, ∃ m n, a.2.number = some m ∧ u.number = some n ∧ m < n

/-- How many different keys were given ids. -/
def keys (s : Session W) : Nat := (s.issued.map Prod.fst).dedup.length

/-- The registry behind a session. -/
structure Inv (cfg : Settings W) (s : Session W) (r : Registry) : Prop where
  stored : Stored cfg s.sys.world r
  running : ∀ m, s.proc = some m →
    Represents m.intermediateCacheCount m.intermediateCache r
  lines : ∀ e ∈ r.ids, LineText e.1
  counted : r.count = r.ids.length
  given : ∀ a ∈ s.issued, ∃ n, a.2.text = decimal n ∧ (a.1, n) ∈ r.ids
  asked : ∀ e ∈ r.ids, ∃ a ∈ s.issued, a.1 = e.1
  rising : ∀ before key u after, s.issued = before ++ (key, u) :: after →
    (∀ a ∈ before, a.1 ≠ key) →
    ∀ a ∈ before, ∃ m n, a.2.number = some m ∧ u.number = some n ∧ m < n

/-- No more numbers are given than there are keys. -/
theorem Inv.count_le {cfg : Settings W} {s : Session W} {r : Registry} (inv : Inv cfg s r)
    {issued : List (LuaString × Id)} {key : LuaString} {u : Id}
    (split : issued = s.issued ++ [(key, u)]) :
    (r.request key).1.count ≤ (issued.map Prod.fst).dedup.length := by
  have counted : (r.request key).1.count = ((r.request key).1.ids.map Prod.fst).length := by
    rw [List.length_map]
    exact r.request_counted inv.counted key
  rw [counted]
  refine (r.request key).1.distinct.length_le_of_subset fun k hk => ?_
  rw [List.mem_dedup, split]
  obtain ⟨e, he, rfl⟩ := List.mem_map.mp hk
  rcases r.request_ids he with he | same
  · obtain ⟨a, ha, same⟩ := inv.asked e he
    exact List.mem_map.mpr ⟨a, List.mem_append_left _ ha, same⟩
  · exact List.mem_map.mpr ⟨(key, u), List.mem_append_right _ (List.mem_singleton.mpr rfl), same.symm⟩

theorem Inv.request {cfg : Settings W} {s : Session W} {r : Registry} {m : Mem}
    {key : LuaString} {u : Id} {st : State W} (laws : IndexLaws cfg) (inv : Inv cfg s r)
    (running : s.proc = some m) (line : LineText key)
    (run : createIntermediateCacheKey cfg key ⟨m, s.sys, [], []⟩ = .ok u st)
    (few : keys ⟨some st.mem, st.sys, s.issued ++ [(key, u)]⟩ < 0x80000000) :
    Inv cfg ⟨some st.mem, st.sys, s.issued ++ [(key, u)]⟩ (r.request key).1 := by
  have lines := r.request_lines inv.lines line
  have last := Nat.lt_of_le_of_lt (inv.count_le rfl) few
  obtain ⟨text, rep, stored⟩ := (request_run cfg laws r key lines last).ok
    (s := ⟨m, s.sys, [], []⟩) ⟨inv.running m running, inv.stored⟩ run
  have older := r.request_extends key
  refine ⟨stored, ?_, lines, r.request_counted inv.counted key, ?_, ?_, ?_⟩
  · intro m' hm
    cases hm
    exact rep
  · intro a ha
    rcases List.mem_append.mp ha with ha | ha
    · obtain ⟨n, hn, member⟩ := inv.given a ha
      exact ⟨n, hn, older.2 _ member⟩
    · rw [List.mem_singleton.mp ha]
      exact ⟨_, text, r.request_mem key⟩
  · intro e he
    rcases r.request_ids he with he | same
    · obtain ⟨a, ha, same⟩ := inv.asked e he
      exact ⟨a, List.mem_append_left _ ha, same⟩
    · exact ⟨(key, u), List.mem_append_right _ (List.mem_singleton.mpr rfl), same.symm⟩
  · intro before k v after split unasked a ha
    rcases List.eq_nil_or_concat after with rfl | ⟨older', last, rfl⟩
    · have ends := List.append_inj' split rfl
      obtain ⟨rfl, same⟩ := ends
      cases List.singleton_inj.mp same
      have h : r.ids.lookup key = none := by
        cases h : r.ids.lookup key with
        | none => rfl
        | some n =>
          obtain ⟨b, hb, same⟩ := inv.asked _ (mem_of_lookup h)
          exact absurd same (unasked b hb)
      rw [Registry.request_new h] at text
      obtain ⟨n, hn, member⟩ := inv.given a ha
      exact ⟨n, (r.count + 1 : Nat), number_of_text hn, number_of_text text,
        Int.ofNat_lt.mpr (Nat.lt_succ_of_le (r.bounded _ member))⟩
    · rw [List.concat_eq_append, ← List.cons_append, ← List.append_assoc] at split
      exact inv.rising before k v older' (List.append_inj_left' split rfl) unasked a ha

theorem Inv.rest {cfg : Settings W} {s : Session W} {r : Registry} (inv : Inv cfg s r)
    (sys : Sys W) (stored : Stored cfg sys.world r) : Inv cfg ⟨none, sys, s.issued⟩ r :=
  ⟨stored, by simp, inv.lines, inv.counted, inv.given, inv.asked, inv.rising⟩

theorem keys_step {cfg : Settings W} {Key : LuaString → Prop} {s s' : Session W}
    (step : Step cfg Key s s') : s.keys ≤ s'.keys := by
  have same : s.issued ⊆ s'.issued := by
    cases step with
    | request m key u st running admitted run => exact List.subset_append_left _ _
    | _ => exact List.Subset.refl _
  refine (List.nodup_dedup _).length_le_of_subset fun k hk => ?_
  rw [List.mem_dedup] at hk ⊢
  exact List.map_subset _ same hk

theorem Inv.step {cfg : Settings W} {s s' : Session W} {r : Registry} (laws : CacheLaws cfg)
    (inv : Inv cfg s r) (step : Step cfg LineText s s') (few : s'.keys < 0x80000000) :
    ∃ r', Inv cfg s' r' := by
  cases step with
  | load sandbox objects st idle run =>
    have loaded := load_run cfg laws r s.sys.world sandbox objects inv.stored
    rw [run] at loaded
    refine ⟨r, loaded.2, ?_, inv.lines, inv.counted, inv.given, inv.asked, inv.rising⟩
    intro m hm
    cases hm
    exact loaded.1
  | loadFails sandbox objects e st idle run =>
    have loaded := load_run cfg laws r s.sys.world sandbox objects inv.stored
    rw [run] at loaded
    exact ⟨r, inv.rest st.sys loaded⟩
  | request m key u st running line run =>
    exact ⟨_, inv.request laws.toIndexLaws running line run few⟩
  | requestFails m key e st running line run =>
    refine ⟨r, inv.rest st.sys ?_⟩
    rw [createKey_fails run]
    exact inv.stored
  | exit => exact ⟨r, inv.rest s.sys inv.stored⟩
  | elsewhere sys same =>
    exact ⟨r, inv.stored.elsewhere same, inv.running, inv.lines, inv.counted, inv.given, inv.asked,
      inv.rising⟩

theorem reachable_inv {cfg : Settings W} {s : Session W} (laws : CacheLaws cfg)
    (reach : Reachable cfg LineText s) (few : s.keys < 0x80000000) : ∃ r, Inv cfg s r := by
  induction reach with
  | fresh sys unread =>
    refine ⟨Registry.empty, ?_, by simp, ?_, rfl, by simp, ?_, by simp⟩
    · rw [Stored, unread]
    · intro e he
      cases he
    · intro e he
      cases he
  | step s s' _ step ih =>
    obtain ⟨r, inv⟩ := ih (Nat.lt_of_le_of_lt (keys_step step) few)
    exact inv.step laws step few

theorem bounded_of_represents {count : Option Id} {cache : List (LuaString × Id)} {r : Registry}
    (rep : Represents count cache r) : Bounded count cache := by
  obtain ⟨c, hc, text⟩ := Option.map_eq_some_iff.mp rep.count
  refine ⟨r.count, by rw [hc, Option.bind_some, number_of_text text], ?_⟩
  intro e he
  obtain ⟨n, hn, member⟩ := rep.mem he
  exact ⟨n, number_of_text hn, Int.ofNat_le.mpr (r.bounded _ member)⟩

/-- Over any sequence of processes that ask for ids of lines, as long as the numbers last. -/
theorem ids_consistent (cfg : Settings W) (laws : CacheLaws cfg) (s : Session W)
    (reach : Reachable cfg LineText s) (few : s.keys < 0x80000000) : s.Consistent cfg := by
  obtain ⟨r, inv⟩ := reachable_inv laws reach few
  refine ⟨?_, ?_, ?_, inv.rising⟩
  · intro a ha b hb
    obtain ⟨m, hm, memA⟩ := inv.given a ha
    obtain ⟨n, hn, memB⟩ := inv.given b hb
    rw [hm, hn]
    constructor
    · intro same
      rw [same] at memA
      rw [r.key_unique memA memB]
    · intro same
      rw [decimal_inj same] at memA
      exact r.id_unique memA memB
  · intro m running
    exact bounded_of_represents (inv.running m running)
  · intro text there
    have stored := inv.stored
    rw [Stored, there] at stored
    exact bounded_of_represents stored

end Session

theorem deskCacheLaws (shell : LuaString → Desk.Effect) (fuel : Nat) :
    CacheLaws (Desk.settings shell fuel) where
  toIndexLaws := deskIndexLaws shell fuel
  mkdir_unread := by
    intro d d' f made unread
    show (d'.files.lookup _).map DeskFile.contents = none
    rw [(Desk.mkdir_files made).1]
    exact unread
  unlink_unread := by
    intro d d' f removed unread
    show (d'.files.lookup _).map DeskFile.contents = none
    rw [Desk.unlink_files removed]
    split
    · rfl
    · exact unread
  rmdir_unread := by
    intro d d' f removed unread
    show (d'.files.lookup _).map DeskFile.contents = none
    rw [Desk.rmdir_files removed]
    exact unread

section Examples

/-- A machine whose shell does nothing. -/
def idle : Settings Desk := Desk.settings (fun _ => ⟨0, [], []⟩) 4

/-- A session on the empty machine. -/
def noSession : Session Desk := ⟨none, ⟨⟨0, [], []⟩, fun _ => none, []⟩, []⟩

/-- One process that asks for two ids. -/
theorem two_requests : ∃ s : Session Desk,
    s.issued = [("cc a.c".toList, .num 1), ("cc b.c".toList, .num 2)] ∧ s.Consistent idle := by
  have s₀ : Session.Reachable idle LineText noSession := .fresh _ rfl
  have s₁ := s₀.step _ _ (.load _ sandboxVariables 0 _ rfl rfl)
  have s₂ := s₁.step _ _ (.request _ _ "cc a.c".toList (.num 1) _ rfl (by decide) rfl)
  have s₃ := s₂.step _ _ (.request _ _ "cc b.c".toList (.num 2) _ rfl (by decide) rfl)
  refine ⟨_, rfl, Session.ids_consistent idle (deskCacheLaws _ _) _ s₃ ?_⟩
  show (["cc a.c".toList, "cc b.c".toList] : List LuaString).dedup.length < 0x80000000
  decide

/-- A command with a NUL character is not found again in the next process. -/
theorem nul_key_twice : ¬ ∀ s : Session Desk,
    Session.Reachable idle (fun key => newline ∉ key) s → s.Consistent idle := by
  intro every
  have s₀ : Session.Reachable idle (fun key => newline ∉ key) noSession := .fresh _ rfl
  have s₁ := s₀.step _ _ (.load _ sandboxVariables 0 _ rfl rfl)
  have s₂ := s₁.step _ _ (.request _ _ ['a', nul, 'b'] (.num 1) _ rfl (by decide) rfl)
  have s₃ := s₂.step _ _ (.exit _)
  have s₄ := s₃.step _ _ (.load _ sandboxVariables 0 _ rfl rfl)
  have s₅ := s₄.step _ _ (.request _ _ ['a', nul, 'b'] (.num 2) _ rfl (by decide) rfl)
  have same := ((every _ s₅).unique (['a', nul, 'b'], .num 1) (by simp [noSession])
    (['a', nul, 'b'], .num 2) (by simp [noSession])).mp rfl
  exact absurd same (by decide)

end Examples

end PrimeMover
