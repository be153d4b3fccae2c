import PrimeMover.Files
import PrimeMover.Table
import PrimeMover.Outcome

/-! The intermediate cache: the table from expanded commands to ids, its index file
and the wiping of its directory. -/
namespace PrimeMover
open LuaPattern LineReader AssocTable Outcome

variable {W : Type}

/-- What `fgets` reads at most into the buffer of `read_line`, of `BUFSIZ` characters. -/
def bufferSize : Nat := 8191

def indexFile (cfg : Settings W) : LuaString := cfg.intermediateCacheDir ++ "index".toList

def writeLine (s : LuaString) : LuaString := s ++ [newline]

/-- The text `save_intermediate_cache` writes, for the entries in the order in which
`pairs` gives them. -/
def indexText (count : Id) (entries : List (LuaString × Id)) : LuaString :=
  writeLine count.text ++ entries.flatMap (fun e => writeLine e.1 ++ writeLine e.2.text)

/-- `save_intermediate_cache`; without a count `f:write` fails on the emptied file. -/
def saveIntermediateCache (cfg : Settings W) (count : Option Id)
    (cache : List (LuaString × Id)) : SysM W Unit := do
  let w := (← get).world
  let text :=
    match count with
    | none => []
    | some c => indexText c (cfg.host.pairs w cache)
  match cfg.host.writeFile w (indexFile cfg) text with
  | none => usererror ("unable to save intermediate cache index file '".toList ++
      indexFile cfg ++ "'".toList)
  | some w => modify (fun s => { s with world := w })
  if count.isNone then throw (luaerror "bad argument #1 to `write'".toList)

/-- The loop of `load_intermediate_cache`. A round reads at least one character, so
the length of the text is enough fuel. -/
def readEntries : Nat → LuaString → List (LuaString × Id) → List (LuaString × Id)
  | 0, _, cache => cache
  | fuel + 1, text, cache =>
    let l1 := readLine bufferSize text
    let l2 := readLine bufferSize l1.2
    match l1.1, l2.1 with
    | some key, some id => readEntries fuel l2.2 (setEntry cache key (.str id))
    | _, _ => cache

/-- The count and the table that the text of an index stands for. -/
def decodeIndex (text : LuaString) (cache : List (LuaString × Id)) :
    Option Id × List (LuaString × Id) :=
  let first := readLine bufferSize text
  (first.1.map .str, readEntries (text.length + 1) first.2 cache)

/-- One entry of a directory that `rmdir` wipes. -/
def wipeEntry (host : Host W) (rmdir : LuaString → SysM W Unit) (root i : LuaString) :
    SysM W Unit := do
  if i ≠ ".".toList ∧ i ≠ "..".toList then
    let fn := root ++ "/".toList ++ i
    match (host.stat (← get).world fn).map Stat.type with
    | some .regular =>
      match host.unlink (← get).world fn with
      | none => usererror "unable to purge intermediate file cache directory".toList
      | some w => modify (fun s => { s with world := w })
    | some .directory => do
      rmdir fn
      match host.rmdir (← get).world fn with
      | none => pure ()
      | some w => modify (fun s => { s with world := w })
    | _ => pure ()

/-- The local function `rmdir`; the fuel bounds the depth of the tree. -/
def rmdir (host : Host W) : Nat → LuaString → SysM W Unit
  | 0, _ => throw .diverges
  | fuel + 1, root => do
    match host.files (← get).world root with
    | none => pure ()
    | some names => names.forM (wipeEntry host (rmdir host fuel) root)

def createIntermediateCache (cfg : Settings W) : SysM W Unit := do
  let d := dirname cfg.intermediateCacheDir
  match cfg.host.files (← get).world d with
  | none =>
    mkcontainerdir cfg.host cfg.fuel d
    match cfg.host.mkdir (← get).world d with
    | none => usererror "unable to create intermediate file cache directory".toList
    | some w => modify (fun s => { s with world := w, log := s.log ++ [.mkdir d] })
  | some _ => rmdir cfg.host cfg.fuel d

def loadIntermediateCache (cfg : Settings W) : PM W Unit := do
  let st ← get
  match cfg.host.readFile st.sys.world (indexFile cfg) with
  | none => lift (createIntermediateCache cfg)
  | some text =>
    let r := decodeIndex text st.mem.intermediateCache
    set { st with mem := { st.mem with
      intermediateCacheCount := r.1, intermediateCache := r.2 } }

/-- The id of a command: the one in the table, else the next number, saved at once. -/
def createIntermediateCacheKey (cfg : Settings W) (key : LuaString) : PM W Id := do
  let st ← get
  match st.mem.intermediateCache.lookup key with
  | some u => pure u
  | none =>
    match st.mem.intermediateCacheCount.bind Id.number with
    | none => throw (luaerror "attempt to perform arithmetic on `intermediate_cache_count'".toList)
    | some n =>
      let count := Id.num (luaNumber (n + 1))
      let cache := setEntry st.mem.intermediateCache key count
      set { st with mem := { st.mem with
        intermediateCacheCount := some count, intermediateCache := cache } }
      lift (record (.issue key (luaNumber (n + 1))))
      lift (saveIntermediateCache cfg (some count) cache)
      pure count

/-- The cache set-up of the driver. -/
def setupCache (cfg : Settings W) (purge : Bool) : PM W Unit :=
  if purge then lift (createIntermediateCache cfg) else loadIntermediateCache cfg

theorem saveIntermediateCache_eq (cfg : Settings W) (count : Id)
    (cache : List (LuaString × Id)) (sys : Sys W) :
    saveIntermediateCache cfg (some count) cache sys =
      match cfg.host.writeFile sys.world (indexFile cfg)
        (indexText count (cfg.host.pairs sys.world cache)) with
      | none => .error (.exit ("unable to save intermediate cache index file '".toList ++
          indexFile cfg ++ "'".toList)) sys
      | some w => .ok () { sys with world := w } := by
  simp only [saveIntermediateCache, bind_run, get_run, Option.isNone_some, Bool.false_eq_true,
    if_false]
  cases cfg.host.writeFile sys.world (indexFile cfg)
    (indexText count (cfg.host.pairs sys.world cache)) <;> rfl

theorem createKey_known (cfg : Settings W) {key : LuaString} {st : State W} {u : Id}
    (known : st.mem.intermediateCache.lookup key = some u) :
    createIntermediateCacheKey cfg key st = .ok u st := by
  simp only [createIntermediateCacheKey, bind_run, get_run, known, pure_run]

/-- The memory after a new key took the number `n`. -/
def Mem.issue (m : Mem) (key : LuaString) (n : Int) : Mem :=
  { m with
    intermediateCacheCount := some (.num n)
    intermediateCache := setEntry m.intermediateCache key (.num n) }

theorem createKey_new (cfg : Settings W) {key : LuaString} {st : State W} {n : Int}
    (fresh : st.mem.intermediateCache.lookup key = none)
    (count : st.mem.intermediateCacheCount.bind Id.number = some n) :
    createIntermediateCacheKey cfg key st =
      let id := luaNumber (n + 1)
      let log := st.sys.log ++ [.issue key id]
      match cfg.host.writeFile st.sys.world (indexFile cfg) (indexText (.num id)
        (cfg.host.pairs st.sys.world (st.mem.issue key id).intermediateCache)) with
      | none => .error (.exit ("unable to save intermediate cache index file '".toList ++
          indexFile cfg ++ "'".toList)) ⟨st.mem.issue key id, { st.sys with log := log },
            st.lookups, st.visits⟩
      | some w => .ok (.num id)
          ⟨st.mem.issue key id, { st.sys with world := w, log := log }, st.lookups, st.visits⟩ := by
  simp only [createIntermediateCacheKey, bind_run, get_run, fresh, count, set_run, lift, record,
    modify_run, saveIntermediateCache_eq, Mem.issue]
  cases cfg.host.writeFile st.sys.world (indexFile cfg) (indexText (.num (luaNumber (n + 1)))
    (cfg.host.pairs st.sys.world
      (setEntry st.mem.intermediateCache key (.num (luaNumber (n + 1)))))) <;> rfl

theorem mkcontainerdir_keeps (host : Host W) (P : Sys W → Prop)
    (mkdir : ∀ s w f, host.mkdir s.world f = some w → P s →
      P { s with world := w, log := s.log ++ [.mkdir f] })
    (fuel : Nat) (f : LuaString) : Keeps P (mkcontainerdir host fuel f) := by
  induction fuel generalizing f with
  | zero => exact Keeps.throw _
  | succ fuel ih =>
    apply Keeps.get_bind
    intro s hs
    split
    · refine (Keeps.bind (ih _) fun _ => Keeps.get_bind ?_).from hs
      intro t ht
      split
      · exact (Keeps.throw _).from ht
      · rename_i w hw
        apply Ensures.modify
        rintro _ rfl
        exact mkdir _ w _ hw ht
    · exact (Keeps.pure _).from hs

theorem wipeEntry_keeps (host : Host W) (P : Sys W → Prop) (rmdir : LuaString → SysM W Unit)
    (root i : LuaString)
    (deeper : i ≠ ".".toList → i ≠ "..".toList → Keeps P (rmdir (root ++ "/".toList ++ i)))
    (remove : ∀ (s : Sys W) (w : W), P s → i ≠ ".".toList → i ≠ "..".toList →
      (host.unlink s.world (root ++ "/".toList ++ i) = some w ∨
        host.rmdir s.world (root ++ "/".toList ++ i) = some w) → P { s with world := w }) :
    Keeps P (wipeEntry host rmdir root i) := by
  unfold wipeEntry
  split
  · rename_i plain
    apply Keeps.get_bind
    intro t ht
    split
    · refine (Keeps.get_bind ?_).from ht
      intro u hu
      split
      · exact (Keeps.throw _).from hu
      · rename_i w hw
        apply Ensures.modify
        rintro _ rfl
        exact remove _ w hu plain.1 plain.2 (Or.inl hw)
    · refine (Keeps.bind (deeper plain.1 plain.2) fun _ => Keeps.get_bind ?_).from ht
      intro u hu
      split
      · exact (Keeps.pure _).from hu
      · rename_i w hw
        apply Ensures.modify
        rintro _ rfl
        exact remove _ w hu plain.1 plain.2 (Or.inr hw)
    · exact (Keeps.pure _).from ht
  · exact Keeps.pure _

/-- Wiping keeps what every removal of an entry of a wiped directory keeps: `Below` holds
of the directories it wipes, `Inner` of the paths it removes. -/
theorem rmdir_keeps (host : Host W) (P : Sys W → Prop) (Below Inner : LuaString → Prop)
    (child : ∀ (s : Sys W) (root i : LuaString) (names : List LuaString), P s → Below root →
      host.files s.world root = some names → i ∈ names → i ≠ ".".toList → i ≠ "..".toList →
      Below (root ++ "/".toList ++ i) ∧ Inner (root ++ "/".toList ++ i))
    (remove : ∀ (s : Sys W) (w : W) (f : LuaString), P s → Inner f →
      (host.unlink s.world f = some w ∨ host.rmdir s.world f = some w) → P { s with world := w })
    (fuel : Nat) (root : LuaString) (below : Below root) : Keeps P (rmdir host fuel root) := by
  induction fuel generalizing root with
  | zero => exact Keeps.throw _
  | succ fuel ih =>
    apply Keeps.get_bind
    intro s hs
    split
    · exact (Keeps.pure _).from hs
    · rename_i names hf
      refine (Keeps.forM names fun i hi => ?_).from hs
      apply wipeEntry_keeps
      · intro self parent
        exact ih _ (child s root i names hs below hf hi self parent).1
      · intro t w ht self parent hw
        exact remove t w _ ht (child s root i names hs below hf hi self parent).2 hw

theorem lift_mem {A : Type} (x : SysM W A) (s : State W) :
    (final (lift x s)).mem = s.mem ∧ (final (lift x s)).visits = s.visits ∧
      (final (lift x s)).lookups = s.lookups := by
  unfold lift
  cases x s.sys <;> exact ⟨rfl, rfl, rfl⟩

theorem setupCache_visits (cfg : Settings W) (purge : Bool) (s : State W) :
    (final (setupCache cfg purge s)).visits = s.visits := by
  unfold setupCache
  split
  · exact (lift_mem _ s).2.1
  · unfold loadIntermediateCache
    rw [bind_run, get_run]
    dsimp only
    cases cfg.host.readFile s.sys.world (indexFile cfg) with
    | none => exact (lift_mem _ s).2.1
    | some text => rfl

end PrimeMover
