import PrimeMover.Rebuild
import PrimeMover.Lockstep

/-! A run after a run over the same targets: all names are what they were, and only what has
changed in between is made again. -/
namespace PrimeMover
open Outcome AssocTable Make

variable {W : Type}

/-- Two runs over the same targets that return. Anything may have happened in between, except
to the index. -/
structure Rerun (cfg : Settings W) (targets : List Node) where
  history : History W
  world : W
  sandbox : Obj
  objects : Nat
  began : State W
  ended : State W
  resumed : State W
  finished : State W
  happens : Happens cfg history
  load : setupCache cfg false (start history.world sandbox objects) = .ok () began
  run : buildTargets cfg targets began = .ok () ended
  safe : IndexSafe cfg ended
  kept : cfg.host.readFile world (indexFile cfg) =
    cfg.host.readFile ended.sys.world (indexFile cfg)
  reload : setupCache cfg false (start world sandbox objects) = .ok () resumed
  rerun : buildTargets cfg targets resumed = .ok () finished

section Names

/-- Setting up the cache changes nothing else in memory. -/
theorem setupCache_mem (cfg : Settings W) (purge : Bool) (s : State W) :
    ∃ cache count, (final (setupCache cfg purge s)).mem = s.mem.withIds cache count := by
  have same : s.mem = s.mem.withIds s.mem.intermediateCache s.mem.intermediateCacheCount := rfl
  unfold setupCache
  split
  · exact ⟨_, _, (lift_mem _ s).1.trans same⟩
  · unfold loadIntermediateCache
    rw [bind_run, get_run]
    dsimp only
    cases cfg.host.readFile s.sys.world (indexFile cfg) with
    | none => exact ⟨_, _, (lift_mem _ s).1.trans same⟩
    | some text => exact ⟨_, _, rfl⟩

theorem createIntermediateCache_seen (cfg : Settings W) (seen : LuaString → Option Int) :
    Keeps (fun s : Sys W => s.stattedFiles = seen) (createIntermediateCache cfg) := by
  apply Keeps.get_bind
  intro s same
  split
  · refine (Keeps.bind (mkcontainerdir_keeps _ _ (fun _ _ _ _ same => same) _ _) fun _ =>
      Keeps.get_bind fun t same => ?_).from same
    split
    · exact (Keeps.throw _).from same
    · refine Ensures.modify fun u _ => ?_
      subst u
      exact same
  · refine (rmdir_keeps _ _ (fun _ => True) (fun _ => True) ?_ ?_ _ _ trivial).from same
    · intros
      exact ⟨trivial, trivial⟩
    · intro t w _ same _ _
      exact same

/-- A run begins without having looked at any file. -/
theorem load_unseen {cfg : Settings W} {w : W} {sandbox : Obj} {objects : Nat} {s : State W}
    (load : setupCache cfg false (start w sandbox objects) = .ok () s) : Unseen s := by
  have visits := setupCache_visits cfg false (start w sandbox objects)
  rw [load] at visits
  refine ⟨?_, visits⟩
  cases there : cfg.host.readFile w (indexFile cfg) with
  | some text =>
    have run : setupCache cfg false (start w sandbox objects) = _ := loadIntermediateCache_run there
    rw [run] at load
    cases load
    rfl
  | none =>
    have run : loadIntermediateCache cfg (start w sandbox objects) =
        lift (createIntermediateCache cfg) (start w sandbox objects) := by
      simp only [loadIntermediateCache, bind_run, get_run]
      rw [show (start w sandbox objects).sys.world = w from rfl, there]
    have seen := (createIntermediateCache_seen cfg fun _ => none).final
      (show (start w sandbox objects).sys.stattedFiles = _ from rfl)
    rw [show setupCache cfg false (start w sandbox objects) = _ from run, lift] at load
    cases made : createIntermediateCache cfg (start w sandbox objects).sys with
    | ok _ sys =>
      rw [made] at load seen
      cases load
      exact seen
    | error e sys =>
      rw [made] at load
      cases load

/-- Runs begin beside each other. -/
theorem loads_beside {cfg : Settings W} {w w' : W} {sandbox : Obj} {objects : Nat} {s t : State W}
    (load : setupCache cfg false (start w sandbox objects) = .ok () s)
    (reload : setupCache cfg false (start w' sandbox objects) = .ok () t) :
    Beside t.mem.intermediateCache t.mem.intermediateCacheCount s t := by
  have visits := setupCache_visits cfg false (start w sandbox objects)
  have visits' := setupCache_visits cfg false (start w' sandbox objects)
  obtain ⟨_, _, mem⟩ := setupCache_mem cfg false (start w sandbox objects)
  obtain ⟨_, _, mem'⟩ := setupCache_mem cfg false (start w' sandbox objects)
  rw [load] at visits mem
  rw [reload] at visits' mem'
  have mem : s.mem = _ := mem
  have mem' : t.mem = _ := mem'
  have visits : s.visits = [] := visits
  have visits' : t.visits = [] := visits'
  exact ⟨by rw [mem, mem']; rfl, by rw [mem, mem']; rfl, by rw [mem, mem']; rfl,
    by rw [visits, visits']; exact .nil, rfl, rfl⟩

theorem knows_of_represented {s : State W} {count : Option Id} {cache : List (LuaString × Id)}
    {r : Registry} (rep : Represented s r) (other : Represents count cache r) : Knows cache s := by
  intro key u known
  have first := rep.ids key
  have second := other.ids key
  rw [known] at first
  rw [← first] at second
  obtain ⟨u', there, text⟩ := Option.map_eq_some_iff.mp second
  exact ⟨u', there, text⟩

/-- A run that returns leaves a table and an index with the same entries. -/
theorem run_represented {cfg : Settings W} (laws : SharedLaws cfg) {h : History W}
    (happens : Happens cfg h) {targets : List Node} {sandbox : Obj} {objects : Nat}
    {s fin : State W} (load : setupCache cfg false (start h.world sandbox objects) = .ok () s)
    (run : buildTargets cfg targets s = .ok () fin) (safe : IndexSafe cfg fin) :
    ∃ r, Represented fin r ∧ Stored cfg fin.sys.world r := by
  obtain ⟨r, behind⟩ := happens_behind laws happens
  have loaded := load_run cfg laws.toCacheLaws r h.world sandbox objects behind.stored
  have visits := setupCache_visits cfg false (start h.world sandbox objects)
  rw [load] at visits
  rw [show loadIntermediateCache cfg (start h.world sandbox objects) = _ from load] at loaded
  have visits : s.visits = [] := visits
  have begun : Filed cfg r s r :=
    ⟨Registry.Extends.refl r, loaded.2, behind.lines, behind.small, by simp [visits]⟩
  have tour := ((filed_tour laws safe r).buildTargets targets).2.ok
    (fun _ => ⟨⟨r, loaded.1, begun⟩, trivial⟩) run
  obtain ⟨⟨r', rep, filed⟩, _⟩ := tour (Grows.refl fin)
  exact ⟨r', rep, filed.stored⟩

theorem Rerun.beside {cfg : Settings W} {targets : List Node} (laws : SharedLaws cfg)
    (r : Rerun cfg targets) : Beside r.resumed.mem.intermediateCache
      r.resumed.mem.intermediateCacheCount r.ended r.finished := by
  obtain ⟨ids, rep, stored⟩ := run_represented laws r.happens r.load r.run r.safe
  have loaded := load_run cfg laws.toCacheLaws ids r.world r.sandbox r.objects
    (stored.elsewhere r.kept)
  rw [show loadIntermediateCache cfg (start r.world r.sandbox r.objects) = _ from r.reload] at loaded
  have walk := (lockstep_walk cfg r.resumed.mem.intermediateCache
    r.resumed.mem.intermediateCacheCount).buildTargets targets
  exact (walk.agrees (loads_beside r.load r.reload) r.run r.rerun
    (knows_of_represented rep loaded.1)).2

/-- The second run comes by the same nodes in the same order, and every one of them has the
variables, the inputs and the outputs that it had, its unique name among them. No new id
is given. -/
theorem rerun_names_kept {cfg : Settings W} {targets : List Node} (laws : SharedLaws cfg)
    (r : Rerun cfg targets) : List.Forall₂ Twin r.ended.visits r.finished.visits ∧
      r.finished.mem.intermediateCache = r.resumed.mem.intermediateCache ∧
      r.finished.mem.intermediateCacheCount = r.resumed.mem.intermediateCacheCount := by
  have beside := r.beside laws
  exact ⟨beside.visits, beside.cache, beside.count⟩

end Names

section Work

theorem Twin.job {cfg : Settings W} {u v : Visit W} (twin : Twin u v) : v.job cfg = u.job cfg := by
  simp only [Visit.job, Visit.ordered, Visit.orders, Visit.commands, twin.decl, twin.inputs,
    twin.outs, twin.fields]
  have orders : ∀ commands, ordersIn cfg v.mem u.decl.obj commands =
      ordersIn cfg u.mem u.decl.obj commands := by
    intro commands
    induction commands with
    | nil => rfl
    | cons c rest ih =>
      cases c with
      | str s => simp only [ordersIn, twin.fields, twin.scope, ih]
      | _ => simp only [ordersIn, ih]
  rw [orders]

theorem twins_jobs (cfg : Settings W) {us vs : List (Visit W)} (twins : List.Forall₂ Twin us vs) :
    jobsOf cfg vs = jobsOf cfg us := by
  induction twins with
  | nil => rfl
  | @cons u v us vs twin _ ih =>
    rw [← List.singleton_append, ← List.singleton_append (x := u), jobsOf_append, jobsOf_append, ih]
    congr 1
    by_cases simple : u.decl.kind = .simple
    · rw [jobsOf_simple simple, jobsOf_simple (by rw [twin.decl, simple]), twin.job]
    · rw [jobsOf_other simple, jobsOf_other (by rw [twin.decl]; exact simple)]

theorem twins_named {s t : State W} (twins : List.Forall₂ Twin s.visits t.visits) (f : LuaString) :
    Named t f ↔ Named s f := by
  unfold Named
  generalize s.visits = us, t.visits = vs at twins
  induction twins with
  | nil => rfl
  | cons twin _ ih => simp only [List.mem_cons, exists_eq_or_imp, ih, twin.inputs, twin.outs]

theorem jobsOf_named {cfg : Settings W} {fin : State W} {j : Job LuaString (List Order)}
    (member : j ∈ jobsOf cfg fin.visits) {f : LuaString} (file : f ∈ j.inputs ∨ f ∈ j.outs) :
    Named fin f := by
  obtain ⟨v, hv, _, rfl⟩ := mem_jobsOf.mp member
  exact ⟨v, hv, file⟩

/-- After a run no job is out of date by the files on disk. -/
theorem regular_fresh {cfg : Settings W} {targets : List Node} {s fin : State W}
    (regular : Regular cfg s fin) (run : buildTargets cfg targets s = .ok () fin) :
    ∀ j ∈ jobsOf cfg fin.visits, ¬ Outdated (mtime cfg fin.sys.world) j.inputs j.outs := by
  intro j member
  obtain ⟨begun, xs, underway⟩ := regular.underway run
  have sound := underway.run.sound (plan_of_regular run regular)
    (strict_of_regular regular begun).toInitial (List.prefix_refl _)
  have fresh := (sound.settled j member).not_outdated_real sound.ahead
  rwa [Outdated.congr (b := mtime cfg fin.sys.world)] at fresh
  exact fun f hf => if_pos (jobsOf_named member hf)

/-- The second run executes only jobs with a file that has changed since the first run, and
jobs below these, each once. If nothing with a name has changed, it executes nothing. -/
theorem rerun_executes_changed {cfg : Settings W} {targets : List Node} (laws : SharedLaws cfg)
    (r : Rerun cfg targets) (regular : Regular cfg r.began r.ended)
    (regular' : Regular cfg r.resumed r.finished) :
    ∃ xs : List (Job LuaString (List Order)),
      ordersOf r.finished.sys.log = ordersOf r.resumed.sys.log ++ xs.flatMap Job.command ∧
      xs.Nodup ∧
      (∀ j ∈ xs, Affected (jobsOf cfg r.ended.visits) (fun f =>
        mtime cfg r.resumed.sys.world f ≠ mtime cfg r.ended.sys.world f) j) ∧
      ((∀ f, Named r.ended f →
        mtime cfg r.resumed.sys.world f = mtime cfg r.ended.sys.world f) → xs = []) := by
  have twins := (r.beside laws).visits
  have jobs := twins_jobs cfg twins
  obtain ⟨begun, xs, underway⟩ := regular'.underway r.rerun
  have plan := plan_of_regular r.rerun regular'
  have strict := strict_of_regular regular' begun
  have sound := underway.run.sound plan strict.toInitial (List.prefix_refl _)
  have exact := underway.run.exact plan strict (List.prefix_refl _)
  have fresh := regular_fresh regular r.run
  rw [← jobs] at fresh
  have seen : ∀ f, Named r.finished f → (filesOf cfg r.finished r.resumed).age f =
      mtime cfg r.resumed.sys.world f := by
    intro f named
    rw [show (filesOf cfg r.finished r.resumed).age f = _ from if_pos named,
      regular'.seen begun named]
  have affected : ∀ j ∈ xs, Affected (jobsOf cfg r.finished.visits) (fun f =>
      mtime cfg r.resumed.sys.world f ≠ mtime cfg r.ended.sys.world f) j := by
    intro j executed
    have needs := (exact.decided j (sound.executed j executed)).mp executed
    refine (needs.congr (fun _ => id) fun j member f file => ⟨id, ?_⟩).affected fresh ?_
    · exact seen f (jobsOf_named member file)
    · intro j member f out none
      have := (strict.positive f).not.mp none
      rw [seen f (jobsOf_named member (Or.inr out))] at this
      omega
  refine ⟨xs, underway.log, exact.once, fun j executed => jobs ▸ affected j executed, fun same => ?_⟩
  refine List.eq_nil_iff_forall_not_mem.mpr fun j executed => ?_
  obtain ⟨m, member, f, file, other⟩ := (affected j executed).changed
  exact other (same f ((twins_named twins f).mp (jobsOf_named member file)))

end Work

section Examples

/-- `b` is made from `a`, and `a` from `s`. `d` is made from `t`. -/
def chain : List Node :=
  [maker 1 "b".toList [maker 2 "a".toList [.string "s".toList]],
    maker 3 "d".toList [.string "t".toList]]

def chainDesk : Desk := ⟨9, [("s".toList, ⟨1, []⟩), ("t".toList, ⟨1, []⟩)], []⟩

def firstLoad : EStateM.Result Stop (State Desk) Unit :=
  setupCache (Desk.settings touchShell 10) false (start chainDesk sandboxVariables 4)

def firstChain : EStateM.Result Stop (State Desk) Unit :=
  buildTargets (Desk.settings touchShell 10) chain (final firstLoad)

/-- After the first run somebody writes `s`. -/
def editedDesk : Desk :=
  ⟨30, setEntry (final firstChain).sys.world.files "s".toList ⟨20, []⟩,
    (final firstChain).sys.world.dirs⟩

def secondLoad : EStateM.Result Stop (State Desk) Unit :=
  setupCache (Desk.settings touchShell 10) false (start editedDesk sandboxVariables 4)

def secondChain : EStateM.Result Stop (State Desk) Unit :=
  buildTargets (Desk.settings touchShell 10) chain (final secondLoad)

theorem chains_return : Desk.returns firstLoad () = true ∧ Desk.returns firstChain () = true ∧
    Desk.returns secondLoad () = true ∧ Desk.returns secondChain () = true := by
  decide +kernel

theorem touch_quiet (d : Desk) (c : LuaString) :
    (Desk.host touchShell).readFile ((Desk.host touchShell).execute d c).2
        (indexFile (Desk.settings touchShell 10)) =
      (Desk.host touchShell).readFile d (indexFile (Desk.settings touchShell 10)) := by
  show ((d.apply (touchShell c)).files.lookup _).map _ = (d.files.lookup _).map _
  unfold touchShell
  split
  · rename_i f
    show ((setEntry d.files [f] _).lookup _).map _ = _
    rw [lookup_setEntry, if_neg]
    simp [indexFile, Desk.settings]
  · rfl

theorem chains_checked : stillSafe (final firstChain) = true ∧
    (Desk.host touchShell).readFile chainDesk (indexFile (Desk.settings touchShell 10)) = none ∧
    (Desk.host touchShell).readFile editedDesk (indexFile (Desk.settings touchShell 10)) =
      (Desk.host touchShell).readFile (final firstChain).sys.world
        (indexFile (Desk.settings touchShell 10)) ∧
    Desk.regular touchShell 9 (final firstLoad).sys.world (final firstChain) = true ∧
    Desk.regular touchShell 9 (final secondLoad).sys.world (final secondChain) = true := by
  decide +kernel

def edited : Rerun (Desk.settings touchShell 10) chain where
  history := ⟨chainDesk, []⟩
  world := editedDesk
  sandbox := sandboxVariables
  objects := 4
  began := final firstLoad
  ended := final firstChain
  resumed := final secondLoad
  finished := final secondChain
  happens := .fresh chainDesk chains_checked.2.1
  load := Desk.ok_of_returns chains_return.1
  run := Desk.ok_of_returns chains_return.2.1
  safe := indexSafe_of_quiet touch_quiet chains_checked.1
  kept := chains_checked.2.2.1
  reload := Desk.ok_of_returns chains_return.2.2.1
  rerun := Desk.ok_of_returns chains_return.2.2.2

theorem edited_regular : Regular (Desk.settings touchShell 10) edited.began edited.ended ∧
    Regular (Desk.settings touchShell 10) edited.resumed edited.finished := by
  have regular := chains_checked.2.2.2
  have unseen := load_unseen edited.load
  have unseen' := load_unseen edited.reload
  dsimp only [edited] at unseen unseen' ⊢
  exact ⟨Desk.regular_of_check touchShell 9 unseen regular.1,
    Desk.regular_of_check touchShell 9 unseen' regular.2⟩

theorem edited_names_kept : List.Forall₂ Twin edited.ended.visits edited.finished.visits ∧
    edited.finished.mem.intermediateCache = edited.resumed.mem.intermediateCache ∧
    edited.finished.mem.intermediateCacheCount = edited.resumed.mem.intermediateCacheCount :=
  rerun_names_kept (Desk.sharedLaws touchShell 10) edited

theorem edited_executes_changed : ∃ xs : List (Job LuaString (List Order)),
    ordersOf edited.finished.sys.log =
      ordersOf edited.resumed.sys.log ++ xs.flatMap Job.command ∧ xs.Nodup ∧
    (∀ j ∈ xs, Affected (jobsOf (Desk.settings touchShell 10) edited.ended.visits) (fun f =>
      mtime (Desk.settings touchShell 10) edited.resumed.sys.world f ≠
        mtime (Desk.settings touchShell 10) edited.ended.sys.world f) j) ∧
    ((∀ f, Named edited.ended f → mtime (Desk.settings touchShell 10) edited.resumed.sys.world f =
      mtime (Desk.settings touchShell 10) edited.ended.sys.world f) → xs = []) :=
  rerun_executes_changed (Desk.sharedLaws touchShell 10) edited edited_regular.1 edited_regular.2

/-- `d` is not made again. -/
example : ordersOf (final secondChain).sys.log =
    [.text "make a".toList, .text "make b".toList] := by
  decide +kernel

end Examples

end PrimeMover
