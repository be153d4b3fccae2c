import PrimeMover.Failure
import PrimeMover.LinkTimes
import PrimeMover.Percent
import PrimeMover.Rendering

/-! A command of a node fails. The clean-up names the outputs to `rm`, which takes out files
and links but no directories; what is left of the outputs decides whether the next run
builds the node again. -/
namespace PrimeMover
open LuaPattern PosixTree Outcome

section Text

variable {cfg : Settings W} {fields : Fields} {scope : List Obj} {self : Obj}

/-- The text of the clean-up, with both references replaced. -/
theorem expand_cleanup {outs : List LuaString} (enough : 2 ≤ cfg.fuel)
    (rm : index fields scope self cfg.fuel "RM".toList = .ok (some (.str "rm -f".toList)))
    (out : rawget fields self "out".toList = some (strings outs))
    (percent : (PosixShell.quoted outs).count '%' < 2) (bell : '\x07' ∉ PosixShell.quoted outs) :
    expandText cfg fields scope self "%RM% %out%".toList =
      .ok ("rm -f ".toList ++ PosixShell.quoted outs) := by
  obtain ⟨fuel, hfuel⟩ := Nat.exists_eq_add_of_le' enough
  have first : expandVariable cfg fields scope self "RM".toList = .ok "rm -f".toList :=
    expandVariable_word (Word.of_check (by decide) (by decide)) rm rfl rfl
  have second : expandVariable cfg fields scope self "out".toList = .ok (PosixShell.quoted outs) := by
    refine expandVariable_word (v := strings outs) (Word.of_check (by decide) (by decide)) ?_ rfl
      (rendertable_strings outs)
    rw [← out]
    cases cfg.fuel <;> rfl
  have expressions : scan expressionPattern "%RM% %out%".toList = "%RM% %out%".toList.map .char :=
    scan_expressions _ (by decide)
  have references : scan variablePattern "%RM% %out%".toList =
      [.hit ["RM".toList], .char ' ', .hit ["out".toList]] := by decide
  have few : ("rm -f ".toList ++ PosixShell.quoted outs).count '%' < 2 := by
    have none : "rm -f ".toList.count '%' = 0 := by decide
    rw [List.count_append, none, Nat.zero_add]
    exact percent
  have noBell : '\x07' ∉ "rm -f ".toList ++ PosixShell.quoted outs := by
    rw [List.mem_append]
    exact not_or.mpr ⟨by decide, bell⟩
  rw [expandText, hfuel, expandLoop, expressions, replaceM_chars]
  simp only [bind, Except.bind]
  rw [references]
  simp only [replaceM, captured, List.headD_cons, first, second, bind, Except.bind]
  rw [if_neg (by simp), List.append_nil]
  exact (expandLoop_unpaired few fuel).trans (by rw [restore_noBell noBell])

end Text

/-- A tree with links under a shell. -/
def shellHost (other : Host Linked) (reads : ReadOrder) : Host Linked :=
  { linkHost other reads with readlink := readTarget }

def onShell (cfg : Settings Linked) (reads : ReadOrder) : Settings Linked :=
  { cfg with host := shellHost cfg.host reads }

/-- A command whose words are `rm`, `-f` and names takes out what is there under the names,
but for directories. -/
def RunsRm (host : Host Linked) : Prop :=
  ∀ (t : Linked) (command : LuaString) (names : List LuaString),
    PosixShell.words command = some ("rm".toList :: "-f".toList :: names) →
    (∀ n ∈ names, n.head? ≠ some '-') → (host.execute t command).2 = t.unlinkAll names

/-- Names that the expansion and the shell leave as they are and `rm` takes for no option. -/
structure PlainNames (outs : List LuaString) : Prop where
  percent : outs.flatten.count '%' < 2
  bell : '\x07' ∉ outs.flatten
  inert : ∀ o ∈ outs, PosixShell.Inert o
  noOption : ∀ o ∈ outs, o.head? ≠ some '-'

/-- A run that finds the files like this executes the commands of the node. -/
def StartsOver (cfg : Settings Linked) (decl : Decl) (outs : List LuaString) (u : Linked) : Prop :=
  ∀ (inputs : List LuaString) (s : State Linked), s.sys.world = u →
    (∀ o ∈ outs, s.sys.stattedFiles o = none) →
    ∃ s', s'.mem = s.mem ∧ s'.sys.world = u ∧ s'.sys.log = s.sys.log ∧
      settle cfg decl inputs outs s =
        (rebuild cfg decl inputs outs true >>= fun _ => installNode cfg decl inputs outs) s'

/-- After the command that failed in `failed` only the clean-up is executed, pm stops with an
error, no output is there, and the next run starts over. -/
def FailsCleanly (cfg : Settings Linked) (decl : Decl) (inputs outs : List LuaString)
    (s failed : State Linked) : Prop :=
  ∃ message u es, simpleDobuild cfg decl.obj inputs outs s = .error (.exit message) u ∧
    u.sys.log = failed.sys.log ++ es ∧
    (∀ e ∈ es, e.command = none ∨ e.command = some (decl.obj.id, .cleanup)) ∧
    (∀ o ∈ outs, u.sys.world.stat o = none) ∧ StartsOver cfg decl outs u.sys.world

section Lists

variable {W : Type} (cfg : Settings W) (self : Obj) (phase : Phase) (inputs outs : List LuaString)

theorem invoke_append (first second : List Value) :
    invoke cfg self phase inputs outs (first ++ second) =
      invoke cfg self phase inputs outs first >>= fun r =>
        match r with
        | none => invoke cfg self phase inputs outs second
        | some r => pure (some r) := by
  induction first with
  | nil => rfl
  | cons v first ih =>
    cases v with
    | str s =>
      simp only [List.cons_append, invoke, ih, bind_assoc]
      congr 1
      funext s
      congr 1
      funext _
      split
      · rfl
      · rw [bind_assoc]
        congr 1
        funext r
        split <;> simp
    | func f =>
      simp only [List.cons_append, invoke, ih, bind_assoc]
      congr 1
      funext r
      cases r <;> simp
    | install src dest => simp only [List.cons_append, invoke, ih, bind_assoc]
    | num t => exact ih
    | bool b => exact ih
    | list vs => exact ih
    | parent => exact ih
    | empty => exact ih
    | redirect => exact ih

theorem invoke_mem (commands : List Value) (s : State W) :
    (final (invoke cfg self phase inputs outs commands s)).mem = s.mem := by
  refine path_keeps (P := fun t => t.mem = s.mem) ?_
    (invoke_moves cfg self phase inputs outs commands s) rfl
  intro t u step same
  cases step <;> exact same

theorem invoke_fails {before after : List Value} {v : Value} {s s0 s1 : State W} {r : Int}
    (fine : invoke cfg self phase inputs outs before s = .ok none s0)
    (fails : invoke cfg self phase inputs outs [v] s0 = .ok (some r) s1) :
    invoke cfg self phase inputs outs (before ++ v :: after) s = .ok (some r) s1 := by
  rw [invoke_append, bind_ok_run fine]
  have rest := congrFun (invoke_append cfg self phase inputs outs [v] after) s0
  rw [bind_ok_run fails] at rest
  exact rest

end Lists

/-- An empty list is rendered as one empty word. -/
def cleanupNames (outs : List LuaString) : List LuaString := if outs = [] then [[]] else outs

theorem words_cleanup {outs : List LuaString} (inert : ∀ o ∈ outs, PosixShell.Inert o) :
    PosixShell.words ("rm -f ".toList ++ PosixShell.quoted outs) =
      some ("rm".toList :: "-f".toList :: cleanupNames outs) := by
  have names : PosixShell.read .between (PosixShell.quoted outs) = some (cleanupNames outs) := by
    cases outs with
    | nil => rfl
    | cons o outs =>
      exact PosixShell.read_quoted_list (inert o List.mem_cons_self) fun n hn =>
        inert n (List.mem_cons_of_mem o hn)
  have split : "rm -f ".toList ++ PosixShell.quoted outs =
      "rm".toList ++ ' ' :: ("-f".toList ++ ' ' :: PosixShell.quoted outs) := rfl
  rw [PosixShell.words, split, PosixShell.read_word (by decide) (List.all_eq_true.mp (by decide)), PosixShell.read_blank,
    PosixShell.read_word (by decide) (List.all_eq_true.mp (by decide)), PosixShell.read_blank, names]
  rfl

theorem unlinkAll_cleanupNames (t : Linked) (outs : List LuaString) :
    t.unlinkAll (cleanupNames outs) = t.unlinkAll outs := by
  unfold cleanupNames
  split
  · rename_i none
    subst none
    have nothing : t.unlink [] = none := rfl
    simp [Linked.unlinkAll, nothing]
  · rfl

theorem PlainNames.executes {host : Host Linked} (shell : RunsRm host) {outs : List LuaString}
    (plain : PlainNames outs) (t : Linked) :
    (host.execute t ("rm -f ".toList ++ PosixShell.quoted outs)).2 = t.unlinkAll outs := by
  rw [shell t _ (cleanupNames outs) (words_cleanup plain.inert), unlinkAll_cleanupNames]
  unfold cleanupNames
  split
  · intro n hn
    rw [List.mem_singleton.mp hn]
    exact nofun
  · exact plain.noOption

theorem PlainNames.expands {cfg : Settings Linked} {fields : Fields} {scope : List Obj} {self : Obj}
    {outs : List LuaString} (plain : PlainNames outs) (enough : 2 ≤ cfg.fuel)
    (rm : index fields scope self cfg.fuel "RM".toList = .ok (some (.str "rm -f".toList)))
    (out : rawget fields self "out".toList = some (strings outs)) :
    expandText cfg fields scope self "%RM% %out%".toList =
      .ok ("rm -f ".toList ++ PosixShell.quoted outs) := by
  refine expand_cleanup enough rm out ?_ ?_
  · rw [PosixShell.count_quoted (by decide) (by decide) (by decide)]
    exact plain.percent
  · rw [← List.count_eq_zero, PosixShell.count_quoted (by decide) (by decide) (by decide),
      List.count_eq_zero]
    exact plain.bell

/-- The clean-up executes its text and goes on, whatever code it returns. -/
theorem cleanup_executes {W : Type} {cfg : Settings W} {self : Obj} {s : State W} {text : LuaString}
    (real : cfg.noExecute = false)
    (expands : expandText cfg s.mem.fields s.mem.scope self "%RM% %out%".toList = .ok text) :
    ∃ r u, invoke cfg self .cleanup [] [] [.str "%RM% %out%".toList] s = .ok r u ∧ u.mem = s.mem ∧
      u.sys.world = (cfg.host.execute s.sys.world text).2 := by
  rw [invoke, bind_run, expand_run, expands]
  have traced : ∃ t, traceoutput cfg text (s.look self) = .ok () t ∧ t.mem = s.mem ∧
      t.sys.world = s.sys.world := by
    unfold traceoutput
    split <;> exact ⟨_, rfl, rfl, rfl⟩
  obtain ⟨t, trace, mem, world⟩ := traced
  change ∃ r u, (traceoutput cfg text >>= fun _ => _) (s.look self) = _ ∧ _
  rw [bind_ok_run trace, if_neg (by simp [real]), bind_run, osExecute_run, world]
  dsimp only
  split <;> exact ⟨_, _, rfl, mem, rfl⟩

section Next

variable (other : Host Linked) (reads : ReadOrder)

theorem filetime_gone (fuel : Nat) {f : LuaString} {s : Sys Linked}
    (gone : s.world.stat f = none) (unlinked : readTarget s.world f = none)
    (known : s.stattedFiles f = none ∨ s.stattedFiles f = some 0) :
    ∃ s', filetime (shellHost other reads) (fuel + 1) f s = .ok 0 s' ∧ s'.world = s.world ∧
      s'.log = s.log ∧ ∀ g, s'.stattedFiles g = s.stattedFiles g ∨ s'.stattedFiles g = some 0 := by
  rcases known with none' | zero
  · have time : stamp (shellHost other reads) (fuel + 1) s.world f = some 0 := by
      have stop : (shellHost other reads).readlink s.world f = none := unlinked
      have nothing : (shellHost other reads).stat s.world f = none := by
        change (s.world.stat f).map objectStat = none
        rw [gone]
        rfl
      rw [stamp, followLinks, stop]
      simp only [Option.map_some, nothing]
      rfl
    rw [filetime_uncached _ _ none', time]
    refine ⟨_, rfl, rfl, rfl, fun g => ?_⟩
    dsimp only
    split
    · exact Or.inr rfl
    · exact Or.inl rfl
  · refine ⟨s, ?_, rfl, rfl, fun g => Or.inl rfl⟩
    unfold filetime
    rw [bind_run, get_run]
    simp only [zero]
    rfl

theorem newest_gone (fuel : Nat) {outs : List LuaString} {s : Sys Linked}
    (gone : ∀ o ∈ outs, s.world.stat o = none) (unlinked : ∀ o ∈ outs, readTarget s.world o = none)
    (known : ∀ o ∈ outs, s.stattedFiles o = none ∨ s.stattedFiles o = some 0) :
    ∃ s', newest (shellHost other reads) (fuel + 1) outs 0 s = .ok 0 s' ∧ s'.world = s.world ∧
      s'.log = s.log := by
  induction outs generalizing s with
  | nil => exact ⟨s, rfl, rfl, rfl⟩
  | cons o outs ih =>
    obtain ⟨u, run, world, log, cache⟩ := filetime_gone other reads fuel (gone o List.mem_cons_self)
      (unlinked o List.mem_cons_self) (known o List.mem_cons_self)
    obtain ⟨v, rest, world', log'⟩ := ih
      (fun p hp => world ▸ gone p (List.mem_cons_of_mem o hp))
      (fun p hp => world ▸ unlinked p (List.mem_cons_of_mem o hp)) (by
        intro p hp
        rcases cache p with same | zero
        · rw [same]
          exact known p (List.mem_cons_of_mem o hp)
        · exact Or.inr zero)
    refine ⟨v, ?_, world'.trans world, log'.trans log⟩
    rw [newest, bind_ok_run run]
    exact rest

theorem starts_over {cfg : Settings Linked} {decl : Decl} {outs : List LuaString} {u : Linked}
    (other : decl.kind ≠ .file) (enough : 0 < cfg.fuel) (gone : ∀ o ∈ outs, u.stat o = none)
    (unlinked : ∀ o ∈ outs, readTarget u o = none) : StartsOver (onShell cfg reads) decl outs u := by
  intro inputs s same unseen
  obtain ⟨fuel, hfuel⟩ := Nat.exists_eq_add_of_le' enough
  obtain ⟨s', run, world, log⟩ := newest_gone cfg.host reads fuel
    (show ∀ o ∈ outs, s.sys.world.stat o = none from same.symm ▸ gone) (same.symm ▸ unlinked)
    fun o ho => Or.inl (unseen o ho)
  refine ⟨{ s with sys := s' }, rfl, world.trans same, log, ?_⟩
  have time : timestamp (onShell cfg reads) decl outs s = .ok 0 { s with sys := s' } := by
    rw [timestamp_other other]
    change lift (newest (shellHost cfg.host reads) cfg.fuel outs 0) s = _
    rw [hfuel, lift, run]
  rw [settle, bind_ok_run time]
  rfl

end Next

/-- Of what the outputs name `rm` leaves directories only. -/
theorem left_directory {t : Linked} {outs : List LuaString} {o : LuaString} (given : o ∈ outs)
    {e : Object} (there : (t.unlinkAll outs).stat o = some e) : e = .dir := by
  obtain ⟨l, led, found⟩ := Option.bind_eq_some_iff.mp there
  rcases Linked.resolve_last led with isDir | ⟨n, x, named, exists', same⟩
  · exact Option.some.inj (found.symm.trans isDir)
  · obtain ⟨f, hf⟩ := Option.isSome_iff_exists.mp exists'
    have isDir : (t.unlinkAll outs).entry (n :: x) = some .dir := by
      rw [hf, Linked.unlinkAll_leaves given named hf]
    rw [same isDir, isDir] at found
    exact (Option.some.inj found).symm

theorem left_unlinked {t : Linked} {outs : List LuaString} {o : LuaString} (given : o ∈ outs) :
    readTarget (t.unlinkAll outs) o = none := by
  unfold readTarget
  split
  · rfl
  · rename_i n l named
    split
    · rename_i target found
      cases Linked.unlinkAll_leaves given named found
    · rfl

/-- A simple node is built with the default `RM`, under a shell that has `rm`, and a command
at some position of its list is the first to fail. -/
structure FirstFailure (cfg : Settings Linked) (reads : ReadOrder) (decl : Decl)
    (inputs outs : List LuaString) (s failed : State Linked) : Prop where
  simple : decl.kind = .simple
  real : cfg.noExecute = false
  enough : 2 ≤ cfg.fuel
  shell : RunsRm cfg.host
  plain : PlainNames outs
  rm : index s.mem.fields s.mem.scope decl.obj cfg.fuel "RM".toList =
    .ok (some (.str "rm -f".toList))
  out : rawget s.mem.fields decl.obj "out".toList = some (strings outs)
  position : ∃ command before v after s0 r,
    rawget s.mem.fields decl.obj "command".toList = some command ∧
    commandList command = before ++ v :: after ∧
    invoke (onShell cfg reads) decl.obj .build inputs outs before s = .ok none s0 ∧
    invoke (onShell cfg reads) decl.obj .build inputs outs [v] s0 = .ok (some r) failed

section Failure

variable {cfg : Settings Linked} {reads : ReadOrder} {decl : Decl} {inputs outs : List LuaString}
  {s failed : State Linked}

/-- What is executed behind the failed command takes the outputs out, one by one. -/
theorem FirstFailure.run (h : FirstFailure cfg reads decl inputs outs s failed) :
    ∃ message u es, simpleDobuild (onShell cfg reads) decl.obj inputs outs s =
        .error (.exit message) u ∧
      u.sys.log = failed.sys.log ++ es ∧
      (∀ e ∈ es, e.command = none ∨ e.command = some (decl.obj.id, .cleanup)) ∧
      u.sys.world = failed.sys.world.unlinkAll outs := by
  obtain ⟨command, before, v, after, s0, r, given, position, fine, fails⟩ := h.position
  have built : invoke (onShell cfg reads) decl.obj .build inputs outs (commandList command) s =
      .ok (some r) failed := by
    rw [position]
    exact invoke_fails _ _ _ _ _ fine fails
  have mem : failed.mem = s.mem := by
    have := invoke_mem (onShell cfg reads) decl.obj .build inputs outs (commandList command) s
    rwa [built] at this
  have rm := h.rm
  have out := h.out
  rw [← mem] at rm out
  have expands : expandText (onShell cfg reads) failed.mem.fields failed.mem.scope decl.obj
      "%RM% %out%".toList = .ok ("rm -f ".toList ++ PosixShell.quoted outs) :=
    h.plain.expands h.enough rm out
  obtain ⟨code, u, tidy, _, world⟩ :=
    cleanup_executes (show (onShell cfg reads).noExecute = false from h.real) expands
  obtain ⟨es, log, own, _⟩ := invoke_reports (onShell cfg reads) decl.obj .cleanup [] []
    [.str "%RM% %out%".toList] failed
  rw [tidy] at log
  obtain ⟨message, run⟩ : ∃ message,
      simpleDobuild (onShell cfg reads) decl.obj inputs outs s = .error (.exit message) u := by
    rw [simpleDobuild, bind_run, getField_run, given]
    dsimp only
    rw [bind_ok_run built]
    dsimp only
    rw [bind_ok_run tidy]
    exact ⟨_, rfl⟩
  exact ⟨message, u, es, run, log, own, world.trans (h.plain.executes h.shell _)⟩

theorem FirstFailure.gone (h : FirstFailure cfg reads decl inputs outs s failed)
    (clean : FailsCleanly (onShell cfg reads) decl inputs outs s failed) {o : LuaString}
    (given : o ∈ outs) : (failed.sys.world.unlinkAll outs).stat o = none := by
  obtain ⟨_, u, _, run, _, _, swept⟩ := h.run
  obtain ⟨_, u', _, run', _, _, gone, _⟩ := clean
  cases run.symm.trans run'
  rw [← swept]
  exact gone o given

end Failure

/-- A simple node with a command that fails stops cleanly exactly when no output leads to a
directory once the files and links among the outputs are taken out. -/
theorem failed_build_cleans (cfg : Settings Linked) (reads : ReadOrder) (decl : Decl)
    (inputs outs : List LuaString) (s failed : State Linked)
    (failure : FirstFailure cfg reads decl inputs outs s failed) :
    FailsCleanly (onShell cfg reads) decl inputs outs s failed ↔
      ∀ o ∈ outs, (failed.sys.world.unlinkAll outs).stat o ≠ some .dir := by
  constructor
  · intro clean o ho isDir
    cases isDir.symm.trans (failure.gone clean ho)
  · intro noDir
    obtain ⟨message, u, es, run, log, own, swept⟩ := failure.run
    have gone : ∀ o ∈ outs, u.sys.world.stat o = none := by
      intro o ho
      rw [swept]
      by_contra there
      obtain ⟨e, he⟩ := Option.ne_none_iff_exists'.mp there
      rw [left_directory ho he] at he
      exact noDir o ho he
    have other : decl.kind ≠ .file := by
      rw [failure.simple]
      exact nofun
    have enough := failure.enough
    refine ⟨message, u, es, run, log, own, gone, starts_over reads other (by omega) gone ?_⟩
    intro o ho
    rw [swept]
    exact left_unlinked ho

/-- Links a name to a text, makes a directory or takes names out; only the last succeeds. -/
def clumsyShell (t : Linked) (command : LuaString) : Int × Linked :=
  match PosixShell.words command with
  | some (a :: b :: names) =>
    if a = "rm".toList ∧ b = "-f".toList then (0, t.unlinkAll names)
    else if a = "mkdir".toList then (1, (t.mkdir b).getD t)
    else (1, (t.symlink b (names.headD [])).getD t)
  | _ => (1, t)

def clumsySettings : Settings Linked :=
  { linkSettings 4 with host := { linkSystem with execute := clumsyShell } }

theorem clumsy_runsRm : RunsRm clumsySettings.host := by
  intro t command names split _
  change (clumsyShell t command).2 = _
  rw [clumsyShell, split]
  rfl

/-- A node with one output and one command. -/
def clumsyNode (out command : LuaString) : Decl :=
  ⟨⟨1, [("out".toList, strings [out]), ("command".toList, strings [command])]⟩, .simple⟩

def clumsyStart : State Linked := start (Linked.bareLinked 8) sandboxVariables 2

theorem clumsy_failure (out command : LuaString) (plain : PlainNames [out])
    (few : command.count '%' < 2) (bell : '\x07' ∉ command)
    (nonzero : (clumsyShell (Linked.bareLinked 8) command).1 ≠ 0) :
    ∃ failed, FirstFailure clumsySettings asListed (clumsyNode out command) [] [out] clumsyStart failed ∧
      failed.sys.world = (clumsyShell (Linked.bareLinked 8) command).2 := by
  have expands : expandText (onShell clumsySettings asListed) clumsyStart.mem.fields
      clumsyStart.mem.scope (clumsyNode out command).obj command = .ok command :=
    expand_plain (by decide) _ _ _ few bell
  obtain ⟨failed, run, world⟩ : ∃ failed, invoke (onShell clumsySettings asListed)
      (clumsyNode out command).obj .build [] [out] [.str command] clumsyStart =
        .ok (some (clumsyShell (Linked.bareLinked 8) command).1) failed ∧
      failed.sys.world = (clumsyShell (Linked.bareLinked 8) command).2 := by
    rw [invoke, bind_run, expand_run, expands]
    change ∃ failed, (lift (osExecute (onShell clumsySettings asListed).host 1 .build command) >>=
      fun r => if r ≠ 0 then pure (some r) else _) (clumsyStart.look _) = _ ∧ _
    rw [bind_run]
    change ∃ failed, (if (clumsyShell (Linked.bareLinked 8) command).1 ≠ 0 then
      pure (some (clumsyShell (Linked.bareLinked 8) command).1) else _ : PM Linked (Option Int)) _ = _ ∧ _
    rw [if_pos nonzero]
    exact ⟨_, rfl, rfl⟩
  refine ⟨failed, ⟨rfl, rfl, by decide, clumsy_runsRm, plain, rfl, rfl, ?_⟩, world⟩
  exact ⟨strings [command], [], .str command, [], clumsyStart, _, rfl, rfl, rfl, run⟩

/-- A link left by the failed command is taken out, so the next run starts over. -/
theorem partial_link_cleaned : ∃ failed,
    FirstFailure clumsySettings asListed (clumsyNode "x".toList "ln y x".toList) [] ["x".toList]
      clumsyStart failed ∧
    (FailsCleanly (onShell clumsySettings asListed) (clumsyNode "x".toList "ln y x".toList) []
      ["x".toList] clumsyStart failed ↔
        ∀ o ∈ ["x".toList], (failed.sys.world.unlinkAll ["x".toList]).stat o ≠ some .dir) := by
  obtain ⟨failed, failure, _⟩ := clumsy_failure "x".toList "ln y x".toList
    ⟨by decide, by decide, by decide, by decide⟩ (by decide) (by decide)
    (by decide +kernel)
  exact ⟨failed, failure, failed_build_cleans _ _ _ _ _ _ _ failure⟩

/-- A directory that the failed command has made at the output stays. -/
theorem directory_output_stays : ¬ ∀ (cfg : Settings Linked) (reads : ReadOrder) (decl : Decl)
    (inputs outs : List LuaString) (s failed : State Linked),
    FirstFailure cfg reads decl inputs outs s failed →
      FailsCleanly (onShell cfg reads) decl inputs outs s failed := by
  intro all
  obtain ⟨failed, failure, world⟩ := clumsy_failure "d".toList "mkdir d".toList
    ⟨by decide, by decide, by decide, by decide⟩ (by decide) (by decide)
    (by decide +kernel)
  have gone := failure.gone (all _ _ _ _ _ _ _ failure) (List.mem_singleton.mpr rfl)
  rw [world] at gone
  exact absurd gone (by decide +kernel)

end PrimeMover
