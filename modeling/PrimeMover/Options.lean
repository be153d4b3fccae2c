import PrimeMover.Substitution

/-! The command line: options and targets in any order. The parser is a loop over the
argument vector whose index the handlers of the options advance. -/
namespace PrimeMover
open LuaPattern

/-- Why the parser ends the run: an error, or a text that is asked for. -/
inductive Leave where
  | usererror (message : LuaString)
  | help
  | license
  deriving DecidableEq

/-- The variables that the options set. -/
structure Options where
  intermediateCacheDir : LuaString
  purgeIntermediateCache : Bool
  noExecute : Bool
  verbose : Bool
  quiet : Bool
  inputFiles : List LuaString
  targets : List LuaString
  sandbox : LuaString → Option Value

/-- Their values when the program starts. -/
def initial (sandbox : LuaString → Option Value) : Options where
  intermediateCacheDir := ".pm-cache/".toList
  purgeIntermediateCache := false
  noExecute := false
  verbose := false
  quiet := false
  inputFiles := []
  targets := []
  sandbox := sandbox

/-- A handler gets the parameter of its option, if there is one, and returns by how much
the index of the loop advances. -/
abbrev Handler := Option LuaString → Options → Except Leave (Options × Nat)

def doHelp : Handler := fun _ _ => .error .help

def doLicense : Handler := fun _ _ => .error .license

def needarg : Option LuaString → Except Leave LuaString
  | none => .error (.usererror "missing option parameter".toList)
  | some opt => .ok opt

def doCachedir : Handler := fun opt o => do
  let opt ← needarg opt
  .ok ({ o with intermediateCacheDir := opt }, 1)

def doInputfile : Handler := fun opt o => do
  let opt ← needarg opt
  .ok ({ o with inputFiles := o.inputFiles ++ [opt] }, 1)

def doPurgecache : Handler := fun _ o => .ok ({ o with purgeIntermediateCache := true }, 0)

/-- `^([^=]*)=(.*)$` -/
def definePattern : Pattern :=
  ⟨true, [.openCapture, .star (· != '='), .closeCapture, .one (· == '='), .openCapture,
    .star (fun _ => true), .closeCapture, .atEnd]⟩

def Options.set (o : Options) (key : LuaString) (value : Value) : Options :=
  { o with sandbox := fun k => if k = key then some value else o.sandbox k }

def doDefine : Handler := fun opt o => do
  let opt ← needarg opt
  match find definePattern opt with
  | some [key, value] => .ok (o.set key (.str value), 1)
  | _ => .ok (o.set opt (.bool true), 1)

def doNoExecute : Handler := fun _ o => .ok ({ o with noExecute := true }, 0)

def doVerbose : Handler := fun _ o => .ok ({ o with verbose := true }, 0)

def doQuiet : Handler := fun _ o => .ok ({ o with quiet := true }, 0)

def argmap : List (LuaString × Handler) :=
  [("h".toList, doHelp), ("help".toList, doHelp), ("c".toList, doCachedir),
    ("cachedir".toList, doCachedir), ("p".toList, doPurgecache), ("purge".toList, doPurgecache),
    ("f".toList, doInputfile), ("file".toList, doInputfile), ("D".toList, doDefine),
    ("define".toList, doDefine), ("n".toList, doNoExecute), ("no-execute".toList, doNoExecute),
    ("v".toList, doVerbose), ("verbose".toList, doVerbose), ("q".toList, doQuiet),
    ("quiet".toList, doQuiet), ("license".toList, doLicense)]

def unrecognisedarg (arg : LuaString) : Leave :=
  .usererror ("unrecognised option '".toList ++ arg ++ "' --- try --help for help".toList)

/-- One round of the loop, with the argument behind `o`. -/
def parseArg (o : LuaString) (next : Option LuaString) (opts : Options) :
    Except Leave (Options × Nat) :=
  match o with
  | '-' :: '-' :: long =>
    match argmap.lookup long with
    | none => .error (unrecognisedarg ("--".toList ++ long))
    | some fn => fn next opts
  | '-' :: short =>
    let od := short.take 1
    match argmap.lookup od with
    | none => .error (unrecognisedarg ("-".toList ++ od))
    | some fn =>
      let op := short.drop 1
      if op = [] then fn next opts
      else do
        let r ← fn (some op) opts
        .ok (r.1, 0)
  | target => .ok ({ opts with targets := opts.targets ++ [target] }, 0)

/-- The loop. The first argument is how many arguments the last handler has skipped: the
loop goes on behind the value that is assigned to its variable. -/
def parseArgs : Nat → List LuaString → Options → Except Leave Options
  | _, [], opts => .ok opts
  | skip + 1, _ :: rest, opts => parseArgs skip rest opts
  | 0, o :: rest, opts => do
    let r ← parseArg o rest.head? opts
    parseArgs r.2 rest r.1

/-- The option fallbacks. -/
def Options.fallbacks (o : Options) : Options :=
  { o with
    inputFiles := if o.inputFiles = [] then ["pmfile".toList] else o.inputFiles
    targets := if o.targets = [] then ["default".toList] else o.targets }

/-- What the driver makes of the argument vector. -/
def parse (arg : List LuaString) (sandbox : LuaString → Option Value) : Except Leave Options := do
  .ok (← parseArgs 0 arg (initial sandbox)).fallbacks

/-- The options with an argument. -/
inductive Setting where
  | cachedir
  | file
  | define
  deriving DecidableEq

def Setting.letter : Setting → Char
  | .cachedir => 'c'
  | .file => 'f'
  | .define => 'D'

def Setting.word : Setting → LuaString
  | .cachedir => "cachedir".toList
  | .file => "file".toList
  | .define => "define".toList

/-- The options without one. -/
inductive Switch where
  | purge
  | noExecute
  | verbose
  | quiet
  deriving DecidableEq

def Switch.letter : Switch → Char
  | .purge => 'p'
  | .noExecute => 'n'
  | .verbose => 'v'
  | .quiet => 'q'

def Switch.word : Switch → LuaString
  | .purge => "purge".toList
  | .noExecute => "no-execute".toList
  | .verbose => "verbose".toList
  | .quiet => "quiet".toList

/-- How an argument is spelled. One that is attached has a first character. -/
inductive Spelled where
  | attached (c : Char) (s : LuaString)
  | separate (s : LuaString)
  | long (s : LuaString)

def Spelled.argument : Spelled → LuaString
  | .attached c s => c :: s
  | .separate s => s
  | .long s => s

inductive CommandItem where
  | target (name : LuaString) (plain : name.head? ≠ some '-')
  | setting (o : Setting) (spelled : Spelled)
  | switch (o : Switch) (long : Bool)

def CommandItem.render : CommandItem → List LuaString
  | .target name _ => [name]
  | .setting o (.attached c s) => ['-' :: o.letter :: c :: s]
  | .setting o (.separate s) => [['-', o.letter], s]
  | .setting o (.long s) => ['-' :: '-' :: o.word, s]
  | .switch o false => [['-', o.letter]]
  | .switch o true => ['-' :: '-' :: o.word]

/-- The argument vector. -/
def commandLine (items : List CommandItem) : List LuaString := items.flatMap CommandItem.render

/-- The arguments given to an option, in order. -/
def given (o : Setting) (items : List CommandItem) : List LuaString :=
  items.filterMap fun i =>
    match i with
    | .setting p spelled => if p = o then some spelled.argument else none
    | _ => none

def switched (o : Switch) (items : List CommandItem) : Bool :=
  items.any fun i =>
    match i with
    | .switch p _ => p == o
    | _ => false

def named (items : List CommandItem) : List LuaString :=
  items.filterMap fun i =>
    match i with
    | .target name _ => some name
    | _ => none

/-- The key in front of the first `=` and the text behind it, or true. -/
def definition (s : LuaString) : LuaString × Value :=
  (s.takeWhile (· != '='),
    match s.dropWhile (· != '=') with
    | [] => .bool true
    | _ :: value => .str value)

/-- What the items say, option by option. -/
def meant (items : List CommandItem) (o : Options) : Options where
  intermediateCacheDir := (given .cachedir items).getLastD o.intermediateCacheDir
  purgeIntermediateCache := o.purgeIntermediateCache || switched .purge items
  noExecute := o.noExecute || switched .noExecute items
  verbose := o.verbose || switched .verbose items
  quiet := o.quiet || switched .quiet items
  inputFiles := o.inputFiles ++ given .file items
  targets := o.targets ++ named items
  sandbox key := (((given .define items).map definition).reverse.lookup key).or (o.sandbox key)

theorem given_append (o : Setting) (items more : List CommandItem) :
    given o (items ++ more) = given o items ++ given o more := List.filterMap_append

theorem switched_append (o : Switch) (items more : List CommandItem) :
    switched o (items ++ more) = (switched o items || switched o more) := List.any_append

theorem named_append (items more : List CommandItem) :
    named (items ++ more) = named items ++ named more := List.filterMap_append

theorem getLastD_append {A : Type} (l m : List A) (d : A) :
    (l ++ m).getLastD d = m.getLastD (l.getLastD d) := by
  simp only [List.getLastD_eq_getLast?, List.getLast?_append]
  cases m.getLast? <;> rfl

/-- Items further on in the vector change what the earlier ones have set. -/
theorem meant_append (items more : List CommandItem) (o : Options) :
    meant (items ++ more) o = meant more (meant items o) := by
  simp only [meant, given_append, switched_append, named_append, getLastD_append, Bool.or_assoc,
    List.append_assoc, List.map_append, List.reverse_append, List.lookup_append, Option.or_assoc]

theorem find_define {key : LuaString} (free : '=' ∉ key) (value : LuaString) :
    find definePattern (key ++ '=' :: value) = some [key, value] := by
  refine find_of_match (show _ = some ([], [key, value].map .closed) from ?_)
  refine match_capture [] key ?_ rfl (match_capture_all [key] value (fun _ _ => rfl) rfl)
  intro c hc
  exact bne_iff_ne.mpr fun same => free (same ▸ hc)

theorem find_define_none {key : LuaString} (free : '=' ∉ key) : find definePattern key = none := by
  have miss : matchItems definePattern.items key [] = none := by
    simp only [definePattern, matchItems]
    apply maxExpand_none
    rintro a b rfl
    cases b with
    | nil => rfl
    | cons c b =>
      have other : (c == '=') = false := beq_eq_false_iff_ne.mpr fun same => free (by simp [same])
      simp [other]
  cases key with
  | nil =>
    rw [find, miss]
    rfl
  | cons c key =>
    rw [find, miss]
    rfl

/-- The pattern splits a definition at its first `=`. -/
theorem doDefine_definition (s : LuaString) (o : Options) :
    doDefine (some s) o = .ok (o.set (definition s).1 (definition s).2, 1) := by
  by_cases there : '=' ∈ s
  · obtain ⟨key, value, rfl, free⟩ := List.eq_append_cons_of_mem there
    have before : ∀ c ∈ key, (c != '=') = true := fun c hc =>
      bne_iff_ne.mpr fun same => free (same ▸ hc)
    simp only [doDefine, needarg, bind, Except.bind, find_define free, definition,
      List.takeWhile_append_of_pos before, List.dropWhile_append_of_pos before]
    simp
  · have all : ∀ c ∈ s, (c != '=') = true := fun c hc =>
      bne_iff_ne.mpr fun same => there (same ▸ hc)
    simp only [doDefine, needarg, bind, Except.bind, find_define_none there, definition,
      List.takeWhile_eq_self_iff.mpr all, List.dropWhile_eq_nil_iff.mpr all]

def Setting.handler : Setting → Handler
  | .cachedir => doCachedir
  | .file => doInputfile
  | .define => doDefine

def Switch.handler : Switch → Handler
  | .purge => doPurgecache
  | .noExecute => doNoExecute
  | .verbose => doVerbose
  | .quiet => doQuiet

/-- Both spellings of an option have the same handler. -/
theorem setting_known (o : Setting) :
    argmap.lookup [o.letter] = some o.handler ∧ argmap.lookup o.word = some o.handler := by
  cases o <;> exact ⟨rfl, rfl⟩

theorem switch_known (o : Switch) :
    argmap.lookup [o.letter] = some o.handler ∧ argmap.lookup o.word = some o.handler := by
  cases o <;> exact ⟨rfl, rfl⟩

theorem setting_handled (o : Setting) (spelled : Spelled) (opts : Options) :
    o.handler (some spelled.argument) opts = .ok (meant [.setting o spelled] opts, 1) := by
  cases o with
  | cachedir =>
    simp [Setting.handler, doCachedir, needarg, bind, Except.bind, meant, given, switched, named]
  | file =>
    simp [Setting.handler, doInputfile, needarg, bind, Except.bind, meant, given, switched, named]
  | define =>
    rw [Setting.handler, doDefine_definition]
    simp [Options.set, meant, given, switched, named]
    funext key
    obtain ⟨k, v⟩ := definition spelled.argument
    by_cases here : key = k
    · simp [here]
    · have differs : (key == k) = false := beq_eq_false_iff_ne.mpr here
      simp [here, differs, List.lookup_cons]

theorem switch_handled (o : Switch) (long : Bool) (next : Option LuaString) (opts : Options) :
    o.handler next opts = .ok (meant [.switch o long] opts, 0) := by
  cases o <;>
    simp [Switch.handler, doPurgecache, doNoExecute, doVerbose, doQuiet, meant, given, switched, named]

theorem parseArg_short {d : Char} {fn : Handler} (other : d ≠ '-')
    (known : argmap.lookup [d] = some fn) (s : LuaString) (next : Option LuaString)
    (opts : Options) : parseArg ('-' :: d :: s) next opts =
      if s = [] then fn next opts else fn (some s) opts >>= fun r => .ok (r.1, 0) := by
  unfold parseArg
  split
  · rename_i long same
    exact absurd (List.cons.inj (List.cons.inj same).2).1 other
  · rename_i short _ same
    cases same
    simp only [List.take_succ_cons, List.take_zero, known, List.drop_succ_cons, List.drop_zero]
  · rename_i none
    exact absurd rfl (none _)

theorem parseArg_long {word : LuaString} {fn : Handler} (known : argmap.lookup word = some fn)
    (next : Option LuaString) (opts : Options) :
    parseArg ('-' :: '-' :: word) next opts = fn next opts := by
  simp only [parseArg, known]

theorem parseArgs_round {o : LuaString} {rest : List LuaString} {opts made : Options} {used : Nat}
    (round : parseArg o rest.head? opts = .ok (made, used)) :
    parseArgs 0 (o :: rest) opts = parseArgs used rest made := by
  rw [parseArgs, round]
  rfl

/-- One item is parsed, with all its arguments and no other. -/
theorem item_parsed (i : CommandItem) (rest : List LuaString) (opts : Options) :
    parseArgs 0 (i.render ++ rest) opts = parseArgs 0 rest (meant [i] opts) := by
  cases i with
  | target name plain =>
    refine parseArgs_round ?_
    have same : meant [.target name plain] opts =
        { opts with targets := opts.targets ++ [name] } := by
      simp [meant, given, switched, named]
    rw [same]
    unfold parseArg
    split
    · exact absurd rfl plain
    · exact absurd rfl plain
    · rfl
  | setting o spelled =>
    obtain ⟨letter, word⟩ := setting_known o
    have other : o.letter ≠ '-' := by cases o <;> decide
    have handled := setting_handled o spelled opts
    cases spelled with
    | attached c s =>
      refine parseArgs_round ?_
      rw [parseArg_short other letter, if_neg (List.cons_ne_nil c s)]
      exact congrArg (· >>= fun r => .ok (r.1, 0)) handled
    | separate s =>
      have round : parseArg ['-', o.letter] (s :: rest).head? opts = _ :=
        (parseArg_short other letter [] _ opts).trans handled
      exact parseArgs_round round
    | long s =>
      have round : parseArg ('-' :: '-' :: o.word) (s :: rest).head? opts = _ :=
        (parseArg_long word _ opts).trans handled
      exact parseArgs_round round
  | switch o long =>
    obtain ⟨letter, word⟩ := switch_known o
    have other : o.letter ≠ '-' := by cases o <;> decide
    have handled := switch_handled o long rest.head? opts
    cases long with
    | false => exact parseArgs_round ((parseArg_short other letter [] _ opts).trans handled)
    | true => exact parseArgs_round ((parseArg_long word _ opts).trans handled)

theorem items_parsed (items : List CommandItem) (opts : Options) :
    parseArgs 0 (commandLine items) opts = .ok (meant items opts) := by
  induction items generalizing opts with
  | nil =>
    have same : meant [] opts = opts := by simp [meant, given, switched, named]
    rw [same]
    rfl
  | cons i items ih =>
    have line : commandLine (i :: items) = i.render ++ commandLine items := rfl
    rw [line, item_parsed, ih, ← meant_append]
    rfl

def CommandItem.isTarget : CommandItem → Bool
  | .target .. => true
  | _ => false

theorem given_options (o : Setting) (items : List CommandItem) :
    given o (items.filter fun i => !i.isTarget) = given o items := by
  rw [given, List.filterMap_filter]
  congr 1
  funext i
  cases i <;> rfl

theorem switched_options (o : Switch) (items : List CommandItem) :
    switched o (items.filter fun i => !i.isTarget) = switched o items := by
  rw [switched, List.any_filter]
  congr 1
  funext i
  cases i <;> rfl

theorem named_targets (items : List CommandItem) :
    named (items.filter CommandItem.isTarget) = named items := by
  rw [named, List.filterMap_filter]
  congr 1
  funext i
  cases i <;> rfl

theorem meant_apart {items items' : List CommandItem}
    (targets : items.filter CommandItem.isTarget = items'.filter CommandItem.isTarget)
    (options : (items.filter fun i => !i.isTarget) = items'.filter fun i => !i.isTarget)
    (o : Options) : meant items o = meant items' o := by
  have settings : ∀ p, given p items = given p items' := fun p => by
    rw [← given_options p items, options, given_options]
  have switches : ∀ p, switched p items = switched p items' := fun p => by
    rw [← switched_options p items, options, switched_options]
  have names : named items = named items' := by
    rw [← named_targets items, targets, named_targets]
  simp only [meant, settings, switches, names]

/-- The driver takes from a rendered command line what its items mean, however targets and
options are mixed. -/
theorem command_line_parsed (sandbox : LuaString → Option Value) :
    (∀ items, parse (commandLine items) sandbox =
      .ok (meant items (initial sandbox)).fallbacks) ∧
    ∀ items items' : List CommandItem,
      items.filter CommandItem.isTarget = items'.filter CommandItem.isTarget →
      (items.filter fun i => !i.isTarget) = (items'.filter fun i => !i.isTarget) →
        parse (commandLine items) sandbox = parse (commandLine items') sandbox := by
  have parsed : ∀ items, parse (commandLine items) sandbox =
      .ok (meant items (initial sandbox)).fallbacks := by
    intro items
    rw [parse, items_parsed]
    rfl
  refine ⟨parsed, fun items items' targets options => ?_⟩
  rw [parsed, parsed, meant_apart targets options]

def buildAllTarget : CommandItem := .target "all".toList (by decide)

/-- The name of the pmfile looks like an option and is no target. -/
theorem target_moved :
    parse (commandLine [buildAllTarget, .setting .file (.separate "-n".toList)]) (fun _ => none) =
      .ok (meant [buildAllTarget, .setting .file (.separate "-n".toList)]
        (initial fun _ => none)).fallbacks ∧
    parse (commandLine [buildAllTarget, .setting .file (.separate "-n".toList)]) (fun _ => none) =
      parse (commandLine [.setting .file (.separate "-n".toList), buildAllTarget]) fun _ => none :=
  ⟨(command_line_parsed fun _ => none).1 _, (command_line_parsed fun _ => none).2 _ _ rfl rfl⟩

/-- The ways to write an item that the program takes. The short name of an option may stand
behind two dashes, and the text attached to a switch is dropped. -/
inductive CommandItem.Reads : CommandItem → List LuaString → Prop
  | rendered (i : CommandItem) : Reads i i.render
  | dashedSetting (o : Setting) (s : LuaString) :
      Reads (.setting o (.long s)) [['-', '-', o.letter], s]
  | dashedSwitch (o : Switch) : Reads (.switch o true) [['-', '-', o.letter]]
  | trailing (o : Switch) (s : LuaString) : Reads (.switch o false) ['-' :: o.letter :: s]

theorem read_parsed {i : CommandItem} {words : List LuaString} (reads : i.Reads words)
    (rest : List LuaString) (opts : Options) :
    parseArgs 0 (words ++ rest) opts = parseArgs 0 rest (meant [i] opts) := by
  cases reads with
  | rendered => exact item_parsed i rest opts
  | dashedSetting o s =>
    have round : parseArg ['-', '-', o.letter] (s :: rest).head? opts = _ :=
      (parseArg_long (setting_known o).1 _ opts).trans (setting_handled o (.long s) opts)
    exact parseArgs_round round
  | dashedSwitch o =>
    exact parseArgs_round ((parseArg_long (switch_known o).1 _ opts).trans
      (switch_handled o true rest.head? opts))
  | trailing o s =>
    have other : o.letter ≠ '-' := by cases o <;> decide
    refine parseArgs_round ?_
    rw [parseArg_short other (switch_known o).1]
    split
    · exact switch_handled o false rest.head? opts
    · exact congrArg (· >>= fun r => .ok (r.1, 0)) (switch_handled o false (some s) opts)

theorem CommandItem.Reads.nonempty {i : CommandItem} {words : List LuaString}
    (reads : i.Reads words) : words ≠ [] := by
  cases reads with
  | rendered =>
    cases i with
    | target name plain => exact List.cons_ne_nil _ _
    | setting o spelled => cases spelled <;> exact List.cons_ne_nil _ _
    | switch o long => cases long <;> exact List.cons_ne_nil _ _
  | _ => exact List.cons_ne_nil _ _

/-- What stands in the table of options. -/
inductive Known : LuaString → Handler → Prop
  | help (w : LuaString) : Known w doHelp
  | license (w : LuaString) : Known w doLicense
  | setting (o : Setting) {w : LuaString} (name : w = [o.letter] ∨ w = o.word) : Known w o.handler
  | switch (o : Switch) {w : LuaString} (name : w = [o.letter] ∨ w = o.word) : Known w o.handler

theorem known_option {w : LuaString} {fn : Handler} (found : argmap.lookup w = some fn) :
    Known w fn := by
  have listed := AssocTable.mem_of_lookup found
  simp only [argmap, List.mem_cons, Prod.mk.injEq, List.not_mem_nil, or_false] at listed
  rcases listed with ⟨rfl, rfl⟩ | ⟨rfl, rfl⟩ | ⟨rfl, rfl⟩ | ⟨rfl, rfl⟩ | ⟨rfl, rfl⟩ | ⟨rfl, rfl⟩ |
    ⟨rfl, rfl⟩ | ⟨rfl, rfl⟩ | ⟨rfl, rfl⟩ | ⟨rfl, rfl⟩ | ⟨rfl, rfl⟩ | ⟨rfl, rfl⟩ | ⟨rfl, rfl⟩ |
    ⟨rfl, rfl⟩ | ⟨rfl, rfl⟩ | ⟨rfl, rfl⟩ | ⟨rfl, rfl⟩
  · exact .help _
  · exact .help _
  · exact .setting .cachedir (.inl rfl)
  · exact .setting .cachedir (.inr rfl)
  · exact .switch .purge (.inl rfl)
  · exact .switch .purge (.inr rfl)
  · exact .setting .file (.inl rfl)
  · exact .setting .file (.inr rfl)
  · exact .setting .define (.inl rfl)
  · exact .setting .define (.inr rfl)
  · exact .switch .noExecute (.inl rfl)
  · exact .switch .noExecute (.inr rfl)
  · exact .switch .verbose (.inl rfl)
  · exact .switch .verbose (.inr rfl)
  · exact .switch .quiet (.inl rfl)
  · exact .switch .quiet (.inr rfl)
  · exact .license _

theorem setting_lacks (o : Setting) (opts : Options) :
    o.handler none opts = .error (.usererror "missing option parameter".toList) := by
  cases o <;> rfl

theorem named_setting {o : Setting} {w : LuaString} (name : w = [o.letter] ∨ w = o.word)
    (s : LuaString) : CommandItem.Reads (.setting o (.long s)) ['-' :: '-' :: w, s] := by
  rcases name with rfl | rfl
  · exact .dashedSetting o s
  · exact .rendered (.setting o (.long s))

theorem named_switch {o : Switch} {w : LuaString} (name : w = [o.letter] ∨ w = o.word) :
    CommandItem.Reads (.switch o true) ['-' :: '-' :: w] := by
  rcases name with rfl | rfl
  · exact .dashedSwitch o
  · exact .rendered (.switch o true)

theorem single_setting {o : Setting} {d : Char} (name : [d] = [o.letter] ∨ [d] = o.word) :
    d = o.letter := by
  rcases name with same | same
  · exact (List.cons.inj same).1
  · cases o <;> cases same

theorem single_switch {o : Switch} {d : Char} (name : [d] = [o.letter] ∨ [d] = o.word) :
    d = o.letter := by
  rcases name with same | same
  · exact (List.cons.inj same).1
  · cases o <;> cases same

section
variable {rest : List LuaString} {opts made : Options}

theorem long_read {long : LuaString}
    (parsed : parseArgs 0 (('-' :: '-' :: long) :: rest) opts = .ok made) :
    ∃ (i : CommandItem) (words more : List LuaString), i.Reads words ∧
      ('-' :: '-' :: long) :: rest = words ++ more := by
  rw [parseArgs] at parsed
  cases known : argmap.lookup long with
  | none =>
    simp only [parseArg, known] at parsed
    cases parsed
  | some fn =>
    rw [parseArg_long known] at parsed
    cases known_option known with
    | help => cases parsed
    | license => cases parsed
    | setting o name =>
      cases rest with
      | nil =>
        rw [List.head?_nil, setting_lacks] at parsed
        cases parsed
      | cons s rest => exact ⟨_, _, rest, named_setting name s, rfl⟩
    | switch o name => exact ⟨_, _, rest, named_switch name, rfl⟩

theorem short_read {d : Char} {s : LuaString} (other : d ≠ '-')
    (parsed : parseArgs 0 (('-' :: d :: s) :: rest) opts = .ok made) :
    ∃ (i : CommandItem) (words more : List LuaString), i.Reads words ∧
      ('-' :: d :: s) :: rest = words ++ more := by
  rw [parseArgs] at parsed
  cases known : argmap.lookup [d] with
  | none =>
    unfold parseArg at parsed
    split at parsed
    · rename_i long same
      exact absurd (List.cons.inj (List.cons.inj same).2).1 other
    · rename_i short _ same
      cases same
      simp only [List.take_succ_cons, List.take_zero, known] at parsed
      cases parsed
    · rename_i none
      exact absurd rfl (none _)
  | some fn =>
    rw [parseArg_short other known] at parsed
    cases known_option known with
    | help => split at parsed <;> cases parsed
    | license => split at parsed <;> cases parsed
    | setting o name =>
      rw [single_setting name]
      cases s with
      | cons c s => exact ⟨.setting o (.attached c s), _, rest, .rendered _, rfl⟩
      | nil =>
        cases rest with
        | nil =>
          rw [if_pos rfl, List.head?_nil, setting_lacks] at parsed
          cases parsed
        | cons s rest => exact ⟨.setting o (.separate s), _, rest, .rendered _, rfl⟩
    | switch o name =>
      rw [single_switch name]
      exact ⟨_, _, rest, .trailing o s, rfl⟩

theorem arg_read {a : LuaString} (parsed : parseArgs 0 (a :: rest) opts = .ok made) :
    ∃ (i : CommandItem) (words more : List LuaString), i.Reads words ∧
      a :: rest = words ++ more := by
  by_cases dashed : a.head? = some '-'
  · cases a with
    | nil => cases dashed
    | cons c a =>
      cases Option.some.inj dashed
      cases a with
      | nil =>
        rw [parseArgs] at parsed
        cases parsed
      | cons d s =>
        by_cases long : d = '-'
        · subst long
          exact long_read parsed
        · exact short_read long parsed
  · exact ⟨.target a dashed, [a], rest, .rendered _, rfl⟩

end

/-- An argument vector is accepted just if it consists of targets and options in one of the
ways to write them, and then it means what these say. -/
theorem command_line_accepted (arg : List LuaString) (sandbox : LuaString → Option Value)
    (o : Options) : parse arg sandbox = .ok o ↔
      ∃ (items : List CommandItem) (words : List (List LuaString)),
        List.Forall₂ CommandItem.Reads items words ∧ arg = words.flatten ∧
        o = (meant items (initial sandbox)).fallbacks := by
  have runs : ∀ (items : List CommandItem) (words : List (List LuaString)) (opts : Options),
      List.Forall₂ CommandItem.Reads items words →
        parseArgs 0 words.flatten opts = .ok (meant items opts) := by
    intro items words opts reads
    induction reads generalizing opts with
    | nil =>
      have same : meant [] opts = opts := by simp [meant, given, switched, named]
      rw [same]
      rfl
    | @cons i w items words read _ ih =>
      rw [List.flatten_cons, read_parsed read, ih, ← meant_append]
      rfl
  have read : ∀ (n : Nat) (arg : List LuaString) (opts made : Options), arg.length ≤ n →
      parseArgs 0 arg opts = .ok made → ∃ (items : List CommandItem) (words : List (List LuaString)),
        List.Forall₂ CommandItem.Reads items words ∧ arg = words.flatten := by
    intro n
    induction n with
    | zero =>
      intro arg opts made short _
      rw [List.length_eq_zero_iff.mp (Nat.le_zero.mp short)]
      exact ⟨[], [], .nil, rfl⟩
    | succ n ih =>
      intro arg opts made short parsed
      cases arg with
      | nil => exact ⟨[], [], .nil, rfl⟩
      | cons a arg =>
        obtain ⟨i, w, more, one, split⟩ := arg_read parsed
        rw [split, read_parsed one] at parsed
        have fewer : more.length ≤ n := by
          have := congrArg List.length split
          have some_word := List.length_pos_iff.mpr one.nonempty
          simp only [List.length_cons, List.length_append] at *
          omega
        obtain ⟨items, words, reads, rfl⟩ := ih more _ made fewer parsed
        exact ⟨i :: items, w :: words, .cons one reads, split⟩
  constructor
  · intro parsed
    cases run : parseArgs 0 arg (initial sandbox) with
    | error e =>
      rw [parse, run] at parsed
      cases parsed
    | ok made =>
      obtain ⟨items, words, reads, rfl⟩ := read arg.length arg _ made (Nat.le_refl _) run
      refine ⟨items, words, reads, rfl, ?_⟩
      rw [parse, runs items words _ reads] at parsed
      cases parsed
      rfl
  · rintro ⟨items, words, reads, rfl, rfl⟩
    rw [parse, runs items words _ reads]
    rfl

end PrimeMover
