import PrimeMover.Headers
import PrimeMover.Index
import PrimeMover.LineEdit

/-! The file that `make_pm` of the build script puts together, and the sections that the
script at its head cuts out of it again. -/
namespace PrimeMover
open LineEdit

/-- `printf '%-6d'` -/
def paddedNumber (n : Nat) : LuaString := decimal n ++ List.replicate (6 - (decimal n).length) ' '

def ddCommand : LuaString := "\tdd skip=$1 count=$2 bs=1 if=\"$0\" 2>/dev/null | ".toList

def extractorMark : LuaString := "XXXEXTRACTORXXX".toList

def engineCall : LuaString :=
  "\textract_section XXXXLO XXXXLS | \"$PMEXEC\" /dev/stdin \"$@\"".toList

def interpreterCall : LuaString := "extract_section XXXXCO XXXXCS > /tmp/pm-$$.c".toList

def beforeEngine : LuaString :=
  "\x7d\n\n".toList ++ "# If the bootstrap's built, run it.\n\n".toList ++
    "if [ \"$PMEXEC\" -nt \"$0\" ]; then".toList

def beforeInterpreter : LuaString :=
  "\texit $?\nfi\n\n".toList ++ "# Otherwise, compile it and restart.\n\n".toList ++
    "echo \"pm: bootstrapping...\"\n\n".toList ++
    "if [ -x \"$(which gcc 2>/dev/null)\" ]; then\n".toList ++ "\tCC=\"gcc -O -s\"\n".toList ++
    "else\n\tCC=\"cc\"\nfi\n".toList

def afterCalls : LuaString :=
  "$CC $CFILE -o \"$PMEXEC\" && exec \"$0\" \"$@\"\n\n".toList ++
    "echo \"pm: bootstrap failed.\"\nexit 1\n".toList

/-- shell.sh. The lines above the function `extract_section` and its first line are a
parameter, nothing depends on them. -/
def shellSh (top : LuaString) : LuaString :=
  top ++ '\n' :: (ddCommand ++ extractorMark) ++ '\n' :: (beforeEngine ++ '\n' :: (engineCall ++
    '\n' :: (beforeInterpreter ++ '\n' :: (interpreterCall ++ '\n' :: afterCalls))))

/-- `$TEMPFILE.stub`, with the text that sed puts in for the extractor. -/
def stub (top extractor : LuaString) : LuaString :=
  mapLines (substitute extractorMark extractor) (shellSh top)

/-- The commands of the second sed, for a stub, an engine and an interpreter of these sizes. -/
def sizeCommands (stubsize enginesize interpretersize : Nat) : List (LuaString × LuaString) :=
  [("XXXXLO".toList, paddedNumber stubsize), ("XXXXLS".toList, paddedNumber enginesize),
    ("XXXXCO".toList, paddedNumber (stubsize + enginesize)),
    ("XXXXCS".toList, paddedNumber interpretersize)]

def editedStub (top extractor : LuaString) (enginesize interpretersize : Nat) : LuaString :=
  mapLines (script (sizeCommands (stub top extractor).length enginesize interpretersize))
    (stub top extractor)

/-- `bin/pm` -/
def makePm (top extractor engine interpreter : LuaString) : LuaString :=
  editedStub top extractor engine.length interpreter.length ++ engine ++ interpreter

/-- The words of a command line. -/
def fields (line : LuaString) : List LuaString := (line.splitOnP blank).filter (· ≠ [])

/-- The arguments of a call of `extract_section`. -/
def sectionArguments (line : LuaString) : Option (Nat × Nat) :=
  match fields line with
  | name :: skip :: count :: _ =>
    if name = "extract_section".toList then
      (tonumber skip).bind fun n => (tonumber count).map fun m => (n, m)
    else none
  | _ => none

def sectionCalls (text : LuaString) : List (Nat × Nat) := (lines text).filterMap sectionArguments

/-- `dd skip=$1 count=$2 bs=1` -/
def dd (file : LuaString) (arguments : Nat × Nat) : LuaString :=
  (file.drop arguments.1).take arguments.2

/-- The last two calls in the script cut out the engine and the interpreter. -/
def CutsSections (top extractor engine interpreter : LuaString) : Prop :=
  ∃ others first second,
    sectionCalls (editedStub top extractor engine.length interpreter.length) =
      others ++ [first, second] ∧
    dd (makePm top extractor engine interpreter) first = engine ∧
    dd (makePm top extractor engine interpreter) second = interpreter

theorem length_paddedNumber (n : Nat) :
    6 ≤ (paddedNumber n).length ∧ ((paddedNumber n).length = 6 ↔ n < 10 ^ 6) := by
  have size : (paddedNumber n).length = (decimal n).length + (6 - (decimal n).length) := by
    simp [paddedNumber]
  have digits : (decimal n).length ≤ 6 ↔ n < 10 ^ 6 :=
    Nat.length_toDigits_le_iff (by decide) (by decide)
  rw [← digits, size]
  omega

theorem paddedNumber_chars {n : Nat} {c : Char} (mem : c ∈ paddedNumber n) :
    c.isDigit ∨ c = ' ' := by
  rcases List.mem_append.mp mem with digit | space
  · exact .inl (Nat.isDigit_of_mem_toDigits (by decide) (by decide) digit)
  · exact .inr (List.eq_of_mem_replicate space)

theorem sectionCalls_append (a b : LuaString) :
    sectionCalls (a ++ '\n' :: b) = sectionCalls a ++ sectionCalls b := by
  rw [sectionCalls, lines_append, List.filterMap_append]
  rfl

theorem fields_append (a b : LuaString) : fields (a ++ ' ' :: b) = fields a ++ fields b := by
  rw [fields, List.splitOnP_append_cons a b rfl, List.filter_append]
  rfl

theorem fields_word {a : LuaString} (nonempty : a ≠ []) (clean : ∀ c ∈ a, blank c = false) :
    fields a = [a] := by
  rw [fields, List.splitOnP_eq_singleton clean]
  simp [nonempty]

theorem fields_paddedNumber (n : Nat) : fields (paddedNumber n) = [decimal n] := by
  have spaces : ∀ (k : Nat) (a : LuaString), fields (a ++ List.replicate k ' ') = fields a := by
    intro k
    induction k with
    | zero => simp
    | succ k ih =>
      intro a
      rw [List.replicate_succ, fields_append, ← List.nil_append (List.replicate k ' '), ih []]
      simp [fields]
  rw [paddedNumber, spaces, fields_word (show decimal n ≠ [] from Nat.toDigits_ne_nil)]
  intro c mem
  have digit : c.isDigit = true := Nat.isDigit_of_mem_toDigits (by decide) (by decide) mem
  cases bl : blank c with
  | false => rfl
  | true =>
    simp only [blank, Bool.or_eq_true, beq_iff_eq] at bl
    rcases bl with rfl | rfl <;> cases digit

/-- The part of the script below the line that holds the extractor. -/
def belowDd : LuaString :=
  beforeEngine ++ '\n' :: (engineCall ++ '\n' :: (beforeInterpreter ++ '\n' :: (interpreterCall ++
    '\n' :: afterCalls)))

def marks : List LuaString :=
  [extractorMark, "XXXXLO".toList, "XXXXLS".toList, "XXXXCO".toList, "XXXXCS".toList]

/-- No line holds a mark or is a call. -/
def quiet (text : LuaString) : Bool :=
  (lines text).all (fun line =>
    marks.all (fun mark => !occurs mark line) && (sectionArguments line).isNone)

-- a literal stands for its characters before anything is evaluated: decoding it is slow
theorem quiet_beforeEngine : quiet beforeEngine = true := by
  unfold quiet beforeEngine marks extractorMark sectionArguments
  repeat rw [String.toList_ofList]
  decide +kernel

theorem quiet_beforeInterpreter : quiet beforeInterpreter = true := by
  unfold quiet beforeInterpreter marks extractorMark sectionArguments
  repeat rw [String.toList_ofList]
  decide +kernel

theorem quiet_afterCalls : quiet afterCalls = true := by
  unfold quiet afterCalls marks extractorMark sectionArguments
  repeat rw [String.toList_ofList]
  decide +kernel

theorem mapLines_quiet {text : LuaString} (still : quiet text = true)
    {commands : List (LuaString × LuaString)} (marked : ∀ command ∈ commands, command.1 ∈ marks) :
    mapLines (script commands) text = text := by
  apply mapLines_still
  intro line mem
  apply script_absent
  intro command listed
  have all := List.all_eq_true.mp still line mem
  rw [Bool.and_eq_true] at all
  simpa using List.all_eq_true.mp all.1 command.1 (marked command listed)

theorem sectionCalls_quiet {text : LuaString} (still : quiet text = true) :
    sectionCalls text = [] := by
  rw [sectionCalls, List.filterMap_eq_nil_iff]
  intro line mem
  have all := List.all_eq_true.mp still line mem
  rw [Bool.and_eq_true] at all
  exact Option.isNone_iff_eq_none.mp all.2

/-- A call, as a line without a mark of the extractor. -/
theorem calls_clean : '\n' ∉ engineCall ∧ '\n' ∉ interpreterCall ∧
    occurs extractorMark engineCall = false ∧ occurs extractorMark interpreterCall = false := by
  unfold engineCall interpreterCall extractorMark
  repeat rw [String.toList_ofList]
  decide +kernel

theorem mapLines_belowDd {commands : List (LuaString × LuaString)}
    (marked : ∀ command ∈ commands, command.1 ∈ marks) :
    mapLines (script commands) belowDd = beforeEngine ++ '\n' :: (script commands engineCall ++
      '\n' :: (beforeInterpreter ++ '\n' :: (script commands interpreterCall ++ '\n' ::
        afterCalls))) := by
  simp only [belowDd, mapLines_append, mapLines_quiet quiet_beforeEngine marked,
    mapLines_quiet quiet_beforeInterpreter marked, mapLines_quiet quiet_afterCalls marked,
    mapLines_clean _ calls_clean.1, mapLines_clean _ calls_clean.2.1]

theorem stub_split (top extractor : LuaString) : ∃ above,
    stub top extractor = above ++ '\n' :: belowDd := by
  have kept : mapLines (substitute extractorMark extractor) belowDd = belowDd := by
    have script_one : substitute extractorMark extractor = script [(extractorMark, extractor)] := rfl
    rw [script_one, mapLines_belowDd (by simp [marks]), ← script_one,
      substitute_absent calls_clean.2.2.1, substitute_absent calls_clean.2.2.2, belowDd]
  have split : shellSh top = (top ++ '\n' :: (ddCommand ++ extractorMark)) ++ '\n' :: belowDd := by
    simp only [shellSh, belowDd, List.append_assoc, List.cons_append]
  exact ⟨_, by rw [stub, split, mapLines_append, kept]⟩

section
variable (a b c d : Nat)

/-- The commands with any numbers. -/
def numberCommands : List (LuaString × LuaString) :=
  [("XXXXLO".toList, paddedNumber a), ("XXXXLS".toList, paddedNumber b),
    ("XXXXCO".toList, paddedNumber c), ("XXXXCS".toList, paddedNumber d)]

theorem mark_not_mem (n : Nat) : 'X' ∉ paddedNumber n := by
  intro mem
  rcases paddedNumber_chars mem with digit | space
  · cases digit
  · cases space

theorem newline_not_mem (n : Nat) : '\n' ∉ paddedNumber n := by
  intro mem
  rcases paddedNumber_chars mem with digit | space
  · cases digit
  · cases space

def callStart : LuaString := "extract_section ".toList

def engineTail : LuaString := " | \"$PMEXEC\" /dev/stdin \"$@\"".toList

def interpreterTail : LuaString := " > /tmp/pm-$$.c".toList

/-- The line of a call, with what stands for its arguments. -/
def callLine (start first second tail : LuaString) : LuaString :=
  start ++ (first ++ (' ' :: (second ++ tail)))

theorem substitute_arguments {start first second r s : LuaString} (tail : LuaString)
    (one : first.head? = some 'X') (two : second.head? = some 'X') (plain : 'X' ∉ start)
    (number : 'X' ∉ r) :
    substitute second s (substitute first r (callLine start first second tail)) =
      callLine start r s tail := by
  have before : 'X' ∉ start ++ (r ++ [' ']) := by simp [plain, number]
  have shape : start ++ (r ++ (' ' :: (second ++ tail))) =
      start ++ (r ++ [' ']) ++ (second ++ tail) := by simp
  rw [callLine, substitute_in one plain, shape, substitute_in two before]
  simp [callLine]

theorem substitute_settled {start pat rep r s tail : LuaString} (one : pat.head? = some 'X')
    (plain : 'X' ∉ start) (first : 'X' ∉ r) (second : 'X' ∉ s) (absent : occurs pat tail = false) :
    substitute pat rep (callLine start r s tail) = callLine start r s tail := by
  have before : 'X' ∉ start ++ (r ++ (' ' :: s)) := by simp [plain, first, second]
  have shape : callLine start r s tail = start ++ (r ++ (' ' :: s)) ++ tail := by simp [callLine]
  rw [shape, substitute_past one before absent]

/-- Other arguments change the length of a call by as much as their own lengths differ. -/
theorem length_callLine (start first second r s tail : LuaString) :
    (callLine start r s tail).length + (first.length + second.length) =
      (callLine start first second tail).length + (r.length + s.length) := by
  simp only [callLine, List.length_append, List.length_cons]
  omega

theorem engineCall_parts : engineCall =
    callLine ('\t' :: callStart) "XXXXLO".toList "XXXXLS".toList engineTail := by
  unfold engineCall callStart engineTail
  repeat rw [String.toList_ofList]
  rfl

theorem interpreterCall_parts : interpreterCall =
    callLine callStart "XXXXCO".toList "XXXXCS".toList interpreterTail := by
  unfold interpreterCall callStart interpreterTail
  repeat rw [String.toList_ofList]
  rfl

theorem script_engineCall : script (numberCommands a b c d) engineCall =
    callLine ('\t' :: callStart) (paddedNumber a) (paddedNumber b) engineTail := by
  have plain : 'X' ∉ '\t' :: callStart := by decide
  simp only [script, numberCommands, List.foldl_cons, List.foldl_nil, engineCall_parts]
  rw [substitute_arguments engineTail rfl rfl plain (mark_not_mem a),
    substitute_settled rfl plain (mark_not_mem a) (mark_not_mem b) (by decide),
    substitute_settled rfl plain (mark_not_mem a) (mark_not_mem b) (by decide)]

theorem script_interpreterCall : script (numberCommands a b c d) interpreterCall =
    callLine callStart (paddedNumber c) (paddedNumber d) interpreterTail := by
  have plain : 'X' ∉ callStart := by decide
  have absent : occurs "XXXXLO".toList interpreterCall = false ∧
      occurs "XXXXLS".toList interpreterCall = false := by
    unfold interpreterCall
    repeat rw [String.toList_ofList]
    decide +kernel
  simp only [script, numberCommands, List.foldl_cons, List.foldl_nil]
  rw [substitute_absent absent.1, substitute_absent absent.2, interpreterCall_parts,
    substitute_arguments interpreterTail rfl rfl plain (mark_not_mem c)]

theorem callLine_clean {start tail : LuaString} (m n : Nat) (first : '\n' ∉ start)
    (last : '\n' ∉ tail) : '\n' ∉ callLine start (paddedNumber m) (paddedNumber n) tail := by
  simp [callLine, first, last, newline_not_mem]

theorem sectionArguments_call {start tail more : LuaString} (m n : Nat)
    (name : fields start = ["extract_section".toList]) (rest : tail = ' ' :: more) :
    sectionArguments (callLine (start ++ [' ']) (paddedNumber m) (paddedNumber n) tail) =
      some (m, n) := by
  have shape : callLine (start ++ [' ']) (paddedNumber m) (paddedNumber n) tail =
      start ++ ' ' :: (paddedNumber m ++ ' ' :: (paddedNumber n ++ ' ' :: more)) := by
    simp [callLine, rest]
  rw [sectionArguments, shape, fields_append, fields_append, fields_append, fields_paddedNumber,
    fields_paddedNumber, name]
  simp [tonumber_decimal]

theorem numberCommands_marked : ∀ command ∈ numberCommands a b c d, command.1 ∈ marks := by
  simp [numberCommands, marks]

theorem fields_callStart :
    fields "\textract_section".toList = ["extract_section".toList] ∧
      fields "extract_section".toList = ["extract_section".toList] := by
  repeat rw [String.toList_ofList]
  decide +kernel

theorem sectionCalls_line {line : LuaString} {m n : Nat} (clean : '\n' ∉ line)
    (call : sectionArguments line = some (m, n)) : sectionCalls line = [(m, n)] := by
  simp [sectionCalls, lines_clean clean, call]

/-- The calls in the edited stub, whatever stands above them. -/
theorem sectionCalls_edited (above : LuaString) : ∃ others,
    sectionCalls (mapLines (script (numberCommands a b c d)) (above ++ '\n' :: belowDd)) =
      others ++ [(a, b), (c, d)] := by
  have engine : sectionCalls (script (numberCommands a b c d) engineCall) = [(a, b)] := by
    rw [script_engineCall]
    apply sectionCalls_line (callLine_clean a b (by decide) (by decide))
    exact sectionArguments_call a b fields_callStart.1 rfl
  have interpreter : sectionCalls (script (numberCommands a b c d) interpreterCall) = [(c, d)] := by
    rw [script_interpreterCall]
    apply sectionCalls_line (callLine_clean c d (by decide) (by decide))
    exact sectionArguments_call c d fields_callStart.2 rfl
  refine ⟨sectionCalls (mapLines (script (numberCommands a b c d)) above), ?_⟩
  rw [mapLines_append, mapLines_belowDd (numberCommands_marked a b c d)]
  simp only [sectionCalls_append, sectionCalls_quiet quiet_beforeEngine, engine,
    sectionCalls_quiet quiet_beforeInterpreter, interpreter, sectionCalls_quiet quiet_afterCalls,
    List.nil_append, List.append_nil, List.cons_append]

theorem length_parts (x y z e e' i i' : LuaString) :
    (x ++ '\n' :: (e' ++ '\n' :: (y ++ '\n' :: (i' ++ '\n' :: z)))).length + (e.length + i.length) =
      (x ++ '\n' :: (e ++ '\n' :: (y ++ '\n' :: (i ++ '\n' :: z)))).length +
        (e'.length + i'.length) := by
  simp only [List.length_append, List.length_cons]
  omega

theorem length_belowDd : (mapLines (script (numberCommands a b c d)) belowDd).length + 24 =
    belowDd.length + ((paddedNumber a).length + (paddedNumber b).length) +
      ((paddedNumber c).length + (paddedNumber d).length) := by
  have engine := length_callLine ('\t' :: callStart) "XXXXLO".toList "XXXXLS".toList (paddedNumber a)
    (paddedNumber b) engineTail
  have interpreter := length_callLine callStart "XXXXCO".toList "XXXXCS".toList (paddedNumber c)
    (paddedNumber d) interpreterTail
  have six : ("XXXXLO".toList.length = 6 ∧ "XXXXLS".toList.length = 6) ∧
      "XXXXCO".toList.length = 6 ∧ "XXXXCS".toList.length = 6 := by decide
  rw [← script_engineCall a b c d, ← engineCall_parts, six.1.1, six.1.2] at engine
  rw [← script_interpreterCall a b c d, ← interpreterCall_parts, six.2.1, six.2.2] at interpreter
  have whole := length_parts beforeEngine beforeInterpreter afterCalls engineCall
    (script (numberCommands a b c d) engineCall) interpreterCall
    (script (numberCommands a b c d) interpreterCall)
  rw [← mapLines_belowDd (numberCommands_marked a b c d), ← belowDd] at whole
  -- as variables, so that nothing computes the lengths of these texts
  generalize belowDd.length = x, engineCall.length = y, interpreterCall.length = z at *
  omega

end

theorem length_edited_fits (top extractor : LuaString) {n m : Nat}
    (fits : (stub top extractor).length + n < 10 ^ 6 ∧ m < 10 ^ 6) :
    (editedStub top extractor n m).length = (stub top extractor).length := by
  apply length_mapLines
  apply length_script
  have padded : ∀ k, k < 10 ^ 6 → (paddedNumber k).length = 6 :=
    fun k small => (length_paddedNumber k).2.mpr small
  intro command mem
  simp only [sizeCommands, List.mem_cons, List.not_mem_nil, or_false] at mem
  rcases mem with rfl | rfl | rfl | rfl
  · exact padded _ (by omega)
  · exact padded _ (by omega)
  · exact padded _ fits.1
  · exact padded _ fits.2

/-- A number of seven digits makes the stub longer than it was measured. -/
theorem length_edited_grows (top extractor : LuaString) {n m : Nat}
    (large : ¬ ((stub top extractor).length + n < 10 ^ 6 ∧ m < 10 ^ 6)) :
    (stub top extractor).length < (editedStub top extractor n m).length := by
  obtain ⟨above, split⟩ := stub_split top extractor
  have size := length_belowDd (stub top extractor).length n ((stub top extractor).length + n) m
  have wide := fun k => (length_paddedNumber k).1
  have longer := length_mapLines_le (f := script (numberCommands (stub top extractor).length n
    ((stub top extractor).length + n) m)) (fun line => length_script_le (by
      intro command mem
      simp only [numberCommands, List.mem_cons, List.not_mem_nil, or_false] at mem
      rcases mem with rfl | rfl | rfl | rfl <;> exact wide _) line) above
  have whole : (editedStub top extractor n m).length = (mapLines (script (numberCommands
      (stub top extractor).length n ((stub top extractor).length + n) m)) above).length +
      ((mapLines (script (numberCommands (stub top extractor).length n
        ((stub top extractor).length + n) m)) belowDd).length + 1) := by
    rw [← List.length_cons, ← List.length_append, ← mapLines_append, ← split]
    rfl
  have parts := congrArg List.length split
  rw [List.length_append, List.length_cons] at parts
  have a := length_paddedNumber (stub top extractor).length
  have b := length_paddedNumber n
  have c := length_paddedNumber ((stub top extractor).length + n)
  have d := length_paddedNumber m
  generalize belowDd.length = x at size parts
  omega

theorem sectionCalls_stub (top extractor : LuaString) (n m : Nat) : ∃ others,
    sectionCalls (editedStub top extractor n m) = others ++
      [((stub top extractor).length, n), ((stub top extractor).length + n, m)] := by
  obtain ⟨above, split⟩ := stub_split top extractor
  have calls := sectionCalls_edited (stub top extractor).length n
    ((stub top extractor).length + n) m above
  rw [← split] at calls
  exact calls

theorem cutsSections_iff (top extractor engine interpreter : LuaString) :
    CutsSections top extractor engine interpreter ↔
      dd (makePm top extractor engine interpreter)
          ((stub top extractor).length, engine.length) = engine ∧
        dd (makePm top extractor engine interpreter)
          ((stub top extractor).length + engine.length, interpreter.length) = interpreter := by
  obtain ⟨others, calls⟩ := sectionCalls_stub top extractor engine.length interpreter.length
  constructor
  · rintro ⟨others', first, second, given, one, two⟩
    obtain ⟨_, same⟩ := List.append_inj' (calls.symm.trans given) rfl
    simp only [List.cons.injEq, and_true] at same
    obtain ⟨rfl, rfl⟩ := same
    exact ⟨one, two⟩
  · rintro ⟨one, two⟩
    exact ⟨others, _, _, calls, one, two⟩

theorem dd_head (file : LuaString) (skip : Nat) {count : Nat} (positive : 0 < count) :
    (dd file (skip, count)).head? = file[skip]? := by
  rw [dd, List.head?_take, if_neg (by omega), List.head?_drop]

theorem makePm_inside {top extractor engine interpreter : LuaString} {k : Nat}
    (inside : k < (editedStub top extractor engine.length interpreter.length).length) :
    (makePm top extractor engine interpreter)[k]? =
      (editedStub top extractor engine.length interpreter.length)[k]? := by
  rw [makePm, List.append_assoc, List.getElem?_append_left inside]

theorem other_char (o : Option Char) : ∃ c : Char, o ≠ some c := by
  by_cases a : o = some 'a'
  · exact ⟨'b', by rw [a]; decide⟩
  · exact ⟨'a', a⟩

theorem sections_fit {top extractor engine interpreter : LuaString}
    (same : (editedStub top extractor engine.length interpreter.length).length =
      (stub top extractor).length) :
    CutsSections top extractor engine interpreter := by
  rw [cutsSections_iff, ← same]
  constructor
  · simp [dd, makePm]
  · simp [dd, makePm, -List.append_assoc, ← List.length_append]

/-- For given sizes the sections are cut out right, whatever bytes they hold, exactly when both
are empty or each number that is written into the stub has at most six digits. -/
theorem sections_cut_iff (top extractor : LuaString) (n m : Nat) :
    (∀ engine interpreter : LuaString, engine.length = n → interpreter.length = m →
        CutsSections top extractor engine interpreter) ↔
      n = 0 ∧ m = 0 ∨ (stub top extractor).length + n < 10 ^ 6 ∧ m < 10 ^ 6 := by
  constructor
  · intro cuts
    by_contra neither
    have large : ¬ ((stub top extractor).length + n < 10 ^ 6 ∧ m < 10 ^ 6) :=
      fun fits => neither (.inr fits)
    have grown := length_edited_grows top extractor large
    -- the first byte of either section is one of the stub
    obtain ⟨x, other⟩ := other_char (editedStub top extractor n m)[(stub top extractor).length]?
    have sections := (cutsSections_iff _ _ _ _).mp
      (cuts (List.replicate n x) (List.replicate m x) (by simp) (by simp))
    have byte : (makePm top extractor (List.replicate n x) (List.replicate m x))[
        (stub top extractor).length]? = (editedStub top extractor n m)[(stub top extractor).length]? := by
      rw [makePm_inside (by simpa using grown)]
      simp
    by_cases empty : n = 0
    · subst empty
      have positive : 0 < m := by omega
      have head := congrArg List.head? sections.2
      rw [dd_head _ _ (by simpa using positive)] at head
      simp only [List.length_replicate, Nat.add_zero] at head
      rw [byte] at head
      apply other
      rw [head]
      simp [List.head?_replicate]
      omega
    · have head := congrArg List.head? sections.1
      rw [dd_head _ _ (by simp; omega), byte] at head
      apply other
      rw [head]
      simp [List.head?_replicate, empty]
  · rintro (⟨rfl, rfl⟩ | fits) engine interpreter hn hm
    · rw [cutsSections_iff, List.length_eq_zero_iff.mp hn, List.length_eq_zero_iff.mp hm]
      simp [dd]
    · apply sections_fit
      rw [hn, hm]
      exact length_edited_fits top extractor fits

/-- What the first section must start with, when a number is too wide. -/
theorem first_byte {top extractor engine interpreter : LuaString} {c : Char}
    (cuts : CutsSections top extractor engine interpreter) (starts : engine.head? = some c)
    (grown : (stub top extractor).length <
      (editedStub top extractor engine.length interpreter.length).length) :
    (editedStub top extractor engine.length interpreter.length)[(stub top extractor).length]? =
      some c := by
  have sections := (cutsSections_iff _ _ _ _).mp cuts
  have positive : 0 < engine.length := List.length_pos_of_mem (List.mem_of_head? starts)
  have head := congrArg List.head? sections.1
  rw [dd_head _ _ positive, starts, makePm_inside grown] at head
  exact head

/-- A script with nothing above the function but its first line. -/
def bareHead : LuaString := "#!/bin/sh\n\nextract_section() \x7b".toList

theorem shifted_into_stub : (editedStub bareHead "cat".toList 1000000 0)[
    (stub bareHead "cat".toList).length]? = some '1' := by
  unfold editedStub stub shellSh sizeCommands bareHead ddCommand extractorMark beforeEngine
    engineCall beforeInterpreter interpreterCall afterCalls
  repeat rw [String.toList_ofList]
  decide +kernel

/-- With an engine of a million bytes the cut starts inside the stub. Whatever stands at the head
of the stub, it cannot be right for two engines that begin differently. -/
theorem million_bytes_shifted :
    ¬ CutsSections bareHead "cat".toList (List.replicate 1000000 'x') [] ∧
    ¬ ∃ top extractor : LuaString,
      CutsSections top extractor (List.replicate 1000000 'x') [] ∧
        CutsSections top extractor (List.replicate 1000000 'y') [] := by
  have first : ∀ top extractor c, CutsSections top extractor (List.replicate 1000000 c) [] →
      (editedStub top extractor 1000000 0)[(stub top extractor).length]? = some c := by
    intro top extractor c cuts
    have size : (List.replicate 1000000 c).length = 1000000 := List.length_replicate
    have grown := length_edited_grows top extractor (n := 1000000) (m := 0) (by omega)
    have byte := first_byte cuts List.head?_replicate (by rw [size]; exact grown)
    rwa [size] at byte
  constructor
  · intro cuts
    exact absurd (shifted_into_stub.symm.trans (first _ _ _ cuts)) (by decide)
  · rintro ⟨top, extractor, cuts, cuts'⟩
    exact absurd ((first _ _ 'x' cuts).symm.trans (first _ _ 'y' cuts')) (by decide)

end PrimeMover
