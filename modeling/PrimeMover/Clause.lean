import PrimeMover.Driver
import PrimeMover.Headers

/-! The build nodes among which are those of lib/c.pm: `simple_with_clike_dependencies`
replaces `__dependencies` and `__buildadditionalchildren`, the hooks that every other
class inherits from `node`. -/
namespace PrimeMover
open LuaPattern AssocTable

variable {W : Type}

/-- A child, as in `Node`. `headers` is the list `dynamicheaders` of a node of lib/c.pm,
empty when it has none; it is `none` for any other node. -/
inductive Clause where
  | string (s : LuaString)
  | object (decl : Decl) (children : List Clause) (rule : Option Clause)
      (headers : Option (List Clause))

/-- The build of a dynamic header: the memory when it begins, the nodes that it reaches,
and what it returns. -/
structure HeaderBuild (W : Type) where
  header : Clause
  mem : Mem
  visits : List (Visit W)
  outs : List LuaString

/-- The two builds of a dynamic header by one build of its node. -/
structure HeaderPair (W : Type) where
  owner : Obj
  before : HeaderBuild W
  after : HeaderBuild W

/-- The dependencies that one build of a node of lib/c.pm uses: the system at the time, the
include path of the search and the one of `CDYNINCLUDES`, and the first outputs of its dynamic
headers. -/
structure DependencyList (W : Type) where
  world : W
  owner : Nat
  input : LuaString
  includes : List LuaString
  dynamic : List LuaString
  headers : List LuaString
  depends : List LuaString

/-- What happens to the tables of `dependency_cache`. -/
inductive DependStep (W : Type) where
  | search (world : W) (input : LuaString) (includes : List LuaString)
  | insert (input header : LuaString)
  | use (list : DependencyList W)

/-- The state of a run, with the `dependency_cache` of lib/c.pm. The last two fields are a
record that nothing reads. -/
structure CState (W : Type) where
  base : State W
  dependencyCache : List (LuaString × List LuaString)
  pairs : List (HeaderPair W)
  steps : List (DependStep W)

abbrev CM (W : Type) := EStateM Stop (CState W)

/-- A step of pm.lua in such a run. -/
def up {A : Type} (x : PM W A) : CM W A := fun st =>
  match x st.base with
  | .ok a s => .ok a { st with base := s }
  | .error e s => .error e { st with base := s }

/-- `string_gsub(o[1], "/[^/]*$", "")` -/
def includeDirectory (o : LuaString) : LuaString := gsub lastComponent (fun _ => []) o

/-- What `__buildadditionalchildren` does with the outputs `o` of a dynamic header. -/
def addInclude (self : Obj) (o : List LuaString) : PM W Unit := do
  match o with
  | [] => pure ()
  | o :: _ =>
    let dirs ← getField self "CDYNINCLUDES".toList
    setField self "CDYNINCLUDES".toList
      (.list ((dirs.bind Value.items).getD [] ++ [.str (includeDirectory o)]))

/-- `if (table_getn(self.CDYNINCLUDES) == 0) then self.CDYNINCLUDES = EMPTY end` -/
def closeIncludes (self : Obj) : PM W Unit := do
  let dirs ← getField self "CDYNINCLUDES".toList
  if (dirs.bind Value.items).getD [] = [] then setField self "CDYNINCLUDES".toList .empty

/-- `self:__index(key)` -/
def lookUp (cfg : Settings W) (self : Obj) (key : LuaString) : PM W (Option Value) := do
  let st ← get
  set { st with lookups := st.lookups ++ [(self, st.mem.scope)] }
  except (index st.mem.fields st.mem.scope self cfg.fuel key)

/-- The include path of a node, each of its elements expanded. -/
def includePath (cfg : Settings W) (self : Obj) : PM W (List LuaString) := do
  let cincludes ← lookUp cfg self "CINCLUDES".toList
  let cincludes :=
    match cincludes with
    | some (.str s) => some (.list [.str s])
    | v => v
  collect (fun i => do pure [← expandValue cfg self i]) (← except (ipairs cincludes))

/-- `self:__expand(inputs[1])` -/
def mainInput (cfg : Settings W) (self : Obj) : List LuaString → PM W LuaString
  | [] => throw (luaerror "bad argument #1 to `gsub'".toList)
  | input :: _ => expand cfg self input

/-- `calculate_dependencies(input, includes)`, on the files of the moment. -/
def searchHeaders (cfg : Settings W) (order : KeyOrder) (input : LuaString)
    (includes : List LuaString) : CM W Unit := fun st =>
  match calculateDependencies (cfg.host.readFile st.base.sys.world) order cfg.fuel input includes
    ⟨st.dependencyCache, [], []⟩ with
  | .ok _ h => .ok () { st with
      dependencyCache := h.dependencyCache
      steps := st.steps ++ [.search st.base.sys.world input includes] }
  | .error e h => .error e { st with dependencyCache := h.dependencyCache }

/-- The dependencies of a file: the table in the cache, which callers hold and add to. -/
def dependenciesOf (cache : List (LuaString × List LuaString)) (input : LuaString) :
    List LuaString :=
  (cache.lookup input).getD []

/-- `table_insert(depends, o[1])`, for a dynamic header with outputs `o`. -/
def addDependency (input : LuaString) (o : List LuaString) : CM W Unit := fun st =>
  match o with
  | [] => .ok () st
  | o :: _ =>
    let depends := dependenciesOf st.dependencyCache input ++ [o]
    .ok () { st with
      dependencyCache := setEntry st.dependencyCache input depends
      steps := st.steps ++ [.insert input o] }

/-- The texts in `CDYNINCLUDES`. -/
def dynamicIncludes (fields : Fields) (self : Obj) : List LuaString :=
  (((rawget fields self "CDYNINCLUDES".toList).bind Value.items).getD []).filterMap fun v =>
    match v with
    | .str s => some s
    | _ => none

/-- The first outputs of dynamic headers. -/
def firstOutputs (builds : List (HeaderBuild W)) : List LuaString :=
  builds.filterMap fun b => b.outs.head?

/-- The list that `__dependencies` returns. -/
def takeDependencies (self : Obj) (input : LuaString) (includes headers : List LuaString) :
    CM W (List LuaString) := fun st =>
  let depends := dependenciesOf st.dependencyCache input
  let dynamic := dynamicIncludes st.base.mem.fields self
  .ok depends { st with
    steps := st.steps ++
      [.use ⟨st.base.sys.world, self.id, input, includes, dynamic, headers, depends⟩] }

/-- `__dependencies` of `simple_with_clike_dependencies`; `again` builds the dynamic
headers, and `before` are the builds of `__buildadditionalchildren`, for the record. -/
def clikeDependencies (cfg : Settings W) (order : KeyOrder) (self : Obj) (inputs : List LuaString)
    (before : List (HeaderBuild W))
    (again : (List LuaString → CM W Unit) → CM W (List (HeaderBuild W))) :
    CM W (List LuaString) := do
  let includes ← up (includePath cfg self)
  let input ← up (mainInput cfg self inputs)
  searchHeaders cfg order input includes
  let after ← again (addDependency input)
  let pairs := (before.zip after).map fun b => HeaderPair.mk self b.1 b.2
  modify (fun st => { st with pairs := st.pairs ++ pairs })
  takeDependencies self input includes (firstOutputs after)

/-- `finish` for a node of lib/c.pm. -/
def finishClike (cfg : Settings W) (order : KeyOrder) (decl : Decl) (inputs : List LuaString)
    (first : Nat) (before : List (HeaderBuild W))
    (again : (List LuaString → CM W Unit) → CM W (List (HeaderBuild W))) :
    CM W (List LuaString) := do
  up (setField decl.obj "in".toList (strings inputs))
  let (key, outs) ← up (outputs cfg decl inputs)
  up (setField decl.obj "out".toList (strings outs))
  up (visit decl key inputs outs 0 first)
  let t ← up (timestamp cfg decl outs)
  let depends ← clikeDependencies cfg order decl.obj inputs before again
  let old ← up (outdated cfg t depends)
  up (rebuild cfg decl inputs outs old)
  up (installNode cfg decl inputs outs)
  pure outs

/-- The children are built with the node on top of the scope. -/
def inside {A : Type} (self : Obj) (x : CM W A) : CM W A := do
  up (pushScope self)
  let r ← x
  up popScope
  pure r

/-- `__buildadditionalchildren` of `simple_with_clike_dependencies`; `loop` builds the dynamic
headers. -/
def buildAdditionalChildren (self : Obj)
    (loop : (List LuaString → CM W Unit) → CM W (List (HeaderBuild W))) :
    CM W (List (HeaderBuild W)) := do
  up (setField self "CDYNINCLUDES".toList (.list []))
  let before ← loop fun o => up (addInclude self o)
  up (closeIncludes self)
  pure before

/-- The inputs of a node: `all` builds its children, `each` applies the rule of a `foreach`. -/
def collectInputs (cfg : Settings W) (kind : Kind) (i : Option LuaString)
    (all : CM W (List LuaString)) (each : LuaString → CM W (List LuaString)) :
    CM W (List LuaString) := do
  let a ← all
  let b ← collect (fun s => up (buildString cfg kind 0 s)) i.toList
  if kind = .foreach then collect each (a ++ b) else pure (a ++ b)

/-- The file names of a file node. -/
def Clause.fileName : Clause → Except Stop LuaString
  | .string s => .ok s
  | .object .. => .error (luaerror "bad argument #1 to `gsub'".toList)

def Clause.fileInputs (children : List Clause) (i : Option LuaString) :
    Except Stop (List LuaString) := do
  let names ← children.mapM Clause.fileName
  .ok (names ++ i.toList)

mutual

/-- `node:__build`, of the node itself or of the instance `node { i }`. -/
def buildClause (cfg : Settings W) (order : KeyOrder) :
    Clause → Option LuaString → CM W (List LuaString)
  | .string _, _ => throw (luaerror "attempt to index a string value".toList)
  | .object decl children rule headers, i => do
    let first ← up visitCount
    let decl ← up (instantiate decl children.length rule.isSome i)
    if decl.kind = .file then
      let inputs ← up (except (Clause.fileInputs children i))
      up (finish cfg decl inputs children.length first)
    else
      let (inputs, before) ← inside decl.obj do
        let inputs ← collectInputs cfg decl.kind i (buildClauses cfg order decl.kind children)
          (buildClauseRule cfg order rule)
        match headers with
        | none => pure (inputs, [])
        | some headers => do
          let before ← buildAdditionalChildren decl.obj (buildHeaders cfg order headers)
          pure (inputs, before)
      match headers with
      | none => up (finish cfg decl inputs 0 first)
      | some headers =>
        finishClike cfg order decl inputs first before (buildHeaders cfg order headers)

/-- The loop over the children. -/
def buildClauses (cfg : Settings W) (order : KeyOrder) (kind : Kind) :
    List Clause → CM W (List LuaString)
  | [] => pure []
  | child :: rest => do
    let a ←
      match child with
      | .string s => up (buildString cfg kind 1 s)
      | .object .. => buildClause cfg order child none
    let b ← buildClauses cfg order kind rest
    pure (a ++ b)

/-- `self.rule { i }`, built. -/
def buildClauseRule (cfg : Settings W) (order : KeyOrder) :
    Option Clause → LuaString → CM W (List LuaString)
  | none, _ => throw (luaerror "attempt to call field `rule' (a nil value)".toList)
  | some rule, i => buildClause cfg order rule (some i)

/-- A loop over the dynamic headers: `use` is what it does with the outputs of one. -/
def buildHeaders (cfg : Settings W) (order : KeyOrder) :
    List Clause → (List LuaString → CM W Unit) → CM W (List (HeaderBuild W))
  | [], _ => pure []
  | header :: rest, use => do
    let st ← get
    let outs ← buildClause cfg order header none
    let reached := (← get).base.visits.drop st.base.visits.length
    use outs
    let more ← buildHeaders cfg order rest use
    pure (⟨header, st.base.mem, reached, outs⟩ :: more)

end

def buildClauseTargets (cfg : Settings W) (order : KeyOrder) : List Clause → CM W Unit
  | [] => pure ()
  | o :: rest => do
    let _ ← buildClause cfg order o none
    buildClauseTargets cfg order rest

section Variables

/-- `prefix..j` -/
def concatArgument : Value → Except Stop LuaString
  | .str s => .ok s
  | .num t => .ok t
  | v => .error (luaerror ("attempt to concatenate local `j' (a ".toList ++ v.typeName ++
      " value)".toList))

/-- The local function `prepend` of lib/c.pm. -/
def prepend (text : LuaString) : Value → Except Stop Value
  | .empty => .ok .empty
  | arg => do
    let items ← ipairs (some arg)
    .ok (.list (← items.mapM fun j => do pure (.str (text ++ (← concatArgument j)))))

/-- One library: `%.a$` is a file, anything else a name for the linker. -/
def libraryArgument : Value → Except Stop Value
  | .str s =>
    let archive := find ⟨false, [.one (· == '.'), .one (· == 'a'), .atEnd]⟩ s
    .ok (.str (if archive.isSome then s else "-l".toList ++ s))
  | .num t => .ok (.str ("-l".toList ++ t))
  | _ => .error (luaerror "bad argument #1 to `find' (string expected)".toList)

/-- `pm.stringmodifier.clibraries` -/
def clibraries : Value → Except Stop Value
  | .empty => .ok .empty
  | arg => do
    let items ← ipairs (some arg)
    .ok (.list (← items.mapM libraryArgument))

/-- The modifiers of lib/c.pm. -/
def cModifier (name : LuaString) : Option (Value → Except Stop Value) :=
  if name = "cincludes".toList then some (prepend "-I".toList)
  else if name = "cdefines".toList then some (prepend "-D".toList)
  else if name = "clibraries".toList then some clibraries
  else none

/-- The globals of pm and of lib/c.pm that a compilation uses. -/
def cVariables : Obj where
  id := 0
  props :=
    [("RM".toList, .str "rm -f".toList), ("INSTALL".toList, .str "ln -f".toList),
      ("CCOMPILER".toList, .str "gcc".toList), ("CXXCOMPILER".toList, .str "g++".toList),
      ("CC".toList, .str ("%CCOMPILER% %CBUILDFLAGS% %CDYNINCLUDES:cincludes% ".toList ++
        "%CINCLUDES:cincludes% %CDEFINES:cdefines% %CEXTRAFLAGS% -c -o %out% %in%".toList)),
      ("CXX".toList, .str ("%CXXCOMPILER% %CBUILDFLAGS% %CDYNINCLUDES:cincludes% ".toList ++
        "%CINCLUDES:cincludes% %CDEFINES:cdefines% %CEXTRAFLAGS% -c -o %out% %in%".toList)),
      ("CBUILDFLAGS".toList, strings ["-g".toList]), ("CINCLUDES".toList, .empty),
      ("CDEFINES".toList, .empty), ("CEXTRAFLAGS".toList, .empty),
      ("CDYNINCLUDES".toList, .empty)]

/-- What is common to `cfile` and `cxxfile`, for one of the templates. -/
def compileFile (template : LuaString) (id : Nat) (props : List (LuaString × Value))
    (children headers : List Clause) : Clause :=
  .object ⟨⟨id, props ++ [("command".toList, strings [template]),
    ("outputs".toList, strings ["%U%-%I%.o".toList])]⟩, .simple⟩ children none (some headers)

def cfile := compileFile "%CC%".toList

def cxxfile := compileFile "%CXX%".toList

/-- A state in which nothing has been built. -/
def cstart (w : W) (objects : Nat) : CState W := ⟨start w cVariables objects, [], [], []⟩

end Variables

end PrimeMover
