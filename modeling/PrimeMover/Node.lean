import PrimeMover.Cache
import PrimeMover.Expand

/-! The build nodes of pm.lua: what each class does in `__outputs`, `__timestamp` and
`__dobuild`, and `node:__build`, which walks the tree. -/
namespace PrimeMover
open LuaPattern

variable {W : Type}

/-- A child: a string or an object with children of its own. `rule` is the property
of that name, which only `foreach` reads. -/
inductive Node where
  | string (s : LuaString)
  | object (decl : Decl) (children : List Node) (rule : Option Node)

def getField (self : Obj) (key : LuaString) : PM W (Option Value) := do
  pure (rawget (← get).mem.fields self key)

/-- The node's error, with its class and position. -/
def failNode {A : Type} (self : Obj) (message : LuaString) : PM W A := do
  throw (nodeError (← get).mem.fields self message)

/-- `for _, x in ipairs(xs) do table_append(t, f(x)) end` -/
def collect {A B S : Type} (f : A → EStateM Stop S (List B)) : List A → EStateM Stop S (List B)
  | [] => pure []
  | x :: xs => do
    let a ← f x
    let b ← collect f xs
    pure (a ++ b)

/-- The items `ipairs` gives. -/
def ipairs : Option Value → Except Stop (List Value)
  | some v =>
    match v.items with
    | some vs => .ok vs
    | none => .error (luaerror "bad argument #1 to `ipairs'".toList)
  | none => .error (luaerror "bad argument #1 to `ipairs'".toList)

/-- A value as the string argument of a library function. -/
def argument (function : LuaString) : Value → Except Stop LuaString
  | .str s => .ok s
  | .num t => .ok t
  | _ => .error (luaerror ("bad argument #1 to `".toList ++ function ++ "'".toList))

def strings (vs : List LuaString) : Value := .list (vs.map .str)

/-- `^.*/` and then `%..-$`: the base name up to its first dot. -/
def basename (input : LuaString) : LuaString :=
  gsub ⟨false, [.one (· == '.'), .minus (fun _ => true), .atEnd]⟩ (fun _ => [])
    (gsub ⟨true, [.star (fun _ => true), .one (· == '/')]⟩ (fun _ => []) input)

def expandValue (cfg : Settings W) (self : Obj) (v : Value) : PM W LuaString := do
  expand cfg self (← except (argument "gsub".toList v))

/-- `table_append(self.out, i)` -/
def appendOut (self : Obj) (i : LuaString) : PM W Unit := do
  let out ← getField self "out".toList
  setField self "out".toList (.list ((out.bind Value.items).getD [] ++ [.str i]))

def concatCommand (commands : List Value) : Except Stop LuaString := do
  let texts ← commands.mapM (argument "concat".toList)
  .ok (List.intercalate " && ".toList texts)

/-- One round of the loops of `simple.__outputs`; `make` creates the container. -/
def outputTemplate (cfg : Settings W) (self : Obj) (make : Bool) (template : Value) :
    PM W (List LuaString) := do
  let i ← expandValue cfg self template
  if make then lift (mkcontainerdir cfg.host cfg.fuel i)
  appendOut self i
  pure [i]

/-- `simple.__outputs`, with the cache key for the record. -/
def simpleOutputs (cfg : Settings W) (self : Obj) (inputs : List LuaString) :
    PM W (LuaString × List LuaString) := do
  setField self "I".toList (.str (basename (inputs.headD [])))
  setField self "out".toList (.list [])
  setField self "U".toList (.num "0".toList)
  let templates ← except (ipairs (← getField self "outputs".toList))
  let _ ← collect (outputTemplate cfg self false) templates
  let commands ← except (ipairs (← getField self "command".toList))
  let cachekey ← expand cfg self (← except (concatCommand commands))
  let id ← createIntermediateCacheKey cfg cachekey
  setField self "U".toList (.str (cfg.intermediateCacheDir ++ id.text))
  setField self "out".toList (.list [])
  let outs ← collect (outputTemplate cfg self true) templates
  pure (cachekey, outs)

/-- `file.__outputs` -/
def fileOutputs (cfg : Settings W) (self : Obj) (inputs : List LuaString) :
    PM W (List LuaString) := do
  match truthy (← getField self "only_n_children_are_outputs".toList) with
  | none => collect (fun i => do pure [← expand cfg self i]) inputs
  | some v =>
    match v.number with
    | some n =>
      if n ≤ inputs.length then
        collect (fun i => do pure [← expand cfg self i]) (inputs.take n.toNat)
      else do
        let _ ← collect (fun i => do pure [← expand cfg self i]) inputs
        throw (luaerror "bad argument #1 to `gsub'".toList)
    | none => throw (luaerror "`for' limit must be a number".toList)

/-- A bound of `ith`, or its default. -/
def ithBound (self : Obj) (key : LuaString) (default : Int) : PM W Int := do
  match truthy (← getField self key) with
  | none => pure default
  | some (.num text) =>
    match tointeger text with
    | some n => pure n
    | none => throw (luaerror "attempt to compare number with string".toList)
  | some _ => throw (luaerror "attempt to compare number with string".toList)

/-- `ith.__outputs` -/
def ithOutputs (self : Obj) (inputs : List LuaString) : PM W (List LuaString) := do
  let n := inputs.length
  let start ← ithBound self "from".toList 1
  let stop ← ithBound self "to".toList n
  if start < 1 ∨ n < stop then
    failNode self ("tried to select range ".toList ++ integer start ++ " to ".toList ++
      integer stop ++ " from only ".toList ++ decimal n ++ " inputs".toList)
  else pure ((inputs.take stop.toNat).drop (start.toNat - 1))

/-- `__outputs` of each class. -/
def outputs (cfg : Settings W) (decl : Decl) (inputs : List LuaString) :
    PM W (Option LuaString × List LuaString) := do
  match decl.kind with
  | .file => pure (none, ← fileOutputs cfg decl.obj inputs)
  | .group => pure (none, inputs)
  | .deponly => pure (none, [])
  | .ith => pure (none, ← ithOutputs decl.obj inputs)
  | .foreach => pure (none, inputs)
  | .simple => do
    let named ← simpleOutputs cfg decl.obj inputs
    pure (some named.1, named.2)

/-- `node:__timestamp` -/
def newest (host : Host W) (fuel : Nat) : List LuaString → Int → SysM W Int
  | [], t => pure t
  | i :: is, t => do
    let tt ← filetime host fuel i
    newest host fuel is (if tt > t then tt else t)

/-- `file.__timestamp`, which expands the outputs once more. -/
def fileTimestamp (cfg : Settings W) (self : Obj) : List LuaString → Int → PM W Int
  | [], t => pure t
  | i :: is, t => do
    let i ← expand cfg self i
    let tt ← lift (filetime cfg.host cfg.fuel i)
    if tt = 0 then
      failNode self ("is referring to the file '".toList ++ i ++ "' which does not exist".toList)
    else fileTimestamp cfg self is (if tt > t then tt else t)

def timestamp (cfg : Settings W) (decl : Decl) (outputs : List LuaString) : PM W Int :=
  match decl.kind with
  | .file => fileTimestamp cfg decl.obj outputs 0
  | _ => lift (newest cfg.host cfg.fuel outputs 0)

/-- The loop over the dependencies: whether one is newer than `t`. -/
def newerThan (host : Host W) (fuel : Nat) (t : Int) : List LuaString → SysM W Bool
  | [] => pure false
  | i :: is => do
    let tt ← filetime host fuel i
    if tt > t then pure true else newerThan host fuel t is

/-- `do_install` -/
def doInstall (cfg : Settings W) (self : Obj) (src dest : LuaString) : PM W Unit := do
  let src ← expand cfg self src
  let src := absname cfg.host (← get).sys.world src
  let dest ← expand cfg self dest
  let dest := absname cfg.host (← get).sys.world dest
  lift (mkcontainerdir cfg.host cfg.fuel dest)
  let failed (e : LuaString) : PM W Unit :=
    failNode self ("couldn't install '".toList ++ src ++ "' to '".toList ++ dest ++ "': ".toList ++ e)
  match cfg.host.symlink (← get).sys.world src dest with
  | some w => modify (fun st => { st with sys := { st.sys with world := w } })
  | none =>
    match cfg.host.unlink (← get).sys.world dest with
    | none => failed (dest ++ ": ".toList ++ cfg.host.unlinkError (← get).sys.world dest)
    | some w =>
      modify (fun st => { st with sys := { st.sys with world := w } })
      match cfg.host.symlink (← get).sys.world src dest with
      | some w => modify (fun st => { st with sys := { st.sys with world := w } })
      | none => failed (cfg.host.symlinkError (← get).sys.world src dest)

/-- The closure made by `pm.install`. -/
def install (cfg : Settings W) (self : Obj) (src : LuaString) (dest : Option LuaString)
    (outputs : List LuaString) : PM W Unit :=
  match dest with
  | some dest => doInstall cfg self src dest
  | none =>
    match outputs with
    | out :: _ => doInstall cfg self out src
    | [] => failNode self "pm.install needs a string or an object for an input".toList

def callFunction (cfg : Settings W) (self : Obj) (phase : Phase) (f : Nat)
    (inputs outputs : List LuaString) : PM W (Option Int) := do
  let st ← get
  let r := cfg.functions f (expandText cfg st.mem.fields st.mem.scope self) inputs outputs
    st.sys.world
  set { st with
    sys := { st.sys with world := r.2 }
    lookups := st.lookups ++ [(self, st.mem.scope)] }
  let result ← except r.1
  lift (record (.call self.id phase f result))
  pure result

def traceoutput (cfg : Settings W) (s : LuaString) : PM W Unit :=
  if cfg.quiet then pure () else lift (record (.trace s))

/-- `node:__invoke`; `none` stands for the result false. -/
def invoke (cfg : Settings W) (self : Obj) (phase : Phase) (inputs outputs : List LuaString) :
    List Value → PM W (Option Int)
  | [] => pure none
  | .str s :: rest => do
    let s ← expand cfg self s
    traceoutput cfg s
    if cfg.noExecute then invoke cfg self phase inputs outputs rest
    else do
      let r ← lift (osExecute cfg.host self.id phase s)
      if r ≠ 0 then pure (some r) else invoke cfg self phase inputs outputs rest
  | .func f :: rest => do
    match ← callFunction cfg self phase f inputs outputs with
    | some r => pure (some r)
    | none => invoke cfg self phase inputs outputs rest
  | .install src dest :: rest => do
    install cfg self src dest outputs
    invoke cfg self phase inputs outputs rest
  | _ :: rest => invoke cfg self phase inputs outputs rest

/-- `if (type(command) ~= "table") then command = {command} end` -/
def commandList (v : Value) : List Value := v.items.getD [v]

/-- `simple.__dobuild`; `delete_output_files_on_error` is always set. -/
def simpleDobuild (cfg : Settings W) (self : Obj) (inputs outputs : List LuaString) :
    PM W Unit := do
  match ← getField self "command".toList with
  | none => throw (luaerror "bad argument #1 to `ipairs'".toList)
  | some command =>
    match ← invoke cfg self .build inputs outputs (commandList command) with
    | none => pure ()
    | some r =>
      let _ ← invoke cfg self .cleanup [] [] [.str "%RM% %out%".toList]
      failNode self ("failed to build with return code ".toList ++ (toString r).toList)

def dobuild (cfg : Settings W) (decl : Decl) (inputs outputs : List LuaString) : PM W Unit :=
  match decl.kind with
  | .simple => simpleDobuild cfg decl.obj inputs outputs
  | _ => pure ()

/-- The record of a node, once its outputs are known. -/
def visit (decl : Decl) (key : Option LuaString) (inputs outs : List LuaString)
    (listed first : Nat) : PM W Unit :=
  modify (fun st => { st with visits := st.visits ++
    [⟨decl, st.mem, st.sys, key, inputs, outs, listed, first⟩] })

/-- The decision of `node:__build`, from the timestamp of the node. -/
def outdated (cfg : Settings W) (t : Int) (inputs : List LuaString) : PM W Bool :=
  if t = 0 then pure true else lift (newerThan cfg.host cfg.fuel t inputs)

def rebuild (cfg : Settings W) (decl : Decl) (inputs outs : List LuaString) : Bool → PM W Unit
  | false => pure ()
  | true => do
    dobuild cfg decl inputs outs
    lift (filetouch cfg.host outs)

def installNode (cfg : Settings W) (decl : Decl) (inputs outs : List LuaString) : PM W Unit := do
  match truthy (← getField decl.obj "install".toList) with
  | none => pure ()
  | some v =>
    let _ ← invoke cfg decl.obj .install inputs outs (commandList v)

/-- The part of `node:__build` that compares timestamps, builds and installs. -/
def settle (cfg : Settings W) (decl : Decl) (inputs outs : List LuaString) : PM W Unit := do
  let t ← timestamp cfg decl outs
  let old ← outdated cfg t inputs
  rebuild cfg decl inputs outs old
  installNode cfg decl inputs outs

/-- The rest of `node:__build`, after the children. -/
def finish (cfg : Settings W) (decl : Decl) (inputs : List LuaString) (listed first : Nat) :
    PM W (List LuaString) := do
  setField decl.obj "in".toList (strings inputs)
  let (key, outs) ← outputs cfg decl inputs
  setField decl.obj "out".toList (strings outs)
  visit decl key inputs outs listed first
  settle cfg decl inputs outs
  pure outs

def visitCount : PM W Nat := do pure (← get).visits.length

def pushScope (self : Obj) : PM W Unit :=
  modify (fun st => { st with mem := { st.mem with scope := self :: st.mem.scope } })

def popScope : PM W Unit :=
  modify (fun st => { st with mem := { st.mem with scope := st.mem.scope.tail } })

/-- The children are built with the node on top of the scope. -/
def enclose {A : Type} (self : Obj) (x : PM W A) : PM W A := do
  pushScope self
  let r ← x
  popScope
  pure r

def newObject (props : List (LuaString × Value)) (fields : LuaString → Option Value) :
    PM W Obj := do
  let st ← get
  let self : Obj := ⟨st.mem.objects, props⟩
  set { st with mem := { st.mem with
    objects := st.mem.objects + 1
    fields := fun i => if i = self.id then fields else st.mem.fields i } }
  pure self

/-- `file { s }` -/
def buildFile (cfg : Settings W) (listed : Nat) (s : LuaString) : PM W (List LuaString) := do
  let self ← newObject [("class".toList, .str "file".toList)] (fun _ => none)
  finish cfg ⟨self, .file⟩ [s] listed (← visitCount)

def fieldsOf (o : Obj) : PM W (LuaString → Option Value) := do
  pure ((← get).mem.fields o.id)

/-- The part of `node:__init` that concerns the `install` property. -/
def initInstall (self : Obj) : PM W Unit := do
  match truthy (← getField self "install".toList) with
  | none => pure ()
  | some v =>
    match v with
    | .str _ | .func _ | .install .. => setField self "install".toList (.list [v])
    | _ =>
      if v.items.isNone then
        failNode self ("doesn't know what to do with its installation command, ".toList ++
          "which is a ".toList ++ v.typeName ++
          " but should be a table, function or string".toList)

def initOutputs (self : Obj) : PM W Unit := do
  match truthy (← getField self "outputs".toList) with
  | none => failNode self "must have an outputs template set".toList
  | some v =>
    if v.items.isNone then
      failNode self ("doesn't know what to do with its outputs, which is a ".toList ++
        v.typeName ++ " but should be a table".toList)

def initCommand (self : Obj) : PM W Unit := do
  match truthy (← getField self "command".toList) with
  | none => failNode self "must have a command specified".toList
  | some (.str s) => setField self "command".toList (.list [.str s])
  | some v =>
    if v.items.isNone then
      failNode self ("doesn't know what to do with its command, which is a ".toList ++
        v.typeName ++ " but should be a string or a table".toList)

/-- `simple.__init` after `node.__init`. -/
def initSimple (self : Obj) : PM W Unit := do
  initOutputs self
  initCommand self

def ensureNumber (self : Obj) (key : LuaString) : PM W Unit := do
  match truthy (← getField self key) with
  | none | some (.num _) => pure ()
  | some v =>
    failNode self ("doesn't know what to do with its ".toList ++ key ++
      " property, which is a ".toList ++ v.typeName ++ " where a number was expected".toList)

def ensureOnlyI (self : Obj) : PM W Unit := do
  let start ← getField self "from".toList
  let stop ← getField self "to".toList
  if (truthy start).isSome ∨ (truthy stop).isSome then
    failNode self "can't have both an i property and a from or to property".toList

def initI (self : Obj) : PM W Unit := do
  match truthy (← getField self "i".toList) with
  | none => pure ()
  | some v => do
    ensureOnlyI self
    ensureNumber self "i".toList
    setField self "from".toList v
    setField self "to".toList v

/-- `ith.__init` after `node.__init`. -/
def initIth (self : Obj) : PM W Unit := do
  initI self
  ensureNumber self "from".toList
  ensureNumber self "to".toList

def ensureChildren (self : Obj) (n : Nat) : PM W Unit := do
  match truthy (← getField self "ensure_n_children".toList) with
  | none => pure ()
  | some (.num text) =>
    if tonumber text ≠ some n then
      throw (luaerror "attempt to call method `_error' (a nil value)".toList)
  | some _ => throw (luaerror "attempt to call method `_error' (a nil value)".toList)

/-- The constructor of `rule { i }`, for an object with `n` children. String
children of a simple node are made into file nodes when they are built. -/
def initInstance (self : Obj) (kind : Kind) (n : Nat) (rule : Bool) : PM W Unit := do
  ensureChildren self n
  initInstall self
  match kind with
  | .simple => initSimple self
  | .ith => initIth self
  | .foreach => if !rule then failNode self "must have a rule property".toList
  | _ => pure ()

/-- The node itself, or the new object of `rule { i }`. -/
def instantiate (decl : Decl) (n : Nat) (rule : Bool) : Option LuaString → PM W Decl
  | none => pure decl
  | some _ => do
    let self ← newObject decl.obj.props (← fieldsOf decl.obj)
    initInstance self decl.kind (n + 1) rule
    pure ⟨self, decl.kind⟩

/-- The file names of a file node. -/
def fileName : Node → Except Stop LuaString
  | .string s => .ok s
  | .object .. => .error (luaerror "bad argument #1 to `gsub'".toList)

/-- A string among the children of a node being built. -/
def buildString (cfg : Settings W) (kind : Kind) (listed : Nat) (s : LuaString) :
    PM W (List LuaString) :=
  if kind = .simple then buildFile cfg listed s
  else throw (luaerror "attempt to index local `i' (a string value)".toList)

/-- `file.__buildchildren` -/
def fileInputs (children : List Node) (i : Option LuaString) : Except Stop (List LuaString) := do
  let names ← children.mapM fileName
  .ok (names ++ i.toList)

mutual

/-- `node:__build`, of the node itself or of the instance `node { i }`. -/
def build (cfg : Settings W) : Node → Option LuaString → PM W (List LuaString)
  | .string _, _ => throw (luaerror "attempt to index a string value".toList)
  | .object decl children rule, i => do
    let first ← visitCount
    let decl ← instantiate decl children.length rule.isSome i
    if decl.kind = .file then
      let inputs ← except (fileInputs children i)
      finish cfg decl inputs children.length first
    else
      let inputs ← enclose decl.obj do
        let a ← buildAll cfg decl.kind children
        let b ← collect (buildString cfg decl.kind 0) i.toList
        if decl.kind = .foreach then collect (buildRule cfg rule) (a ++ b) else pure (a ++ b)
      finish cfg decl inputs 0 first

/-- The loop over the children. -/
def buildAll (cfg : Settings W) (kind : Kind) : List Node → PM W (List LuaString)
  | [] => pure []
  | child :: rest => do
    let a ←
      match child with
      | .string s => buildString cfg kind 1 s
      | .object .. => build cfg child none
    let b ← buildAll cfg kind rest
    pure (a ++ b)

/-- `self.rule { i }`, built. -/
def buildRule (cfg : Settings W) : Option Node → LuaString → PM W (List LuaString)
  | none, _ => throw (luaerror "attempt to call field `rule' (a nil value)".toList)
  | some rule, i => build cfg rule (some i)

end

end PrimeMover
