import Takler.Definition.Documents

/-!
# Building nodes from a definition

`build_definition` (`serialization/builder.py`) makes the nodes of a definition one by one, through
the methods that a program would use as well. `export_definition` (`serialization/definition.py`)
reads the definition of nodes, in dictionaries that are validated like any other document.

Only the built-in classes occur. What binds the references of the new nodes, or checks the types
before the document is read, only matters here in that it may refuse; it is a parameter.

## Main definitions

* `addEvent`, `addLimit`, `addInLimit`, `addRepeat`, `addTime`, …: the methods of `Node`.
* `construct`, `constructTree`, `constructRoot`: `_construct`.
* `buildDefinition`, `exportDefinition`.
-/

open CodePoints (ofString char)

namespace Takler.Version.Definition

open Json (optional)

variable {F : Type}

/-! ### Methods of a node -/

/-- Append an item whose key is not in the list. -/
def appendUnless {α κ : Type} [DecidableEq κ] (key : α → κ) (message : CodePoints) (l : List α)
    (x : α) : Except CodePoints (List α) :=
  if key x ∈ l.map key then .error message else .ok (l ++ [x])

def addParameter (n : Node F) (name : CodePoints) (value : Value F) : Node F :=
  { n with userParameters := n.userParameters.set name value }

def addEvent (n : Node F) (name : CodePoints) (initialValue : Bool) :
    Except CodePoints (Node F) := do
  let events ← appendUnless Event.name
    ("add event failed: event name is duplicate: " ++ name) n.events
    { name, initialValue, value := initialValue }
  return { n with events }

def addMeter (n : Node F) (name : CodePoints) (minValue maxValue : ℤ) : Node F :=
  { n with meters := n.meters ++ [{ name, minValue, maxValue, value := minValue }] }

/-- `add_limit`, of a node with a path. -/
def addLimit (path : CodePoints) (n : Node F) (name : CodePoints) (limit : ℤ) :
    Except CodePoints (Node F) := do
  let limits ← appendUnless Limit.name
    ("add_limit failed: duplicate limit " ++ name ++ " for node " ++ path) n.limits { name, limit }
  return { n with limits }

def addInLimit (path : CodePoints) (n : Node F) (limitName : CodePoints)
    (nodePath : Option CodePoints) (tokens : ℤ) : Except CodePoints (Node F) := do
  let inLimits ← appendUnless (fun i => (i.nodePath, i.limitName))
    ("add_in_limit failed: duplicate InLimit in node: " ++ path) n.inLimits
    { limitName, nodePath, tokens }
  return { n with inLimits }

/-- The number of a date of eight digits. -/
def dateNumber (t : CodePoints) : Except CodePoints ℕ :=
  if isDate t then .ok (Json.readNat t) else .error "time data does not match format"

/-- `RepeatDate(name, start_date, end_date, step)`. A `timedelta` has a largest number of days. -/
def repeatDate (name startDate endDate : CodePoints) (step : ℤ) : Except CodePoints Repeat := do
  let start ← dateNumber startDate
  let stop ← dateNumber endDate
  if 999999999 < step then throw (ofString "days; must have magnitude <= 999999999")
  return { name, value := start, start, stop, startDate := Json.natText start,
           endDate := Json.natText stop, step }

/-- A digit of a time. -/
def digitOf (n : ℕ) : Fin 0x110000 := .ofNat _ (48 + n)

/-- `time.isoformat(timespec="minutes")`. -/
def timeText (hour minute : ℕ) : CodePoints :=
  [digitOf (hour / 10), digitOf (hour % 10), char ':', digitOf (minute / 10),
    digitOf (minute % 10)]

/-- `TimeAttribute(time)`, of a time with two digits for the hour and two for the minute. -/
def timeAttribute : CodePoints → Except CodePoints TimeAttribute
  | [a, b, c, d, e] =>
    if isMinute [a, b, c, d, e] then
      .ok { time := timeText (10 * (a.val - 48) + (b.val - 48)) (10 * (d.val - 48) + (e.val - 48)) }
    else .error "time data does not match format"
  | _ => .error "time data does not match format"

def addTime (n : Node F) (time : CodePoints) : Except CodePoints (Node F) := do
  let t ← timeAttribute time
  return { n with times := n.times ++ [t] }

/-! ### Construction -/

/-- A new node of a class. -/
def newNode : NodeType → Node F
  | .task => { body := .task {} }
  | .shell _ => { body := .shell {} {} }
  | .container => { body := .container }
  | .flow => { body := .flow false {} none .none .none }

/-- `node.script_path = data.script_path`. -/
def setScript (type : NodeType) (n : Node F) : Node F :=
  match type, n.body with
  | .shell scriptPath, .shell fields script =>
    { n with body := .shell fields { script with scriptPath } }
  | _, _ => n

variable {upper : CodePoints → CodePoints} {isFinite : F → Bool}

/-- `add_repeat`, of a definition that may have a repeat. -/
def addRepeat (n : Node F) : Option RepeatDateDefinition → Except CodePoints (Node F)
  | none => .ok n
  | some r => do
    let r ← repeatDate r.name.1 r.startDate.1 r.endDate.1 r.step.1
    return { n with repeatDate := some r }

/-- `_construct`, besides the children. The node has no parent yet. -/
def construct (name : NodeName) (d : NodeDefinition upper isFinite) :
    Except CodePoints (Node F) := do
  let path := char '/' :: name.1
  let n := d.1.userParameters.foldl (fun n p => addParameter n p.name.1 p.value.1)
    (newNode d.1.type)
  let n := { n with
    defaultNodeStatus := d.1.defaultNodeStatus.status
    trigger := d.1.trigger.map fun t => { expressionStr := t.1 }
    completeTrigger := d.1.completeTrigger.map fun t => { expressionStr := t.1 } }
  let n ← d.1.events.foldlM (fun n e => addEvent n e.name.1 e.initialValue) n
  let n := d.1.meters.foldl (fun n m => addMeter n m.name.1 m.minValue m.maxValue) n
  let n ← d.1.limits.foldlM (fun n l => addLimit path n l.name.1 l.limit.1) n
  let n ← d.1.inLimits.foldlM
    (fun n i => addInLimit path n i.limitName.1 i.nodePath i.tokens.1) n
  let n ← addRepeat n d.1.repeatDate
  let n ← d.1.times.foldlM (fun n t => addTime n t.1) n
  return setScript d.1.type n

mutual
/-- `_construct`. -/
def constructTree : DefinitionTree upper isFinite → Except CodePoints (Tree F)
  | .node name d children => do
    let n ← construct name d
    let cs ← constructList children
    return .node name.1 n cs

/-- `_construct` of the children. -/
def constructList : List (DefinitionTree upper isFinite) → Except CodePoints (List (Tree F))
  | [] => .ok []
  | t :: ts => do
    let c ← constructTree t
    let cs ← constructList ts
    return c :: cs
end

/-- The generation of a flow or a task that has none. -/
def setGeneration (generation : CodePoints) (n : Node F) : Node F :=
  let mark (fields : TaskFields F) : TaskFields F :=
    { fields with definitionGeneration := fields.definitionGeneration.or (some generation) }
  match n.body with
  | .flow begun calendar old date time =>
    { n with body := .flow begun calendar (old.or (some generation)) date time }
  | .task fields => { n with body := .task (mark fields) }
  | .shell fields script => { n with body := .shell (mark fields) script }
  | _ => n

/-- `ensure_definition_generation` of a flow that is attached, with a new identifier. -/
def ensureDefinitionGeneration (generation : CodePoints) (t : Tree F) : Tree F :=
  t.mapWith (fun _ n => setGeneration generation n) []

/-- `constant.DEFAULT_HOST` and `constant.DEFAULT_PORT`. -/
def defaultConfig : ServerConfig := { host := "localhost", port := "33083" }

/-- `_construct` of the root. The flows of a bunch are attached one after the other. -/
def constructRoot (uuid : ℕ → CodePoints) :
    DefinitionRoot upper isFinite → Except CodePoints (Tree F)
  | .flow t _ => constructTree t
  | .bunch b => do
    let root : Node F := b.userParameters.foldl (fun n p => addParameter n p.name.1 p.value.1)
      { body := .bunch {} defaultConfig }
    let flows ← constructList b.flows
    return .node b.name.1 root (flows.mapIdx fun i t => ensureDefinitionGeneration (uuid i) t)

/-- `DefinitionError`. -/
structure DefinitionError where
  code : String
  documentPath : String := "$"

section Definition

variable (upper : CodePoints → CodePoints) (isFinite : F → Bool)
  -- what is said about a document that is refused
  (diagnose : Json F → DefinitionError)

/-- `parse_definition`. -/
def parseDefinition (v : Json F) : Except DefinitionError (DefinitionDocument upper isFinite) :=
  match readDocument upper isFinite v with
  | some d => .ok d
  | none => .error (diagnose v)

/-- `build_definition` without a callback. `check_types`, and `bind_expressions` with
`validate_references`, may refuse. -/
def buildDefinition (checkTypes : Json F → Option DefinitionError)
    (bind : Tree F → Option DefinitionError) (uuid : ℕ → CodePoints) (document : Json F) :
    Except DefinitionError (Tree F) := do
  if let some e := checkTypes document then throw e
  let d ← parseDefinition upper isFinite diagnose document
  let root ← (constructRoot uuid d.root).mapError fun _ => { code := "invalid_field" }
  if let some e := bind root then throw e
  return root

/-! ### Export -/

/-- `f"{number:08d}"`, of a date. -/
def dateText (n : ℤ) : CodePoints :=
  List.replicate (8 - (Json.intText n).length) (char '0') ++ Json.intText n

/-- The definition of a repeat. -/
def repeatFields (r : Repeat) : Json F :=
  .obj [("type_id", .str "takler.repeat.date"), ("name", .str r.name),
    ("start_date", .str (dateText r.start)), ("end_date", .str (dateText r.stop)),
    ("step", .int r.step)]

/-- The attributes of a node, up to the times. -/
def attributeFields (n : Node F) : List (CodePoints × Json F) :=
  [("trigger", optional (n.trigger.map Expression.expressionStr)),
    ("complete_trigger", optional (n.completeTrigger.map Expression.expressionStr)),
    ("events", .arr (n.events.map fun e =>
      .obj [("name", .str e.name), ("initial_value", .bool e.initialValue)])),
    ("meters", .arr (n.meters.map fun m => .obj [("name", .str m.name),
      ("min_value", .int m.minValue), ("max_value", .int m.maxValue)])),
    ("limits", .arr (n.limits.map fun l => .obj [("name", .str l.name), ("limit", .int l.limit)])),
    ("in_limits", .arr (n.inLimits.map fun i => .obj [("limit_name", .str i.limitName),
      ("node_path", optional i.nodePath), ("tokens", .int i.tokens)])),
    ("times", .arr (n.times.map fun t => .obj [("time", .str t.time)]))]

/-- The script of a node whose class is `ShellScriptTask` itself. -/
def scriptFields (n : Node F) : List (CodePoints × Json F) :=
  match n.body, n.extension with
  | .shell _ script, none => [("script_path", optional script.scriptPath)]
  | _, _ => []

/-- The declared parameters in a definition. -/
def parameterItems (n : Node F) : Json F :=
  .arr (n.userParameters.entries.map fun x => .obj [("name", .str x.1), ("value", x.2.json)])

/-- Whether a bunch has an attribute that its definition cannot have. -/
def hasRootAttribute (n : Node F) : Bool :=
  n.trigger.isSome || n.completeTrigger.isSome || !n.events.isEmpty || !n.meters.isEmpty ||
    !n.limits.isEmpty || !n.inLimits.isEmpty || n.repeatDate.isSome || !n.times.isEmpty ||
    n.defaultNodeStatus ≠ .queued

/-- The dictionary of a bunch. -/
def bunchFields (typeId name : CodePoints) (n : Node F) (flows : List (Json F)) :
    List (CodePoints × Json F) :=
  [("type_id", .str typeId), ("name", .str name), ("user_parameters", parameterItems n),
    ("flows", .arr flows)]

/-- The dictionary of a node below the bunch. -/
def nodeFields (typeId name : CodePoints) (n : Node F) (children : List (Json F)) :
    List (CodePoints × Json F) :=
  [(ofString "type_id", .str typeId), (ofString "name", .str name),
    (ofString "user_parameters", parameterItems n),
    (ofString "default_node_status", .str n.defaultNodeStatus.text),
    (ofString "children", .arr children)] ++ attributeFields n ++
    n.repeatDate.toList.map (fun r => (ofString "repeat", repeatFields r)) ++ scriptFields n

mutual
/-- `_project`. A bunch has flows, and no other children. -/
def project (path : String) : Tree F → Except DefinitionError (Json F)
  | .node name n cs => do
    let entry ← (builtinRegistry n.nodeClass).mapError fun code => { code }
    if entry.kind = .bunch then
      if hasRootAttribute n then
        throw { code := "unsupported_root_attribute", documentPath := path }
      let flows ← projectList (path ++ ".flows[") 0 cs
      return .obj (bunchFields entry.typeId name n flows)
    else
      if n.times.any fun t => !t.isMinute then
        throw { code := "invalid_field", documentPath := path ++ ".times" }
      let children ← projectList (path ++ ".children[") 0 cs
      return .obj (nodeFields entry.typeId name n children)

/-- `_project` of the children from an index on. -/
def projectList (path : String) (i : ℕ) : List (Tree F) → Except DefinitionError (List (Json F))
  | [] => .ok []
  | t :: ts => do
    let v ← project (path ++ toString i ++ "]") t
    let vs ← projectList path (i + 1) ts
    return v :: vs
end

/-- The document of a root. -/
def documentOf (root : Json F) : Json F :=
  .obj [("kind", .str "takler.definition"), ("schema_version", .int 1), ("root", root)]

/-- `export_definition`. -/
def exportDefinition (root : Tree F) :
    Except DefinitionError (DefinitionDocument upper isFinite) := do
  let entry ← (builtinRegistry root.value.nodeClass).mapError fun code => { code }
  if entry.kind ≠ .bunch ∧ entry.kind ≠ .flow then throw { code := "invalid_structure" }
  let v ← project "$.root" root
  parseDefinition upper isFinite diagnose (documentOf v)

end Definition

end Takler.Version.Definition
