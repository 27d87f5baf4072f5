import Takler.Core.PathLookup
import Takler.Lib.Calendar
import Takler.Lib.JsonRead
import Takler.Version.Objects

/-!
# Documents of definitions

The models of `schema/definition.py`: what a definition may contain, and how it is read from the
dictionaries of a JSON document. The validators of a model are fields of its structure or conditions
of a subtype, so that what was read is valid. A member that is left out gets its default; a member
that the model does not have is refused.

A tree of nodes is read by recursion over the document. What pydantic says about a document that is
refused is not modelled: reading gives nothing.

## Main definitions

* `ParameterDefinition`, `EventDefinition`, …, `NodeDefinition`: the models.
* `DefinitionTree`: a node with the nodes below it.
* `DefinitionDocument`, `readDocument`: `parse_definition`.
-/

open CodePoints (ofString char)

namespace Takler.Version.Definition

open Json (member members orDefault listOf optionOf)

variable {F : Type}

/-! ### Texts and numbers -/

/-- `Name`. -/
abbrev Name := {t : CodePoints // t ≠ []}

def readName : Json F → Option Name
  | .str t => if h : t ≠ [] then some ⟨t, h⟩ else none
  | _ => none

@[simp] theorem readName_str (n : Name) : readName (.str n.1 : Json F) = some n := dif_pos n.2

/-- The name of a node. -/
abbrev NodeName := {t : CodePoints // Paths.ValidName t}

def readNodeName : Json F → Option NodeName
  | .str t => if h : Paths.ValidName t then some ⟨t, h⟩ else none
  | _ => none

@[simp] theorem readNodeName_str (n : NodeName) : readNodeName (.str n.1 : Json F) = some n :=
  dif_pos n.2

/-- A number with a lower bound. -/
abbrev IntFrom (low : ℤ) := {n : ℤ // low ≤ n}

def readIntFrom (low : ℤ) : Json F → Option (IntFrom low)
  | .int n => if h : low ≤ n then some ⟨n, h⟩ else none
  | _ => none

@[simp] theorem readIntFrom_int {low : ℤ} (n : IntFrom low) :
    readIntFrom low (.int n.1 : Json F) = some n := dif_pos n.2

/-- Whether a text has eight digits and is a date: the year has four of them. -/
def isDate (t : CodePoints) : Bool :=
  t.length = 8 && t.all Json.isDigit &&
    (Gregorian.Date.ofFields? (Json.readNat t / 10000) (Json.readNat t / 100 % 100)
      (Json.readNat t % 100)).isSome

/-- The text of a date. -/
abbrev DateDigits := {t : CodePoints // isDate t = true}

def readDate : Json F → Option DateDigits
  | .str t => if h : isDate t = true then some ⟨t, h⟩ else none
  | _ => none

@[simp] theorem readDate_str (t : DateDigits) : readDate (.str t.1 : Json F) = some t := dif_pos t.2

/-- `^(?:[01][0-9]|2[0-3]):[0-5][0-9]$`. -/
def isMinute : CodePoints → Bool
  | [a, b, c, d, e] => Json.isDigit a && Json.isDigit b && c = char ':' && Json.isDigit d &&
      Json.isDigit e && (10 * (a.val - 48) + (b.val - 48) < 24 && d.val < 54)
  | _ => false

/-- `TimeDefinition`: a time of day. -/
abbrev TimeDefinition := {t : CodePoints // isMinute t = true}

/-! ### Attributes -/

/-- A value that a parameter may have in a definition. -/
def isDefinable (isFinite : F → Bool) : Value F → Bool
  | .path _ => false
  | .float x => isFinite x
  | _ => true

/-- The names of parameters that belong to the server. -/
def reservedNames : List CodePoints :=
  ["TAKLER_PASS", "TAKLER_ATTEMPT_ID", "TAKLER_SECRET", "TAKLER_HOST", "TAKLER_PORT"].map ofString

section Models

-- `str.upper` and `math.isfinite`
variable (upper : CodePoints → CodePoints) (isFinite : F → Bool)

structure ParameterDefinition where
  name : Name
  value : {v : Value F // isDefinable isFinite v = true}
  allowed_name : upper name.1 ∉ reservedNames

structure EventDefinition where
  name : Name
  initialValue : Bool := false

structure MeterDefinition where
  name : Name
  minValue : ℤ
  maxValue : ℤ
  bounds : minValue ≤ maxValue

structure LimitDefinition where
  name : Name
  limit : IntFrom 0

structure InLimitDefinition where
  limitName : Name
  nodePath : Option CodePoints := none
  tokens : IntFrom 1 := ⟨1, le_refl 1⟩

structure RepeatDateDefinition where
  name : Name
  startDate : DateDigits
  endDate : DateDigits
  step : IntFrom 1 := ⟨1, le_refl 1⟩
  dates : ¬ endDate.1 < startDate.1

/-- The values of `default_node_status`. -/
inductive DefaultStatus
  | queued
  | complete
deriving DecidableEq

def DefaultStatus.status : DefaultStatus → NodeStatus
  | queued => .queued
  | complete => .complete

/-- The types of nodes below a bunch. A shell script task has a script. -/
inductive NodeType
  | task
  | shell (scriptPath : Option CodePoints)
  | container
  | flow
deriving DecidableEq

def NodeType.typeId : NodeType → String
  | task => "takler.task"
  | shell _ => "takler.shell"
  | container => "takler.container"
  | flow => "takler.flow"

/-- The fields of `NodeDefinition`, besides the name and the children. -/
structure NodeFields where
  type : NodeType
  userParameters : List (ParameterDefinition upper isFinite) := []
  defaultNodeStatus : DefaultStatus := .queued
  trigger : Option Name := none
  completeTrigger : Option Name := none
  events : List EventDefinition := []
  meters : List MeterDefinition := []
  limits : List LimitDefinition := []
  inLimits : List InLimitDefinition := []
  repeatDate : Option RepeatDateDefinition := none
  times : List TimeDefinition := []

variable {upper isFinite}

/-- The keys that have to differ in each list of attributes. -/
def NodeFields.Unique (d : NodeFields upper isFinite) : Prop :=
  (d.userParameters.map ParameterDefinition.name).Nodup ∧
    (d.events.map EventDefinition.name).Nodup ∧ (d.meters.map MeterDefinition.name).Nodup ∧
    (d.limits.map LimitDefinition.name).Nodup ∧
    (d.inLimits.map fun i => (i.nodePath, i.limitName)).Nodup ∧ d.times.Nodup

instance (d : NodeFields upper isFinite) : Decidable d.Unique := inferInstanceAs (Decidable (_ ∧ _))

variable (upper isFinite)

/-- `NodeDefinition`. -/
abbrev NodeDefinition := {d : NodeFields upper isFinite // d.Unique}

/-- A node with the nodes below it. -/
abbrev DefinitionTree := KeyedTree NodeName (NodeDefinition upper isFinite)

variable {upper isFinite}

/-- `leaf` and `siblings`, and the types of children. -/
def acceptsChildren (type : NodeType) (children : List (DefinitionTree upper isFinite)) : Bool :=
  (children.all fun c => c.value.1.type ≠ .flow) &&
    match type with
    | .task => children.isEmpty
    | .shell _ => children.isEmpty
    | .container => (children.map KeyedTree.key).Nodup
    | .flow => (children.map KeyedTree.key).Nodup

variable (upper isFinite)

/-! ### Reading -/

def readValue : Json F → Option (Value F)
  | .null => some .none
  | .bool b => some (.bool b)
  | .int n => some (.int n)
  | .float x => some (.float x)
  | .str t => some (.str t)
  | _ => none

def readParameter (v : Json F) : Option (ParameterDefinition upper isFinite) := do
  let fs ← members ["name", "value"] v
  let name ← (member fs "name").bind readName
  let value ← (member fs "value").bind readValue
  if h : isDefinable isFinite value = true ∧ upper name.1 ∉ reservedNames then
    some ⟨name, ⟨value, h.1⟩, h.2⟩
  else none

variable {upper isFinite}

def readEvent (v : Json F) : Option EventDefinition := do
  let fs ← members ["name", "initial_value"] v
  let name ← (member fs "name").bind readName
  let initialValue ← orDefault false Json.bool? (member fs "initial_value")
  return ⟨name, initialValue⟩

def readMeter (v : Json F) : Option MeterDefinition := do
  let fs ← members ["name", "min_value", "max_value"] v
  let name ← (member fs "name").bind readName
  let minValue ← (member fs "min_value").bind Json.int?
  let maxValue ← (member fs "max_value").bind Json.int?
  if h : minValue ≤ maxValue then some ⟨name, minValue, maxValue, h⟩ else none

def readLimit (v : Json F) : Option LimitDefinition := do
  let fs ← members ["name", "limit"] v
  let name ← (member fs "name").bind readName
  let limit ← (member fs "limit").bind (readIntFrom 0)
  return ⟨name, limit⟩

def readInLimit (v : Json F) : Option InLimitDefinition := do
  let fs ← members ["limit_name", "node_path", "tokens"] v
  let limitName ← (member fs "limit_name").bind readName
  let nodePath ← orDefault none (optionOf Json.text?) (member fs "node_path")
  let tokens ← orDefault ⟨1, le_refl 1⟩ (readIntFrom 1) (member fs "tokens")
  return ⟨limitName, nodePath, tokens⟩

def readRepeat (v : Json F) : Option RepeatDateDefinition := do
  let fs ← members ["type_id", "name", "start_date", "end_date", "step"] v
  let typeId ← (member fs "type_id").bind Json.text?
  let name ← (member fs "name").bind readName
  let startDate ← (member fs "start_date").bind readDate
  let endDate ← (member fs "end_date").bind readDate
  let step ← orDefault ⟨1, le_refl 1⟩ (readIntFrom 1) (member fs "step")
  if h : typeId = ofString "takler.repeat.date" ∧ ¬ endDate.1 < startDate.1 then
    some ⟨name, startDate, endDate, step, h.2⟩
  else none

def readTime (v : Json F) : Option TimeDefinition := do
  let fs ← members ["time"] v
  let time ← (member fs "time").bind Json.text?
  if h : isMinute time = true then some ⟨time, h⟩ else none

def readDefaultStatus (v : Json F) : Option DefaultStatus :=
  v.text?.bind fun t =>
    if t = ofString "queued" then some .queued
    else if t = ofString "complete" then some .complete
    else none

/-- `dict[str, object]` without members. -/
def readTypeData : Json F → Option Unit
  | .obj [] => some ()
  | _ => none

def readType (fs : List (CodePoints × Json F)) : Option NodeType := do
  let typeId ← (member fs "type_id").bind Json.text?
  if typeId = ofString "takler.task" then some .task
  else if typeId = ofString "takler.shell" then do
    let scriptPath ← orDefault none (optionOf Json.text?) (member fs "script_path")
    some (.shell scriptPath)
  else if typeId = ofString "takler.container" then some .container
  else if typeId = ofString "takler.flow" then some .flow
  else none

/-- The members of a node of a type. -/
def nodeMembers (type : NodeType) : List String :=
  ["type_id", "name", "user_parameters", "default_node_status", "trigger", "complete_trigger",
    "events", "meters", "limits", "in_limits", "repeat", "times", "type_data", "children"] ++
    match type with
    | .shell _ => ["script_path"]
    | _ => []

variable (upper isFinite)

/-- A node, besides its children. -/
def readNode (fs : List (CodePoints × Json F)) :
    Option (NodeName × NodeDefinition upper isFinite) := do
  let type ← readType fs
  let fs ← members (nodeMembers type) (.obj fs)
  let name ← (member fs "name").bind readNodeName
  let userParameters ← orDefault [] (listOf (readParameter upper isFinite))
    (member fs "user_parameters")
  let defaultNodeStatus ← orDefault .queued readDefaultStatus (member fs "default_node_status")
  let trigger ← orDefault none (optionOf readName) (member fs "trigger")
  let completeTrigger ← orDefault none (optionOf readName) (member fs "complete_trigger")
  let events ← orDefault [] (listOf readEvent) (member fs "events")
  let meters ← orDefault [] (listOf readMeter) (member fs "meters")
  let limits ← orDefault [] (listOf readLimit) (member fs "limits")
  let inLimits ← orDefault [] (listOf readInLimit) (member fs "in_limits")
  let repeatDate ← orDefault none (optionOf readRepeat) (member fs "repeat")
  let times ← orDefault [] (listOf readTime) (member fs "times")
  let _ ← orDefault () readTypeData (member fs "type_data")
  let d : NodeFields upper isFinite := {
    type, userParameters, defaultNodeStatus, trigger, completeTrigger, events, meters, limits,
    inLimits, repeatDate, times }
  if h : d.Unique then some (name, ⟨d, h⟩) else none

/-- What a value is as a node, and as a list of nodes. -/
structure Reading where
  tree : Option (DefinitionTree upper isFinite) := none
  trees : Option (List (DefinitionTree upper isFinite)) := none

/-- A node with its children, given what they are. -/
def readTreeFields (fs : List (CodePoints × Json F × Reading upper isFinite)) :
    Option (DefinitionTree upper isFinite) := do
  let (name, d) ← readNode upper isFinite (fs.map fun x => (x.1, x.2.1))
  let children ← orDefault [] Reading.trees (member (fs.map fun x => (x.1, x.2.2)) "children")
  if acceptsChildren d.1.type children then some (.node name d children) else none

/-- Read a value and its parts. -/
def reading : Json F → Reading upper isFinite :=
  Json.para (fun _ => {}) (fun items => { trees := items.mapM fun x => x.2.tree })
    (fun fs => { tree := readTreeFields upper isFinite fs })

/-- A node with the nodes below it. -/
def readTree (v : Json F) : Option (DefinitionTree upper isFinite) := (reading upper isFinite v).tree

/-- The name of a bunch, which may be empty. -/
abbrev BunchName := {t : CodePoints // t = [] ∨ Paths.ValidName t}

structure BunchDefinition where
  name : BunchName
  userParameters : List (ParameterDefinition upper isFinite) := []
  flows : List (DefinitionTree upper isFinite) := []
  unique_parameters : (userParameters.map ParameterDefinition.name).Nodup
  unique_flows : (flows.map KeyedTree.key).Nodup
  types : ∀ t ∈ flows, t.value.1.type = .flow

/-- The root of a definition. -/
inductive DefinitionRoot
  | bunch (b : BunchDefinition upper isFinite)
  | flow (t : DefinitionTree upper isFinite) (type : t.value.1.type = .flow)

/-- `DefinitionDocument`; the kind and the version are fixed. -/
structure DefinitionDocument where
  root : DefinitionRoot upper isFinite

def readBunchName : Json F → Option BunchName
  | .str t => if h : t = [] ∨ Paths.ValidName t then some ⟨t, h⟩ else none
  | _ => none

def readBunch (v : Json F) : Option (BunchDefinition upper isFinite) := do
  let fs ← members ["type_id", "name", "user_parameters", "flows"] v
  let name ← (member fs "name").bind readBunchName
  let userParameters ← orDefault [] (listOf (readParameter upper isFinite))
    (member fs "user_parameters")
  let flows ← orDefault [] (listOf (readTree upper isFinite)) (member fs "flows")
  if h : (userParameters.map ParameterDefinition.name).Nodup ∧ (flows.map KeyedTree.key).Nodup ∧
      ∀ t ∈ flows, t.value.1.type = .flow then
    some ⟨name, userParameters, flows, h.1, h.2.1, h.2.2⟩
  else none

def readRoot (v : Json F) : Option (DefinitionRoot upper isFinite) := do
  let typeId ← (v.get? (ofString "type_id")).bind Json.text?
  if typeId = ofString "takler.bunch" then (readBunch upper isFinite v).map .bunch
  else do
    let t ← readTree upper isFinite v
    if h : t.value.1.type = .flow then some (.flow t h) else none

/-- `DefinitionDocument.model_validate`. -/
def readDocument (v : Json F) : Option (DefinitionDocument upper isFinite) := do
  let fs ← members ["kind", "schema_version", "root"] v
  let kind ← (member fs "kind").bind Json.text?
  let version ← (member fs "schema_version").bind Json.int?
  let root ← (member fs "root").bind (readRoot upper isFinite)
  if kind = ofString "takler.definition" ∧ version = 1 then some ⟨root⟩ else none

end Models

end Takler.Version.Definition
