import Takler.Core.Basic
import Takler.Lib.Json
import Takler.Lib.KeyedTree
import Takler.Lib.OrderedDict

/-!
# The objects that are shown and saved

The nodes of a bunch with their attributes. A bunch is a tree whose root is the bunch and whose
first level are the flows; the name of a node is its key. The classes of nodes are the built-in
ones, or extensions of them.

## Main definitions

* `Value`, `Node`, `Tree`, `Entry`.
* `Node.findParameter`, `findParentParameter`: `find_parameter`, `find_parent_parameter`.
-/

open CodePoints (ofString)

namespace Takler.Version

/-! ### Attributes -/

/-- The value of a parameter. -/
inductive Value (F : Type)
  | none
  | bool (b : Bool)
  | int (n : ℤ)
  | float (x : F)
  | str (t : CodePoints)
  | path (t : CodePoints)

variable {F : Type}

namespace Value

/-- The value in a JSON document, where paths are strings. -/
def json : Value F → Json F
  | none => .null
  | bool b => .bool b
  | int n => .int n
  | float x => .float x
  | str t => .str t
  | path t => .str t

end Value

/-- `RepeatDate`: its dates as numbers and as they are written. -/
structure Repeat where
  name : CodePoints
  value : ℤ
  start : ℤ
  stop : ℤ
  startDate : CodePoints
  endDate : CodePoints
  step : ℤ

structure Expression where
  expressionStr : CodePoints
  free : Bool := false

structure Event where
  name : CodePoints
  initialValue : Bool := false
  value : Bool := false

structure Meter where
  name : CodePoints
  minValue : ℤ
  maxValue : ℤ
  value : ℤ

/-- `Limit`; the paths of the holders are sorted. -/
structure Limit where
  name : CodePoints
  limit : ℤ
  value : ℤ := 0
  nodePaths : List CodePoints := []

structure InLimit where
  limitName : CodePoints
  nodePath : Option CodePoints := none
  tokens : ℤ := 1

/-- `TimeAttribute`: the time of day as `%H:%M`, and whether there is nothing else to it. -/
structure TimeAttribute where
  time : CodePoints
  isMinute : Bool := true
  free : Bool := false

/-- A date and time: in ISO format, as `%Y-%m-%d`, and as `%H:%M`. -/
structure Moment where
  iso : CodePoints
  date : CodePoints
  time : CodePoints

/-- `Calendar`; durations are in seconds. -/
structure Calendar (F : Type) where
  initialTime : Option Moment := none
  flowTime : Option Moment := none
  duration : Option F := none
  increment : Option F := none
  initialRealTime : Option Moment := none
  lastRealTime : Option Moment := none

inductive ServerStatus
  | running
  | halted
deriving DecidableEq

inductive HaltCause
  | manual
  | recovery
  | checkpointFailure
deriving DecidableEq

structure ServerState where
  status : ServerStatus := .running
  statusReason : Option CodePoints := none
  haltCauses : List HaltCause := []

structure ServerConfig where
  host : CodePoints
  port : CodePoints

/-- `TaskNodeGeneratedParameters`. -/
structure TaskParameters (F : Type) where
  task : Value F := .none
  taklerName : Value F := .none
  taklerRid : Value F := .none
  taklerAttemptId : Value F := .none
  taklerTryNo : Value F := .none
  taklerPass : Value F := .none

/-- What a task has. -/
structure TaskFields (F : Type) where
  taskId : Option CodePoints := none
  tryNo : ℕ := 0
  attemptId : Option CodePoints := none
  definitionGeneration : Option CodePoints := none
  submittedAt : Option CodePoints := none
  startedAt : Option CodePoints := none
  endedAt : Option CodePoints := none
  abortedReason : Option CodePoints := none
  submissionUnknownReason : Option CodePoints := none
  jobPath : Option CodePoints := none
  joboutPath : Option CodePoints := none
  orvixInfoPath : Option CodePoints := none
  jobPassword : Option CodePoints := none
  generated : TaskParameters F := {}

/-- What a `ShellScriptTask` has, with its generated parameters. -/
structure ShellFields (F : Type) where
  scriptPath : Option CodePoints := none
  taklerScript : Value F := .none
  taklerJob : Value F := .none
  taklerJobout : Value F := .none

/-- What depends on the built-in class of a node. -/
inductive Body (F : Type)
  | bunch (state : ServerState) (config : ServerConfig)
  | flow (begun : Bool) (calendar : Calendar F) (definitionGeneration : Option CodePoints)
      (date time : Value F)
  | container
  | task (fields : TaskFields F)
  | shell (fields : TaskFields F) (script : ShellFields F)

/-- A node without its name and children. -/
structure Node (F : Type) where
  /-- The name of its class, when it is none of the built-in ones. -/
  extension : Option CodePoints := none
  status : NodeStatus := .unknown
  suspended : Bool := false
  defaultNodeStatus : NodeStatus := .queued
  userParameters : OrderedDict CodePoints (Value F) := .empty
  repeatDate : Option Repeat := none
  trigger : Option Expression := none
  completeTrigger : Option Expression := none
  isCompleteTriggered : Bool := false
  events : List Event := []
  meters : List Meter := []
  limits : List Limit := []
  inLimits : List InLimit := []
  times : List TimeAttribute := []
  body : Body F

/-- A bunch with its flows, or a part of it. -/
abbrev Tree (F : Type) := KeyedTree CodePoints (Node F)

/-! ### Classes -/

/-- The kinds of the registry. -/
inductive Kind
  | bunch
  | flow
  | container
  | task
deriving DecidableEq

def Kind.text : Kind → String
  | bunch => "bunch"
  | flow => "flow"
  | container => "container"
  | task => "task"

/-- The class of a node. -/
inductive NodeClass
  | bunch
  | flow
  | nodeContainer
  | task
  | shellScriptTask
  | extension (name : CodePoints)
deriving DecidableEq

namespace Body

def nodeClass : Body F → NodeClass
  | bunch .. => .bunch
  | flow .. => .flow
  | container => .nodeContainer
  | task .. => .task
  | shell .. => .shellScriptTask

/-- The fields of a shell script task. -/
def shell? : Body F → Option (ShellFields F)
  | shell _ script => some script
  | _ => none

end Body

/-- `type(node)`. -/
def Node.nodeClass (n : Node F) : NodeClass := n.extension.elim n.body.nodeClass .extension

/-- `NodeRegistration`, of a class without codecs of its own. -/
structure Entry where
  typeId : CodePoints
  kind : Kind

/-- `TypeRegistry.by_type` of the built-in classes, with the code of its error. -/
def builtinRegistry : NodeClass → Except String Entry
  | .bunch => .ok { typeId := "takler.bunch", kind := .bunch }
  | .flow => .ok { typeId := "takler.flow", kind := .flow }
  | .nodeContainer => .ok { typeId := "takler.container", kind := .container }
  | .task => .ok { typeId := "takler.task", kind := .task }
  | .shellScriptTask => .ok { typeId := "takler.shell", kind := .task }
  | .extension _ => .error "unregistered_type"

/-! ### Parameters -/

/-- Several entries, one after the other. -/
def update {α : Type} (d : OrderedDict CodePoints α) (entries : List (CodePoints × α)) :
    OrderedDict CodePoints α :=
  entries.foldl (fun d x => d.set x.1 x.2) d

def ServerConfig.generatedParameters (c : ServerConfig) : OrderedDict CodePoints (Value F) :=
  update .empty [("TAKLER_HOST", .str c.host), ("TAKLER_PORT", .str c.port),
    ("TAKLER_HOME", .str ".")]

/-- `TaskNodeGeneratedParameters.generated_parameters`. -/
def TaskParameters.entries (g : TaskParameters F) : List (CodePoints × Value F) :=
  [("TASK", g.task), ("TAKLER_NAME", g.taklerName), ("TAKLER_RID", g.taklerRid),
    ("TAKLER_ATTEMPT_ID", g.taklerAttemptId), ("TAKLER_TRY_NO", g.taklerTryNo),
    ("TAKLER_PASS", g.taklerPass)]

/-- `ShellScriptTaskGeneratedParameters.generate_variables`. -/
def ShellFields.entries (s : ShellFields F) : List (CodePoints × Value F) :=
  [("TAKLER_SCRIPT", s.taklerScript), ("TAKLER_JOB", s.taklerJob),
    ("TAKLER_JOBOUT", s.taklerJobout)]

def lookup (entries : List (CodePoints × Value F)) (name : CodePoints) : Option (Value F) :=
  (entries.find? fun x => x.1 = name).map Prod.snd

namespace Node

/-- `Repeat.generated_parameters`. -/
def repeatParameters (n : Node F) : List (CodePoints × Value F) :=
  n.repeatDate.toList.map fun r => (r.name, .int r.value)

/-- `find_generated_parameter`: what the class of the node knows first, then the others. -/
def findGeneratedParameter (n : Node F) (name : CodePoints) : Option (Value F) :=
  match n.body with
  | .bunch _ config => config.generatedParameters.get? name
  | .flow _ _ _ date time =>
    lookup ((ofString "DATE", date) :: (ofString "TIME", time) :: n.repeatParameters) name
  | .container => lookup n.repeatParameters name
  | .task fields => lookup (fields.generated.entries ++ n.repeatParameters) name
  | .shell fields script =>
    lookup (script.entries ++ fields.generated.entries ++ n.repeatParameters) name

/-- `find_parameter`. The paths of a job are never looked up in the user parameters. -/
def findParameter (n : Node F) (name : CodePoints) : Option (Value F) :=
  if n.body.shell?.isSome ∧ name ∈ [ofString "TAKLER_JOB", ofString "TAKLER_JOBOUT"] then
    n.findGeneratedParameter name
  else (n.userParameters.get? name).or (n.findGeneratedParameter name)

end Node

/-- `find_parent_parameter`, from a node upwards. -/
def findParentParameter (name : CodePoints) (up : List (Node F)) : Option (Value F) :=
  up.findSome? fun n => n.findParameter name

/-- A node of a tree with its name and its ancestors, nearest first. -/
structure Located (F : Type) where
  name : CodePoints
  node : Node F
  up : List (Node F)

/-- The node at an address, which is given from the root on. -/
def locateFrom (up : List (Node F)) : List CodePoints → Tree F → Option (Located F)
  | [], t => some ⟨t.key, t.value, up⟩
  | k :: rest, t => (t.child? k).bind (locateFrom (t.value :: up) rest)

/-- `find_query_node`, by the address of a node. -/
def locate (b : Tree F) (address : List CodePoints) : Option (Located F) :=
  locateFrom [] address.reverse b

end Takler.Version
