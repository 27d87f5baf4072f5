import Takler.Core.Tree
import Takler.Lib.Account
import Takler.Lib.Program
import Mathlib

/-!
# The state of a running bunch

Everything that commands and the scheduler change: statuses, latches and values of the nodes, the
identity of the current attempt of each task, the limits, the flows' calendars, and the change
marks that a transaction leaves for the version store. Nodes are named by their paths.

What the program draws from outside (identifiers, passwords, clock readings and the outcome of a
job submission) comes from a stream in the state, `State.entropy`; nothing is assumed about it but
that identifiers and passwords are not empty. The file system is outside too. A bunch keeps an index
of the artifact paths that its tasks have recorded, and to forget a path it resolves the path again:
`State.moved` are the recorded paths for which this raises, because they resolve to another file than
when they were recorded, or to none (`Takler.Artifact`). Files move between the operations, not during
one.

Operations are programs over this state (`M`): they may raise, and what they wrote before stays.

## Main definitions

* `TaskState`, `NodeState`, `FlowState`, `State`.
* `State.IsMoved`: the tasks of which the index cannot forget a path.
* `M`, `modifyNode`, `modifyTask`, `notifyQueryChange`, `draw`.
-/

namespace Takler

/-- The field groups of a change mark. -/
inductive FieldGroup
  | summary
  | parameters
  | definition
  | runtime
  | artifacts
  | service
deriving DecidableEq

/-- A change mark (`QueryChange`); the path of the bunch itself is empty. -/
structure Mark where
  path : NodePath
  groups : List FieldGroup
  invalidate : Bool
deriving DecidableEq

/-- The reasons for which the service is halted. -/
inductive HaltCause
  | manual
  | recovery
  | checkpointFailure
deriving DecidableEq

/-- The paths of its files that an attempt has recorded. -/
structure ArtifactPaths where
  job : Option String := none
  jobout : Option String := none
  orvixInfo : Option String := none

/-- What is drawn from outside when a task runs. -/
structure Draw where
  /-- `uuid4`. -/
  attemptId : String
  /-- `token_urlsafe(32)`. -/
  password : String
  /-- The clock, as the text of an instant. -/
  timestamp : String
  /-- The artifact paths that a shell job records: all of them when its script was rendered, fewer when
  the index refused one. -/
  artifacts : ArtifactPaths
  /-- The message of the `JobSubmissionError` of a shell job, if there was one. -/
  submissionError : Option String
  /-- Whether a shell job goes to an external scheduler (`_uses_orvix`). -/
  external : Bool
  attemptId_ne : attemptId ≠ ""
  password_ne : password ≠ ""

/-- The run identity of a task. -/
structure TaskState where
  tryNo : ℕ := 0
  definitionGeneration : Option String := none
  attemptId : Option String := none
  taskId : Option String := none
  abortedReason : Option String := none
  submissionUnknownReason : Option String := none
  jobPassword : Option String := none
  submittedAt : Option String := none
  startedAt : Option String := none
  endedAt : Option String := none
  jobPath : Option String := none
  joboutPath : Option String := none
  orvixInfoPath : Option String := none
  /-- The token of the last shell submission. -/
  submissionToken : Option ℕ := none
deriving DecidableEq

/-- The state of one node. Events, meters and times are named as in the definition, where their
names are distinct. -/
structure NodeState where
  status : NodeStatus := .unknown
  suspended : Bool := false
  isCompleteTriggered : Bool := false
  triggerFree : Bool := false
  completeTriggerFree : Bool := false
  eventValue : String → Bool
  meterValue : String → ℤ
  timeFree : TimeDef → Bool := fun _ => false
  repeatValue : ℕ := 0
  task : TaskState := {}

/-- The initial value of an event. -/
def NodeDef.eventInitial (d : NodeDef) (name : String) : Bool :=
  ((d.events.find? fun e => e.name = name).map EventDef.initialValue).getD false

/-- The initial value of a meter. -/
def NodeDef.meterInitial (d : NodeDef) (name : String) : ℤ :=
  ((d.meters.find? fun m => m.name = name).map MeterDef.minValue).getD 0

/-- The first value of the repeat. -/
def NodeDef.repeatInitial (d : NodeDef) : ℕ := (d.repeatDate.map RepeatDate.startDate).getD 0

/-- A node as it is constructed. -/
def NodeState.initial (d : NodeDef) : NodeState where
  eventValue := d.eventInitial
  meterValue := d.meterInitial
  repeatValue := d.repeatInitial

/-- `Calendar`, instants and durations in microseconds. -/
structure Calendar where
  initialTime : Option ℤ := none
  flowTime : Option ℤ := none
  duration : Option ℤ := none
  increment : Option ℤ := none
  initialRealTime : Option ℤ := none
  lastRealTime : Option ℤ := none
deriving DecidableEq

/-- What only flows have. -/
structure FlowState where
  begun : Bool := false
  definitionGeneration : Option String := none
  calendar : Calendar := {}
deriving DecidableEq

/-- What the callbacks of a shell submission remember. -/
structure Submission where
  path : NodePath
  token : ℕ
  attemptId : Option String
  generation : Option String
  external : Bool
deriving DecidableEq

/-- The state of a bunch. -/
structure State where
  node : NodePath → NodeState
  /-- The values of user and generated parameters, which expressions may read. -/
  parameterValue : NodePath → String → Value
  inLimits : NodePath → List InLimit
  limit : LimitId → Account NodePath
  flow : String → FlowState
  haltCauses : List HaltCause
  serviceStopping : Bool
  marks : List Mark
  /-- The submissions whose callbacks may still come. -/
  submissions : List Submission
  entropy : ℕ → Draw
  drawn : ℕ
  /-- The recorded paths of a task that the index cannot forget. -/
  moved : NodePath → String → Bool

/-- What is drawn comes from the one stream, and what was drawn stays drawn. -/
structure State.Draws (s s' : State) : Prop where
  entropy : s'.entropy = s.entropy
  drawn : s.drawn ≤ s'.drawn

theorem State.Draws.refl (s : State) : s.Draws s := ⟨rfl, le_rfl⟩

theorem State.Draws.trans {s s' s'' : State} (h : s.Draws s') (h' : s'.Draws s'') : s.Draws s'' :=
  ⟨h'.entropy.trans h.entropy, h.drawn.trans h'.drawn⟩

/-- The paths that a task has recorded. -/
def TaskState.paths (k : TaskState) : List String :=
  [k.jobPath, k.joboutPath, k.orvixInfoPath].reduceOption

/-- The index cannot forget some path of a task. -/
def State.IsMoved (s : State) (p : NodePath) : Prop :=
  ∃ x ∈ (s.node p).task.paths, s.moved p x = true

/-- What the index could forget it can still forget. -/
structure State.IndexKept (s s' : State) : Prop where
  moved : ∀ p x, s'.moved p x = true → s.moved p x = true
  isMoved : ∀ p, s'.IsMoved p → s.IsMoved p

theorem State.IndexKept.refl (s : State) : s.IndexKept s := ⟨fun _ _ h => h, fun _ h => h⟩

theorem State.IndexKept.trans {s s' s'' : State} (h : s.IndexKept s') (h' : s'.IndexKept s'') :
    s.IndexKept s'' :=
  ⟨fun p x hm => h.moved p x (h'.moved p x hm), fun p hm => h.isMoved p (h'.isMoved p hm)⟩

theorem State.IndexKept.of_eq {s s' : State} (hn : s'.node = s.node) (hm : s'.moved = s.moved) :
    s.IndexKept s' :=
  ⟨fun _ _ h => hm ▸ h, fun p h => by rwa [State.IsMoved, hn, hm] at h⟩

/-- A node that records no path. -/
theorem State.IndexKept.update {s s' : State} {p : NodePath} {n : NodeState}
    (hn : s'.node = Function.update s.node p n) (hm : s'.moved = s.moved)
    (hx : n.task.paths ⊆ (s.node p).task.paths) : s.IndexKept s' := by
  refine ⟨fun _ _ h => hm ▸ h, ?_⟩
  rintro q ⟨x, hq, hqm⟩
  refine ⟨x, ?_, hm ▸ hqm⟩
  rw [hn] at hq
  by_cases hqp : q = p
  · subst hqp
    exact hx (by simpa using hq)
  · simpa [hqp] using hq

/-- Operations on the state. -/
abbrev M := Program State Err

/-- Change the state of one node. -/
def modifyNode (p : NodePath) (f : NodeState → NodeState) : M Unit :=
  modify fun s => { s with node := Function.update s.node p (f (s.node p)) }

/-- Change the run identity of one task. -/
def modifyTask (p : NodePath) (f : TaskState → TaskState) : M Unit :=
  modifyNode p fun n => { n with task := f n.task }

/-- Change one limit. -/
def modifyLimit (id : LimitId) (f : Account NodePath → Account NodePath) : M Unit :=
  modify fun s => { s with limit := Function.update s.limit id (f (s.limit id)) }

/-- Change what a flow has beyond a node. -/
def modifyFlow (name : String) (f : FlowState → FlowState) : M Unit :=
  modify fun s => { s with flow := Function.update s.flow name (f (s.flow name)) }

/-- `Node.notify_query_change` of a node of the bunch. -/
def notifyQueryChange (p : NodePath) (groups : List FieldGroup) (invalidate : Bool := false) :
    M Unit :=
  modify fun s => { s with marks := s.marks ++ [⟨p, groups, invalidate⟩] }

/-- Take the next item of what is drawn from outside. -/
def draw : M Draw := do
  let s ← get
  set { s with drawn := s.drawn + 1 }
  return s.entropy s.drawn

/-- The name of the flow of a path. -/
def flowName (p : NodePath) : String := p.getLast?.getD ""

end Takler
