import Takler.Core.Task
import Takler.Lib.LinkedForest
import Takler.Lib.StepSystem

/-!
# Nodes as linked objects

The trees of the other modules are values: a child has one parent because it stands at one
place. In the program nodes are mutable objects (`core/node.py`, `core/node_container.py`,
`core/flow.py`): `append_child`, `update_child`, `delete_child` and `delete_children` write the
child list of one object and the parent pointer of another, and several caches hang on these
edits. This module is the object-level model: a heap of numbered nodes, the edits, and the three
caches the edits look after.

* A container counts the statuses of its children (`_status_counts`), lowered and raised by
  `set_node_status_only` of a child.
* A flow lists its nodes with time attributes (`_calendar_nodes`), for `update_calendar`.
* A task carries the `definition_generation` of its flow.

Recursions over the tree take a number of levels; `LinkedForest.WellLinked` says when the number
of objects is enough.

## Main definitions

* `Obj`, `Heap`, `Heap.forest`, `Heap.getFlow`.
* `Heap.appendChild`, `Heap.updateChild`, `Heap.deleteChild`, `Heap.deleteChildren`,
  `Heap.addFlow`, `Heap.addTimeAttribute`: the edits.
* `setNodeStatusOnly`, `computedStatus`, `swimStatusChange`, `requeue` and the other status
  operations.
* `updateCalendar`, and `fullUpdateCalendar` with the traversal that its cache replaces.
* `Action`, `objects`: the system of all these operations; `Action.AttachesDetached`: the edits
  that attach nodes which hang nowhere.
-/

namespace Takler.Linked

open Program

/-- The number of an object. -/
abbrev Ref := ℕ

/-- The built-in classes of nodes. -/
inductive Kind
  | node
  | task
  | container
  | flow
  | bunch
deriving DecidableEq

/-- Instances of `NodeContainer`. -/
def Kind.isContainer : Kind → Bool
  | container | flow | bunch => true
  | node | task => false

/-- `TimeAttribute`. -/
structure TimeAttribute where
  hour : ℕ
  minute : ℕ
  free : Bool := false
deriving DecidableEq

/-- A repeat over numbers. -/
structure Repeat where
  start : ℤ
  stop : ℤ
  step : ℤ
  value : ℤ
deriving DecidableEq

/-- `increment`: the next value, unless it is past the end. -/
def Repeat.increment (r : Repeat) : Option Repeat :=
  if r.value + r.step > r.stop then none else some { r with value := r.value + r.step }

/-- The text of a uuid. -/
abbrev Uuid := { text : String // text ≠ "" }

/-- A node object: the links, the status, and what the caches are about. -/
structure Obj where
  name : String := ""
  kind : Kind := .node
  parent : Option Ref := none
  children : List Ref := []
  status : NodeStatus := .unknown
  defaultNodeStatus : NodeStatus := .queued
  /-- `_status_counts` of a container. -/
  statusCounts : Option (NodeStatus → ℤ) := none
  /-- `_status_child_count` of a container. -/
  statusChildCount : ℕ := 0
  nodeRepeat : Option Repeat := none
  submissionUnknownReason : Option String := none
  times : List TimeAttribute := []
  /-- The calendar of a flow. -/
  calendar : Calendar := {}
  /-- `_calendar_nodes` of a flow. -/
  calendarNodes : Option (List Ref) := none
  definitionGeneration : Option String := none
  /-- The bunch a flow is attached to. -/
  bunch : Option Ref := none

/-- The reset of the counts, guarded by `hasattr(self, "_status_counts")`. -/
def Obj.forgetCounts (o : Obj) : Obj :=
  if o.kind.isContainer then { o with statusCounts := none } else o

/-- The objects `0 .. size - 1`. -/
structure Heap where
  size : ℕ := 0
  obj : Ref → Obj := fun _ => {}

namespace Heap

variable (h : Heap)

/-- Write one object. -/
def modify (n : Ref) (f : Obj → Obj) : Heap :=
  { h with obj := Function.update h.obj n (f (h.obj n)) }

/-- The links of the objects. -/
def forest : LinkedForest where
  size := h.size
  parent n := (h.obj n).parent
  children n := (h.obj n).children

/-- `get_flow`: the root, which is found by `get_root`, if it is a flow. -/
def getFlow (n : Ref) : Option Ref :=
  if (h.obj (h.forest.root n)).kind = .flow then some (h.forest.root n) else none

/-- Forget the nodes with times of the flow that a node belongs to. -/
def forgetCalendar (n : Ref) : Heap :=
  match h.getFlow n with
  | none => h
  | some f => h.modify f fun o => { o with calendarNodes := none }

/-- A task takes a generation; outside a given subtree only if it has none. -/
def assignGeneration (generation : String) (given : Bool) (n : Ref) : Heap :=
  if (h.obj n).kind = .task ∧ (given ∨ (h.obj n).definitionGeneration = none) then
    h.modify n fun o => { o with definitionGeneration := some generation }
  else h

/-- The nodes that `ensure_definition_generation` goes through. -/
def pendingNodes (f : Ref) : Option Ref → List Ref
  | some c => h.forest.subtree c
  | none => (h.obj f).children.reverse.flatMap h.forest.subtree

/-- `Flow.ensure_definition_generation`, for a subtree or for all that is below the flow. -/
def ensureDefinitionGeneration (f : Ref) (subtree : Option Ref) (uuid : Uuid) : Heap :=
  let generation := (h.obj f).definitionGeneration.getD uuid.1
  (h.pendingNodes f subtree).foldl (fun h n => h.assignGeneration generation subtree.isSome n)
    (h.modify f fun o => { o with definitionGeneration := some generation })

/-! ### Edits of the tree -/

/-- The links and the caches in `append_child`. -/
def linkChild (p c : Ref) : Heap :=
  let h := h.modify c fun o => { o with parent := some p }
  let h := h.modify p fun o => { o with children := o.children ++ [c] }
  (h.modify p Obj.forgetCounts).forgetCalendar p

/-- `Node.append_child`; `add_container` and `add_task` call it. -/
def appendChild (p c : Ref) (uuid : Uuid) : Heap :=
  let h := h.linkChild p c
  match h.getFlow p with
  | none => h
  | some f =>
    if (h.obj f).bunch.isSome then h.ensureDefinitionGeneration f (some c) uuid else h

/-- `find_child_index`, with the child that stands there. -/
def findChild (p : Ref) (child : String) : Option Ref :=
  (h.obj p).children.find? fun c => (h.obj c).name = child

/-- `Node.update_child`. -/
def updateChild (p : Ref) (child : String) (c : Ref) : Except Err Heap :=
  match h.findChild p child with
  | none => .error (.nodeNotFound ("child " ++ child ++ " is not found"))
  | some old =>
    let h := h.forgetCalendar p
    let h := h.modify c fun o => { o with parent := some p }
    let h := h.modify p fun o => { o with children := o.children.set (o.children.idxOf old) c }
    let h := h.modify p Obj.forgetCounts
    .ok (h.modify old fun o => { o with parent := none })

/-- `Node.delete_children`, at most so many levels. -/
def deleteChildren : ℕ → Heap → Ref → Heap
  | 0, h, _ => h
  | k + 1, h, n =>
    let h := (h.forgetCalendar n).modify n Obj.forgetCounts
    (h.obj n).children.foldl (fun h c =>
      let h := h.modify n fun o => { o with children := o.children.erase c }
      (deleteChildren k h c).modify c fun o => { o with parent := none }) h

/-- `Node.delete_child`. -/
def deleteChild (p : Ref) (child : String) : Except Err Heap :=
  match h.findChild p child with
  | none => .error (.nodeNotFound (child ++ " does not exist"))
  | some c =>
    let h := h.modify p fun o => { o with children := o.children.erase c }
    let h := (h.forgetCalendar p).modify p Obj.forgetCounts
    .ok ((deleteChildren h.size h c).modify c fun o => { o with parent := none })

/-- `Bunch.add_flow`. -/
def addFlow (b f : Ref) (uuid : Uuid) : Heap :=
  (h.ensureDefinitionGeneration f none uuid).modify f fun o => { o with bunch := some b }

/-- `Node.add_time_attribute`; `add_time` calls it with a new attribute. -/
def addTimeAttribute (n : Ref) (a : TimeAttribute) : Heap :=
  (h.modify n fun o => { o with times := o.times ++ [a] }).forgetCalendar n

/-- A new object of a class. -/
def create (kind : Kind) (name : String) : Heap where
  size := h.size + 1
  obj := Function.update h.obj h.size { name, kind }

end Heap

/-! ### Statuses -/

/-- Programs over the heap. -/
abbrev M := Program Heap Err

/-- Write one object. -/
def modifyObj (n : Ref) (f : Obj → Obj) : M Unit := modify fun h => h.modify n f

/-- `_child_status_changed`. -/
def Obj.childStatusChanged (old new : NodeStatus) (o : Obj) : Obj :=
  { o with statusCounts := o.statusCounts.map fun counts =>
      let counts := Function.update counts old (counts old - 1)
      Function.update counts new (counts new + 1) }

/-- `Node.set_node_status_only`. -/
def Heap.changeStatus (h : Heap) (n : Ref) (status : NodeStatus) : Heap :=
  if (h.obj n).status = status then h
  else
    let h' := h.modify n fun o => { o with status }
    match (h.obj n).parent with
    | none => h'
    | some p =>
      if (h.obj p).kind.isContainer then
        h'.modify p (Obj.childStatusChanged (h.obj n).status status)
      else h'

/-- What `Task.set_node_status_only` does first. -/
def Heap.forgetUnknown (h : Heap) (n : Ref) (status : NodeStatus) : Heap :=
  if (h.obj n).kind = .task ∧ status ≠ .submitted ∧ status ≠ .active then
    h.modify n fun o => { o with submissionUnknownReason := none }
  else h

/-- `set_node_status_only` of the classes. -/
def Heap.setNodeStatusOnly (h : Heap) (n : Ref) (status : NodeStatus) : Heap :=
  (h.forgetUnknown n status).changeStatus n status

/-- `set_node_status_only` as a program. -/
def setNodeStatusOnly (n : Ref) (status : NodeStatus) : M Unit :=
  modify fun h => h.setNodeStatusOnly n status

/-- The counts of the statuses of some children. -/
def countStatuses (h : Heap) (children : List Ref) (status : NodeStatus) : ℤ :=
  (children.map fun c => (h.obj c).status).count status

/-- The first significant status with a count. -/
def significantStatus (counts : NodeStatus → ℤ) : NodeStatus :=
  if counts .aborted ≠ 0 then .aborted
  else if counts .active ≠ 0 then .active
  else if counts .submitted ≠ 0 then .submitted
  else if counts .queued ≠ 0 then .queued
  else if counts .complete ≠ 0 then .complete
  else .unknown

/-- The counts of a container: the cached ones, unless there are none or the number of children
is not theirs. -/
def Heap.currentCounts (h : Heap) (n : Ref) : NodeStatus → ℤ :=
  match (h.obj n).statusCounts with
  | none => countStatuses h (h.obj n).children
  | some counts =>
    if (h.obj n).statusChildCount = (h.obj n).children.length then counts
    else countStatuses h (h.obj n).children

/-- `computed_status(immediate=True)` of the classes. -/
def computedStatus (n : Ref) : M NodeStatus := do
  let h ← get
  match (h.obj n).kind with
  | .node => throw (.notImplemented "Not implemented!")
  | .task => pure (h.obj n).status
  | .container | .flow | .bunch =>
    if (h.obj n).children = [] then pure (h.obj n).status
    else do
      modifyObj n fun o =>
        { o with statusCounts := some (h.currentCounts n), statusChildCount := o.children.length }
      pure (significantStatus (h.currentCounts n))

/-- `sink_status_change_only`: only containers reach their children. -/
def sinkStatusChangeOnly : ℕ → Ref → NodeStatus → M Unit
  | 0, _, _ => pure ()
  | k + 1, n, status => do
    setNodeStatusOnly n status
    let h ← get
    when (h.obj n).kind.isContainer
      ((h.obj n).children.forM fun c => sinkStatusChangeOnly k c status)

/-- `Node.requeue`, as far as statuses, times and repeats go. -/
def requeueNode (n : Ref) (resetRepeat : Bool) : M Unit := do
  let h ← get
  setNodeStatusOnly n (h.obj n).defaultNodeStatus
  modifyObj n fun o =>
    { o with
      times := o.times.map fun a => { a with free := false }
      nodeRepeat := if resetRepeat then o.nodeRepeat.map fun r => { r with value := r.start }
        else o.nodeRepeat }

/-- The refusal of a requeue while a submission is unknown. -/
def unknownSubmissionError : Err :=
  .flowState "unknown external submission requires operator verification"

/-- A task whose submission is unknown. -/
def Heap.isUnknown (h : Heap) (n : Ref) : Bool :=
  (h.obj n).kind = .task ∧ (h.obj n).submissionUnknownReason ≠ none

/-- `requeue` of the classes. -/
def requeue : ℕ → Ref → Bool → M Unit
  | 0, _, _ => pure ()
  | k + 1, n, resetRepeat => do
    let h ← get
    match (h.obj n).kind with
    | .node => requeueNode n resetRepeat
    | .task =>
      if h.isUnknown n then throw unknownSubmissionError else requeueNode n resetRepeat
    | .container | .flow | .bunch =>
      if ((h.obj n).children.flatMap h.forest.subtree).any h.isUnknown then
        throw unknownSubmissionError
      else do
        requeueNode n resetRepeat
        let h ← get
        (h.obj n).children.forM fun c => requeue k c resetRepeat
        when ((h.obj n).defaultNodeStatus = .complete) (sinkStatusChangeOnly (k + 1) n .complete)

mutual

/-- `swim_status_change`. -/
def swimStatusChange : ℕ → Ref → M Unit
  | 0, _ => pure ()
  | k + 1, n => do
    let status ← computedStatus n
    let h ← get
    when (status ≠ (h.obj n).status) (setNodeStatusOnly n status)
    match (h.obj n).nodeRepeat.bind Repeat.increment, status with
    | some r, .complete => do
      modifyObj n fun o => { o with nodeRepeat := some r }
      requeue h.size n false
      swimStatusChangeOnly k n
    | _, _ =>
      match (h.obj n).parent with
      | none => pure ()
      | some p => swimStatusChange k p

/-- `swim_status_change_only`, of a task and of the other classes. -/
def swimStatusChangeOnly : ℕ → Ref → M Unit
  | 0, _ => pure ()
  | k + 1, n => do
    let h ← get
    if (h.obj n).kind = .task then
      match (h.obj n).parent with
      | none => pure ()
      | some p => swimStatusChangeOnly k p
    else do
      let status ← computedStatus n
      when (status ≠ (h.obj n).status) (setNodeStatusOnly n status)
      match (h.obj n).parent with
      | none => pure ()
      | some p => swimStatusChange k p

end

/-- `handle_status_change`; the limits that a task takes and returns are left out. -/
def handleStatusChange (k : ℕ) (n : Ref) : M Unit := do
  let h ← get
  when ((h.obj n).kind ≠ .node) (swimStatusChange k n)

/-- `set_node_status`. -/
def setNodeStatus (k : ℕ) (n : Ref) (status : NodeStatus) : M Unit := do
  let h ← get
  if (h.obj n).status = status then pure ()
  else do
    setNodeStatusOnly n status
    handleStatusChange k n

/-- `sink_status_change`. -/
def sinkStatusChange (k : ℕ) (n : Ref) (status : NodeStatus) : M Unit := do
  let h ← get
  match (h.obj n).kind with
  | .node => sinkStatusChangeOnly k n status
  | .task => setNodeStatus k n status
  | .container | .flow | .bunch => do
    sinkStatusChangeOnly k n status
    handleStatusChange k n

/-! ### The calendar -/

/-- `TimeAttribute.calendar_changed`, for the time that the calendar shows. -/
def TimeAttribute.calendarChanged (time : ℤ) (a : TimeAttribute) : TimeAttribute :=
  if clock time = ((a.hour : ℤ), (a.minute : ℤ)) then { a with free := true } else a

/-- `Node.calendar_changed`. -/
def Heap.calendarChanged (time : ℤ) (h : Heap) (n : Ref) : Heap :=
  h.modify n fun o => { o with times := o.times.map (TimeAttribute.calendarChanged time) }

/-- The nodes with time attributes of a flow, found from the flow down. -/
def Heap.timedNodes (h : Heap) (f : Ref) : List Ref :=
  (h.forest.subtree f).filter fun n => ¬ (h.obj n).times.isEmpty

/-- The calendar of a flow takes a new time; the time it then shows, and the heap. -/
def Heap.moveCalendar (h : Heap) (f : Ref) (now : ℤ) : Except Err (ℤ × Heap) := do
  let calendar ← (h.obj f).calendar.update now
  match calendar.flowTime with
  | none => .error (.typeError "'NoneType' object has no attribute 'strftime'")
  | some time => .ok (time, h.modify f fun o => { o with calendar })

/-- The nodes that `update_calendar` goes through: the listed ones, if there is a list. -/
def Heap.calendarTargets (h : Heap) (f : Ref) : List Ref :=
  (h.obj f).calendarNodes.getD (h.timedNodes f)

/-- `Flow.update_calendar`: the nodes with time attributes are looked up once. -/
def Heap.updateCalendar (h : Heap) (f : Ref) (now : ℤ) : Except Err Heap := do
  let (time, h) ← h.moveCalendar f now
  return (h.calendarTargets f).foldl (Heap.calendarChanged time)
    (h.modify f fun o => { o with calendarNodes := some (h.calendarTargets f) })

/-- `NodeContainer.calendar_changed`: the traversal of the whole tree, here for the built-in
classes, of which only containers reach their children. -/
def Heap.calendarChangedBelow (time : ℤ) : ℕ → Heap → Ref → Heap
  | 0, h, _ => h
  | k + 1, h, n =>
    let h := h.calendarChanged time n
    if (h.obj n).kind.isContainer then
      (h.obj n).children.foldl (Heap.calendarChangedBelow time k) h
    else h

/-- What `update_calendar` does without its cache. -/
def Heap.fullUpdateCalendar (h : Heap) (f : Ref) (now : ℤ) : Except Err Heap := do
  let (time, h) ← h.moveCalendar f now
  return h.calendarChangedBelow time h.size f

/-! ### The system -/

/-- The calls that change statuses, with the levels that a recursion may go. -/
inductive StatusCall
  | setNodeStatusOnly (n : Ref) (status : NodeStatus)
  | setNodeStatus (levels : ℕ) (n : Ref) (status : NodeStatus)
  | sinkStatusChangeOnly (levels : ℕ) (n : Ref) (status : NodeStatus)
  | sinkStatusChange (levels : ℕ) (n : Ref) (status : NodeStatus)
  | swimStatusChange (levels : ℕ) (n : Ref)
  | swimStatusChangeOnly (levels : ℕ) (n : Ref)
  | requeue (levels : ℕ) (n : Ref) (resetRepeat : Bool)
  | computedStatus (n : Ref)

/-- The program of a call. -/
def StatusCall.program : StatusCall → M Unit
  | .setNodeStatusOnly n status => Linked.setNodeStatusOnly n status
  | .setNodeStatus k n status => Linked.setNodeStatus k n status
  | .sinkStatusChangeOnly k n status => Linked.sinkStatusChangeOnly k n status
  | .sinkStatusChange k n status => Linked.sinkStatusChange k n status
  | .swimStatusChange k n => Linked.swimStatusChange k n
  | .swimStatusChangeOnly k n => Linked.swimStatusChangeOnly k n
  | .requeue k n resetRepeat => Linked.requeue k n resetRepeat
  | .computedStatus n => do let _ ← Linked.computedStatus n

/-- What programs do with nodes. -/
inductive Action
  | create (kind : Kind) (name : String)
  | appendChild (p c : Ref) (uuid : Uuid)
  | updateChild (p : Ref) (child : String) (c : Ref)
  | deleteChild (p : Ref) (child : String)
  | deleteChildren (p : Ref)
  | addFlow (b f : Ref) (uuid : Uuid)
  | addTimeAttribute (n : Ref) (a : TimeAttribute)
  | addRepeat (n : Ref) (r : Repeat)
  | setDefaultNodeStatus (n : Ref) (status : NodeStatus)
  | markSubmissionUnknown (n : Ref) (reason : String)
  | beginCalendar (f : Ref) (calendar : Calendar)
  | updateCalendar (f : Ref) (now : ℤ)
  | status (call : StatusCall)

/-- The objects exist, and those that have to be flows or bunches are. -/
def Action.enabled (h : Heap) : Action → Bool
  | .create _ _ | .status _ => true
  | .appendChild p c _ | .updateChild p _ c => p < h.size ∧ c < h.size
  | .deleteChild n _ | .deleteChildren n | .addTimeAttribute n _ | .addRepeat n _
  | .setDefaultNodeStatus n _ | .markSubmissionUnknown n _ => n < h.size
  | .addFlow b f _ =>
    b < h.size ∧ f < h.size ∧ (h.obj b).kind = .bunch ∧ (h.obj f).kind = .flow
  | .beginCalendar f _ | .updateCalendar f _ => f < h.size ∧ (h.obj f).kind = .flow

/-- A call that raises before its first write leaves the heap as it was. -/
def Heap.after (h : Heap) : Except Err Heap → Heap
  | .ok h' => h'
  | .error _ => h

/-- The heap after an action. -/
def Action.perform (h : Heap) : Action → Heap
  | .create kind name => h.create kind name
  | .appendChild p c uuid => h.appendChild p c uuid
  | .updateChild p child c => h.after (h.updateChild p child c)
  | .deleteChild p child => h.after (h.deleteChild p child)
  | .deleteChildren p => Heap.deleteChildren h.size h p
  | .addFlow b f uuid => h.addFlow b f uuid
  | .addTimeAttribute n a => h.addTimeAttribute n a
  | .addRepeat n r => h.modify n fun o => { o with nodeRepeat := some r }
  | .setDefaultNodeStatus n value => h.modify n fun o => { o with defaultNodeStatus := value }
  | .markSubmissionUnknown n reason =>
    h.modify n fun o => { o with submissionUnknownReason := some reason }
  | .beginCalendar f calendar => h.modify f fun o => { o with calendar }
  | .updateCalendar f now => h.after (h.updateCalendar f now)
  | .status call => (call.program.exec h).2

/-- Node objects, from none on, under any sequence of calls. -/
def objects : StepSystem Heap Action where
  init h := h = {}
  step h a := if a.enabled h then some (a.perform h) else none

/-- The node to be attached hangs nowhere and is not the root of the tree it goes to. -/
def Heap.Detached (h : Heap) (p c : Ref) : Prop :=
  (h.obj c).parent = none ∧ h.forest.root p ≠ c

instance (h : Heap) (p c : Ref) : Decidable (h.Detached p c) :=
  inferInstanceAs (Decidable (_ ∧ _))

/-- The edits attach nodes that are not in a tree. -/
def Action.AttachesDetached (h : Heap) : Action → Prop
  | .appendChild p c _ | .updateChild p _ c => h.Detached p c
  | _ => True

instance (h : Heap) : (a : Action) → Decidable (a.AttachesDetached h)
  | .appendChild p c _ | .updateChild p _ c => inferInstanceAs (Decidable (h.Detached p c))
  | .addFlow .. => isTrue trivial
  | .create .. | .deleteChild .. | .deleteChildren .. | .addTimeAttribute .. | .addRepeat ..
  | .setDefaultNodeStatus .. | .markSubmissionUnknown .. | .beginCalendar .. | .updateCalendar ..
  | .status .. => isTrue trivial

end Takler.Linked
