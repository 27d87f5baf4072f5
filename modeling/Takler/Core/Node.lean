import Takler.Core.State

/-!
# Operations on nodes

The methods of `Node`, `NodeContainer`, `Task`, `Flow`, `Limit` and `InLimitManager` (`core/`) as
programs over the state. A node is given by its path and its tree; a program that follows parent
pointers recurses on the path, one that visits children recurses on the tree.

Three groups of methods call one another. A status change of a node *swims* up: each ancestor
takes the most significant status of its children, and an ancestor that completes may advance its
repeat and *requeue* its whole subtree on the way. A recursive force *sinks* a status down and
then swims up. Tasks reserve tokens of the limits named on them and on their ancestors while they
are in flight.

## Main definitions

* `incrementInLimit`, `decrementInLimit`, `checkInLimitUp`, `updateLimits`, `deleteInLimit`.
* `setNodeStatusOnly`, `sinkStatusChangeOnly`, `requeue`, `swimStatusChange`, `setNodeStatus`,
  `sinkStatusChange`.
* `clearPaths`, `clearCurrentAttempt`: what ends an attempt, and may raise on the way.
-/

namespace Takler

open Program

/-! ### Limits -/

/-- `Limit.increment`. -/
def Limit.increment (id : LimitId) (tokens : ℕ) (p : NodePath) : M Unit := do
  let s ← get
  if p ∈ (s.limit id).holders then pure ()
  else do
    modifyLimit id fun l => l.acquire tokens p
    notifyQueryChange id.1 [.runtime]

/-- `Limit.decrement`. -/
def Limit.decrement (id : LimitId) (tokens : ℕ) (p : NodePath) : M Unit := do
  let s ← get
  if p ∈ (s.limit id).holders then do
    modifyLimit id fun l => l.release tokens p
    notifyQueryChange id.1 [.runtime]
  else pure ()

/-- The in-limits met going from a node up to its flow. -/
def State.inLimitsUp (s : State) : NodePath → List InLimit
  | [] => []
  | n :: up => s.inLimits (n :: up) ++ s.inLimitsUp up

/-- `limit_set.add`: a limit is left out when the set has one that is equal to it, which means
the same name and the same number of tokens. -/
def State.limitSetAdd (s : State) (seen : List LimitId) (id : LimitId) : List LimitId :=
  if seen.any fun j => j.2 = id.2 ∧ (s.limit j).limit = (s.limit id).limit then seen
  else id :: seen

/-- The loop of `InLimitManager.increment_in_limit` and of `decrement_in_limit`, over the in-limits
of a node and of its ancestors: the limits that were not seen are changed. -/
def changeInLimits (change : LimitId → ℕ → M Unit) : List InLimit → List LimitId → M Unit
  | [], _ => pure ()
  | item :: items, seen =>
    if item.limit ∈ seen then changeInLimits change items seen
    else do
      let s ← get
      change item.limit item.tokens
      changeInLimits change items (s.limitSetAdd seen item.limit)

/-- `Node.increment_in_limit`. -/
def incrementInLimit (p : NodePath) : M Unit := do
  let s ← get
  changeInLimits (fun id tokens => Limit.increment id tokens p) (s.inLimitsUp p) []

/-- `Node.decrement_in_limit`. -/
def decrementInLimit (p : NodePath) : M Unit := do
  let s ← get
  changeInLimits (fun id tokens => Limit.decrement id tokens p) (s.inLimitsUp p) []

/-- The loop of `Node.check_in_limit_up`: the nearest in-limit of a limit counts, and a task that
holds the limit needs nothing more. -/
def State.hasCapacity (s : State) (p : NodePath) : List InLimit → List LimitId → Bool
  | [], _ => true
  | item :: items, seen =>
    if item.limit ∈ seen then s.hasCapacity p items seen
    else
      let additional := if p ∈ (s.limit item.limit).holders then 0 else item.tokens
      if (s.limit item.limit).value + additional > (s.limit item.limit).limit then false
      else s.hasCapacity p items (item.limit :: seen)

/-- `Node.check_in_limit_up`. -/
def State.checkInLimitUp (s : State) (p : NodePath) : Bool := s.hasCapacity p (s.inLimitsUp p) []

/-- `Task.update_limits`. -/
def updateLimits (p : NodePath) : M Unit := do
  let s ← get
  if (s.node p).status.inFlight then incrementInLimit p else decrementInLimit p

/-- The tokens of the first of some in-limits that is bound to a limit. -/
def effectiveTokens (items : List InLimit) (id : LimitId) : Option ℕ :=
  (items.find? fun i => i.limit = id).map InLimit.tokens

/-- The nodes below a node. -/
def Tree.descendants (p : NodePath) (t : Tree) : List (NodePath × Tree) :=
  Tree.walkList p t.children

/-- `InLimitManager.delete_in_limit`. -/
def deleteInLimit (p : NodePath) (t : Tree) (name : String) : M Bool := do
  let s ← get
  match (s.inLimits p).find? fun i => i.limitName = name with
  | none => return false
  | some target =>
    let rest := (s.inLimits p).eraseP fun i => i.limitName = name
    let limit := s.limit target.limit
    let tasks := (t.descendants p).filter fun x => x.2.isTask
    if tasks.any fun x => (s.node x.1).status.inFlight then
      throw (.flowState "cannot delete an ancestor in-limit with an in-flight descendant")
    else if tasks.any fun x => x.1 ∈ limit.holders then
      throw (.flowState "cannot delete an in-limit with a descendant holder")
    else
      let oldTokens := if p ∈ limit.holders then effectiveTokens (s.inLimitsUp p) target.limit
        else none
      let newTokens := if oldTokens.isSome then
          effectiveTokens (rest ++ s.inLimitsUp p.tail) target.limit
        else none
      if p ∈ limit.holders ∧ (oldTokens = none ∨ limit.value < oldTokens.getD 0) then
        throw (.flowState "limit reservation cannot be reconciled")
      else if oldTokens.isSome ∧ newTokens.isSome ∧
          limit.value - oldTokens.getD 0 + newTokens.getD 0 > limit.limit then
        throw (.flowState "in-limit deletion would exceed capacity")
      else do
        modify fun s => { s with inLimits := Function.update s.inLimits p rest }
        when (oldTokens.isSome ∧ oldTokens ≠ newTokens) do
          Limit.decrement target.limit (oldTokens.getD 0) p
          when newTokens.isSome (Limit.increment target.limit (newTokens.getD 0) p)
        return true

/-! ### Setting a status -/

/-- `Task.set_node_status_only` before it calls the method of `Node`: a status that is not in
flight ends a shell submission and forgets an unknown one. -/
def forgetSubmission (p : NodePath) (kind : NodeKind) : M Unit := do
  when (kind = .shell) (modifyTask p fun k => { k with submissionToken := none })
  let s ← get
  when (s.node p).task.submissionUnknownReason.isSome do
    modifyTask p fun k => { k with submissionUnknownReason := none }
    notifyQueryChange p [.summary, .runtime]

/-- `set_node_status_only`. -/
def setNodeStatusOnly (p : NodePath) (t : Tree) (status : NodeStatus) : M Unit := do
  when (t.isTask ∧ ¬ status.inFlight) (forgetSubmission p t.kind)
  let s ← get
  if (s.node p).status = status then pure ()
  else do
    modifyNode p fun n => { n with status }
    notifyQueryChange p [.summary]

/-- `sink_status_change_only`: set the status of every node of the tree, in preorder. -/
def sinkStatusChangeOnly (p : NodePath) (t : Tree) (status : NodeStatus) : M Unit :=
  (t.walk p).forM fun x => setNodeStatusOnly x.1 x.2 status

/-! ### Requeue -/

/-- Whether a requeue changes something besides the status. -/
def NodeState.requeueChanges (n : NodeState) (d : NodeDef) (resetRepeat : Bool) : Bool :=
  d.events.any (fun e => n.eventValue e.name ≠ e.initialValue) ||
  d.meters.any (fun m => n.meterValue m.name ≠ m.minValue) ||
  n.isCompleteTriggered ||
  d.times.any n.timeFree ||
  (d.trigger.isSome && n.triggerFree) ||
  (resetRepeat && d.repeatDate.any fun r => n.repeatValue ≠ r.startDate)

/-- The values a requeue resets. -/
def NodeState.reset (n : NodeState) (d : NodeDef) (resetRepeat : Bool) : NodeState :=
  { n with
    isCompleteTriggered := false
    timeFree := fun _ => false
    eventValue := d.eventInitial
    meterValue := d.meterInitial
    repeatValue := if resetRepeat then d.repeatInitial else n.repeatValue
    triggerFree := if d.trigger.isSome then false else n.triggerFree }

/-- `Node.requeue`: the node itself, not its children. -/
def Node.requeue (p : NodePath) (t : Tree) (resetRepeat : Bool) : M Unit := do
  let s ← get
  let changed := (s.node p).requeueChanges t.defn resetRepeat
  setNodeStatusOnly p t t.defn.defaultNodeStatus.toStatus
  modifyNode p fun n => n.reset t.defn resetRepeat
  when changed (notifyQueryChange p [.runtime])

/-- Whether `clear_current_attempt` finds something to clear. -/
def TaskState.hasAttempt (k : TaskState) : Bool :=
  k.attemptId.isSome || k.taskId.isSome || k.abortedReason.isSome ||
  k.submissionUnknownReason.isSome || k.submittedAt.isSome || k.startedAt.isSome ||
  k.endedAt.isSome || k.jobPath.isSome || k.joboutPath.isSome || k.orvixInfoPath.isSome ||
  k.jobPassword.isSome

/-- Set an artifact path of a task to `None`. `Task.__setattr__` tells the index first, which raises
when it does not find the path that was recorded. -/
def clearPath (p : NodePath) (path : TaskState → Option String) (clear : TaskState → TaskState) :
    M Unit := do
  let s ← get
  match path (s.node p).task with
  | none => pure ()
  | some x => if s.moved p x then throw (.artifactPath x) else modifyTask p clear

/-- The artifact paths are set to `None` one after the other. -/
def clearPaths (p : NodePath) : M Unit := do
  clearPath p TaskState.jobPath fun k => { k with jobPath := none }
  clearPath p TaskState.joboutPath fun k => { k with joboutPath := none }
  clearPath p TaskState.orvixInfoPath fun k => { k with orvixInfoPath := none }

/-- The identity of a task with other artifact paths. -/
def TaskState.withPaths (k : TaskState) (paths : ArtifactPaths) : TaskState :=
  { k with jobPath := paths.job, joboutPath := paths.jobout, orvixInfoPath := paths.orvixInfo }

/-- The identity of a task without its current attempt, of which only the paths are left. -/
def TaskState.withoutAttempt (k : TaskState) : TaskState :=
  { tryNo := k.tryNo
    definitionGeneration := k.definitionGeneration
    jobPath := k.jobPath
    joboutPath := k.joboutPath
    orvixInfoPath := k.orvixInfoPath
    submissionToken := k.submissionToken }

/-- `clear_current_attempt`: the paths come last, so that the rest is gone when the index raises. -/
def clearCurrentAttempt (p : NodePath) (kind : NodeKind) : M Unit := do
  let s ← get
  when (s.node p).task.hasAttempt (notifyQueryChange p [.summary, .runtime, .artifacts])
  modifyTask p TaskState.withoutAttempt
  clearPaths p
  when (kind = .shell) (modifyTask p fun k => { k with submissionToken := none })

/-- The message with which an unknown submission stops a run or a requeue. -/
def unknownSubmission : Err :=
  .flowState "unknown external submission requires operator verification"

/-- Whether the task at a path has a submission of unknown outcome. -/
def State.isUnknown (s : State) (x : NodePath × Tree) : Bool :=
  x.2.isTask && (s.node x.1).task.submissionUnknownReason.isSome

/-- A requeued task starts to count its tries again. -/
def resetAttempt (p : NodePath) (kind : NodeKind) : M Unit := do
  modifyTask p fun k => { k with tryNo := 0 }
  clearCurrentAttempt p kind

/-- `Task.requeue`. -/
def Task.requeue (p : NodePath) (t : Tree) (resetRepeat : Bool) : M Unit := do
  when (t.kind = .shell) (modifyTask p fun k => { k with submissionToken := none })
  let s ← get
  if (s.node p).task.submissionUnknownReason.isSome then throw unknownSubmission
  else do
    when ((s.node p).task.tryNo ≠ 0) (notifyQueryChange p [.runtime])
    resetAttempt p t.kind
    Node.requeue p t resetRepeat
    updateLimits p

mutual
/-- `requeue` of a task or of a container with its children. -/
def requeue (p : NodePath) : Tree → Bool → M Unit
  | .node d cs, resetRepeat =>
    if d.kind.isTask then Task.requeue p (.node d cs) resetRepeat
    else do
      let s ← get
      if (Tree.walkList p cs).any s.isUnknown then throw unknownSubmission
      else do
        Node.requeue p (.node d cs) resetRepeat
        requeueChildren p cs resetRepeat
        when (d.defaultNodeStatus = .complete) (sinkStatusChangeOnly p (.node d cs) .complete)

/-- Requeue the children one after the other. -/
def requeueChildren (p : NodePath) : List Tree → Bool → M Unit
  | [], _ => pure ()
  | c :: cs, resetRepeat => do
    requeue (c.name :: p) c resetRepeat
    requeueChildren p cs resetRepeat
end

/-! ### Swimming up -/

/-- `computed_status(immediate=True)`. -/
def State.computedStatus (s : State) (p : NodePath) (t : Tree) : NodeStatus :=
  if t.isTask then (s.node p).status
  else
    match t.children with
    | [] => (s.node p).status
    | cs => mostSignificant (cs.map fun c => (s.node (c.name :: p)).status)

/-- Take the computed status when it is not the stored one. -/
def adoptStatus (p : NodePath) (t : Tree) (status : NodeStatus) : M Unit := do
  let s ← get
  when (status ≠ (s.node p).status) (setNodeStatusOnly p t status)

/-- `RepeatDate.increment`. -/
def RepeatDate.advance (p : NodePath) (r : RepeatDate) : M Bool := do
  let s ← get
  let value := (s.node p).repeatValue + r.step
  if value > maxOrdinal then throw (.overflow "date value out of range")
  else if value ≤ r.endDate then do
    modifyNode p fun n => { n with repeatValue := value }
    return true
  else return false

/-- The repeat of a completed node: advance it and requeue the node. -/
def advanceRepeat (p : NodePath) (t : Tree) : M Bool :=
  match t.defn.repeatDate with
  | none => return false
  | some r => do
    if ← r.advance p then do
      notifyQueryChange p [.runtime]
      requeue p t false
      return true
    else return false

/-- Compute the status of a node and take it. -/
def adoptComputed (p : NodePath) (t : Tree) : M NodeStatus := do
  let s ← get
  adoptStatus p t (s.computedStatus p t)
  return s.computedStatus p t

mutual
/-- `swim_status_change`. -/
def swimStatusChange (b : Bunch) : NodePath → M Unit
  | [] => pure ()
  | n :: up =>
    match b.node? (n :: up) with
    | none => pure ()
    | some t => do
      let status ← adoptComputed (n :: up) t
      if status = .complete then do
        if ← advanceRepeat (n :: up) t then
          if t.isTask then swimStatusChangeOnly b up
          else do
            let _ ← adoptComputed (n :: up) t
            swimStatusChange b up
        else swimStatusChange b up
      else swimStatusChange b up

/-- `swim_status_change_only`: a task leaves it to its parent. -/
def swimStatusChangeOnly (b : Bunch) : NodePath → M Unit
  | [] => pure ()
  | n :: up =>
    match b.node? (n :: up) with
    | none => pure ()
    | some t =>
      if t.isTask then swimStatusChangeOnly b up
      else do
        let _ ← adoptComputed (n :: up) t
        swimStatusChange b up
end

/-- `handle_status_change`. -/
def handleStatusChange (b : Bunch) (p : NodePath) (t : Tree) : M Unit := do
  when t.isTask (updateLimits p)
  swimStatusChange b p

/-- `set_node_status`. -/
def setNodeStatus (b : Bunch) (p : NodePath) (t : Tree) (status : NodeStatus) : M Unit := do
  let s ← get
  if (s.node p).status = status then pure ()
  else do
    setNodeStatusOnly p t status
    handleStatusChange b p t

/-- `sink_status_change`: a recursive force. The limits of the tasks are brought up to date
before the status swims up. -/
def sinkStatusChange (b : Bunch) (p : NodePath) (t : Tree) (status : NodeStatus) : M Unit :=
  if t.isTask then setNodeStatus b p t status
  else do
    sinkStatusChangeOnly p t status
    (((t.descendants p).filter fun x => x.2.isTask).reverse).forM fun x => updateLimits x.1
    handleStatusChange b p t

end Takler
