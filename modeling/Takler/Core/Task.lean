import Takler.Core.Node

/-!
# Running tasks, dependencies and flows

The methods of `Task` and `ShellScriptTask` that start a job and record its reports, the
dependency checks that start tasks, and the methods of `Flow`.

A run draws a new attempt before the job is submitted and gives the old one back when the run is
refused. The job of a shell task reports a failure of its submission later, through a callback
that does nothing once its submission is not the current one.

## Main definitions

* `Task.run`, `Task.init`, `Task.complete`, `Task.abort`, `Task.markSubmissionUnknown`.
* `Shell.onFailure`, `Shell.onSkipped`: the callbacks of a submission.
* `checkDependencies`, `resolveDependencies`.
* `Flow.begin`, `Flow.updateCalendar`.
* `suspend`, `resume`, `freeDependencies`, `setEvent`, `setMeter`.
-/

namespace Takler

open Program

/-! ### Attempts -/

/-- `Bunch.require_running`. -/
def requireRunning : M Unit := do
  let s ← get
  if s.haltCauses ≠ [] then throw (.flowState "service is halted")
  else if s.serviceStopping then throw (.flowState "service is stopping")
  else pure ()

/-- `require_limit_capacity` of `Task.run`. -/
def requireLimitCapacity (p : NodePath) : M Unit := do
  let s ← get
  if s.checkInLimitUp p then pure () else throw (.flowState "task limit has no capacity")

/-- `Task.increment_try_no`: a new attempt of the flow's generation. -/
def incrementTryNo (p : NodePath) : M Unit := do
  let d ← draw
  let s ← get
  modifyTask p fun k => { k.withoutAttempt with
    tryNo := k.tryNo + 1
    definitionGeneration := (s.flow (flowName p)).definitionGeneration
    attemptId := some d.attemptId
    jobPassword := k.jobPassword }
  notifyQueryChange p [.summary, .runtime, .artifacts]
  -- when the index raises, the new attempt is left with the old password
  clearPaths p
  modifyTask p fun k => { k with jobPassword := some d.password }

/-- `restore_prior_attempt`. -/
def restorePriorAttempt (p : NodePath) (prior : TaskState) : M Unit :=
  modifyTask p fun k => { prior with submissionToken := k.submissionToken }

/-- `Task.mark_submission_unknown`. -/
def Task.markSubmissionUnknown (p : NodePath) (reason : String) : M Unit := do
  let s ← get
  if (s.node p).status ≠ .submitted ∨ (s.node p).task.attemptId.getD "" = "" then
    throw (.flowState "unknown submission requires a submitted attempt")
  else if (s.node p).task.submissionUnknownReason = none then do
    modifyTask p fun k => { k with submissionUnknownReason := some reason }
    notifyQueryChange p [.summary, .runtime]
  else pure ()

/-! ### Reports -/

/-- `Task.init`. -/
def Task.init (b : Bunch) (p : NodePath) (t : Tree) (taskId : String) : M Unit := do
  modifyTask p fun k => { k with submissionUnknownReason := none, taskId := some taskId }
  notifyQueryChange p [.runtime, .artifacts]
  let d ← draw
  modifyTask p fun k =>
    if k.attemptId.isSome ∧ k.startedAt = none then { k with startedAt := some d.timestamp } else k
  setNodeStatus b p t .active
  handleStatusChange b p t

/-- The end of an attempt is recorded when there is an attempt. -/
def recordEnd (p : NodePath) : M Unit := do
  let d ← draw
  modifyTask p fun k => if k.attemptId.isSome then { k with endedAt := some d.timestamp } else k

/-- `Task.complete`. -/
def Task.complete (b : Bunch) (p : NodePath) (t : Tree) : M Unit := do
  modifyTask p fun k => { k with submissionUnknownReason := none }
  notifyQueryChange p [.runtime]
  recordEnd p
  setNodeStatus b p t .complete
  handleStatusChange b p t

/-- `Task.abort`. -/
def Task.abort (b : Bunch) (p : NodePath) (t : Tree) (reason : String) : M Unit := do
  modifyTask p fun k => { k with submissionUnknownReason := none }
  notifyQueryChange p [.runtime]
  recordEnd p
  setNodeStatus b p t .aborted
  modifyTask p fun k => { k with abortedReason := some reason }
  handleStatusChange b p t

/-! ### Runs -/

/-- The artifact paths of a rendered job script are recorded, and the index knows the files that they
resolve to now. -/
def recordPaths (p : NodePath) (paths : ArtifactPaths) : M Unit := do
  modifyTask p fun k => k.withPaths paths
  modify fun s => { s with
    moved := fun q x => if q = p ∧ x ∈ (s.node p).task.paths then false else s.moved q x }

/-- `ShellScriptTask.submit`: a new submission token, then the job script. -/
def Shell.submit (p : NodePath) : M (Option String) := do
  requireRunning
  let s ← get
  let d ← draw
  modifyTask p fun k => { k with submissionToken := some s.drawn }
  recordPaths p d.artifacts
  when (d.submissionError = none) do
    modify fun s' => { s' with submissions :=
      ⟨p, s.drawn, (s.node p).task.attemptId, (s.node p).task.definitionGeneration, d.external⟩ ::
        s'.submissions }
  return d.submissionError

/-- `do_run`: a shell task submits its job and aborts when the submission fails. -/
def Task.doRun (b : Bunch) (p : NodePath) (t : Tree) : M Bool :=
  if t.kind = .shell then do
    match ← Shell.submit p with
    | none => return true
    | some error =>
      Task.abort b p t ("JobSubmissionError: " ++ error)
      return false
  else return true

/-- `Task.after_run`. -/
def Task.afterRun (b : Bunch) (p : NodePath) (t : Tree) : M Unit := do
  let d ← draw
  modifyTask p fun k => { k with submittedAt := some d.timestamp }
  setNodeStatus b p t .submitted
  handleStatusChange b p t

/-- `Task.run`. -/
def Task.run (b : Bunch) (p : NodePath) (t : Tree) : M Bool := do
  requireRunning
  let s ← get
  if (s.node p).task.submissionUnknownReason.isSome then throw unknownSubmission
  else do
    requireLimitCapacity p
    incrementTryNo p
    notifyQueryChange p [.summary, .runtime, .artifacts]
    tryCatch
      (do
        -- `before_run` of the built-in tasks, and the second look at the service
        requireRunning
        requireRunning
        requireLimitCapacity p)
      fun e => do
        restorePriorAttempt p (s.node p).task
        throw e
    if ← Task.doRun b p t then do
      Task.afterRun b p t
      return true
    else return false

/-- `is_current_submission`. -/
def State.isCurrent (s : State) (x : Submission) : Bool :=
  (s.node x.path).task.submissionToken = some x.token &&
  (s.node x.path).task.attemptId = x.attemptId &&
  (s.node x.path).task.definitionGeneration = x.generation &&
  (s.flow (flowName x.path)).definitionGeneration = x.generation

/-- `on_failure` and `ShellScriptTask.on_job_failure`: a failed wrapper of an external submission
leaves the outcome open, any other failure aborts. -/
def Shell.onFailure (b : Bunch) (t : Tree) (x : Submission) (submissionError : Bool)
    (reason : String) : M Unit := do
  let s ← get
  if s.isCurrent x ∧ (s.node x.path).status.inFlight then
    if x.external ∧ ¬ submissionError then
      if (s.node x.path).status = .active then pure ()
      else Task.markSubmissionUnknown x.path reason
    else Task.abort b x.path t reason
  else pure ()

/-- `on_skipped`. -/
def Shell.onSkipped (b : Bunch) (t : Tree) (x : Submission) : M Unit := do
  let s ← get
  if s.isCurrent x ∧ (s.node x.path).status = .submitted then
    Task.abort b x.path t "submission skipped before process start"
  else pure ()

/-! ### Dependencies -/

/-- The hour and the minute of an instant. -/
def clock (t : ℤ) : ℤ × ℤ := (t / 3600000000 % 24, t / 60000000 % 60)

/-- `TimeAttribute.is_free`. -/
def TimeDef.isFree (d : TimeDef) (n : NodeState) (c : Calendar) : Except Err Bool :=
  if n.timeFree d then .ok true
  else
    match c.flowTime with
    | none => .error (.typeError "'NoneType' object has no attribute 'hour'")
    | some time => .ok (clock time = ((d.hour : ℤ), (d.minute : ℤ)))

/-- The loop of `resolve_time_dependencies`. -/
def anyFree (n : NodeState) (c : Calendar) : List TimeDef → Except Err Bool
  | [] => .ok false
  | d :: ds => do if ← d.isFree n c then return true else anyFree n c ds

/-- `resolve_time_dependencies`. -/
def State.resolveTimeDependencies (s : State) (p : NodePath) (t : Tree) : Except Err Bool :=
  if t.defn.times.isEmpty then .ok true
  else anyFree (s.node p) (s.flow (flowName p)).calendar t.defn.times

/-- `find_variable` and `value` of a variable: an event counts as 0 or 1. -/
def State.variableValue (s : State) (b : Bunch) (p : NodePath) (name : String) : Value :=
  match b.node? p with
  | none => .none
  | some t =>
    if t.defn.events.any fun e => e.name = name then
      .int (if (s.node p).eventValue name then 1 else 0)
    else if t.defn.meters.any fun m => m.name = name then .int ((s.node p).meterValue name)
    else s.parameterValue p name

/-- What triggers read. -/
def State.valuation (s : State) (b : Bunch) : Valuation NodePath where
  status p := (s.node p).status
  variableValue p name := s.variableValue b p name

/-- `Expression.evaluate`. -/
def evaluateExpression (s : State) (b : Bunch) (free : Bool) (ast : Ast NodePath) :
    Except Err Bool :=
  if free then .ok true else ast.evaluate (s.valuation b)

/-- `evaluate_complete_trigger`. -/
def State.evaluateCompleteTrigger (s : State) (b : Bunch) (p : NodePath) (t : Tree) :
    Except Err Bool :=
  match t.defn.completeTrigger with
  | none => .ok false
  | some ast => evaluateExpression s b (s.node p).completeTriggerFree ast

/-- `evaluate_trigger`. -/
def State.evaluateTrigger (s : State) (b : Bunch) (p : NodePath) (t : Tree) : Except Err Bool :=
  match t.defn.trigger with
  | none => .ok true
  | some ast => evaluateExpression s b (s.node p).triggerFree ast

/-- Raise what an evaluation raises. -/
def liftEval {α : Type} : Except Err α → M α
  | .ok a => pure a
  | .error e => throw e

/-- A complete trigger that holds completes the node. -/
def completeByTrigger (b : Bunch) (p : NodePath) (t : Tree) : M Unit := do
  let s ← get
  when (¬ (s.node p).isCompleteTriggered) do
    modifyNode p fun n => { n with isCompleteTriggered := true }
    notifyQueryChange p [.runtime]
  setNodeStatus b p t .complete

/-- `Node.check_dependencies`. -/
def Node.checkDependencies (b : Bunch) (p : NodePath) (t : Tree) : M Bool := do
  let s ← get
  if (s.node p).suspended then return false
  else do
    if ← liftEval (s.resolveTimeDependencies p t) then do
      if ← liftEval (s.evaluateCompleteTrigger b p t) then do
        completeByTrigger b p t
        return false
      else liftEval (s.evaluateTrigger b p t)
    else return false

/-- `check_dependencies`. A task that is not queued or aborted is never started. -/
def checkDependencies (b : Bunch) (p : NodePath) (t : Tree) : M Bool := do
  if t.isTask then do
    let s ← get
    let status := (s.node p).status
    if status = .complete ∨ status = .active ∨ status = .submitted ∨ status = .unknown then
      return false
    else do
      if ← Node.checkDependencies b p t then do
        if status = .aborted then return false
        else do
          let s ← get
          return s.checkInLimitUp p
      else return false
  else Node.checkDependencies b p t

mutual
/-- `resolve_dependencies`: a task that may start is run, a container that may start is entered. -/
def resolveDependencies (b : Bunch) (p : NodePath) : Tree → M Bool
  | .node d cs =>
    if d.kind.isTask then do
      if ← checkDependencies b p (.node d cs) then do
        let _ ← Task.run b p (.node d cs)
        return true
      else return false
    else do
      if ← checkDependencies b p (.node d cs) then do
        resolveChildren b p cs
        return true
      else return false

/-- Resolve the children one after the other. -/
def resolveChildren (b : Bunch) (p : NodePath) : List Tree → M Unit
  | [] => pure ()
  | c :: cs => do
    let _ ← resolveDependencies b (c.name :: p) c
    resolveChildren b p cs
end

/-! ### Flows -/

/-- `Flow.requeue_calendar` with the clock read twice. -/
def Flow.requeueCalendar (name : String) (now realNow : ℤ) : M Unit := do
  let s ← get
  let calendar : Calendar :=
    { initialTime := some now, flowTime := some now, duration := some 0, increment := some 0
      initialRealTime := some realNow, lastRealTime := some realNow }
  modifyFlow name fun f => { f with calendar }
  when ((s.flow name).calendar ≠ calendar) (notifyQueryChange [name] [.runtime])

/-- `Flow.begin`. -/
def Flow.begin (t : Tree) (force : Bool) (now realNow : ℤ) : M Unit := do
  let s ← get
  if (s.flow t.name).begun ∧ ¬ force then
    throw (.flowState ("flow is already begun: " ++ t.name))
  else if (t.walk [t.name]).any s.isUnknown then throw unknownSubmission
  else do
    Flow.requeueCalendar t.name now realNow
    requeue [t.name] t true
    modifyFlow t.name fun f => { f with begun := true }
    notifyQueryChange [t.name] [.runtime]

/-- `Calendar.update`. -/
def Calendar.update (c : Calendar) (now : ℤ) : Except Err Calendar :=
  match c.lastRealTime, c.initialRealTime, c.flowTime with
  | some last, some initial, some flow =>
    .ok { c with
      increment := some (now - last)
      duration := some (now - initial)
      flowTime := some (flow + (now - last))
      lastRealTime := some now }
  | _, _, _ => .error (.typeError "unsupported operand type(s) for -")

/-- `calendar_changed` of a node: the times that have come become free. -/
def calendarChanged (p : NodePath) (t : Tree) (c : Calendar) : M Unit := do
  let s ← get
  let free (d : TimeDef) : Bool :=
    match d.isFree (s.node p) c with
    | .ok r => r
    | .error _ => (s.node p).timeFree d
  modifyNode p fun n => { n with timeFree := free }
  when (t.defn.times.any fun d => free d ≠ (s.node p).timeFree d) (notifyQueryChange p [.runtime])

/-- `Flow.update_calendar`. -/
def Flow.updateCalendar (t : Tree) (now : ℤ) : M Unit := do
  let s ← get
  let calendar ← liftEval ((s.flow t.name).calendar.update now)
  modifyFlow t.name fun f => { f with calendar }
  when ((s.flow t.name).calendar ≠ calendar) (notifyQueryChange [t.name] [.runtime])
  ((t.walk [t.name]).filter fun x => ¬ x.2.defn.times.isEmpty).forM fun x =>
    calendarChanged x.1 x.2 calendar

/-! ### Other operations on nodes -/

/-- `Node.suspend`. -/
def suspend (p : NodePath) : M Unit := do
  let s ← get
  if (s.node p).suspended then pure ()
  else do
    modifyNode p fun n => { n with suspended := true }
    notifyQueryChange p [.summary]

/-- `Node.resume`. -/
def resume (p : NodePath) : M Unit := do
  let s ← get
  if (s.node p).suspended then do
    modifyNode p fun n => { n with suspended := false }
    notifyQueryChange p [.summary]
  else pure ()

/-- The dependencies that can be freed. -/
inductive DepType
  | all
  | time
  | trigger
deriving DecidableEq

/-- `Node.free_dependencies`. -/
def freeDependencies (p : NodePath) (t : Tree) (dep : DepType) : M Unit := do
  let s ← get
  let n := s.node p
  let freed : NodeState :=
    { n with
      timeFree := fun d => n.timeFree d || decide (dep ≠ .trigger)
      triggerFree := n.triggerFree || (decide (dep ≠ .time) && t.defn.trigger.isSome) }
  modifyNode p fun _ => freed
  when (t.defn.times.any (fun d => freed.timeFree d ≠ n.timeFree d) ∨
      (t.defn.trigger.isSome ∧ freed.triggerFree ≠ n.triggerFree)) do
    notifyQueryChange p [.runtime]

/-- `Node.set_event`. -/
def setEvent (p : NodePath) (t : Tree) (name : String) (value : Bool) : M Bool := do
  if t.defn.events.any fun e => e.name = name then do
    let s ← get
    modifyNode p fun n => { n with eventValue := Function.update n.eventValue name value }
    when ((s.node p).eventValue name ≠ value) (notifyQueryChange p [.runtime])
    return true
  else return false

/-- `Node.set_meter`: a value outside the bounds is refused. -/
def setMeter (p : NodePath) (t : Tree) (name : String) (value : ℤ) : M Bool := do
  match t.defn.meters.find? fun m => m.name = name with
  | none => return false
  | some m =>
    if value < m.minValue ∨ value > m.maxValue then
      throw (.valueError ("value must be in [" ++ toString m.minValue ++ ", " ++
        toString m.maxValue ++ "]"))
    else do
      let s ← get
      modifyNode p fun n => { n with meterValue := Function.update n.meterValue name value }
      when ((s.node p).meterValue name ≠ value) (notifyQueryChange p [.runtime])
      return true

end Takler
