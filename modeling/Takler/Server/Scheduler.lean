import Takler.Core.Task
import Takler.Lib.CodePoints
import Takler.Lib.StepSystem

/-!
# The scheduler's commands

The commands of `server/scheduler.py` and `server/zombie.py` as programs over the state, and the
step system of a server: each step is one command with one target, one visit of the dependency
scan, one callback of a shell submission, or a change of the set of flows. A command that raises
still makes a step, to the state it left behind. The file system makes steps as well: at any time a
recorded artifact path may come to resolve to another file.

The scan of a flow yields between nodes, so that other steps come in between; a visit of any node
at any time covers every such interleaving.

## Main definitions

* `Bunch.findNode`: the node of a path text, `.` and `..` included.
* `ZombiePolicy`, `guardChildCommand`.
* `forceNode`, `runNode`, `Command`, `Command.program`.
* `World`, `Action`, `server`: the step system.
-/

namespace Takler

open Program

/-! ### Finding nodes -/

/-- Follow the parts of a path text from a node. -/
def Bunch.follow (b : Bunch) : NodePath → List String → Option NodePath
  | p, [] => some p
  | p, part :: parts =>
    if part = "." then b.follow p parts
    else if part = ".." then
      match p with
      | _ :: m :: up => b.follow (m :: up) parts
      | _ => none
    else if (b.node? (part :: p)).isSome then b.follow (part :: p) parts
    else none

/-- `Bunch.find_node`, over the parts of the path text. -/
def Bunch.findNode (b : Bunch) : List String → Option NodePath
  | [] => none
  | f :: parts => if (b.node? [f]).isSome then b.follow [f] parts else none

/-- A path text from its parts. -/
def textOf (parts : List String) : String := pathString parts.reverse

/-- `_find_node_or_raise`. -/
def findNodeOrRaise (b : Bunch) (parts : List String) : M (NodePath × Tree) :=
  match (b.findNode parts).bind fun p => (b.node? p).map fun t => (p, t) with
  | some x => return x
  | none => throw (.nodeNotFound ("node is not found: " ++ textOf parts))

/-- `_find_task_or_raise`. -/
def findTaskOrRaise (b : Bunch) (parts : List String) : M (NodePath × Tree) := do
  let x ← findNodeOrRaise b parts
  if x.2.isTask then return x
  else throw (.nodeType ("node must be Task: " ++ textOf parts))

/-- `_require_begun`. -/
def requireBegun (p : NodePath) : M Unit := do
  let s ← get
  if (s.flow (flowName p)).begun then pure ()
  else throw (.flowState ("flow is not begun: " ++ flowName p))

/-! ### Child commands -/

/-- Whether a text is a UUID in its canonical form. -/
def isCanonicalUuid (text : String) : Bool :=
  let chars := text.toList
  chars.length == 36 &&
  (chars.zipIdx.all fun (c, i) =>
    if i = 8 ∨ i = 13 ∨ i = 18 ∨ i = 23 then c = '-'
    else c.isDigit || (decide ('a' ≤ c) && decide (c ≤ 'f')))

/-- `_validate_attempt_id`. -/
def validateAttemptId (attemptId : String) : M Unit :=
  if attemptId = "" then throw (.attemptMismatch "attempt_mismatch: missing attempt_id")
  else if isCanonicalUuid attemptId then pure ()
  else throw (.invalidRequest "invalid attempt_id")

/-- `_guard_attempt`. -/
def guardAttempt (p : NodePath) (attemptId : String) : M Unit := do
  validateAttemptId attemptId
  let s ← get
  if (s.node p).task.attemptId = some attemptId ∧ (s.node p).status.inFlight then pure ()
  else throw (.attemptMismatch ("attempt_mismatch: " ++ pathString p))

/-- `ZombiePolicy`. -/
inductive ZombiePolicy
  | fail
  | fob
  | adopt
deriving DecidableEq

/-- `ZombieCondition`. -/
inductive ZombieCondition
  | z1
  | z2
  | z3
deriving DecidableEq

/-- `ZombieDetector`: the authentication mode and the policy. -/
structure ZombieDetector where
  authEnabled : Bool
  policy : ZombiePolicy

/-- `_constant_time_equal`: two passwords match when they are equal and not empty. -/
def passwordsMatch (left right : Option String) : Bool :=
  left.getD "" ≠ "" && right.getD "" ≠ "" && left = right

/-- `detect_zombie_condition`; only an `init` carries a job id. -/
def ZombieDetector.detect (z : ZombieDetector) (n : NodeState) (init : Option String)
    (password : Option String) : Option ZombieCondition :=
  if z.authEnabled ∧ ¬ passwordsMatch password n.task.jobPassword then some .z1
  else if ¬ n.status.inFlight then some .z2
  else
    match init with
    | some taskId =>
      if n.status = .active ∧ taskId ≠ n.task.taskId.getD "" then some .z3 else none
    | none => none

/-- The name of a condition. -/
def ZombieCondition.text : ZombieCondition → String
  | z1 => "Z1"
  | z2 => "Z2"
  | z3 => "Z3"

/-- Whether something is left of a password after `str.strip`. -/
def notBlank (password : String) : Bool := (CodePoints.ofString password).strip ≠ []

/-- `ZombieDetector.guard` and `dispose_zombie`: whether the command goes on. The policy `adopt`
takes the password of the call over and marks no change. -/
def guardChildCommand (z : Option ZombieDetector) (p : NodePath) (command : String)
    (init password : Option String) : M Bool := do
  let s ← get
  match z with
  | none => return true
  | some z =>
    match z.detect (s.node p) init password with
    | none => return true
    | some condition =>
      match z.policy with
      | .fail => throw (.zombie ("zombie " ++ command ++ " on " ++ pathString p ++ ": hit " ++
          condition.text ++ ", status is " ++ (s.node p).status.text ++ ", applying policy fail"))
      | .fob => return false
      | .adopt => do
        when (notBlank (password.getD "")) do
          modifyTask p fun k => { k with jobPassword := password }
        return true

/-- `_guard_child_target`: the task that reports an event or a meter of a node of its flow. -/
def guardChildTarget (b : Bunch) (target : NodePath) (source : List String)
    (attemptId : String) : M NodePath :=
  if source = [] then throw (.invalidRequest "source_task_path is required")
  else
    match (b.findNode source).filter fun p => b.isTask p with
    | none => throw (.invalidRequest "source_task_path must identify a current Task")
    | some p =>
      if flowName p ≠ flowName target then
        throw (.invalidRequest "source and target must belong to the same flow")
      else do
        guardAttempt p attemptId
        return p

/-- `run_command_init`: a repeated report of the same job is acknowledged. -/
def commandInit (b : Bunch) (z : Option ZombieDetector) (parts : List String)
    (taskId attemptId : String) (password : Option String) : M Unit := do
  validateAttemptId attemptId
  let (p, t) ← findTaskOrRaise b parts
  guardAttempt p attemptId
  let s ← get
  if (s.node p).status = .active then
    if (s.node p).task.taskId ≠ some taskId then
      throw (.zombie ("conflicting task_id: " ++ pathString p))
    else if (z.bind fun z => z.detect (s.node p) (some taskId) password).isSome then
      throw (.zombie ("duplicate init credential mismatch: " ++ pathString p))
    else pure ()
  else do
    if ← guardChildCommand z p "init" (some taskId) password then Task.init b p t taskId else pure ()

/-- `run_command_complete` and `run_command_abort` up to the report itself. -/
def commandReport (b : Bunch) (z : Option ZombieDetector) (parts : List String)
    (command attemptId : String) (password : Option String) (report : NodePath → Tree → M Unit) :
    M Unit := do
  validateAttemptId attemptId
  let (p, t) ← findTaskOrRaise b parts
  guardAttempt p attemptId
  if ← guardChildCommand z p command none password then report p t else pure ()

/-- `run_command_event` and `run_command_meter` up to the setting itself. -/
def commandSetVariable (b : Bunch) (z : Option ZombieDetector) (parts source : List String)
    (command attemptId : String) (password : Option String)
    (setting : NodePath → Tree → M Bool) : M Unit := do
  validateAttemptId attemptId
  let (p, t) ← findNodeOrRaise b parts
  let src ← guardChildTarget b p source attemptId
  if ← guardChildCommand z src command none password then do
    let _ ← setting p t
    pure ()
  else pure ()

/-! ### Control commands -/

/-- `_run_node`. -/
def runNode (b : Bunch) (parts : List String) (force : Bool) : M Unit := do
  let (p, t) ← findNodeOrRaise b parts
  requireBegun p
  if t.isTask then do
    requireRunning
    let s ← get
    if ¬ force ∧ (s.node p).status.inFlight then
      throw (.flowState "task is already submitted or active")
    else do
      if ← Task.run b p t then pure ()
      else throw (.jobSubmission "synchronous task submission failed")
  else throw (.nodeType "run requires a Task")

/-- The preflight of `_force_path` for a status in flight. -/
def State.hasCurrentAttempt (s : State) (p : NodePath) : Bool :=
  (s.node p).status.inFlight && (s.node p).task.tryNo ≠ 0 &&
  (s.node p).task.attemptId.getD "" ≠ "" && (s.node p).task.jobPassword.getD "" ≠ "" &&
  (s.node p).task.definitionGeneration = (s.flow (flowName p)).definitionGeneration

/-- `_force_path` for a node: the checks over all targets come before any change. -/
def forceNode (b : Bunch) (p : NodePath) (t : Tree) (status : NodeStatus) (recursive : Bool) :
    M Unit := do
  let s ← get
  let targets := if recursive then t.walk p else [(p, t)]
  let tasks := targets.filter fun x => x.2.isTask
  if tasks.any s.isUnknown ∧
      (recursive ∨ ¬ t.isTask ∨ (status ≠ .complete ∧ status ≠ .aborted)) then
    throw (.flowState "unknown external submission requires direct, verified terminal force")
  else if status.inFlight ∧ ¬ tasks.all fun x => s.hasCurrentAttempt x.1 then
    throw (.flowState "force in-flight status requires a current task attempt")
  else if status.inFlight ∧ ¬ tasks.all fun x => s.checkInLimitUp x.1 then
    throw (.flowState "task limit has no capacity")
  else do
    when (status = .queued) (tasks.forM fun x => clearCurrentAttempt x.1 x.2.kind)
    if recursive then sinkStatusChange b p t status else setNodeStatus b p t status

/-- `_force_path` for an event. -/
def forceEvent (p : NodePath) (name : String) (value : Bool) : M Unit := do
  let s ← get
  modifyNode p fun n => { n with eventValue := Function.update n.eventValue name value }
  when ((s.node p).eventValue name ≠ value) (notifyQueryChange p [.runtime])

/-- A command with one target. Paths are given by their parts. -/
inductive Command
  | init (path : List String) (taskId attemptId : String) (password : Option String)
  | complete (path : List String) (attemptId : String) (password : Option String)
  | abort (path : List String) (attemptId reason : String) (password : Option String)
  | event (path source : List String) (name attemptId : String) (password : Option String)
  | meter (path source : List String) (name attemptId : String) (value : ℤ)
      (password : Option String)
  | requeue (path : List String)
  | suspend (path : List String)
  | resume (path : List String)
  | run (path : List String) (force : Bool)
  | force (path : List String) (status : NodeStatus) (recursive : Bool)
  | forceEvent (path : List String) (name : String) (value : Bool)
  | freeDep (path : List String) (dep : DepType)
  | begin (flow : String) (force : Bool) (now realNow : ℤ)
  | serverHalt
  | serverResume
  | deleteInLimit (path : List String) (name : String)
deriving DecidableEq

/-- The program of a command. -/
def Command.program (b : Bunch) (z : Option ZombieDetector) : Command → M Unit
  | init path taskId attemptId password => commandInit b z path taskId attemptId password
  | complete path attemptId password =>
    commandReport b z path "complete" attemptId password fun p t => Task.complete b p t
  | abort path attemptId reason password =>
    commandReport b z path "abort" attemptId password fun p t => Task.abort b p t reason
  | event path source name attemptId password =>
    commandSetVariable b z path source "event" attemptId password fun p t =>
      setEvent p t name true
  | meter path source name attemptId value password =>
    commandSetVariable b z path source "meter" attemptId password fun p t =>
      setMeter p t name value
  | requeue path => do
    let (p, t) ← findNodeOrRaise b path
    requireBegun p
    Takler.requeue p t true
  | suspend path => do
    let (p, _) ← findNodeOrRaise b path
    Takler.suspend p
  | resume path => do
    let (p, _) ← findNodeOrRaise b path
    Takler.resume p
  | run path forced => runNode b path forced
  | force path status recursive => do
    let (p, t) ← findNodeOrRaise b path
    requireBegun p
    forceNode b p t status recursive
  | forceEvent path name value => do
    let (p, t) ← findNodeOrRaise b path
    requireBegun p
    if t.defn.events.any fun e => e.name = name then Takler.forceEvent p name value
    else throw (.nodeType "force requires a Node or Event")
  | freeDep path dep => do
    let (p, t) ← findNodeOrRaise b path
    requireBegun p
    freeDependencies p t dep
  | begin flow forced now realNow =>
    match b.node? [flow] with
    | none => throw (.nodeNotFound ("flow is not found: " ++ flow))
    | some t => Flow.begin t forced now realNow
  | serverHalt => do
    let s ← get
    if .manual ∈ s.haltCauses then pure ()
    else do
      modify fun s => { s with haltCauses := s.haltCauses ++ [.manual] }
      notifyQueryChange [] [.service]
  | serverResume => do
    let s ← get
    let causes := s.haltCauses.filter fun c => c = .checkpointFailure
    if causes ≠ s.haltCauses then do
      modify fun s => { s with haltCauses := causes }
      notifyQueryChange [] [.service]
    else pure ()
  | deleteInLimit path name => do
    let (p, t) ← findNodeOrRaise b path
    let _ ← Takler.deleteInLimit p t name
    pure ()

/-! ### Flows that come and go -/

/-- The state after a tree was constructed at a flow's place: every node is new and every task
carries the flow's generation. -/
def State.install (s : State) (b : Bunch) (f : Tree) (generation : String) : State :=
  { s with
    node := fun p =>
      if flowName p = f.name then
        match b.node? p with
        | some t =>
          { NodeState.initial t.defn with
            task := { definitionGeneration := if t.isTask then some generation else none } }
        | none => s.node p
      else s.node p
    inLimits := fun p =>
      if flowName p = f.name then ((b.node? p).map fun t => t.defn.inLimits).getD []
      else s.inLimits p
    limit := fun id =>
      if flowName id.1 = f.name then
        .empty ((((b.node? id.1).bind fun t => t.defn.limits.find? fun l => l.name = id.2).map
          LimitDef.limit).getD 0)
      else s.limit id
    flow := Function.update s.flow f.name { definitionGeneration := some generation } }

/-- A bunch with one more flow. -/
def Bunch.addFlow (b : Bunch) (f : Tree) (wf : f.WF) (isFlow : f.kind = .flow)
    (fresh : f.name ∉ b.flows.map Tree.name) : Bunch where
  flows := b.flows ++ [f]
  nodup := by
    rw [List.map_append]
    exact b.nodup.append (List.nodup_singleton _) (List.disjoint_singleton.mpr fresh)
  wf g hg := by
    rcases List.mem_append.mp hg with hg | hg
    · exact b.wf g hg
    · exact List.mem_singleton.mp hg ▸ wf
  isFlow g hg := by
    rcases List.mem_append.mp hg with hg | hg
    · exact b.isFlow g hg
    · exact List.mem_singleton.mp hg ▸ isFlow

/-- A bunch with another tree in place of the flow of the same name. -/
def Bunch.replaceFlow (b : Bunch) (f : Tree) (wf : f.WF) (isFlow : f.kind = .flow) : Bunch where
  flows := b.flows.map fun g => if g.name = f.name then f else g
  nodup := by
    have : (b.flows.map fun g => if g.name = f.name then f else g).map Tree.name =
        b.flows.map Tree.name := by
      rw [List.map_map]
      refine List.map_congr_left fun g _ => ?_
      simp only [Function.comp_apply]
      split_ifs with h
      · exact h.symm
      · rfl
    rw [this]
    exact b.nodup
  wf g hg := by
    obtain ⟨h, hh, rfl⟩ := List.mem_map.mp hg
    split_ifs
    · exact wf
    · exact b.wf h hh
  isFlow g hg := by
    obtain ⟨h, hh, rfl⟩ := List.mem_map.mp hg
    split_ifs
    · exact isFlow
    · exact b.isFlow h hh

/-- A node is found in the flow its path ends with. -/
theorem Bunch.node?_congr {b b' : Bunch} : ∀ {p : NodePath},
    (b'.flows.find? fun t => t.name = flowName p) = (b.flows.find? fun t => t.name = flowName p) →
    b'.node? p = b.node? p
  | [], _ => rfl
  | [_], h => h
  | _ :: m :: up, h => by
    have hup : b'.node? (m :: up) = b.node? (m :: up) := Bunch.node?_congr h
    rw [Bunch.node?, Bunch.node?, hup]

theorem Bunch.exists_flow {b : Bunch} : ∀ {p : NodePath} {t : Tree}, b.node? p = some t →
    ∃ f ∈ b.flows, f.name = flowName p
  | [], _, h => by cases h
  | [_], t, h => ⟨t, List.mem_of_find?_eq_some h, by simpa [flowName] using List.find?_some h⟩
  | _ :: m :: up, _, h => by
    obtain ⟨u, hu, -⟩ := Option.bind_eq_some_iff.mp h
    obtain ⟨f, hf, hname⟩ := Bunch.exists_flow hu
    exact ⟨f, hf, by simpa [flowName] using hname⟩

theorem Bunch.node?_addFlow {b : Bunch} {f : Tree} (wf : f.WF) (isFlow : f.kind = .flow)
    (fresh : f.name ∉ b.flows.map Tree.name) {p : NodePath} (hp : flowName p ≠ f.name) :
    (b.addFlow f wf isFlow fresh).node? p = b.node? p := by
  refine Bunch.node?_congr ?_
  have hf : ¬ f.name = flowName p := Ne.symm hp
  simp [Bunch.addFlow, List.find?_append, hf]

theorem Bunch.node?_replaceFlow {b : Bunch} {f : Tree} (wf : f.WF) (isFlow : f.kind = .flow)
    {p : NodePath} (hp : flowName p ≠ f.name) :
    (b.replaceFlow f wf isFlow).node? p = b.node? p := by
  refine Bunch.node?_congr ?_
  simp only [Bunch.replaceFlow]
  induction b.flows with
  | nil => rfl
  | cons g gs ih =>
    rw [List.map_cons, List.find?_cons, List.find?_cons, ih]
    by_cases hg : g.name = f.name
    · simp [hg, Ne.symm hp]
    · simp [hg]

/-- `_check_idle`: a flow in use is not replaced. -/
def State.isIdle (s : State) (b : Bunch) (old : Tree) : Bool :=
  ((old.walk [old.name]).all fun x =>
    ¬ (s.node x.1).status.inFlight &&
    x.2.defn.limits.all fun l =>
      (s.limit (x.1, l.name)).value = 0 && decide ((s.limit (x.1, l.name)).holders = ∅)) &&
  ((b.flows.flatMap fun f => f.walk [f.name]).all fun x =>
    x.2.defn.limits.all fun l =>
      decide (∀ p ∈ (s.limit (x.1, l.name)).holders, flowName p ≠ old.name))

/-- `_reference_updates`: what other flows refer to in the replaced flow is in the new one. -/
def Bunch.keepsReferences (b : Bunch) (f : Tree) (b' : Bunch) : Bool :=
  (b.flows.flatMap fun g => if g.name = f.name then [] else g.walk [g.name]).all fun x =>
    (x.2.defn.inLimits.all fun i =>
      flowName i.limit.1 ≠ f.name ||
      ((b'.node? i.limit.1).any fun t =>
        t.defn.limits.any fun l => l.name = i.limit.2 && decide (i.tokens ≤ l.limit))) &&
    ([x.2.defn.trigger, x.2.defn.completeTrigger].all fun o =>
      o.all fun ast => ast.refs.all fun p => flowName p ≠ f.name || (b'.node? p).isSome)

/-- A bunch and its state. -/
structure World where
  bunch : Bunch
  state : State

/-- A step of the server. -/
inductive Action
  /-- A command of a client. -/
  | command (z : Option ZombieDetector) (c : Command)
  /-- One visit of the dependency scan: a container is checked, a task resolved. -/
  | visit (p : NodePath)
  /-- A whole pass of `resolve_dependencies` over a flow. -/
  | resolve (flow : String)
  /-- `Flow.update_calendar`. -/
  | updateCalendar (flow : String) (now : ℤ)
  /-- A shell submission fails. -/
  | jobFailure (x : Submission) (submissionError : Bool) (reason : String)
      (reason_ne : reason ≠ "")
  /-- A shell submission is skipped before its process starts. -/
  | jobSkipped (x : Submission)
  /-- A parameter changes. -/
  | parameter (p : NodePath) (name : String) (value : Value)
  /-- Files move: the index can forget these paths no more. -/
  | relink (moved : NodePath → String → Bool)
  /-- `run_command_load`. -/
  | load (f : Tree) (wf : f.WF) (isFlow : f.kind = .flow) (generation : String)
  /-- `run_command_replace`. -/
  | replace (f : Tree) (wf : f.WF) (isFlow : f.kind = .flow) (generation : String)
      (now realNow : ℤ)

/-- Whether the scan goes on with a flow. -/
def State.scans (s : State) (flow : String) : Bool :=
  (s.flow flow).begun && s.haltCauses.isEmpty && !s.serviceStopping

/-- The program of a step that keeps the flows. -/
def Action.program (b : Bunch) (s : State) : Action → Option (M Unit)
  | command z c => some (c.program b z)
  | visit p =>
    if s.scans (flowName p) then
      (b.node? p).map fun t => do
        let _ ← if t.isTask then resolveDependencies b p t else checkDependencies b p t
        pure ()
    else none
  | resolve flow =>
    if s.scans flow then
      (b.node? [flow]).map fun t => do
        let _ ← resolveDependencies b [flow] t
        pure ()
    else none
  | updateCalendar flow now =>
    if s.scans flow then (b.node? [flow]).map fun t => Flow.updateCalendar t now else none
  | jobFailure x submissionError reason _ =>
    if x ∈ s.submissions then
      ((b.node? x.path).filter fun t => t.kind = .shell).map fun t =>
        Shell.onFailure b t x submissionError reason
    else none
  | jobSkipped x =>
    if x ∈ s.submissions then
      ((b.node? x.path).filter fun t => t.kind = .shell).map fun t => Shell.onSkipped b t x
    else none
  | parameter p name value => some (modify fun s =>
      { s with parameterValue :=
        Function.update s.parameterValue p (Function.update (s.parameterValue p) name value) })
  | relink _ | load _ _ _ _ | replace _ _ _ _ _ _ => none

/-- Files move. -/
def World.relink (w : World) (moved : NodePath → String → Bool) : World :=
  ⟨w.bunch, { w.state with moved }⟩

/-- `run_command_load` after the definition was accepted: a flow of a new name. -/
def World.load (w : World) (f : Tree) (wf : f.WF) (isFlow : f.kind = .flow)
    (generation : String) : Option World :=
  if fresh : f.name ∉ w.bunch.flows.map Tree.name then
    let b := w.bunch.addFlow f wf isFlow fresh
    let s := w.state.install b f generation
    some ⟨b, { s with marks := s.marks ++ [⟨[f.name], [], true⟩, ⟨[f.name], [], true⟩] }⟩
  else none

/-- `replace_flow` after the definition was accepted: the new tree is begun before it takes the
place of the old one, and keeps the old flow's suspension. -/
def World.replace (w : World) (f : Tree) (wf : f.WF) (isFlow : f.kind = .flow)
    (generation : String) (now realNow : ℤ) : Option World :=
  match w.bunch.node? [f.name] with
  | none => none
  | some old =>
    let b := w.bunch.replaceFlow f wf isFlow
    if w.bunch.keepsReferences f b ∧ w.state.isIdle w.bunch old then
      let s := ((Flow.begin f false now realNow).exec (w.state.install b f generation)).2
      some ⟨b, { s with
        node := Function.update s.node [f.name]
          { s.node [f.name] with suspended := (w.state.node [f.name]).suspended }
        marks := w.state.marks ++ [⟨[f.name], [], true⟩] }⟩
    else none

theorem World.load_eq_some {w w' : World} {f : Tree} {wf : f.WF} {isFlow : f.kind = .flow}
    {generation : String} (h : w.load f wf isFlow generation = some w') :
    ∃ fresh marks, w' = ⟨w.bunch.addFlow f wf isFlow fresh,
      { w.state.install (w.bunch.addFlow f wf isFlow fresh) f generation with marks }⟩ := by
  unfold World.load at h
  split_ifs at h with fresh
  cases h
  exact ⟨fresh, _, rfl⟩

theorem World.replace_eq_some {w w' : World} {f : Tree} {wf : f.WF} {isFlow : f.kind = .flow}
    {generation : String} {now realNow : ℤ}
    (h : w.replace f wf isFlow generation now realNow = some w') :
    f ∈ (w.bunch.replaceFlow f wf isFlow).flows ∧ ∃ suspended marks,
      let s := ((Flow.begin f false now realNow).exec
        (w.state.install (w.bunch.replaceFlow f wf isFlow) f generation)).2
      w' = ⟨w.bunch.replaceFlow f wf isFlow, { s with
        node := Function.update s.node [f.name] { s.node [f.name] with suspended }, marks }⟩ := by
  unfold World.replace at h
  split at h
  · cases h
  · rename_i old hold
    dsimp only at h
    split_ifs at h
    cases h
    have hname : old.name = f.name := by simpa using List.find?_some hold
    exact ⟨List.mem_map.mpr ⟨old, List.mem_of_find?_eq_some hold, if_pos hname⟩, _, _, rfl⟩

/-- A step of the server, when it is enabled. -/
def World.step (w : World) : Action → Option World
  | .relink moved => some (w.relink moved)
  | .load f wf isFlow generation => w.load f wf isFlow generation
  | .replace f wf isFlow generation now realNow => w.replace f wf isFlow generation now realNow
  | a => (a.program w.bunch w.state).map fun m => ⟨w.bunch, (m.exec w.state).2⟩

/-- What a step of the server can be. -/
theorem World.step_cases {w w' : World} {a : Action} (h : w.step a = some w') :
    (∃ moved, a = .relink moved ∧ w' = w.relink moved) ∨
    (∃ f wf isFlow generation, a = .load f wf isFlow generation ∧
      w.load f wf isFlow generation = some w') ∨
    (∃ f wf isFlow generation now realNow, a = .replace f wf isFlow generation now realNow ∧
      w.replace f wf isFlow generation now realNow = some w') ∨
    ∃ m, a.program w.bunch w.state = some m ∧ w' = ⟨w.bunch, (m.exec w.state).2⟩ := by
  have hstatic (h : (a.program w.bunch w.state).map
      (fun m => (⟨w.bunch, (m.exec w.state).2⟩ : World)) = some w') :
      ∃ m, a.program w.bunch w.state = some m ∧ w' = ⟨w.bunch, (m.exec w.state).2⟩ := by
    obtain ⟨m, hm, rfl⟩ := Option.map_eq_some_iff.mp h
    exact ⟨m, hm, rfl⟩
  cases a with
  | relink moved => exact .inl ⟨moved, rfl, (Option.some_inj.mp h).symm⟩
  | load f wf isFlow generation => exact .inr (.inl ⟨f, wf, isFlow, generation, rfl, h⟩)
  | replace f wf isFlow generation now realNow =>
    exact .inr (.inr (.inl ⟨f, wf, isFlow, generation, now, realNow, rfl, h⟩))
  | _ => exact .inr (.inr (.inr (hstatic h)))

/-- A bunch without flows. -/
def Bunch.empty : Bunch where
  flows := []
  nodup := List.nodup_nil
  wf _ hf := absurd hf List.not_mem_nil
  isFlow _ hf := absurd hf List.not_mem_nil

/-- The state of a bunch without flows. -/
def State.empty (entropy : ℕ → Draw) : State where
  node _ := { eventValue := fun _ => false, meterValue := fun _ => 0 }
  parameterValue _ _ := .none
  inLimits _ := []
  limit _ := .empty 0
  flow _ := {}
  haltCauses := []
  serviceStopping := false
  marks := []
  submissions := []
  entropy
  drawn := 0
  moved _ _ := false

/-- **The server**: it starts without flows. -/
def server : StepSystem World Action where
  init w := ∃ entropy, w = ⟨.empty, .empty entropy⟩
  step := World.step

/-- Numbered attempts, one text for everything else that is drawn, and one artifact path. -/
def Draw.fixed (external : Bool) (n : ℕ) : Draw where
  attemptId := "attempt " ++ toString n
  password := "secret"
  timestamp := "now"
  artifacts := { job := some "/work/t.job1" }
  submissionError := none
  external
  attemptId_ne := by simp
  password_ne := by decide

/-- A server without flows that draws them. -/
def World.start (external : Bool) : World := ⟨.empty, .empty (Draw.fixed external)⟩

theorem World.start_init (external : Bool) : server.init (World.start external) := ⟨_, rfl⟩

end Takler
