import Takler.Server.AttemptIdentity

/-!
# The submit commands of shell tasks

A submission of a shell task is an asyncio task of `ShellRunner`: it checks that the submission is
still wanted, waits for one of the process slots, checks again, starts the submit command and waits
for its end. Between its turns on the event loop anything else may happen: commands, scans, other
submissions, a halt, a failed checkpoint, the shutdown. The callbacks `on_skipped` and `on_failure`
come back to the task that submitted, at a time when it may have another attempt or be gone.

The last check and the start of the process are one turn only when `asyncio.wait_for` awaits the
coroutine it is given. Up to Python 3.11 it wraps the coroutine in a task of its own, which takes
its first turn later; from Python 3.12 on it awaits it. The parameter `inline` tells the two apart.

The limit of pending commands only refuses submissions; `Draw.submissionError` stands for that.

## Main definitions

* `Shell.Stage`, `Shell.Job`, `Shell.Runner`: the submit commands on their way.
* `World.mayStart`: the check `before_start`.
* `Shell.Turn`, `Shell.Runner.step`, `Shell.runner`: the step system.
* `Shell.Record`, `Shell.Record.Proper`: what starts and callbacks leave in the log, and what is
  expected of them.

## Main results

* `Shell.exec_onFailure_of_not_owns`, `Shell.exec_onSkipped_of_not_owns`: a callback of another
  attempt does nothing.
* `Shell.Sound.step`: what one turn keeps.
* `Shell.callbacks_proper`: callbacks keep to the attempt that submitted.
* `Shell.starts_proper_iff_inline`: so do the starts of processes, exactly when the last check and
  the start are one turn.
-/

namespace Takler

open Program

/-- `before_start`: the submission is the current one of a task in the bunch, which waits for its
job, and the service takes work. -/
def World.mayStart (w : World) (x : Submission) : Bool :=
  ((w.bunch.node? x.path).any fun t => t.kind = .shell) && w.state.isCurrent x &&
  (w.state.node x.path).status = .submitted && (w.state.flow (flowName x.path)).begun &&
  w.state.haltCauses.isEmpty && !w.state.serviceStopping

/-- The attempt that made a submission is the current one of its task. -/
structure State.Owns (s : State) (x : Submission) : Prop where
  token : (s.node x.path).task.submissionToken = some x.token
  attemptId : (s.node x.path).task.attemptId = x.attemptId

theorem State.owns_of_isCurrent {s : State} {x : Submission} (h : s.isCurrent x = true) :
    s.Owns x := by
  simp only [State.isCurrent, Bool.and_eq_true, decide_eq_true_eq] at h
  exact ⟨h.1.1.1, h.1.1.2⟩

namespace Shell

/-- `MAX_RUNNING_COMMANDS`. -/
def maxRunningCommands : ℕ := 16

/-- How far a submit command is. -/
inductive Stage
  /-- The asyncio task was created and has not run. -/
  | created
  /-- It waits for a process slot. -/
  | waiting
  /-- It has a slot and made the last check; its process starts in a later turn. -/
  | checked
  /-- The process was started. -/
  | running
  /-- The asyncio task ended with an exception, and its done callback has not run. -/
  | raised (submissionError : Bool)
  | ended
deriving DecidableEq

/-- Whether a submit command has one of the process slots. -/
def Stage.holdsSlot : Stage → Bool
  | checked | running => true
  | created | waiting | raised _ | ended => false

/-- A submit command. -/
structure Job where
  submission : Submission
  stage : Stage

/-- What is seen of a submission: the state in which its process starts, and the states before and
after one of its callbacks. -/
inductive Record
  | started (x : Submission) (s : State)
  | called (x : Submission) (s s' : State)

/-- The server and its submit commands. -/
structure Runner where
  world : World
  jobs : List Job := []
  log : List Record := []

/-- One turn of the event loop. -/
inductive Turn
  /-- A step of the server, callbacks of submissions apart. -/
  | act (a : Action)
  /-- The outcome of a checkpoint is applied. -/
  | checkpointOutcome (failed : Bool)
  /-- `_shutdown_once` announces the end of the service. -/
  | stopService
  /-- `Scheduler.stop`. -/
  | stopScheduler
  /-- `run_shell_command` up to its first wait. -/
  | begin (i : ℕ)
  /-- A process slot is given to a command that waits for it. -/
  | acquire (i : ℕ)
  /-- The task that `wait_for` created takes its first turn. -/
  | start (i : ℕ)
  /-- The wait for a slot exceeds `QUEUE_WAIT_TIMEOUT_SECONDS`. -/
  | queueTimeout (i : ℕ)
  /-- The process cannot be started, fails, or exceeds `COMMAND_TIMEOUT_SECONDS`. -/
  | processFails (i : ℕ)
  | processEnds (i : ℕ)
  /-- `_on_job_done`. -/
  | done (i : ℕ) (reason : String)

namespace Runner

variable (r : Runner)

def setStage (i : ℕ) (stage : Stage) : Runner :=
  { r with jobs := r.jobs.modify i fun j => { j with stage } }

/-- Whether a process slot is free. -/
def hasSlot : Bool := decide ((r.jobs.countP fun j => j.stage.holdsSlot) < maxRunningCommands)

/-- Run a callback of a submission. It has nothing to do when its task is not in the bunch. -/
def call (x : Submission) (m : Tree → M Unit) : Except Err Unit × Runner :=
  match (r.world.bunch.node? x.path).filter fun t => t.kind = .shell with
  | none => (.ok (), { r with log := .called x r.world.state r.world.state :: r.log })
  | some t =>
    let result := (m t).exec r.world.state
    (result.1, { r with
      world := ⟨r.world.bunch, result.2⟩
      log := .called x r.world.state result.2 :: r.log })

/-- The command is not wanted any more: it ends after `on_skipped`, with the exception of the
callback when there is one. -/
def skip (i : ℕ) (x : Submission) : Runner :=
  match r.call x fun t => onSkipped r.world.bunch t x with
  | (.ok _, r) => r.setStage i .ended
  | (.error (.jobSubmission _), r) => r.setStage i (.raised true)
  | (.error _, r) => r.setStage i (.raised false)

/-- Go on with a process slot: the last check, then `wait_for`. -/
def launch (inline : Bool) (i : ℕ) (x : Submission) : Runner :=
  if r.world.mayStart x then
    if inline then { r with log := .started x r.world.state :: r.log }.setStage i .running
    else r.setStage i .checked
  else r.skip i x

/-- `skip_pending_commands` for one command, which is cancelled whatever its callback does. -/
def skipWaiting (i : ℕ) : Runner :=
  match r.jobs[i]? with
  | some ⟨x, .waiting⟩ => (r.call x fun t => onSkipped r.world.bunch t x).2.setStage i .ended
  | _ => r

/-- `skip_pending_commands`. -/
def skipPendingCommands : Runner := (List.range r.jobs.length).foldl skipWaiting r

/-- The server makes a step, and each new submission gets a command. -/
def spawn (w : World) : Runner :=
  let new := w.state.submissions.length - r.world.state.submissions.length
  { r with
    world := w
    jobs := r.jobs ++ ((w.state.submissions.take new).reverse.map fun x => ⟨x, .created⟩) }

/-- The runner with another state of the service. -/
def setService (causes : List HaltCause) (stopping : Bool) : Runner :=
  { r with world := ⟨r.world.bunch,
      { r.world.state with haltCauses := causes, serviceStopping := stopping }⟩ }

/-- A step of the server. A halt skips the commands that wait for a slot. -/
def act : Action → Option Runner
  | .jobFailure _ _ _ _ | .jobSkipped _ => none
  | .command z .serverHalt =>
    (r.world.step (.command z .serverHalt)).map fun w => (r.spawn w).skipPendingCommands
  | a => (r.world.step a).map r.spawn

/-- One turn. -/
def step (inline : Bool) : Turn → Option Runner
  | .act a => r.act a
  | .checkpointOutcome failed =>
    let causes := r.world.state.haltCauses.filter fun c => c ≠ .checkpointFailure
    some (r.setService (if failed then causes ++ [.checkpointFailure] else causes)
      r.world.state.serviceStopping)
  | .stopService => some (r.setService r.world.state.haltCauses true)
  | .stopScheduler => some (r.setService r.world.state.haltCauses true).skipPendingCommands
  | .begin i =>
    match r.jobs[i]? with
    | some ⟨x, .created⟩ =>
      if r.world.mayStart x then
        -- a free slot is taken without giving up the turn
        some (if r.hasSlot then r.launch inline i x else r.setStage i .waiting)
      else some (r.skip i x)
    | _ => none
  | .acquire i =>
    match r.jobs[i]? with
    | some ⟨x, .waiting⟩ => if r.hasSlot then some (r.launch inline i x) else none
    | _ => none
  | .start i =>
    match r.jobs[i]? with
    | some ⟨x, .checked⟩ =>
      some ({ r with log := .started x r.world.state :: r.log }.setStage i .running)
    | _ => none
  | .queueTimeout i =>
    match r.jobs[i]? with
    | some ⟨_, .waiting⟩ => some (r.setStage i (.raised true))
    | _ => none
  | .processFails i =>
    match r.jobs[i]? with
    | some ⟨_, .running⟩ => some (r.setStage i (.raised false))
    | _ => none
  | .processEnds i =>
    match r.jobs[i]? with
    | some ⟨_, .running⟩ => some (r.setStage i .ended)
    | _ => none
  | .done i reason =>
    match r.jobs[i]? with
    | some ⟨x, .raised submissionError⟩ =>
      some ((r.call x fun t => onFailure r.world.bunch t x submissionError reason).2.setStage i
        .ended)
    | _ => none

end Runner

/-- **The server with its submit commands**, on an interpreter whose `wait_for` awaits a coroutine
in the turn of its caller (`inline`) or does not. -/
def runner (inline : Bool) : StepSystem Runner Turn where
  init r := ∃ entropy, r = { world := ⟨.empty, .empty entropy⟩ }
  step r := r.step inline

/-- What is expected: a process starts for a task that waits for it under the attempt that
submitted, while the service is running and not stopping; a callback changes something only for the
attempt that submitted. -/
def Record.Proper : Record → Prop
  | started x s => s.Owns x ∧ (s.node x.path).status = .submitted ∧ s.haltCauses = [] ∧
      s.serviceStopping = false
  | called x s s' => s' ≠ s → s.Owns x

/-! ### Callbacks -/

theorem exec_onFailure_of_not_owns {b : Bunch} {t : Tree} {x : Submission} {s : State}
    (h : ¬ s.Owns x) (submissionError : Bool) (reason : String) :
    (onFailure b t x submissionError reason).exec s = (.ok (), s) := by
  have hn : ¬ (s.isCurrent x = true ∧ (s.node x.path).status.inFlight) := fun hn =>
    h (State.owns_of_isCurrent hn.1)
  rw [onFailure, exec_bind_of_ok (exec_get s), if_neg hn, exec_pure]

theorem exec_onSkipped_of_not_owns {b : Bunch} {t : Tree} {x : Submission} {s : State}
    (h : ¬ s.Owns x) : (onSkipped b t x).exec s = (.ok (), s) := by
  have hn : ¬ (s.isCurrent x = true ∧ (s.node x.path).status = .submitted) := fun hn =>
    h (State.owns_of_isCurrent hn.1)
  rw [onSkipped, exec_bind_of_ok (exec_get s), if_neg hn, exec_pure]

theorem owns_of_mayStart {w : World} {x : Submission} (h : w.mayStart x = true) :
    (Record.started x w.state).Proper := by
  simp only [World.mayStart, Bool.and_eq_true, decide_eq_true_eq, Bool.not_eq_true',
    List.isEmpty_iff] at h
  obtain ⟨⟨⟨⟨⟨-, hcurrent⟩, hstatus⟩, -⟩, hcauses⟩, hstopping⟩ := h
  exact ⟨State.owns_of_isCurrent hcurrent, hstatus, hcauses, hstopping⟩

/-! ### One turn -/

/-- The callbacks are proper. When the last check and the start are one turn, the starts are proper
too, and no command is between the two. -/
structure Sound (inline : Bool) (r : Runner) : Prop where
  called : ∀ x s s', .called x s s' ∈ r.log → (Record.called x s s').Proper
  started : inline = true → ∀ x s, .started x s ∈ r.log → (Record.started x s).Proper
  settled : inline = true → ∀ j ∈ r.jobs, j.stage ≠ .checked

namespace Sound

variable {inline : Bool} {r r' : Runner} {x : Submission}

theorem log (h : Sound true r) : ∀ o ∈ r.log, o.Proper
  | .started x s, ho => h.started rfl x s ho
  | .called x s s', ho => h.called x s s' ho

theorem setStage (h : Sound inline r) (i : ℕ) {stage : Stage}
    (hs : inline = true → stage ≠ .checked) : Sound inline (r.setStage i stage) := by
  refine ⟨h.called, h.started, fun hi j hj => ?_⟩
  obtain ⟨k, hk⟩ := List.mem_iff_getElem?.mp hj
  rw [Runner.setStage, List.getElem?_modify] at hk
  obtain ⟨j', hj', rfl⟩ := Option.map_eq_some_iff.mp hk
  split_ifs
  · exact hs hi
  · exact h.settled hi j' (List.mem_of_getElem? hj')

theorem recordStarted (h : Sound inline r) {s : State}
    (ho : inline = true → (Record.started x s).Proper) :
    Sound inline { r with log := .started x s :: r.log } where
  called y s s' hmem := h.called y s s' ((List.mem_cons.mp hmem).resolve_left nofun)
  started hi y s' hmem := by
    rcases List.mem_cons.mp hmem with heq | hmem
    · cases heq
      exact ho hi
    · exact h.started hi y s' hmem
  settled := h.settled

theorem recordCalled (h : Sound inline r) {s s' : State} (ho : (Record.called x s s').Proper) :
    Sound inline { r with log := .called x s s' :: r.log } where
  called y t t' hmem := by
    rcases List.mem_cons.mp hmem with heq | hmem
    · cases heq
      exact ho
    · exact h.called y t t' hmem
  started hi y s hmem := h.started hi y s ((List.mem_cons.mp hmem).resolve_left nofun)
  settled := h.settled

theorem world (h : Sound inline r) (w : World) : Sound inline { r with world := w } :=
  ⟨h.called, h.started, h.settled⟩

/-- A callback that does nothing for another attempt. -/
theorem call (h : Sound inline r) {m : Tree → M Unit}
    (hm : ∀ t, ¬ r.world.state.Owns x → (m t).exec r.world.state = (.ok (), r.world.state)) :
    Sound inline (r.call x m).2 := by
  unfold Runner.call
  split
  · exact h.recordCalled fun hne => absurd rfl hne
  · rename_i t _
    refine (h.world _).recordCalled fun hne => ?_
    by_contra hn
    exact hne (by rw [hm t hn])

theorem skip (h : Sound inline r) (i : ℕ) : Sound inline (r.skip i x) := by
  have hcall := h.call (m := fun t => onSkipped r.world.bunch t x) fun _ =>
    exec_onSkipped_of_not_owns
  unfold Runner.skip
  split <;> rename_i heq <;> rw [heq] at hcall
  · exact hcall.setStage i nofun
  · exact hcall.setStage i nofun
  · exact hcall.setStage i nofun

/-- The last check, and the start of the process when it is in the same turn. -/
theorem launch (h : Sound inline r) (i : ℕ) : Sound inline (r.launch inline i x) := by
  unfold Runner.launch
  split_ifs with hmay hi
  · exact (h.recordStarted fun _ => owns_of_mayStart hmay).setStage i nofun
  · exact h.setStage i fun hn => absurd hn hi
  · exact h.skip i

theorem skipWaiting (h : Sound inline r) (i : ℕ) : Sound inline (r.skipWaiting i) := by
  unfold Runner.skipWaiting
  split
  · exact (h.call fun _ => exec_onSkipped_of_not_owns).setStage i nofun
  · exact h

theorem skipPendingCommands (h : Sound inline r) : Sound inline r.skipPendingCommands := by
  unfold Runner.skipPendingCommands
  generalize List.range r.jobs.length = l
  induction l generalizing r with
  | nil => exact h
  | cons i l ih => exact ih (h.skipWaiting i)

theorem spawn (h : Sound inline r) (w : World) : Sound inline (r.spawn w) := by
  refine ⟨h.called, h.started, fun hi j hj => ?_⟩
  rcases List.mem_append.mp hj with hj | hj
  · exact h.settled hi j hj
  · obtain ⟨x, -, rfl⟩ := List.mem_map.mp hj
    exact nofun

theorem act (h : Sound inline r) {a : Action} (hs : r.act a = some r') : Sound inline r' := by
  unfold Runner.act at hs
  split at hs
  · cases hs
  · cases hs
  · obtain ⟨w, -, rfl⟩ := Option.map_eq_some_iff.mp hs
    exact (h.spawn w).skipPendingCommands
  · obtain ⟨w, -, rfl⟩ := Option.map_eq_some_iff.mp hs
    exact h.spawn w

/-- **One turn**, on either interpreter. -/
theorem step (h : Sound inline r) {turn : Turn} (hs : r.step inline turn = some r') :
    Sound inline r' := by
  cases turn with
  | act a => exact h.act hs
  | checkpointOutcome failed =>
    cases hs
    exact h.world _
  | stopService =>
    cases hs
    exact h.world _
  | stopScheduler =>
    cases hs
    exact (h.world _).skipPendingCommands
  | begin i =>
    simp only [Runner.step] at hs
    split at hs
    · split_ifs at hs <;> cases hs
      · exact h.launch i
      · exact h.setStage i nofun
      · exact h.skip i
    · cases hs
  | acquire i =>
    simp only [Runner.step] at hs
    split at hs
    · split_ifs at hs
      cases hs
      exact h.launch i
    · cases hs
  | start i =>
    simp only [Runner.step] at hs
    split at hs
    · rename_i hj
      cases hs
      refine (h.recordStarted fun hi => ?_).setStage i nofun
      exact absurd rfl (h.settled hi _ (List.mem_of_getElem? hj))
    · cases hs
  | queueTimeout i =>
    simp only [Runner.step] at hs
    split at hs <;> cases hs
    exact h.setStage i nofun
  | processFails i =>
    simp only [Runner.step] at hs
    split at hs <;> cases hs
    exact h.setStage i nofun
  | processEnds i =>
    simp only [Runner.step] at hs
    split at hs <;> cases hs
    exact h.setStage i nofun
  | done i reason =>
    simp only [Runner.step] at hs
    split at hs <;> cases hs
    exact (h.call fun _ hn => exec_onFailure_of_not_owns hn _ reason).setStage i nofun

end Sound

theorem sound_of_reachable {inline : Bool} {r : Runner}
    (h : (runner inline).Reachable StepSystem.Free r) : Sound inline r := by
  refine StepSystem.Reachable.invariant (I := Sound inline) ?_ (fun _ _ _ h _ hs => h.step hs) h
  rintro _ ⟨entropy, rfl⟩
  exact ⟨nofun, nofun, nofun⟩

/-- **Callbacks keep to their attempt**, on either interpreter. -/
theorem callbacks_proper {inline : Bool} {r : Runner}
    (h : (runner inline).Reachable StepSystem.Free r) {x : Submission} {s s' : State}
    (hmem : .called x s s' ∈ r.log) (hne : s' ≠ s) : s.Owns x :=
  (sound_of_reachable h).called x s s' hmem hne

/-- The task runs, the last check is made, the service is halted, and the process starts. -/
def haltedStart : List Turn :=
  [.act (.load shellTree shellTree_wf shellTree_kind "g"), .act (.command none (.begin "f" false 0 0)),
    .act (.command none (.run ["f", "t"] false)), .begin 0, .act (.command none .serverHalt),
    .start 0]

/-- The process of `haltedStart` starts while the service is halted. -/
private theorem haltedStart_started : ∃ r x s,
    (runner false).Reachable StepSystem.Free r ∧ .started x s ∈ r.log ∧
      s.haltCauses = [.manual] := by
  have hview : ((runner false).run StepSystem.Free { world := .start false } haltedStart).map
      (fun r => r.log.head?.map fun
        | .started _ s => s.haltCauses
        | .called _ _ _ => []) = some (some [.manual]) := by decide +kernel
  obtain ⟨r, hr, hv⟩ := Option.map_eq_some_iff.mp hview
  obtain ⟨o, ho, hcauses⟩ := Option.map_eq_some_iff.mp hv
  have hmem : o ∈ r.log := List.mem_of_head? ho
  cases o with
  | started x s => exact ⟨r, x, s, StepSystem.reachable_of_run _ ⟨_, rfl⟩ hr, hmem, hcauses⟩
  | called x s s' => cases hcauses

/-- **Submissions act on their own attempt.** In every run all starts of processes and all callbacks
are proper, exactly when the interpreter's `wait_for` awaits the coroutine in the turn of the last
check. -/
theorem starts_proper_iff_inline (inline : Bool) :
    (∀ r, (runner inline).Reachable StepSystem.Free r → ∀ o ∈ r.log, o.Proper) ↔
      inline = true := by
  constructor
  · intro h
    cases inline with
    | true => rfl
    | false =>
      obtain ⟨r, x, s, hr, hmem, hcauses⟩ := haltedStart_started
      have hrunning : s.haltCauses = [] := (h r hr _ hmem).2.2.1
      rw [hcauses] at hrunning
      cases hrunning
  · rintro rfl r hr
    exact (sound_of_reachable hr).log

theorem process_starts_in_halted_service : ∃ r x s,
    (runner false).Reachable StepSystem.Free r ∧ .started x s ∈ r.log ∧
      ¬ (Record.started x s).Proper := by
  obtain ⟨r, x, s, hr, hmem, hcauses⟩ := haltedStart_started
  refine ⟨r, x, s, hr, hmem, fun hp => ?_⟩
  have hrunning : s.haltCauses = [] := hp.2.2.1
  rw [hcauses] at hrunning
  cases hrunning

end Shell

end Takler
