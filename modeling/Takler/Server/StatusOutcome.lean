import Takler.Core.CompletionAdvance
import Takler.Core.StatusOutcome
import Takler.Server.Scheduler

/-!
# What a force, a complete trigger and a completion achieve

`force` is documented to set a node to a status whatever the node is, and a complete trigger to
complete its node. Both set the status and let it swim up, so that a container with children shows
the status of its children afterwards. A recursive force sets the children first and always
arrives. A completion of a task swims up twice and may advance a repeat twice.

## Main results

* `force_reaches_status_iff`: when a force arrives, where no repeat is involved.
* `complete_trigger_completes_iff`: when a complete trigger completes its node.
* `complete_advances_once_iff`: when a completion advances every repeat at most once.
-/

namespace Takler

open Program

variable {b : Bunch} {p : NodePath} {t : Tree}

/-- No status has changed. -/
private def SameStatuses (s s' : State) : Prop := ∀ q, (s'.node q).status = (s.node q).status

private instance : Std.Refl SameStatuses := ⟨fun _ _ => rfl⟩

private instance : IsTrans State SameStatuses := ⟨fun _ _ _ h h' q => (h' q).trans (h q)⟩

/-- A force to queued clears attempts first, which changes no status. -/
private theorem sameStatuses_clearAll (l : List (NodePath × Tree)) :
    Within SameStatuses (l.forM fun x => clearCurrentAttempt x.1 x.2.kind) :=
  .forM fun x _ s => ((cleared_clearCurrentAttempt x.1 x.2.kind s).exec rfl).status

/-- The target has the status, and with `recursive` everything below it as well. -/
def State.Forced (p : NodePath) (t : Tree) (status : NodeStatus) (recursive : Bool)
    (s : State) : Prop :=
  (s.node p).status = status ∧
    (recursive = true → ∀ x ∈ t.walk p, (s.node x.1).status = status)

/-- A force that is not refused. -/
theorem forceNode_forced_iff (hb : b.node? p = some t) (hrepeat : b.Unrepeated p)
    (status : NodeStatus) (recursive : Bool) (s : State) :
    Triple (· = s) (forceNode b p t status recursive)
      (fun _ u => u.Forced p t status recursive ↔
        recursive = true ∨ (s.node p).status = status ∨ t.KeepsStatus p status s)
      (fun _ _ => True) := by
  refine Triple.get_bind ?_
  rintro s rfl
  refine Triple.ite (fun _ => Triple.throw fun _ _ => trivial) fun _ => Triple.ite
    (fun _ => Triple.throw fun _ _ => trivial) fun _ => Triple.ite
      (fun _ => Triple.throw fun _ _ => trivial) fun _ => Triple.bind
        (Q := fun _ => SameStatuses s) ?_ fun _ =>
          Triple.of_forall fun v hv => ?_
  · refine Triple.when (fun _ => ((sameStatuses_clearAll _).triple s).conseq (fun _ hu => hu)
      (fun _ _ hv => hv) fun _ _ _ => trivial) fun _ => ?_
    rintro _ rfl _
    rfl
  cases recursive with
  | true =>
    obtain ⟨u, hu, hall⟩ := exec_sinkStatusChange hb hrepeat status v
    rintro _ rfl
    rw [if_pos rfl, hu]
    exact iff_of_true ⟨hall (p, t) (Tree.self_mem_walk p t), fun _ => hall⟩ (.inl rfl)
  | false =>
    obtain ⟨u, hu, hiff⟩ := exec_setNodeStatus hb hrepeat status v
    rintro _ rfl
    rw [if_neg Bool.false_ne_true, hu]
    change (u.Forced p t status false ↔ _)
    rw [hv, Tree.KeepsStatus.congr fun q _ => hv q] at hiff
    simp [State.Forced, hiff]

/-! ### A container that does not complete -/

/-- The trigger `/f/a == complete`. -/
def firstComplete : Ast NodePath := .cmp .eq (.nodePath ["a", "f"]) (.nodeStatus .complete)

/-- A task with the complete trigger. -/
def triggeredTask : Tree :=
  .node { name := "b", kind := .task, completeTrigger := some firstComplete } []

/-- The complete trigger on a task and on a container with a task. -/
def triggeredTree : Tree :=
  .node { name := "f", kind := .flow }
    [.node { name := "a", kind := .task } [], triggeredTask,
      .node { name := "c", kind := .container, completeTrigger := some firstComplete }
        [.node { name := "t", kind := .task } []]]

/-- The task that the triggers wait for completes. -/
def triggeredRun : List Action :=
  [.load triggeredTree (by decide) rfl "g", .command none (.begin "f" false 0 0),
    .command none (.force ["f", "a"] .complete false)]

/-- The bunch of the run has the one flow, and no repeat in it. -/
private theorem triggeredRun_bunch {w : World}
    (hw : server.run StepSystem.Free (.start false) triggeredRun = some w) :
    w.bunch.flows = [triggeredTree] ∧
      ∀ q v, w.bunch.node? q = some v → v.defn.repeatDate = none := by
  have hflows : (server.run StepSystem.Free (.start false) triggeredRun).map
      (fun w => w.bunch.flows) = some [triggeredTree] := by rfl
  rw [hw, Option.map_some, Option.some_inj] at hflows
  refine ⟨hflows, fun q v hv => ?_⟩
  have hall : ∀ x ∈ [triggeredTree].flatMap fun f => f.walk [f.name],
      x.2.defn.repeatDate = none := by decide
  have hmem := Bunch.mem_nodes.mpr hv
  rw [Bunch.nodes, hflows] at hmem
  exact hall (q, v) hmem

/-! ### Forces and complete triggers -/

/-- **A force that succeeds reaches its status** exactly when it is recursive, or the target has
the status already, or the target keeps a status: it is a task, has no children, or its children
show that status. -/
theorem force_reaches_status_iff {z : Option ZombieDetector} {path : List String}
    {status : NodeStatus} {recursive : Bool} {s u : State} (hfind : b.findNode path = some p)
    (hb : b.node? p = some t)
    (hrepeat : ∀ q v, b.node? q = some v → q <:+ p ∨ p <:+ q → v.defn.repeatDate = none)
    (hok : exec ((Command.force path status recursive).program b z) s = (.ok (), u)) :
    u.Forced p t status recursive ↔
      recursive = true ∨ (s.node p).status = status ∨ t.KeepsStatus p status s := by
  have hforce : Triple (· = s) ((Command.force path status recursive).program b z)
      (fun _ u => u.Forced p t status recursive ↔
        recursive = true ∨ (s.node p).status = status ∨ t.KeepsStatus p status s)
      (fun _ _ => True) := by
    refine Triple.bind (Q := fun x v => x = (p, t) ∧ v = s) ?_ fun x => ?_
    · rintro _ rfl
      simp [findNodeOrRaise, hfind, hb]
    · refine Triple.of_forall ?_
      rintro v ⟨rfl, rfl⟩
      refine Triple.bind (Q := fun _ => (· = v)) (Triple.get_bind ?_) fun _ =>
        forceNode_forced_iff hb (fun q v hq hv => hrepeat q v hv (.inl hq)) status recursive _
      rintro v rfl
      exact Triple.ite (fun _ => Triple.pure fun _ hu => hu) fun _ =>
        Triple.throw fun _ _ => trivial
  have := hforce s rfl
  rwa [hok] at this

theorem recursiveForce_reaches : ∃ w u c,
    server.run StepSystem.Free (.start false) triggeredRun = some w ∧
      exec ((Command.force ["f", "c"] .complete true).program w.bunch none) w.state = (.ok (), u) ∧
      w.bunch.node? ["c", "f"] = some c ∧ u.Forced ["c", "f"] c .complete true := by
  have hview : (server.run StepSystem.Free (.start false) triggeredRun).map (fun w =>
      ((exec ((Command.force ["f", "c"] .complete true).program w.bunch none) w.state).1.toOption,
        w.bunch.findNode ["f", "c"], (w.bunch.node? ["c", "f"]).isSome)) =
      some (some (), some ["c", "f"], true) := by decide +kernel
  obtain ⟨w, hw, hview⟩ := Option.map_eq_some_iff.mp hview
  obtain ⟨hok, hfind, hc⟩ : _ ∧ _ ∧ _ := by simpa only [Prod.mk.injEq] using hview
  obtain ⟨c, hc⟩ := Option.isSome_iff_exists.mp hc
  obtain ⟨u, hu⟩ : ∃ u, exec ((Command.force ["f", "c"] .complete true).program w.bunch none)
      w.state = (.ok (), u) := ⟨_, Prod.ext (Except.toOption_eq_some.mp hok) rfl⟩
  exact ⟨w, u, c, hw, hu, hc, (force_reaches_status_iff hfind hc
    (fun q v hv _ => (triggeredRun_bunch hw).2 q v hv) hu).mpr (.inl rfl)⟩

/-- A force of a container alone succeeds and leaves it queued, like its task. -/
theorem force_leaves_container_queued :
    (server.run StepSystem.Free (.start false) triggeredRun).map (fun w =>
      let r := exec ((Command.force ["f", "c"] .complete false).program w.bunch none) w.state
      (r.1.isOk, (r.2.node ["c", "f"]).status)) = some (true, .queued) := by
  decide +kernel

/-- **A complete trigger that holds** completes a queued node exactly when the node keeps the
status: a container whose children are not complete takes their status again. -/
theorem complete_trigger_completes_iff {s : State} (hb : b.node? p = some t)
    (hrepeat : b.Unrepeated p) (hsuspended : (s.node p).suspended = false)
    (hqueued : (s.node p).status = .queued) (htime : s.resolveTimeDependencies p t = .ok true)
    (htrigger : s.evaluateCompleteTrigger b p t = .ok true) :
    ∃ u, exec (checkDependencies b p t) s = (.ok false, u) ∧
      ((u.node p).status = .complete ↔ t.KeepsStatus p .complete s) := by
  obtain ⟨v, hv, hquiet⟩ := Effect.when (c := ¬ (s.node p).isCompleteTriggered)
    ((effect_modifyNode p (f := fun n => { n with isCompleteTriggered := true })
      (fun _ => rfl) (fun _ => rfl) fun _ => .refl _).trans
        (effect_notifyQueryChange p [.runtime] false)) s
  obtain ⟨u, hu, hiff⟩ := exec_setNodeStatus hb hrepeat .complete v
  have hcheck : exec (Node.checkDependencies b p t) s = (.ok false, u) := by
    simp only [Node.checkDependencies, exec_bind, exec_get, hsuspended, htime, htrigger, liftEval,
      completeByTrigger, hv, hu, exec_pure, if_true, Bool.false_eq_true, if_false]
  refine ⟨u, ?_, ?_⟩
  · unfold checkDependencies
    split_ifs
    · simp [exec_bind, hqueued, hcheck]
    · exact hcheck
  · rw [hiff, hquiet.status, hqueued, Tree.KeepsStatus.congr fun q _ => hquiet.status q]
    simp

theorem triggeredTask_completes : ∃ w u,
    server.run StepSystem.Free (.start false) triggeredRun = some w ∧
      w.bunch.node? ["b", "f"] = some triggeredTask ∧
      exec (checkDependencies w.bunch ["b", "f"] triggeredTask) w.state = (.ok false, u) ∧
      (u.node ["b", "f"]).status = .complete := by
  have hview : (server.run StepSystem.Free (.start false) triggeredRun).map (fun w =>
      (w.bunch.node? ["b", "f"], (w.state.node ["b", "f"]).suspended,
        (w.state.node ["b", "f"]).status, w.state.resolveTimeDependencies ["b", "f"] triggeredTask,
        w.state.evaluateCompleteTrigger w.bunch ["b", "f"] triggeredTask)) =
      some (some triggeredTask, false, .queued, .ok true, .ok true) := by rfl
  obtain ⟨w, hw, hview⟩ := Option.map_eq_some_iff.mp hview
  obtain ⟨hnode, hsuspended, hqueued, htime, htrigger⟩ : _ ∧ _ ∧ _ ∧ _ ∧ _ := by
    simpa only [Prod.mk.injEq] using hview
  obtain ⟨u, hu, hiff⟩ := complete_trigger_completes_iff hnode
    (fun q v _ hv => (triggeredRun_bunch hw).2 q v hv) hsuspended hqueued htime htrigger
  exact ⟨w, u, hw, hnode, hu, hiff.mpr (.inl rfl)⟩

/-- The trigger of the container holds, and the container stays queued. -/
theorem complete_trigger_leaves_container_queued :
    (server.run StepSystem.Free (.start false) (triggeredRun ++ [.visit ["c", "f"]])).map
      (fun w => ((w.state.node ["c", "f"]).isCompleteTriggered,
        (w.state.node ["c", "f"]).status)) = some (true, .queued) := by
  decide +kernel

/-! ### Completions and repeats -/

/-- The first days of the calendar up to the third or the second one. -/
def firstDays (third : Bool) : RepeatDate where
  name := "DAY"
  startDate := 1
  endDate := if third then 3 else 2
  step := 1
  start_le := by cases third <;> decide
  end_le := by cases third <;> decide
  step_pos := Nat.one_pos

/-- A task that repeats and is complete by default. -/
def twiceTask (name : String) (third : Bool) : Tree :=
  .node { name := name, kind := .task, defaultNodeStatus := .complete
          repeatDate := some (firstDays third) } []

/-- One task over three days and one over two. -/
def twiceTree : Tree :=
  .node { name := "f", kind := .flow } [twiceTask "a" true, twiceTask "b" false]

/-- Both tasks are run by hand. -/
def twiceRun : List Action :=
  [.load twiceTree (by decide) rfl "g", .command none (.begin "f" false 0 0),
    .command none (.run ["f", "a"] false), .command none (.run ["f", "b"] false)]

/-- **A completion of a task in flight advances the repeats** of the task and of its ancestors by at
most one step each, exactly when none of them advances twice. -/
theorem complete_advances_once_iff {s : State} (hp : b.node? p = some t) (ht : t.isTask = true)
    (hflight : (s.node p).status.inFlight = true) :
    (∀ q r, q <:+ p → b.repeatDate? q = some r →
      ((exec (Task.complete b p t) s).2.node q).repeatValue = (s.node q).repeatValue ∨
      ((exec (Task.complete b p t) s).2.node q).repeatValue = (s.node q).repeatValue + r.step) ↔
      ∀ q, ¬ b.AdvancesTwice s.glance p q := by
  have hstepped : Stepped b s.glance p (exec (Task.complete b p t) s).2.glance :=
    (complete_stepped hp ht hflight).exec rfl
  constructor
  · intro hall q htwice
    obtain ⟨r, hr, -⟩ := htwice.next
    have hvalue : ((exec (Task.complete b p t) s).2.node q).repeatValue =
      (s.node q).repeatValue + 2 * r.step := (hstepped q r hr).1 htwice
    have hpos := r.step_pos
    rcases hall q r htwice.advances.1.suffix hr with h | h <;> omega
  · exact fun hnone q r _ hr => (hstepped q r hr).2 (hnone q)

/-- The task with one more value completes. -/
theorem twiceTask_advances_once : ∃ w : World,
    server.run StepSystem.Free (.start false) twiceRun = some w ∧
      (w.state.node ["b", "f"]).status = .submitted ∧
      ∀ q r, q <:+ ["b", "f"] → w.bunch.repeatDate? q = some r →
        ((exec (Task.complete w.bunch ["b", "f"] (twiceTask "b" false)) w.state).2.node
          q).repeatValue = (w.state.node q).repeatValue ∨
        ((exec (Task.complete w.bunch ["b", "f"] (twiceTask "b" false)) w.state).2.node
          q).repeatValue = (w.state.node q).repeatValue + r.step := by
  have hview : (server.run StepSystem.Free (.start false) twiceRun).map (fun w =>
      (w.bunch.flows, (w.state.node ["b", "f"]).status, (w.state.node ["b", "f"]).repeatValue)) =
      some ([twiceTree], .submitted, 1) := by rfl
  obtain ⟨w, hw, hview⟩ := Option.map_eq_some_iff.mp hview
  obtain ⟨hflows, hstatus, hvalue⟩ : _ ∧ _ ∧ _ := by simpa only [Prod.mk.injEq] using hview
  have hflow : w.bunch.node? ["f"] = some twiceTree := by
    rw [Bunch.node?, hflows]
    rfl
  have hnode : w.bunch.node? ["b", "f"] = some (twiceTask "b" false) :=
    Bunch.node?_child (c := twiceTask "b" false) hflow (by simp [twiceTree, Tree.children])
  refine ⟨w, hw, hstatus, (complete_advances_once_iff hnode rfl (by rw [hstatus]; rfl)).mpr
    fun q htwice => ?_⟩
  obtain ⟨r, hr, hle⟩ := htwice.next
  rw [Bunch.reported_repeatValue] at hle
  have hq : q = ["b", "f"] ∨ q = ["f"] ∨ q = [] := by
    simpa [List.suffix_cons_iff] using htwice.advances.1.suffix
  rcases hq with rfl | rfl | rfl
  · rw [Bunch.repeatDate?_eq hnode] at hr
    obtain rfl := Option.some_inj.mp hr
    change (w.state.node ["b", "f"]).repeatValue + _ ≤ _ at hle
    rw [hvalue] at hle
    exact absurd hle (by decide)
  · rw [Bunch.repeatDate?_eq hflow] at hr
    cases hr
  · cases hr

/-- The completion of the task with two more values takes both. -/
theorem complete_advances_repeat_twice :
    (server.run StepSystem.Free (.start false) twiceRun).map (fun w =>
      ((w.state.node ["a", "f"]).status, (w.state.node ["a", "f"]).repeatValue,
        ((exec (Task.complete w.bunch ["a", "f"] (twiceTask "a" true)) w.state).2.node
          ["a", "f"]).repeatValue)) = some (.submitted, 1, 3) := by
  decide +kernel

end Takler
