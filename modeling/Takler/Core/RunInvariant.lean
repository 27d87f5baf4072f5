import Takler.Core.Invariant

/-!
# Runs keep the invariants

The operations of `Takler.Core.Task` are built on the propagation of statuses and on quiet writes:
reports of a job, runs, the callbacks of a submission, the dependency scan and the begin of a flow
keep every invariant that these keep.

A requeue may need more than the invariant, since it does not tell the ancestors: `Fit` is what it
needs of the node and of the state. A run that is refused after it drew a new attempt gives the old
one back, so that it leaves the state as it found it (`RunSustained.restore`).

Runs and the scan alone never complete a node, unless it has a complete trigger, and never requeue
one: `RunSustained` is what an invariant has to stand that only they keep.

## Main definitions

* `RunSustained`: what the invariant has to stand so that runs and the scan keep it.
* `Sustained`: what it has to stand besides, for all operations.

## Main results

* `RunSustained.init`, `RunSustained.abort`, `RunSustained.run`,
  `RunSustained.resolveDependencies`.
* `Stable.sustained`: a stable invariant is sustained, and every node is fit.
* `Sustained.complete`, `Sustained.onFailure`, `Sustained.onSkipped`, `Sustained.begin`.
-/

namespace Takler

open Program

/-- The conditions under which runs, the reports of a run and the scan keep `J`. -/
structure RunSustained (b : Bunch) (J : State → Prop) (Ready : NodePath → State → Prop) : Prop where
  quiet {s s' : State} : s.Quiet s' → J s → J s'
  ready_quiet {p : NodePath} {s s' : State} : s.Quiet s' → Ready p s → Ready p s'
  /-- A task in flight whose submission is not unknown is ready. -/
  ready_of_inFlight {p : NodePath} {s : State} : b.isTask p = true → J s →
    (s.node p).status.inFlight = true → (s.node p).task.submissionUnknownReason = none → Ready p s
  handleStatusChange {p : NodePath} {t : Tree} : b.node? p = some t →
    Keeps J (handleStatusChange b p t)
  /-- A task that is ready comes into flight, or a node aborts. -/
  setNodeStatus {p : NodePath} {t : Tree} {st : NodeStatus} : b.node? p = some t →
    st.inFlight = true ∨ st = .aborted →
    Triple (fun s => J s ∧ (t.isTask = true → st.inFlight = true → Ready p s))
      (setNodeStatus b p t st) (fun _ => J) (fun _ => J)
  /-- A new attempt. -/
  attempt {p : NodePath} : b.isTask p = true →
    Triple (fun s => J s ∧ s.checkInLimitUp p = true) (incrementTryNo p)
      (fun _ s => J s ∧ Ready p s) (fun _ => J)
  /-- A complete trigger that holds. -/
  completeByTrigger {p : NodePath} {t : Tree} : b.node? p = some t →
    t.defn.completeTrigger.isSome = true → Keeps J (completeByTrigger b p t)

namespace RunSustained

variable {b : Bunch} {J : State → Prop} {Ready : NodePath → State → Prop}

theorem keeps_quiet (h : RunSustained b J Ready) {α : Type} {m : M α}
    (hm : Within State.Quiet m) : Keeps J m :=
  hm.keeps fun _ _ hq hs => h.quiet hq hs

/-! ### Reports -/

theorem init (h : RunSustained b J Ready) {p : NodePath} {t : Tree} (hb : b.node? p = some t)
    (ht : t.isTask = true) (taskId : String) :
    Triple (fun s => J s ∧ (s.node p).status.inFlight = true) (Task.init b p t taskId)
      (fun _ => J) (fun _ => J) := by
  let Known (s : State) : Prop := J s ∧ (s.node p).status.inFlight = true ∧
    (s.node p).task.submissionUnknownReason = none
  have hquiet {α : Type} {m : M α} (hm : Within State.Quiet m) :
      Triple Known m (fun _ => Known) (fun _ => J) := by
    have : Keeps Known m := by
      refine hm.keeps fun s u hq hs => ⟨h.quiet hq hs.1, (hq.status p).symm ▸ hs.2.1, ?_⟩
      rcases (hq.task p).unknown with hu | hu
      · exact hu.trans hs.2.2
      · exact hu
    exact this.conseq (fun _ hs => hs) (fun _ _ hs => hs) fun _ _ hs => hs.1
  have hfirst : Triple (fun s => J s ∧ (s.node p).status.inFlight = true)
      (modifyTask p fun k => { k with submissionUnknownReason := none, taskId := some taskId })
      (fun _ => Known) (fun _ => J) := by
    have hq : Within State.Quiet (modifyTask p fun k =>
        { k with submissionUnknownReason := none, taskId := some taskId }) :=
      quiet_modifyTask p fun _ => ⟨rfl, rfl, rfl, rfl, .inr rfl⟩
    exact Triple.modify fun s hs => ⟨h.quiet (hq s) hs.1, by simpa using hs.2, by simp⟩
  refine hfirst.bind fun _ => (hquiet (quiet_notifyQueryChange p _ _)).bind fun _ =>
    (hquiet quiet_draw).bind fun d => Triple.bind (hquiet (quiet_recordStart p d)) fun _ =>
      Triple.bind ?_ fun _ => h.handleStatusChange hb
  · exact (h.setNodeStatus hb (.inl rfl)).pre fun s hs => ⟨hs.1, fun _ _ =>
      h.ready_of_inFlight ((Bunch.isTask_of_node? hb).trans ht) hs.1 hs.2.1 hs.2.2⟩

theorem setNodeStatus_aborted (h : RunSustained b J Ready) {p : NodePath} {t : Tree}
    (hb : b.node? p = some t) : Keeps J (Takler.setNodeStatus b p t .aborted) :=
  (h.setNodeStatus hb (.inr rfl)).pre fun _ hs => ⟨hs, fun _ hf => by cases hf⟩

theorem abort (h : RunSustained b J Ready) {p : NodePath} {t : Tree} (hb : b.node? p = some t)
    (reason : String) : Keeps J (Task.abort b p t reason) :=
  .bind (h.keeps_quiet (quiet_modifyTask p fun _ => ⟨rfl, rfl, rfl, rfl, .inr rfl⟩)) fun _ =>
    .bind (h.keeps_quiet (quiet_notifyQueryChange p _ _)) fun _ =>
      .bind (h.keeps_quiet (quiet_recordEnd p)) fun _ =>
        .bind (h.setNodeStatus_aborted hb) fun _ =>
          .bind (h.keeps_quiet (quiet_modifyTask p fun _ => ⟨rfl, rfl, rfl, rfl, .inl rfl⟩))
            fun _ => h.handleStatusChange hb

/-! ### Runs -/

/-- Giving the old attempt back undoes what happened to the task since. -/
theorem restore (h : RunSustained b J Ready) {p : NodePath} {s : State} (hs : J s) :
    Triple (State.OnlyTask p s) (restorePriorAttempt p (s.node p).task)
      (fun _ => J) (fun _ => J) := by
  refine Triple.modify fun u hu => h.quiet (hu.restored ?_ rfl) hs
  exact ⟨rfl, rfl, rfl, rfl, .inl rfl⟩

theorem doRun (h : RunSustained b J Ready) {p : NodePath} {t : Tree} (hb : b.node? p = some t) :
    Triple (fun s => J s ∧ Ready p s) (Task.doRun b p t)
      (fun started s => J s ∧ (started = true → Ready p s)) (fun _ => J) := by
  refine Triple.ite (fun _ => ?_) fun _ => Triple.pure fun s hs => ⟨hs.1, fun _ => hs.2⟩
  have hsubmit : Keeps (fun s => J s ∧ Ready p s) (Shell.submit p) :=
    (quiet_submit p).keeps fun s u hq hs => ⟨h.quiet hq hs.1, h.ready_quiet hq hs.2⟩
  refine Triple.bind (hsubmit.conseq (fun _ hs => hs) (fun _ _ hs => hs) fun _ _ hs => hs.1)
    fun error => ?_
  cases error with
  | none => exact Triple.pure fun s hs => ⟨hs.1, fun _ => hs.2⟩
  | some e =>
    refine Triple.bind ((h.abort hb _).pre fun s hs => hs.1) fun _ =>
      Triple.pure fun s hs => ⟨hs, fun hf => by cases hf⟩

theorem afterRun (h : RunSustained b J Ready) {p : NodePath} {t : Tree} (hb : b.node? p = some t) :
    Triple (fun s => J s ∧ Ready p s) (Task.afterRun b p t) (fun _ => J) (fun _ => J) := by
  have hquiet {α : Type} {m : M α} (hm : Within State.Quiet m) :
      Triple (fun s => J s ∧ Ready p s) m (fun _ s => J s ∧ Ready p s) (fun _ => J) := by
    have : Keeps (fun s => J s ∧ Ready p s) m :=
      hm.keeps fun s u hq hs => ⟨h.quiet hq hs.1, h.ready_quiet hq hs.2⟩
    exact this.conseq (fun _ hs => hs) (fun _ _ hs => hs) fun _ _ hs => hs.1
  refine (hquiet quiet_draw).bind fun d => Triple.bind
    (hquiet (quiet_modifyTask p fun _ => ⟨rfl, rfl, rfl, rfl, .inl rfl⟩)) fun _ =>
      Triple.bind ?_ fun _ => h.handleStatusChange hb
  exact (h.setNodeStatus hb (.inl rfl)).pre fun s hs => ⟨hs.1, fun _ _ => hs.2⟩

/-- **A run keeps the invariant**, whether the job starts or not. -/
theorem run (h : RunSustained b J Ready) {p : NodePath} {t : Tree} (hb : b.node? p = some t)
    (ht : t.isTask = true) : Keeps J (Task.run b p t) := by
  have hbt : b.isTask p = true := (Bunch.isTask_of_node? hb).trans ht
  refine Keeps.bind (h.keeps_quiet quiet_requireRunning) fun _ => Triple.get_bind fun s hs =>
    Triple.ite (fun _ => Triple.throw fun _ hu => hu ▸ hs) fun _ => ?_
  let Fresh (u : State) : Prop := J u ∧ Ready p u ∧ State.OnlyTask p s u
  have hquiet {α : Type} {m : M α} (hm : Within State.Quiet m) : Keeps Fresh m :=
    hm.keeps fun u v hq hu => ⟨h.quiet hq hu.1, h.ready_quiet hq hu.2.1,
      trans_of (State.OnlyTask p) hu.2.2 (hq.onlyTask p)⟩
  have hfresh {α : Type} {m : M α} (hm : Within State.Quiet m) :
      Triple Fresh m (fun _ => Fresh) (fun _ => J) :=
    (hquiet hm).conseq (fun _ hu => hu) (fun _ _ hu => hu) fun _ _ hu => hu.1
  have hcapacity : Triple (· = s) (requireLimitCapacity p)
      (fun _ u => u = s ∧ s.checkInLimitUp p = true) (fun _ => J) := by
    refine Triple.get_bind fun u hu => Triple.ite (fun hc => Triple.pure fun v hv => ?_)
      fun _ => Triple.throw fun v hv => hv ▸ hu ▸ hs
    subst hu hv
    exact ⟨rfl, hc⟩
  have hincrement : Triple (fun u => u = s ∧ s.checkInLimitUp p = true) (incrementTryNo p)
      (fun _ => Fresh) (fun _ => J) := by
    refine ((h.attempt hbt).and ((onlyTask_incrementTryNo p).triple s)).conseq ?_ (fun _ u hu => ⟨hu.1.1, hu.1.2, hu.2⟩)
      fun _ _ hu => hu.1
    rintro _ ⟨rfl, hc⟩
    exact ⟨⟨hs, hc⟩, rfl⟩
  refine hcapacity.bind fun _ => hincrement.bind fun _ =>
    (hfresh (quiet_notifyQueryChange p _ _)).bind fun _ => Triple.bind (Q := fun _ => Fresh) ?_
      fun _ => Triple.bind ((h.doRun hb).pre fun u hu => ⟨hu.1, hu.2.1⟩) fun started => ?_
  · refine Triple.tryCatch (E := fun _ => Fresh) (hquiet (quiet_requireRunning.bind fun _ =>
      quiet_requireRunning.bind fun _ => quiet_requireLimitCapacity p)) fun e => ?_
    exact ((h.restore hs).pre fun u hu => hu.2.2).bind fun _ => Triple.throw fun _ hu => hu
  · cases started with
    | false => exact Triple.pure fun u hu => hu.1
    | true =>
      exact ((h.afterRun hb).pre fun u hu => ⟨hu.1, hu.2 rfl⟩).bind fun _ => Keeps.pure _

/-! ### Dependencies -/

theorem nodeCheckDependencies (h : RunSustained b J Ready) {p : NodePath} {t : Tree}
    (hb : b.node? p = some t) : Keeps J (Node.checkDependencies b p t) := by
  refine Keeps.get.bind fun s => .ite (fun _ => .pure _) fun _ =>
    .bind (h.keeps_quiet (quiet_liftEval _)) fun _ => .ite (fun _ => ?_) fun _ => .pure _
  unfold State.evaluateCompleteTrigger
  split
  · -- without a complete trigger the node is not completed
    exact h.keeps_quiet (quiet_liftEval _)
  · rename_i ast hct
    exact .bind (h.keeps_quiet (quiet_liftEval _)) fun _ => .ite
      (fun _ => .bind (h.completeByTrigger hb (by simp [hct])) fun _ => .pure _)
      fun _ => h.keeps_quiet (quiet_liftEval _)

theorem checkDependencies (h : RunSustained b J Ready) {p : NodePath} {t : Tree}
    (hb : b.node? p = some t) : Keeps J (checkDependencies b p t) :=
  .ite (fun _ => Keeps.get.bind fun _ => .ite (fun _ => .pure _) fun _ =>
      .bind (h.nodeCheckDependencies hb) fun _ => .ite
        (fun _ => .ite (fun _ => .pure _) fun _ => Keeps.get.bind fun _ => .pure _)
        fun _ => .pure _)
    fun _ => h.nodeCheckDependencies hb

/-- **A pass of the dependency scan keeps the invariant.** -/
theorem resolveDependencies (h : RunSustained b J Ready) {t : Tree} : ∀ {p : NodePath},
    b.node? p = some t → Keeps J (resolveDependencies b p t) := fun {_} hb =>
  resolveDependencies_triple t _ fun _ hx =>
    have hx := Bunch.node?_of_mem_walk hb hx
    ⟨h.checkDependencies hx, fun hk => h.run hx hk⟩

end RunSustained

/-- The conditions under which runs, reports and the scan keep `J`. -/
structure Sustained (b : Bunch) (J : State → Prop) (Ready : NodePath → State → Prop)
    (Fit : NodePath → Tree → State → Prop) : Prop where
  quiet {s s' : State} : s.Quiet s' → J s → J s'
  ready_quiet {p : NodePath} {s s' : State} : s.Quiet s' → Ready p s → Ready p s'
  fit_quiet {p : NodePath} {t : Tree} {s s' : State} : s.Quiet s' → Fit p t s → Fit p t s'
  /-- A task in flight whose submission is not unknown is ready. -/
  ready_of_inFlight {p : NodePath} {s : State} : b.isTask p = true → J s →
    (s.node p).status.inFlight = true → (s.node p).task.submissionUnknownReason = none → Ready p s
  /-- A requeue of a node that is fit. -/
  requeue {p : NodePath} {t : Tree} : b.node? p = some t →
    Triple (fun s => J s ∧ Fit p t s) (requeue p t true) (fun _ => J) (fun _ => J)
  handleStatusChange {p : NodePath} {t : Tree} : b.node? p = some t →
    Keeps J (handleStatusChange b p t)
  /-- A status change; a task that comes into flight has to be ready. -/
  setNodeStatus {p : NodePath} {t : Tree} {st : NodeStatus} : b.node? p = some t →
    Triple (fun s => J s ∧ (t.isTask = true → st.inFlight = true → Ready p s))
      (setNodeStatus b p t st) (fun _ => J) (fun _ => J)
  /-- A new attempt. -/
  attempt {p : NodePath} : b.isTask p = true →
    Triple (fun s => J s ∧ s.checkInLimitUp p = true) (incrementTryNo p)
      (fun _ s => J s ∧ Ready p s) (fun _ => J)
  /-- An unknown outcome of a submission. -/
  unknown {p : NodePath} {reason : String} : b.isTask p = true → reason ≠ "" →
    Keeps J (Task.markSubmissionUnknown p reason)

theorem Stable.sustained {b : Bunch} {I : Set NodePath → State → Prop}
    {Ready : NodePath → State → Prop} (h : Stable b I Ready) :
    Sustained b (I ∅) Ready fun _ _ _ => True where
  quiet hq hs := h.silent hq.toSilent hs
  ready_quiet hq hr := h.ready_silent hq.toSilent hr
  fit_quiet _ ht := ht
  ready_of_inFlight hbt hs hf hn := h.ready_of_inFlight hbt hs hf hn
  requeue hb := (h.requeue hb true).pre fun _ hs => hs.1
  handleStatusChange hb := h.handleStatusChange hb
  setNodeStatus hb := h.setNodeStatus hb
  attempt hbt := h.attempt hbt
  unknown hbt hr := h.unknown hbt hr

namespace Sustained

variable {b : Bunch} {J : State → Prop} {Ready : NodePath → State → Prop}
  {Fit : NodePath → Tree → State → Prop}

theorem keeps_quiet (h : Sustained b J Ready Fit) {α : Type} {m : M α}
    (hm : Within State.Quiet m) : Keeps J m :=
  hm.keeps fun _ _ hq hs => h.quiet hq hs

theorem setNodeStatus_lower (h : Sustained b J Ready Fit) {p : NodePath} {t : Tree}
    {st : NodeStatus} (hb : b.node? p = some t) (hst : st.inFlight = false) :
    Keeps J (Takler.setNodeStatus b p t st) :=
  (h.setNodeStatus hb).pre fun _ hs => ⟨hs, fun _ hf => by simp [hst] at hf⟩

theorem completeByTrigger (h : Sustained b J Ready Fit) {p : NodePath} {t : Tree}
    (hb : b.node? p = some t) : Keeps J (completeByTrigger b p t) :=
  Keeps.get.bind fun _ => .bind
    (.when fun _ => .bind (h.keeps_quiet (quiet_modifyNode p (fun _ => rfl) (fun _ => rfl) fun _ => .refl _))
      fun _ => h.keeps_quiet (quiet_notifyQueryChange p _ _))
    fun _ => h.setNodeStatus_lower hb rfl

theorem runSustained (h : Sustained b J Ready Fit) : RunSustained b J Ready where
  quiet := h.quiet
  ready_quiet := h.ready_quiet
  ready_of_inFlight := h.ready_of_inFlight
  handleStatusChange := h.handleStatusChange
  setNodeStatus hb _ := h.setNodeStatus hb
  attempt := h.attempt
  completeByTrigger hb _ := h.completeByTrigger hb

/-! ### Reports -/

theorem complete (h : Sustained b J Ready Fit) {p : NodePath} {t : Tree} (hb : b.node? p = some t) :
    Keeps J (Task.complete b p t) :=
  .bind (h.keeps_quiet (quiet_modifyTask p fun _ => ⟨rfl, rfl, rfl, rfl, .inr rfl⟩)) fun _ =>
    .bind (h.keeps_quiet (quiet_notifyQueryChange p _ _)) fun _ =>
      .bind (h.keeps_quiet (quiet_recordEnd p)) fun _ =>
        .bind (h.setNodeStatus_lower hb rfl) fun _ => h.handleStatusChange hb

/-! ### Runs -/

theorem run (h : Sustained b J Ready Fit) {p : NodePath} {t : Tree} (hb : b.node? p = some t)
    (ht : t.isTask = true) : Keeps J (Task.run b p t) := h.runSustained.run hb ht

/-! ### Callbacks of a submission -/

theorem onFailure (h : Sustained b J Ready Fit) {x : Submission} {t : Tree}
    (hb : b.node? x.path = some t) (ht : t.isTask = true) (submissionError : Bool)
    {reason : String} (hr : reason ≠ "") :
    Keeps J (Shell.onFailure b t x submissionError reason) :=
  Keeps.get.bind fun _ => .ite (fun _ => .ite
    (fun _ => .ite (fun _ => .pure _)
      fun _ => h.unknown ((Bunch.isTask_of_node? hb).trans ht) hr)
    fun _ => h.runSustained.abort hb reason) fun _ => .pure _

theorem onSkipped (h : Sustained b J Ready Fit) {x : Submission} {t : Tree}
    (hb : b.node? x.path = some t) : Keeps J (Shell.onSkipped b t x) :=
  Keeps.get.bind fun _ => .ite (fun _ => h.runSustained.abort hb _) fun _ => .pure _

/-! ### Flows -/

theorem begin (h : Sustained b J Ready Fit) {t : Tree} (hb : b.node? [t.name] = some t) (force : Bool)
    (now realNow : ℤ) :
    Triple (fun s => J s ∧ Fit [t.name] t s) (Flow.begin t force now realNow)
      (fun _ => J) (fun _ => J) := by
  have hfit : Keeps (fun s => J s ∧ Fit [t.name] t s) (Flow.requeueCalendar t.name now realNow) :=
    (quiet_requeueCalendar t.name now realNow).keeps fun _ _ hq hs =>
      ⟨h.quiet hq hs.1, h.fit_quiet hq hs.2⟩
  refine Triple.get_bind fun s hs => Triple.ite (fun _ => Triple.throw fun _ hu => hu ▸ hs.1)
    fun _ => Triple.ite (fun _ => Triple.throw fun _ hu => hu ▸ hs.1) fun _ => ?_
  refine Triple.bind (hfit.conseq (fun _ hu => hu ▸ hs) (fun _ _ hs => hs) fun _ _ hs => hs.1)
    fun _ => (h.requeue hb).bind fun _ => ?_
  exact Keeps.bind (h.keeps_quiet (quiet_modifyFlow t.name fun _ => rfl)) fun _ =>
    h.keeps_quiet (quiet_notifyQueryChange _ _ _)

end Sustained

theorem Stable.begin {b : Bunch} {I : Set NodePath → State → Prop} {Ready : NodePath → State → Prop}
    (h : Stable b I Ready) {t : Tree} (hb : b.node? [t.name] = some t) (force : Bool)
    (now realNow : ℤ) : Keeps (I ∅) (Flow.begin t force now realNow) :=
  (h.sustained.begin hb force now realNow).pre fun _ hs => ⟨hs, trivial⟩

end Takler
