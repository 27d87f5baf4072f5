import Takler.Core.LimitEffects
import Takler.Core.Task

/-!
# What operations leave alone

Most operations touch few fields. `State.Quiet` relates two states in which no status, no limit, no
attempt and no repeat has changed; everything that only records times, latches, values, marks or
callbacks is quiet. `State.Silent` leaves the repeats out. `State.StatusSet`, `State.OnlyTask` and
`State.Cleared` relate two states of which one status, or the attempt of one task, differs.

Of the writes on which every status change and every requeue are built, setting a status never
raises. Ending an attempt raises when the index cannot forget a path that the task recorded
(`State.IsMoved`), and then the rest of the attempt is gone all the same.

## Main results

* `quiet_*`: the quiet operations.
* `effect_setNodeStatusOnly`: setting a status.
* `clearPaths_spec`, `clearCurrentAttempt_spec`, `incrementTryNo_spec`: the end of an attempt and the
  begin of a new one, without and with a path that cannot be forgotten.
-/

namespace Takler

open Program

/-- The two identities belong to one attempt; an unknown submission may have been settled. -/
structure TaskState.SameAttempt (k k' : TaskState) : Prop where
  tryNo : k'.tryNo = k.tryNo
  definitionGeneration : k'.definitionGeneration = k.definitionGeneration
  attemptId : k'.attemptId = k.attemptId
  jobPassword : k'.jobPassword = k.jobPassword
  unknown : k'.submissionUnknownReason = k.submissionUnknownReason ∨
    k'.submissionUnknownReason = none

theorem TaskState.SameAttempt.refl (k : TaskState) : k.SameAttempt k :=
  ⟨rfl, rfl, rfl, rfl, .inl rfl⟩

theorem TaskState.SameAttempt.trans {k k' k'' : TaskState} (h : k.SameAttempt k')
    (h' : k'.SameAttempt k'') : k.SameAttempt k'' where
  tryNo := h'.tryNo.trans h.tryNo
  definitionGeneration := h'.definitionGeneration.trans h.definitionGeneration
  attemptId := h'.attemptId.trans h.attemptId
  jobPassword := h'.jobPassword.trans h.jobPassword
  unknown := by
    rcases h'.unknown with h₁ | h₁
    · rw [h₁]
      exact h.unknown
    · exact .inr h₁

/-- No status, limit, in-limit, attempt or generation has changed. -/
structure State.Silent (s s' : State) : Prop where
  draws : s.Draws s'
  index : s.IndexKept s'
  limit : s'.limit = s.limit
  inLimits : s'.inLimits = s.inLimits
  status : ∀ p, (s'.node p).status = (s.node p).status
  task : ∀ p, (s.node p).task.SameAttempt (s'.node p).task
  generation : ∀ f, (s'.flow f).definitionGeneration = (s.flow f).definitionGeneration

instance : Std.Refl State.Silent :=
  ⟨fun s => ⟨.refl s, .refl s, rfl, rfl, fun _ => rfl, fun p => .refl (s.node p).task, fun _ => rfl⟩⟩

instance : IsTrans State State.Silent where
  trans _ _ _ h h' :=
    { draws := h.draws.trans h'.draws
      index := h.index.trans h'.index
      limit := h'.limit.trans h.limit
      inLimits := h'.inLimits.trans h.inLimits
      status := fun p => (h'.status p).trans (h.status p)
      task := fun p => (h.task p).trans (h'.task p)
      generation := fun f => (h'.generation f).trans (h.generation f) }

/-- Nor has a repeat. -/
structure State.Quiet (s s' : State) : Prop extends State.Silent s s' where
  repeatValue : ∀ p, (s'.node p).repeatValue = (s.node p).repeatValue

instance : Std.Refl State.Quiet := ⟨fun s => ⟨refl_of State.Silent s, fun _ => rfl⟩⟩

instance : IsTrans State State.Quiet where
  trans _ _ _ h h' :=
    { toSilent := trans_of State.Silent h.toSilent h'.toSilent
      repeatValue := fun p => (h'.repeatValue p).trans (h.repeatValue p) }

/-- Two states with the same nodes, limits, in-limits and flows. -/
theorem State.Quiet.of_eq {s s' : State} (hn : s'.node = s.node) (hl : s'.limit = s.limit)
    (hi : s'.inLimits = s.inLimits) (hf : s'.flow = s.flow) (hm : s'.moved = s.moved)
    (hd : s.Draws s') : s.Quiet s' where
  draws := hd
  index := .of_eq hn hm
  limit := hl
  inLimits := hi
  status p := by rw [hn]
  task p := by rw [hn]; exact .refl _
  generation f := by rw [hf]
  repeatValue p := by rw [hn]

/-! ### Quiet operations -/

theorem effect_notifyQueryChange (p : NodePath) (groups : List FieldGroup) (invalidate : Bool) :
    Effect State.Quiet (notifyQueryChange p groups invalidate) :=
  Effect.modify fun _ => .of_eq rfl rfl rfl rfl rfl ⟨rfl, le_rfl⟩

theorem quiet_notifyQueryChange (p : NodePath) (groups : List FieldGroup) (invalidate : Bool) :
    Within State.Quiet (notifyQueryChange p groups invalidate) :=
  (effect_notifyQueryChange p groups invalidate).within

theorem quiet_draw : Within State.Quiet draw := fun _ =>
  .of_eq rfl rfl rfl rfl rfl ⟨rfl, Nat.le_succ _⟩

theorem effect_modifyNode (p : NodePath) {f : NodeState → NodeState}
    (hs : ∀ n : NodeState, (f n).status = n.status)
    (hv : ∀ n : NodeState, (f n).repeatValue = n.repeatValue)
    (hk : ∀ n : NodeState, n.task.SameAttempt (f n).task)
    (hx : ∀ n : NodeState, (f n).task.paths ⊆ n.task.paths := by exact fun _ => List.Subset.refl _) :
    Effect State.Quiet (modifyNode p f) := by
  refine Effect.modify fun s =>
    ⟨⟨⟨rfl, le_rfl⟩, .update rfl rfl (hx _), rfl, rfl, fun q => ?_, fun q => ?_, fun _ => rfl⟩, fun q => ?_⟩
  all_goals
    by_cases hq : q = p
    · subst hq
      simp [hs, hv, hk]
    · simp [hq, TaskState.SameAttempt.refl]

theorem quiet_modifyNode (p : NodePath) {f : NodeState → NodeState}
    (hs : ∀ n : NodeState, (f n).status = n.status)
    (hv : ∀ n : NodeState, (f n).repeatValue = n.repeatValue)
    (hk : ∀ n : NodeState, n.task.SameAttempt (f n).task)
    (hx : ∀ n : NodeState, (f n).task.paths ⊆ n.task.paths := by exact fun _ => List.Subset.refl _) :
    Within State.Quiet (modifyNode p f) := (effect_modifyNode p hs hv hk hx).within

theorem effect_modifyTask (p : NodePath) {f : TaskState → TaskState}
    (hk : ∀ k : TaskState, k.SameAttempt (f k))
    (hx : ∀ k : TaskState, (f k).paths ⊆ k.paths := by exact fun _ => List.Subset.refl _) :
    Effect State.Quiet (modifyTask p f) :=
  effect_modifyNode p (fun _ => rfl) (fun _ => rfl) (fun n => hk n.task) fun n => hx n.task

theorem quiet_modifyTask (p : NodePath) {f : TaskState → TaskState}
    (hk : ∀ k : TaskState, k.SameAttempt (f k))
    (hx : ∀ k : TaskState, (f k).paths ⊆ k.paths := by exact fun _ => List.Subset.refl _) :
    Within State.Quiet (modifyTask p f) :=
  (effect_modifyTask p hk hx).within

theorem quiet_modifyFlow (name : String) {f : FlowState → FlowState}
    (hf : ∀ x, (f x).definitionGeneration = x.definitionGeneration) :
    Within State.Quiet (modifyFlow name f) := by
  refine Within.modify fun s =>
    ⟨⟨⟨rfl, le_rfl⟩, .of_eq rfl rfl, rfl, rfl, fun _ => rfl, fun _ => .refl _, fun g => ?_⟩, fun _ => rfl⟩
  by_cases hg : g = name
  · subst hg
    simp [hf]
  · simp [hg]

theorem quiet_liftEval {α : Type} (e : Except Err α) : Within State.Quiet (liftEval e) := by
  cases e
  · exact Within.throw _
  · exact Within.pure _

theorem quiet_requireRunning : Within State.Quiet requireRunning :=
  Within.get.bind fun _ => .ite (.throw _) (.ite (.throw _) (.pure _))

theorem quiet_requireLimitCapacity (p : NodePath) : Within State.Quiet (requireLimitCapacity p) :=
  Within.get.bind fun _ => .ite (.pure _) (.throw _)

theorem quiet_recordEnd (p : NodePath) : Within State.Quiet (recordEnd p) := by
  refine quiet_draw.bind fun d => quiet_modifyTask p (fun k => ?_) fun k => ?_
  · split_ifs
    · exact ⟨rfl, rfl, rfl, rfl, .inl rfl⟩
    · exact .refl k
  · split_ifs <;> exact List.Subset.refl _

theorem quiet_recordStart (p : NodePath) (d : Draw) :
    Within State.Quiet (modifyTask p fun k =>
      if k.attemptId.isSome ∧ k.startedAt = none then { k with startedAt := some d.timestamp }
      else k) := by
  refine quiet_modifyTask p (fun k => ?_) fun k => ?_
  · split_ifs
    · exact ⟨rfl, rfl, rfl, rfl, .inl rfl⟩
    · exact .refl k
  · split_ifs <;> exact List.Subset.refl _

theorem quiet_suspend (p : NodePath) : Within State.Quiet (suspend p) :=
  Within.get.bind fun _ => .ite (.pure _)
    (.bind (quiet_modifyNode p (fun _ => rfl) (fun _ => rfl) fun _ => .refl _) fun _ =>
      quiet_notifyQueryChange p _ _)

theorem quiet_resume (p : NodePath) : Within State.Quiet (resume p) :=
  Within.get.bind fun _ => .ite
    (.bind (quiet_modifyNode p (fun _ => rfl) (fun _ => rfl) fun _ => .refl _) fun _ =>
      quiet_notifyQueryChange p _ _) (.pure _)

/-- What `freeDependencies` writes was read from the node before. -/
theorem quiet_freeDependencies (p : NodePath) (t : Tree) (dep : DepType) :
    Within State.Quiet (freeDependencies p t dep) := by
  intro s
  have hn : Within State.Quiet (modifyNode p fun n =>
      { n with
        timeFree := fun d => (s.node p).timeFree d || decide (dep ≠ .trigger)
        triggerFree := (s.node p).triggerFree ||
          (decide (dep ≠ .time) && t.defn.trigger.isSome) }) :=
    quiet_modifyNode p (fun _ => rfl) (fun _ => rfl) fun _ => .refl _
  exact trans_of State.Quiet (hn s) (Within.when (quiet_notifyQueryChange p [.runtime] false) _)

theorem quiet_setEvent (p : NodePath) (t : Tree) (name : String) (value : Bool) :
    Within State.Quiet (setEvent p t name value) :=
  .ite (Within.get.bind fun _ =>
    .bind (quiet_modifyNode p (fun _ => rfl) (fun _ => rfl) fun _ => .refl _) fun _ =>
      .bind (.when (quiet_notifyQueryChange p _ _)) fun _ => .pure _) (.pure _)

theorem quiet_setMeter (p : NodePath) (t : Tree) (name : String) (value : ℤ) :
    Within State.Quiet (setMeter p t name value) := by
  unfold setMeter
  split
  · exact Within.pure _
  · exact .ite (.throw _) (Within.get.bind fun _ =>
      .bind (quiet_modifyNode p (fun _ => rfl) (fun _ => rfl) fun _ => .refl _) fun _ =>
        .bind (.when (quiet_notifyQueryChange p _ _)) fun _ => .pure _)

theorem quiet_requeueCalendar (name : String) (now realNow : ℤ) :
    Within State.Quiet (Flow.requeueCalendar name now realNow) :=
  Within.get.bind fun _ => .bind (quiet_modifyFlow name fun _ => rfl) fun _ =>
    .when (quiet_notifyQueryChange _ _ _)

theorem quiet_calendarChanged (p : NodePath) (t : Tree) (c : Calendar) :
    Within State.Quiet (calendarChanged p t c) :=
  Within.get.bind fun _ => .bind (quiet_modifyNode p (fun _ => rfl) (fun _ => rfl) fun _ => .refl _) fun _ =>
    .when (quiet_notifyQueryChange p _ _)

theorem quiet_updateCalendar (t : Tree) (now : ℤ) :
    Within State.Quiet (Flow.updateCalendar t now) :=
  Within.get.bind fun _ => .bind (quiet_liftEval _) fun _ =>
    .bind (quiet_modifyFlow t.name fun _ => rfl) fun _ =>
      .bind (.when (quiet_notifyQueryChange _ _ _)) fun _ =>
        .forM fun x _ => quiet_calendarChanged x.1 x.2 _

/-- What is recorded can be forgotten. -/
theorem quiet_recordPaths (p : NodePath) (paths : ArtifactPaths) :
    Within State.Quiet (recordPaths p paths) := by
  intro s
  refine ⟨⟨⟨rfl, le_rfl⟩, ⟨fun q x hx => ?_, ?_⟩, rfl, rfl, fun q => ?_, fun q => ?_, fun _ => rfl⟩,
    fun q => ?_⟩
  · simp only [recordPaths, modifyTask, modifyNode, exec_bind, exec_modify] at hx
    split_ifs at hx
    exact hx
  · rintro q ⟨x, hx, hm⟩
    simp only [recordPaths, modifyTask, modifyNode, exec_bind, exec_modify] at hx hm
    split_ifs at hm with hq
    by_cases hqp : q = p
    · exact absurd ⟨hqp, hqp ▸ hx⟩ hq
    · exact ⟨x, by simpa [hqp] using hx, hm⟩
  · by_cases hq : q = p <;> simp [recordPaths, modifyTask, modifyNode, exec_bind, hq]
  · by_cases hq : q = p
    · subst hq
      simp only [recordPaths, modifyTask, modifyNode, exec_bind, exec_modify, Function.update_self]
      exact ⟨rfl, rfl, rfl, rfl, .inl rfl⟩
    · simp [recordPaths, modifyTask, modifyNode, exec_bind, hq, TaskState.SameAttempt.refl]
  · by_cases hq : q = p <;> simp [recordPaths, modifyTask, modifyNode, exec_bind, hq]

theorem quiet_submit (p : NodePath) : Within State.Quiet (Shell.submit p) := by
  refine quiet_requireRunning.bind fun _ => Within.get.bind fun _ => quiet_draw.bind fun d =>
    .bind (quiet_modifyTask p fun _ => ⟨rfl, rfl, rfl, rfl, .inl rfl⟩) fun _ =>
      .bind (quiet_recordPaths p _) fun _ => .bind (.when ?_) fun _ => .pure _
  exact Within.modify fun _ => .of_eq rfl rfl rfl rfl rfl ⟨rfl, le_rfl⟩

theorem silent_advance (p : NodePath) (r : RepeatDate) : Within State.Silent (r.advance p) := by
  refine Within.get.bind fun _ => .ite (.throw _) (.ite (.bind (.modify fun s => ?_) fun _ =>
    .pure _) (.pure _))
  refine ⟨⟨rfl, le_rfl⟩, .update rfl rfl (List.Subset.refl _), rfl, rfl, fun q => ?_, fun q => ?_, fun _ => rfl⟩
  all_goals
    by_cases hq : q = p
    · subst hq
      simp [TaskState.SameAttempt.refl]
    · simp [hq, TaskState.SameAttempt.refl]

/-! ### Setting one status -/

/-- The status of one node was set. Nothing else changed, except that a task that is set to a
status not in flight has forgotten an unknown submission, and that the repeat of the node may
start again. -/
structure State.StatusSet (p : NodePath) (t : Tree) (st : NodeStatus) (s s' : State) : Prop where
  draws : s.Draws s'
  index : s.IndexKept s'
  limit : s'.limit = s.limit
  inLimits : s'.inLimits = s.inLimits
  status : ∀ q, (s'.node q).status = if q = p then st else (s.node q).status
  task : ∀ q, (s.node q).task.SameAttempt (s'.node q).task
  generation : ∀ f, (s'.flow f).definitionGeneration = (s.flow f).definitionGeneration
  forgotten : t.isTask = true → st.inFlight = false →
    (s'.node p).task.submissionUnknownReason = none
  repeatValue : ∀ q, (s'.node q).repeatValue = (s.node q).repeatValue ∨
    q = p ∧ (s'.node q).repeatValue = t.defn.repeatInitial

theorem effect_forgetSubmission (p : NodePath) (kind : NodeKind) :
    Effect (fun s s' => State.Quiet s s' ∧ (s'.node p).task.submissionUnknownReason = none)
      (forgetSubmission p kind) := by
  have htoken : Effect State.Quiet (when (kind = .shell)
      (modifyTask p fun k => { k with submissionToken := none })) :=
    .when (effect_modifyTask p fun _ => ⟨rfl, rfl, rfl, rfl, .inl rfl⟩)
  have hforget : Effect State.Quiet (do
      modifyTask p fun k => { k with submissionUnknownReason := none }
      notifyQueryChange p [.summary, .runtime]) :=
    .trans (effect_modifyTask p fun _ => ⟨rfl, rfl, rfl, rfl, .inr rfl⟩)
      (effect_notifyQueryChange p _ _)
  refine (htoken.seq (S := fun s s' => State.Quiet s s' ∧
    (s'.node p).task.submissionUnknownReason = none) fun s => ?_).mono
      fun s u ⟨t, hst, htu, hn⟩ => ⟨trans_of State.Quiet hst htu, hn⟩
  by_cases hr : (s.node p).task.submissionUnknownReason.isSome
  · obtain ⟨t, ht, hst⟩ := hforget s
    refine ⟨t, ?_, hst, ?_⟩
    · simpa [exec_bind, Program.when, hr] using ht
    · have : t = (exec (do
          modifyTask p fun k => { k with submissionUnknownReason := none }
          notifyQueryChange p [.summary, .runtime] : M Unit) s).2 := by rw [ht]
      rw [this]
      simp [exec_bind, modifyTask, modifyNode, notifyQueryChange]
  · refine ⟨s, by simp [exec_bind, Program.when, hr], refl_of State.Quiet s, ?_⟩
    simpa using hr

private theorem effect_storeStatus (p : NodePath) (st : NodeStatus) :
    Effect (fun s s' => ∃ marks, s' = { s with
        node := Function.update s.node p { s.node p with status := st }, marks := marks })
      (do
        let s ← get
        if (s.node p).status = st then pure ()
        else do
          modifyNode p fun n => { n with status := st }
          notifyQueryChange p [.summary]) := by
  intro s
  by_cases h : (s.node p).status = st
  · refine ⟨s, by simp [exec_bind, h], s.marks, ?_⟩
    subst h
    rw [Function.update_eq_self]
  · exact ⟨_, by simp [exec_bind, h, modifyNode, notifyQueryChange]; rfl, _, rfl⟩

theorem effect_setNodeStatusOnly (p : NodePath) (t : Tree) (st : NodeStatus) :
    Effect (State.StatusSet p t st) (setNodeStatusOnly p t st) := by
  have hforget : Effect (fun s s' => State.Quiet s s' ∧ (t.isTask = true →
      st.inFlight = false → (s'.node p).task.submissionUnknownReason = none))
      (when (t.isTask ∧ ¬ st.inFlight) (forgetSubmission p t.kind)) := by
    unfold Program.when
    split_ifs with h
    · exact (effect_forgetSubmission p t.kind).mono fun s s' hs => ⟨hs.1, fun _ _ => hs.2⟩
    · exact fun s => ⟨s, rfl, refl_of _ s, fun ht hst => absurd ⟨ht, by simp [hst]⟩ h⟩
  refine (hforget.seq (effect_storeStatus p st)).mono ?_
  rintro s _ ⟨u, ⟨hq, hn⟩, marks, rfl⟩
  refine ⟨⟨hq.draws.entropy, hq.draws.drawn⟩,
    hq.index.trans (.update rfl rfl (List.Subset.refl _)), hq.limit, hq.inLimits, fun q => ?_, fun q => ?_,
    hq.generation, fun ht hst => ?_, fun q => .inl ?_⟩
  · by_cases h : q = p
    · simp [h]
    · simp [h, hq.status q]
  · by_cases h : q = p
    · subst h
      simpa using hq.task q
    · simpa [h] using hq.task q
  · simpa using hn ht hst
  · by_cases h : q = p
    · subst h
      simpa using hq.repeatValue q
    · simpa [h] using hq.repeatValue q

theorem State.StatusSet.silent_right {p : NodePath} {t : Tree} {st : NodeStatus} {s u v : State}
    (h : State.StatusSet p t st s u) (h' : u.Silent v)
    (hv : ∀ q, (v.node q).repeatValue = (u.node q).repeatValue ∨
      q = p ∧ (v.node q).repeatValue = t.defn.repeatInitial) : State.StatusSet p t st s v where
  draws := h.draws.trans h'.draws
  index := h.index.trans h'.index
  limit := h'.limit.trans h.limit
  inLimits := h'.inLimits.trans h.inLimits
  status q := (h'.status q).trans (h.status q)
  task q := (h.task q).trans (h'.task q)
  generation f := (h'.generation f).trans (h.generation f)
  forgotten ht hst := by
    rcases (h'.task p).unknown with hu | hu
    · exact hu.trans (h.forgotten ht hst)
    · exact hu
  repeatValue q := by
    rcases hv q with hq | hq
    · rw [hq]
      exact h.repeatValue q
    · exact .inr hq

/-- What a requeue resets besides the status. -/
private theorem effect_reset (p : NodePath) (d : NodeDef) (resetRepeat : Bool) :
    Effect (fun s s' => State.Silent s s' ∧ ∀ q,
        (s'.node q).repeatValue = (s.node q).repeatValue ∨
          q = p ∧ (s'.node q).repeatValue = d.repeatInitial)
      (modifyNode p fun n => n.reset d resetRepeat) := by
  refine Effect.modify fun s => ⟨⟨⟨rfl, le_rfl⟩, .update rfl rfl (List.Subset.refl _), rfl, rfl, fun q => ?_,
    fun q => ?_, fun _ => rfl⟩, fun q => ?_⟩
  all_goals
    by_cases hq : q = p
    · subst hq
      cases resetRepeat <;> simp [NodeState.reset, TaskState.SameAttempt.refl]
    · simp [hq, TaskState.SameAttempt.refl]

/-- The requeue of a node by itself sets its default status. -/
theorem effect_nodeRequeue (p : NodePath) (t : Tree) (resetRepeat : Bool) :
    Effect (State.StatusSet p t t.defn.defaultNodeStatus.toStatus)
      (Node.requeue p t resetRepeat) := by
  intro s
  have hmark : Effect State.Quiet (when ((s.node p).requeueChanges t.defn resetRepeat)
      (notifyQueryChange p [.runtime])) :=
    .when (effect_notifyQueryChange p _ _)
  refine (((effect_setNodeStatusOnly p t _).seq
    ((effect_reset p t.defn resetRepeat).seq hmark)).mono ?_) s
  rintro s v ⟨u, hset, w, ⟨hsilent, hrepeat⟩, hquiet⟩
  refine hset.silent_right (trans_of State.Silent hsilent hquiet.toSilent) fun q => ?_
  rw [hquiet.repeatValue q]
  exact hrepeat q

/-! ### Changing one attempt -/

/-- Only the attempt of the task at a path may have changed. -/
structure State.OnlyTask (p : NodePath) (s s' : State) : Prop where
  draws : s.Draws s'
  index : s.IndexKept s'
  limit : s'.limit = s.limit
  inLimits : s'.inLimits = s.inLimits
  status : ∀ q, (s'.node q).status = (s.node q).status
  task : ∀ q, q ≠ p → (s.node q).task.SameAttempt (s'.node q).task
  generation : ∀ f, (s'.flow f).definitionGeneration = (s.flow f).definitionGeneration
  repeatValue : ∀ q, (s'.node q).repeatValue = (s.node q).repeatValue

theorem State.Quiet.onlyTask {s s' : State} (h : s.Quiet s') (p : NodePath) :
    State.OnlyTask p s s' :=
  ⟨h.draws, h.index, h.limit, h.inLimits, h.status, fun q _ => h.task q, h.generation,
    h.repeatValue⟩

instance (p : NodePath) : Std.Refl (State.OnlyTask p) :=
  ⟨fun s => (refl_of State.Quiet s).onlyTask p⟩

instance (p : NodePath) : IsTrans State (State.OnlyTask p) where
  trans _ _ _ h h' :=
    { draws := h.draws.trans h'.draws
      index := h.index.trans h'.index
      limit := h'.limit.trans h.limit
      inLimits := h'.inLimits.trans h.inLimits
      status := fun q => (h'.status q).trans (h.status q)
      task := fun q hq => (h.task q hq).trans (h'.task q hq)
      generation := fun f => (h'.generation f).trans (h.generation f)
      repeatValue := fun q => (h'.repeatValue q).trans (h.repeatValue q) }

/-- The attempt of the task is put back, with its paths. -/
theorem State.OnlyTask.restored {p : NodePath} {s s' : State} (h : State.OnlyTask p s s')
    {k : TaskState} (hk : (s.node p).task.SameAttempt k) (hx : k.paths = (s.node p).task.paths) :
    s.Quiet { s' with node := Function.update s'.node p { s'.node p with task := k } } where
  draws := ⟨h.draws.entropy, h.draws.drawn⟩
  index := by
    refine ⟨h.index.moved, ?_⟩
    rintro q ⟨x, hq, hm⟩
    by_cases hqp : q = p
    · subst hqp
      exact ⟨x, by simpa [hx] using hq, h.index.moved q x hm⟩
    · exact h.index.isMoved q ⟨x, by simpa [hqp] using hq, hm⟩
  limit := h.limit
  inLimits := h.inLimits
  status q := by
    rw [← h.status q]
    by_cases hqp : q = p <;> simp [hqp]
  task q := by
    by_cases hqp : q = p
    · subst hqp
      simpa using hk
    · simpa [hqp] using h.task q hqp
  generation := h.generation
  repeatValue q := by
    rw [← h.repeatValue q]
    by_cases hqp : q = p <;> simp [hqp]

/-- The task at a path has no attempt any more; the number of its tries may have changed. -/
structure State.Cleared (p : NodePath) (s s' : State) : Prop extends State.OnlyTask p s s' where
  definitionGeneration :
    (s'.node p).task.definitionGeneration = (s.node p).task.definitionGeneration
  attemptId : (s'.node p).task.attemptId = none
  unknown : (s'.node p).task.submissionUnknownReason = none

theorem State.Cleared.quiet_left {p : NodePath} {s t u : State} (h : s.Quiet t)
    (h' : State.Cleared p t u) : State.Cleared p s u where
  toOnlyTask := trans_of (State.OnlyTask p) (h.onlyTask p) h'.toOnlyTask
  definitionGeneration := h'.definitionGeneration.trans (h.task p).definitionGeneration
  attemptId := h'.attemptId
  unknown := h'.unknown

theorem State.Cleared.quiet_right {p : NodePath} {s t u : State} (h : State.Cleared p s t)
    (h' : t.Quiet u) : State.Cleared p s u where
  toOnlyTask := trans_of (State.OnlyTask p) h.toOnlyTask (h'.onlyTask p)
  definitionGeneration := (h'.task p).definitionGeneration.trans h.definitionGeneration
  attemptId := (h'.task p).attemptId.trans h.attemptId
  unknown := by
    rcases (h'.task p).unknown with hu | hu
    · exact hu.trans h.unknown
    · exact hu

theorem onlyTask_modifyTask (p : NodePath) (f : TaskState → TaskState)
    (hx : ∀ k : TaskState, (f k).paths ⊆ k.paths) :
    Within (State.OnlyTask p) (modifyTask p f) := by
  refine Within.modify fun s => ⟨⟨rfl, le_rfl⟩, .update rfl rfl (hx _), rfl, rfl, fun q => ?_,
    fun q hq => ?_, fun _ => rfl, fun q => ?_⟩
  · by_cases hq : q = p
    · simp [hq]
    · simp [hq]
  · simpa [hq] using TaskState.SameAttempt.refl (s.node q).task
  · by_cases hq : q = p
    · simp [hq]
    · simp [hq]

theorem onlyTask_markSubmissionUnknown (p : NodePath) (reason : String) :
    Within (State.OnlyTask p) (Task.markSubmissionUnknown p reason) :=
  Within.get.bind fun _ => .ite (.throw _) (.ite
    (Within.bind (onlyTask_modifyTask p _ fun _ => List.Subset.refl _) fun _ => fun s =>
      (quiet_notifyQueryChange p _ _ s).onlyTask p)
    (.pure _))

/-! ### Ending an attempt -/

theorem TaskState.mem_paths {k : TaskState} {x : String} :
    x ∈ k.paths ↔ k.jobPath = some x ∨ k.joboutPath = some x ∨ k.orvixInfoPath = some x := by
  simp [TaskState.paths, List.reduceOption_mem_iff, eq_comm]

/-- One path is set to `None`, unless the index cannot forget it. -/
private theorem clearPath_spec {p : NodePath} {path : TaskState → Option String}
    {clear : TaskState → TaskState} (hclear : ∀ k, path k = none → clear k = k) (s : State) :
    Triple (· = s) (clearPath p path clear)
      (fun _ u => (∀ x, path (s.node p).task = some x → s.moved p x = false) ∧
        u = { s with node := Function.update s.node p { s.node p with
          task := clear (s.node p).task } })
      (fun _ u => (∃ x, path (s.node p).task = some x ∧ s.moved p x = true) ∧ u = s) := by
  refine Triple.get_bind ?_
  rintro s rfl
  split
  · rename_i hnone
    refine Triple.pure ?_
    rintro _ rfl
    simp [hnone, hclear _ hnone]
  · rename_i x hx
    refine Triple.ite (fun hm => Triple.throw ?_) fun hm => Triple.modify ?_
    · rintro _ rfl
      exact ⟨⟨x, hx, hm⟩, rfl⟩
    · rintro _ rfl
      refine ⟨fun y hy => ?_, rfl⟩
      rw [hx, Option.some_inj] at hy
      exact hy ▸ Bool.eq_false_of_not_eq_true hm

theorem TaskState.paths_withPaths_subset {k : TaskState} {paths : ArtifactPaths}
    (hjob : paths.job = none ∨ paths.job = k.jobPath)
    (hjobout : paths.jobout = none ∨ paths.jobout = k.joboutPath)
    (hinfo : paths.orvixInfo = none ∨ paths.orvixInfo = k.orvixInfoPath) :
    (k.withPaths paths).paths ⊆ k.paths := by
  intro x hx
  simp only [TaskState.mem_paths, TaskState.withPaths] at hx ⊢
  grind

/-- **The paths of a task are forgotten** when the index can forget all of them. Otherwise an
exception is raised at the first that it cannot forget, and those before it are gone. -/
theorem clearPaths_spec (p : NodePath) (s : State) :
    Triple (· = s) (clearPaths p)
      (fun _ u => ¬ s.IsMoved p ∧ u = { s with node := Function.update s.node p { s.node p with
        task := (s.node p).task.withPaths {} } })
      (fun _ u => s.IsMoved p ∧ ∃ paths : ArtifactPaths,
        ((s.node p).task.withPaths paths).paths ⊆ (s.node p).task.paths ∧
        u = { s with node := Function.update s.node p { s.node p with
          task := (s.node p).task.withPaths paths } }) := by
  have hmoved {x : String} (hx : x ∈ (s.node p).task.paths) (hm : s.moved p x = true) :
      s.IsMoved p := ⟨x, hx, hm⟩
  refine Triple.bind ((clearPath_spec (fun k hk => by cases k; simp_all) s).conseq (fun _ h => h)
    (fun _ _ h => h) ?_) fun _ => Triple.of_forall ?_
  · rintro _ u ⟨⟨x, hx, hm⟩, hu⟩
    exact ⟨hmoved (TaskState.mem_paths.mpr (.inl hx)) hm,
      ⟨(s.node p).task.jobPath, (s.node p).task.joboutPath, (s.node p).task.orvixInfoPath⟩,
      List.Subset.refl _, by simp [hu, TaskState.withPaths]⟩
  rintro _ ⟨hjob, rfl⟩
  refine Triple.bind ((clearPath_spec (fun k hk => by cases k; simp_all) _).conseq (fun _ h => h)
    (fun _ _ h => h) ?_) fun _ => Triple.of_forall ?_
  · rintro _ _ ⟨⟨x, hx, hm⟩, rfl⟩
    simp only [Function.update_self] at hx
    exact ⟨hmoved (TaskState.mem_paths.mpr (.inr (.inl hx))) hm,
      ⟨none, (s.node p).task.joboutPath, (s.node p).task.orvixInfoPath⟩,
      TaskState.paths_withPaths_subset (.inl rfl) (.inr rfl) (.inr rfl), rfl⟩
  rintro _ ⟨hjobout, rfl⟩
  refine (clearPath_spec (fun k hk => by cases k; simp_all) _).conseq (fun _ h => h) ?_ ?_
  · rintro _ _ ⟨hinfo, rfl⟩
    simp only [Function.update_self, Function.update_idem] at hjobout hinfo ⊢
    refine ⟨?_, rfl⟩
    rintro ⟨x, hx, hm⟩
    rcases TaskState.mem_paths.mp hx with hx | hx | hx
    · exact Bool.false_ne_true ((hjob x hx).symm.trans hm)
    · exact Bool.false_ne_true ((hjobout x hx).symm.trans hm)
    · exact Bool.false_ne_true ((hinfo x hx).symm.trans hm)
  · rintro _ _ ⟨⟨x, hx, hm⟩, rfl⟩
    simp only [Function.update_self, Function.update_idem] at hx ⊢
    exact ⟨hmoved (TaskState.mem_paths.mpr (.inr (.inr hx))) hm,
      ⟨none, none, (s.node p).task.orvixInfoPath⟩,
      TaskState.paths_withPaths_subset (.inl rfl) (.inl rfl) (.inr rfl), rfl⟩

/-- Paths belong to no attempt. -/
private theorem State.quiet_withPaths {s : State} {p : NodePath} {paths : ArtifactPaths}
    (h : ((s.node p).task.withPaths paths).paths ⊆ (s.node p).task.paths) :
    s.Quiet { s with node := Function.update s.node p { s.node p with
      task := (s.node p).task.withPaths paths } } := by
  refine ⟨⟨⟨rfl, le_rfl⟩, .update rfl rfl h, rfl, rfl, fun q => ?_, fun q => ?_, fun _ => rfl⟩, fun q => ?_⟩
  · by_cases hq : q = p <;> simp [hq]
  · by_cases hq : q = p
    · subst hq
      simp only [Function.update_self]
      exact ⟨rfl, rfl, rfl, rfl, .inl rfl⟩
    · simp [hq, TaskState.SameAttempt.refl]
  · by_cases hq : q = p <;> simp [hq]

theorem clearPaths_quiet (p : NodePath) (s : State) :
    Triple (· = s) (clearPaths p) (fun _ u => ¬ s.IsMoved p ∧ s.Quiet u)
      (fun _ u => s.IsMoved p ∧ s.Quiet u) := by
  refine (clearPaths_spec p s).conseq (fun _ hs => hs) ?_ ?_
  · rintro _ _ ⟨hm, rfl⟩
    exact ⟨hm, State.quiet_withPaths
      (TaskState.paths_withPaths_subset (.inl rfl) (.inl rfl) (.inl rfl))⟩
  · rintro _ _ ⟨hm, paths, hpaths, rfl⟩
    exact ⟨hm, State.quiet_withPaths hpaths⟩

/-- The attempt but for its paths. -/
private theorem effect_withoutAttempt (p : NodePath) :
    Effect (fun s u => State.Cleared p s u ∧ (u.IsMoved p ↔ s.IsMoved p))
      (modifyTask p TaskState.withoutAttempt) :=
  Effect.modify fun s =>
    ⟨{ onlyTask_modifyTask p TaskState.withoutAttempt (fun _ => List.Subset.refl _) s with
        definitionGeneration := by simp [TaskState.withoutAttempt]
        attemptId := by simp [TaskState.withoutAttempt]
        unknown := by simp [TaskState.withoutAttempt] },
      by simp [State.IsMoved, TaskState.paths, TaskState.withoutAttempt]⟩

/-- **The end of an attempt.** It raises exactly when the index cannot forget a path of the task, and
then the attempt is gone as well. -/
theorem clearCurrentAttempt_spec (p : NodePath) (kind : NodeKind) (s : State) :
    Triple (· = s) (clearCurrentAttempt p kind) (fun _ u => ¬ s.IsMoved p ∧ State.Cleared p s u)
      (fun _ u => s.IsMoved p ∧ State.Cleared p s u) := by
  have htoken : Effect State.Quiet (when (kind = .shell)
      (modifyTask p fun k => { k with submissionToken := none })) :=
    .when (effect_modifyTask p fun _ => ⟨rfl, rfl, rfl, rfl, .inl rfl⟩)
  have hmark : Effect (fun s u : State => s.Quiet u ∧ u.node = s.node ∧ u.moved = s.moved)
      (notifyQueryChange p [.summary, .runtime, .artifacts]) :=
    Effect.modify fun _ => ⟨.of_eq rfl rfl rfl rfl rfl ⟨rfl, le_rfl⟩, rfl, rfl⟩
  refine Triple.get_bind ?_
  rintro s rfl
  refine Triple.bind (Q := fun _ u => s.Quiet u ∧ u.node = s.node ∧ u.moved = s.moved)
    (Triple.when (fun _ => hmark.triple ?_) ?_) fun _ => Triple.bind
      (Q := fun _ u => State.Cleared p s u ∧ (u.IsMoved p ↔ s.IsMoved p))
        ((effect_withoutAttempt p).triple ?_) fun _ => Triple.of_forall fun u hu =>
          Triple.bind (Q := fun _ v => ¬ s.IsMoved p ∧ State.Cleared p s v)
            ((clearPaths_quiet p u).conseq (fun _ hv => hv) ?_ ?_) fun _ => htoken.triple ?_
  · rintro _ u hu rfl
    exact hu
  · rintro _ u rfl
    exact ⟨refl_of State.Quiet u, rfl, rfl⟩
  · rintro u v ⟨hc, hm⟩ ⟨hq, hnode, hmoved⟩
    refine ⟨hc.quiet_left hq, hm.trans ?_⟩
    rw [State.IsMoved, State.IsMoved, hnode, hmoved]
  · exact fun _ v hv => ⟨fun hm => hv.1 (hu.2.mpr hm), hu.1.quiet_right hv.2⟩
  · exact fun _ v hv => ⟨hu.2.mp hv.1, hu.1.quiet_right hv.2⟩
  · exact fun v w hq hv => ⟨hv.1, hv.2.quiet_right hq⟩

theorem cleared_clearCurrentAttempt (p : NodePath) (kind : NodeKind) (s : State) :
    Triple (· = s) (clearCurrentAttempt p kind) (fun _ => State.Cleared p s)
      (fun _ => State.Cleared p s) :=
  (clearCurrentAttempt_spec p kind s).conseq (fun _ hu => hu) (fun _ _ hu => hu.2) fun _ _ hu => hu.2

theorem resetAttempt_spec (p : NodePath) (kind : NodeKind) (s : State) :
    Triple (· = s) (resetAttempt p kind) (fun _ u => ¬ s.IsMoved p ∧ State.Cleared p s u)
      (fun _ u => s.IsMoved p ∧ State.Cleared p s u) := by
  have hzero : Effect (fun s u => State.OnlyTask p s u ∧ (u.IsMoved p ↔ s.IsMoved p) ∧
      (u.node p).task.definitionGeneration = (s.node p).task.definitionGeneration)
      (modifyTask p fun k => { k with tryNo := 0 } : M Unit) :=
    Effect.modify fun s => ⟨onlyTask_modifyTask p (fun k => { k with tryNo := 0 })
      (fun _ => List.Subset.refl _) s,
      by simp [State.IsMoved, TaskState.paths], by simp⟩
  refine Triple.bind (Q := fun _ u => State.OnlyTask p s u ∧ (u.IsMoved p ↔ s.IsMoved p) ∧
    (u.node p).task.definitionGeneration = (s.node p).task.definitionGeneration)
      (hzero.triple fun _ u hu hs => hs ▸ hu) fun _ => Triple.of_forall ?_
  rintro u ⟨honly, hm, hgen⟩
  have hcleared {v : State} (hv : State.Cleared p u v) : State.Cleared p s v :=
    ⟨trans_of (State.OnlyTask p) honly hv.toOnlyTask, hv.definitionGeneration.trans hgen,
      hv.attemptId, hv.unknown⟩
  exact (clearCurrentAttempt_spec p kind u).conseq (fun _ hv => hv)
    (fun _ _ hv => ⟨fun h => hv.1 (hm.mpr h), hcleared hv.2⟩)
    fun _ _ hv => ⟨hm.mp hv.1, hcleared hv.2⟩

/-- The part of `Task.requeue` after its check. When it raises, the status and the tokens of the task
are as they were. -/
theorem requeueTask_spec (p : NodePath) (t : Tree) (resetRepeat : Bool) (c : Prop) [Decidable c]
    (s : State) :
    Triple (· = s) (do
        when c (notifyQueryChange p [.runtime])
        resetAttempt p t.kind
        Node.requeue p t resetRepeat
        updateLimits p)
      (fun _ s' => ¬ s.IsMoved p ∧ ∃ u v, State.Cleared p s u ∧
        State.StatusSet p t t.defn.defaultNodeStatus.toStatus u v ∧ State.LimitsUpdated p v s')
      (fun _ s' => s.IsMoved p ∧ State.Cleared p s s') := by
  have hmark : Effect (fun s u : State => s.Quiet u ∧ u.node = s.node ∧ u.moved = s.moved)
      (notifyQueryChange p [.runtime]) :=
    Effect.modify fun _ => ⟨.of_eq rfl rfl rfl rfl rfl ⟨rfl, le_rfl⟩, rfl, rfl⟩
  refine Triple.bind (Q := fun _ u => s.Quiet u ∧ u.node = s.node ∧ u.moved = s.moved)
    (Triple.when (fun _ => hmark.triple ?_) ?_) fun _ => Triple.of_forall ?_
  · rintro _ u hu rfl
    exact hu
  · rintro _ u rfl
    exact ⟨refl_of State.Quiet u, rfl, rfl⟩
  rintro u ⟨hq, hnode, hmoved⟩
  have hm : u.IsMoved p ↔ s.IsMoved p := by rw [State.IsMoved, State.IsMoved, hnode, hmoved]
  refine ((resetAttempt_spec p t.kind u).conseq (fun _ hv => hv) (fun _ _ hv => hv)
    fun _ _ hv => ⟨hm.mp hv.1, hv.2.quiet_left hq⟩).bind fun _ => Triple.bind
      (Q := fun _ w => ¬ u.IsMoved p ∧ ∃ v, State.Cleared p u v ∧
        State.StatusSet p t t.defn.defaultNodeStatus.toStatus v w)
      ((effect_nodeRequeue p t resetRepeat).triple fun v w hset hv => ⟨hv.1, v, hv.2, hset⟩)
      fun _ => (effect_updateLimits p).triple ?_
  rintro w s' hl ⟨hnot, v, hc, hset⟩
  exact ⟨fun h => hnot (hm.mpr h), v, w, hc.quiet_left hq, hset, hl⟩

/-! ### A new attempt -/

/-- A task has a new attempt of the generation of its flow, with the next identifier. -/
structure State.NewAttempt (p : NodePath) (password : Option String) (s s' : State) : Prop
    extends State.OnlyTask p s s' where
  tryNo : (s'.node p).task.tryNo = (s.node p).task.tryNo + 1
  definitionGeneration :
    (s'.node p).task.definitionGeneration = (s.flow (flowName p)).definitionGeneration
  attemptId : (s'.node p).task.attemptId = some (s.entropy s.drawn).attemptId
  jobPassword : (s'.node p).task.jobPassword = password
  unknown : (s'.node p).task.submissionUnknownReason = none
  taken : s.drawn < s'.drawn

theorem State.NewAttempt.quiet_right {p : NodePath} {password : Option String} {s t u : State}
    (h : State.NewAttempt p password s t) (h' : t.Quiet u) : State.NewAttempt p password s u where
  toOnlyTask := trans_of (State.OnlyTask p) h.toOnlyTask (h'.onlyTask p)
  tryNo := (h'.task p).tryNo.trans h.tryNo
  definitionGeneration := (h'.task p).definitionGeneration.trans h.definitionGeneration
  attemptId := (h'.task p).attemptId.trans h.attemptId
  jobPassword := (h'.task p).jobPassword.trans h.jobPassword
  unknown := by
    rcases (h'.task p).unknown with hu | hu
    · exact hu.trans h.unknown
    · exact hu
  taken := h.taken.trans_le h'.draws.drawn

/-- The password is drawn last. -/
theorem State.NewAttempt.setPassword {p : NodePath} {password : Option String} {s t : State}
    (h : State.NewAttempt p password s t) (password' : Option String) :
    State.NewAttempt p password' s
      (exec (modifyTask p fun k => { k with jobPassword := password' } : M Unit) t).2 where
  toOnlyTask := trans_of (State.OnlyTask p) h.toOnlyTask (onlyTask_modifyTask p
    (fun k => { k with jobPassword := password' }) (fun _ => List.Subset.refl _) t)
  tryNo := by simpa [modifyTask, modifyNode] using h.tryNo
  definitionGeneration := by simpa [modifyTask, modifyNode] using h.definitionGeneration
  attemptId := by simpa [modifyTask, modifyNode] using h.attemptId
  jobPassword := by simp [modifyTask, modifyNode]
  unknown := by simpa [modifyTask, modifyNode] using h.unknown
  taken := h.taken

/-- **A new attempt.** When the index cannot forget a path of the old one, an exception is raised
after the new identifier was written and before the new password is, so that the old password
stays. -/
theorem incrementTryNo_spec (p : NodePath) (s : State) :
    Triple (· = s) (incrementTryNo p)
      (fun _ u => ¬ s.IsMoved p ∧ State.NewAttempt p (some (s.entropy s.drawn).password) s u)
      (fun _ u => s.IsMoved p ∧ State.NewAttempt p (s.node p).task.jobPassword s u) := by
  have hdraw : Triple (· = s) draw
      (fun d u => d = s.entropy s.drawn ∧ u = { s with drawn := s.drawn + 1 })
      (fun _ u => s.IsMoved p ∧ State.NewAttempt p (s.node p).task.jobPassword s u) := by
    rintro _ rfl
    exact ⟨rfl, rfl⟩
  refine hdraw.bind fun d => Triple.get_bind ?_
  rintro _ ⟨rfl, rfl⟩
  -- the state before the paths are forgotten
  refine Triple.bind (Q := fun _ u => State.NewAttempt p (s.node p).task.jobPassword s u ∧
      (u.IsMoved p ↔ s.IsMoved p)) (Triple.modify ?_) fun _ => Triple.bind
    (Q := fun _ u => State.NewAttempt p (s.node p).task.jobPassword s u ∧
      (u.IsMoved p ↔ s.IsMoved p)) (Triple.modify ?_) fun _ => Triple.of_forall fun u hu =>
        Triple.bind (Q := fun _ v => ¬ s.IsMoved p ∧
          State.NewAttempt p (s.node p).task.jobPassword s v)
          ((clearPaths_quiet p u).conseq (fun _ hv => hv) ?_ ?_) fun _ => Triple.modify ?_
  · rintro _ rfl
    refine ⟨⟨⟨⟨rfl, Nat.le_succ _⟩, .update rfl rfl (List.Subset.refl _), rfl, rfl, fun q => ?_, fun q hq => ?_, fun _ => rfl,
      fun q => ?_⟩, ?_, ?_, ?_, ?_, ?_, Nat.lt_succ_self _⟩, ?_⟩
    · by_cases hq : q = p <;> simp [hq]
    · simpa [hq] using TaskState.SameAttempt.refl (s.node q).task
    · by_cases hq : q = p <;> simp [hq]
    all_goals simp [State.IsMoved, TaskState.paths, TaskState.withoutAttempt]
  · exact fun u hu => ⟨hu.1.quiet_right (quiet_notifyQueryChange p _ _ u), hu.2⟩
  · exact fun _ v hv => ⟨fun hm => hv.1 (hu.2.mpr hm), hu.1.quiet_right hv.2⟩
  · exact fun _ v hv => ⟨hu.2.mp hv.1, hu.1.quiet_right hv.2⟩
  · exact fun v hv => ⟨hv.1, hv.2.setPassword _⟩

theorem onlyTask_incrementTryNo (p : NodePath) : Within (State.OnlyTask p) (incrementTryNo p) :=
  fun s => ((incrementTryNo_spec p s).conseq (fun _ hu => hu) (fun _ _ hu => hu.2.toOnlyTask)
    fun _ _ hu => hu.2.toOnlyTask).exec rfl

/-! ### Passes of the scan -/

/-- What the checks and the runs of the nodes of a tree keep, a pass of the dependency scan keeps. -/
theorem resolveDependencies_triple {b : Bunch} {P : State → Prop} {E : Err → State → Prop}
    (t : Tree) : ∀ p : NodePath, (∀ x ∈ t.walk p,
      Triple P (checkDependencies b x.1 x.2) (fun _ => P) E ∧
        (x.2.isTask = true → Triple P (Task.run b x.1 x.2) (fun _ => P) E)) →
    Triple P (resolveDependencies b p t) (fun _ => P) E := by
  induction t using Tree.induction with
  | h d cs ih =>
    intro p h
    obtain ⟨hcheck, hrun⟩ := h _ (Tree.self_mem_walk p (.node d cs))
    have hdone (r : Bool) : Triple P (pure r : M Bool) (fun _ => P) E := Triple.pure fun _ hs => hs
    have hchildren : ∀ l : List Tree, (∀ c ∈ l, c ∈ cs) →
        Triple P (resolveChildren b p l) (fun _ => P) E := by
      intro l hl
      induction l with
      | nil =>
        rw [resolveChildren]
        exact Triple.pure fun _ hs => hs
      | cons c l ihl =>
        have hc : c ∈ cs := hl c List.mem_cons_self
        rw [resolveChildren]
        exact (ih c hc _ fun x hx => h x (Tree.mem_walk.mpr (.inr ⟨c, hc, hx⟩))).bind fun _ =>
          ihl fun e he => hl e (List.mem_cons_of_mem c he)
    rw [resolveDependencies]
    exact .ite (fun hk => hcheck.bind fun _ => .ite
      (fun _ => (hrun hk).bind fun _ => hdone _) fun _ => hdone _)
      fun _ => hcheck.bind fun _ => .ite
        (fun _ => (hchildren cs fun _ hc => hc).bind fun _ => hdone _) fun _ => hdone _

end Takler
