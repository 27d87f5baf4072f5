import Takler.Server.Invariant
import Mathlib

/-!
# The identity of tasks in flight

Every task in flight has a current attempt: a number of tries, an attempt identifier, a job
password and the generation of its flow. A submission is unknown only while the task is submitted.
Both hold across runs that fail halfway, forces, callbacks of submissions and the replacement of
flows, until a file that a task has recorded moves. From then on `clear_current_attempt` of that task
raises a `KeyError` out of the index of artifact paths: the attempt is gone by then, and the status
that was to follow is never set.

## Main definitions

* `Identified`: the invariant, up to a set of tasks.
* `NodeRuntime.checkTask`: the checks a checkpoint makes of the runtime data of a task.

## Main results

* `identified_stable`: every command keeps the invariant, next to `Bunch.Forgettable`.
* `Identified.load`, `Identified.replace`: so do the steps that change the flows.
* `identified_of_reachable`: it holds in every run in which no recorded file moves.
-/

namespace Takler

open Program

/-! ### The invariant -/

/-- The current attempt of a task can be reported on. -/
structure TaskState.HasIdentity (k : TaskState) : Prop where
  tryNo : k.tryNo ≠ 0
  attemptId : k.attemptId.getD "" ≠ ""
  jobPassword : k.jobPassword.getD "" ≠ ""

/-- The identity of one task is in order; that a task in flight has one may be suspended. -/
structure TaskState.InOrder (k : TaskState) (status : NodeStatus) (generation : Option String)
    (settled : Prop) : Prop where
  generation : k.definitionGeneration = generation
  tried : k.attemptId ≠ none → k.tryNo ≠ 0
  inFlight : settled → status.inFlight = true → k.HasIdentity
  unknown : ∀ reason, k.submissionUnknownReason = some reason →
    reason ≠ "" ∧ status = .submitted ∧ k.attemptId ≠ none

namespace TaskState

variable {k k' : TaskState} {status : NodeStatus} {generation : Option String} {c c' : Prop}

theorem SameAttempt.hasIdentity (h : k.SameAttempt k') (hk : k.HasIdentity) : k'.HasIdentity :=
  ⟨h.tryNo ▸ hk.tryNo, h.attemptId ▸ hk.attemptId, h.jobPassword ▸ hk.jobPassword⟩

theorem SameAttempt.unknown_none (h : k.SameAttempt k') (hk : k.submissionUnknownReason = none) :
    k'.submissionUnknownReason = none := by
  rcases h.unknown with hu | hu
  · exact hu.trans hk
  · exact hu

theorem InOrder.same (h : k.InOrder status generation c) (hs : k.SameAttempt k')
    (hc : c' → c) : k'.InOrder status generation c' where
  generation := hs.definitionGeneration.trans h.generation
  tried := by
    rw [hs.attemptId, hs.tryNo]
    exact h.tried
  inFlight hc' hf := hs.hasIdentity (h.inFlight (hc hc') hf)
  unknown reason hr := by
    rw [hs.attemptId]
    rcases hs.unknown with hu | hu
    · exact h.unknown reason (hu ▸ hr)
    · rw [hu] at hr
      cases hr

/-- A task whose submission is not unknown may change its status, unless it comes into flight
without an identity. -/
theorem InOrder.withStatus (h : k.InOrder status generation c) (hs : k.SameAttempt k')
    (hn : k'.submissionUnknownReason = none) {status' : NodeStatus}
    (hf : c' → status'.inFlight = true → k'.HasIdentity) :
    k'.InOrder status' generation c' where
  generation := hs.definitionGeneration.trans h.generation
  tried := by
    rw [hs.attemptId, hs.tryNo]
    exact h.tried
  inFlight := hf
  unknown reason hr := by
    rw [hn] at hr
    cases hr

end TaskState

/-- The task identities of a bunch are in order, up to the tasks of `D`, whose attempt was cleared
while they were in flight. -/
structure Identified (b : Bunch) (D : Set NodePath) (s : State) : Prop where
  generated : ∀ f ∈ b.flows, (s.flow f.name).definitionGeneration ≠ none
  task : ∀ p, b.isTask p = true → (s.node p).task.InOrder (s.node p).status
    (s.flow (flowName p)).definitionGeneration (p ∉ D)

/-- The tasks of which a status change may leave the identity in order. -/
def ReadyIdentity (p : NodePath) (s : State) : Prop :=
  (s.node p).task.HasIdentity ∧ (s.node p).task.submissionUnknownReason = none

namespace Identified

variable {b : Bunch} {D D' : Set NodePath} {s s' : State} {p : NodePath}

/-- A step that leaves all attempts but one alone. -/
theorem change (h : Identified b D s) (p : NodePath)
    (hgen : ∀ f, (s'.flow f).definitionGeneration = (s.flow f).definitionGeneration)
    (hstatus : ∀ q, q ≠ p → (s'.node q).status = (s.node q).status)
    (htask : ∀ q, q ≠ p → (s.node q).task.SameAttempt (s'.node q).task)
    (hD : ∀ q, q ≠ p → q ∈ D → q ∈ D')
    (hp : b.isTask p = true → (s.node p).task.InOrder (s.node p).status
        (s.flow (flowName p)).definitionGeneration (p ∉ D) →
      (s'.node p).task.InOrder (s'.node p).status
        (s.flow (flowName p)).definitionGeneration (p ∉ D')) : Identified b D' s' where
  generated f hf := hgen f.name ▸ h.generated f hf
  task q hq := by
    rw [hgen]
    by_cases hqp : q = p
    · subst hqp
      exact hp hq (h.task q hq)
    · rw [hstatus q hqp]
      exact (h.task q hq).same (htask q hqp) fun hn hm => hn (hD q hqp hm)

/-- What leaves nodes and flows alone leaves the identities alone. -/
theorem congr (h : Identified b D s) (hn : s'.node = s.node) (hf : s'.flow = s.flow) :
    Identified b D s' := by
  obtain ⟨hg, ht⟩ := h
  exact ⟨hf ▸ hg, hn ▸ hf ▸ ht⟩

theorem mono (h : Identified b D s) (hD : D ⊆ D') : Identified b D' s :=
  { h with task := fun p hp => (h.task p hp).same (.refl _) fun hn hm => hn (hD hm) }

/-! ### One lemma per write -/

theorem silent (h : Identified b D s) (hq : s.Silent s') : Identified b D s' :=
  h.change [] hq.generation (fun q _ => hq.status q) (fun q _ => hq.task q) (fun _ _ hm => hm)
    fun _ hp => hq.status [] ▸ hp.same (hq.task []) fun hn => hn

/-- The status of one node is set. -/
theorem statusSet {t : Tree} {st : NodeStatus} (h : Identified b D s)
    (hs : State.StatusSet p t st s s') (hD : ∀ q, q ≠ p → q ∈ D → q ∈ D')
    (hp : b.isTask p = true → (s.node p).task.InOrder (s.node p).status
        (s.flow (flowName p)).definitionGeneration (p ∉ D) →
      (s'.node p).task.InOrder st (s.flow (flowName p)).definitionGeneration (p ∉ D')) :
    Identified b D' s' := by
  refine h.change p hs.generation (fun q hq => ?_) (fun q _ => hs.task q) hD fun hbt hk => ?_
  · rw [hs.status q, if_neg hq]
  · rw [hs.status p, if_pos rfl]
    exact hp hbt hk

theorem container {t : Tree} {st : NodeStatus} (h : Identified b D s) (hb : b.node? p = some t)
    (ht : t.isTask = false) (hs : State.StatusSet p t st s s') : Identified b D s' := by
  refine h.statusSet hs (fun _ _ hm => hm) fun hbt => ?_
  rw [Bunch.isTask_of_node? hb, ht] at hbt
  cases hbt

/-- A task changes its status and stays in flight, or out of flight. -/
theorem calm {t : Tree} {st : NodeStatus} (h : Identified b D s) (ht : t.isTask = true)
    (hr : st.inFlight = true → ReadyIdentity p s) (hs : State.StatusSet p t st s s') :
    Identified b D s' := by
  refine h.statusSet hs (fun _ _ hm => hm) fun _ hk => ?_
  cases hst : st.inFlight with
  | true =>
    exact hk.withStatus (hs.task p) ((hs.task p).unknown_none (hr hst).2) fun _ _ =>
      (hs.task p).hasIdentity (hr hst).1
  | false => exact hk.withStatus (hs.task p) (hs.forgotten ht hst) fun _ hf => by simp [hst] at hf

/-- A task loses its attempt. -/
theorem cleared (h : Identified b D s) (hc : State.Cleared p s s') :
    Identified b (insert p D) s' := by
  refine h.change p hc.generation (fun q _ => hc.status q) hc.task
    (fun _ _ hm => Set.mem_insert_of_mem p hm) fun _ hk => ?_
  exact ⟨hc.definitionGeneration.trans hk.generation, fun hn => absurd hc.attemptId hn,
    fun hn => absurd (Set.mem_insert p D) hn, fun r hr => by simp [hc.unknown] at hr⟩

/-- A task that is not in flight loses its attempt. -/
theorem cleared_calm (h : Identified b D s) (hf : (s.node p).status.inFlight = false)
    (hc : State.Cleared p s s') : Identified b D s' := by
  refine h.change p hc.generation (fun q _ => hc.status q) hc.task (fun _ _ hm => hm)
    fun _ hk => ?_
  exact ⟨hc.definitionGeneration.trans hk.generation, fun hn => absurd hc.attemptId hn,
    fun _ hf' => by simp [hc.status p, hf] at hf', fun r hr => by simp [hc.unknown] at hr⟩

/-- A task goes out of flight. -/
theorem lowered {t : Tree} {st : NodeStatus} (h : Identified b D s) (ht : t.isTask = true)
    (hst : st.inFlight = false) (hs : State.StatusSet p t st s s') :
    Identified b (insert p D) s' :=
  h.statusSet hs (fun _ _ hm => Set.mem_insert_of_mem p hm) fun _ hk =>
    hk.withStatus (hs.task p) (hs.forgotten ht hst) fun _ hf => by simp [hst] at hf

/-- A task out of flight is in order again. -/
theorem settled (h : Identified b D s) (hf : (s.node p).status.inFlight = false)
    (hl : State.LimitsUpdated p s s') : Identified b (D \ {p}) s' := by
  obtain ⟨marks, rfl⟩ := hl
  refine h.change p (fun _ => rfl) (fun _ _ => rfl) (fun _ _ => .refl _)
    (fun q hq hm => ⟨hm, hq⟩) fun _ hk => ?_
  exact { hk with inFlight := fun _ hf' => by simp [hf] at hf' }

/-- A task that is ready comes into flight. -/
theorem raised {t : Tree} {st : NodeStatus} {u : State} (h : Identified b ∅ s)
    (hr : ReadyIdentity p s) (hs : State.StatusSet p t st s u) (hl : State.LimitsUpdated p u s') :
    Identified b ∅ s' := by
  obtain ⟨marks, rfl⟩ := hl
  have hset : Identified b ∅ u := h.statusSet hs (fun _ _ hm => hm) fun _ hk =>
    hk.withStatus (hs.task p) ((hs.task p).unknown_none hr.2) fun _ _ =>
      (hs.task p).hasIdentity hr.1
  exact hset.congr rfl rfl

/-- A new attempt has an identity. -/
theorem attempt (h : Identified b D s)
    (ha : State.NewAttempt p (some (s.entropy s.drawn).password) s s') :
    Identified b D s' ∧ ReadyIdentity p s' := by
  have hid : (s'.node p).task.HasIdentity := by
    refine ⟨?_, ?_, ?_⟩
    · rw [ha.tryNo]
      exact Nat.succ_ne_zero _
    · rw [ha.attemptId]
      exact (s.entropy s.drawn).attemptId_ne
    · rw [ha.jobPassword]
      exact (s.entropy s.drawn).password_ne
  refine ⟨h.change p ha.generation (fun q _ => ha.status q) ha.task (fun _ _ hm => hm)
    fun _ _ => ?_, hid, ha.unknown⟩
  exact ⟨ha.definitionGeneration, fun _ => hid.tryNo, fun _ _ => hid, fun r hr => by
    simp [ha.unknown] at hr⟩

/-- The outcome of a submission becomes unknown. -/
theorem unknown {reason : String} (hr : reason ≠ "") :
    Keeps (Identified b ∅) (Task.markSubmissionUnknown p reason) := by
  refine Triple.get_bind fun s h => Triple.ite (fun _ => Triple.throw fun _ hu => hu ▸ h)
    fun hg => Triple.ite (fun _ => ?_) fun _ => Triple.pure fun _ hu => hu ▸ h
  push Not at hg
  refine Triple.bind (Q := fun _ => Identified b ∅) (Triple.modify ?_) fun _ =>
    Keeps.modify fun _ h => h.congr rfl rfl
  rintro _ rfl
  refine h.change p (fun _ => rfl) (fun q hq => ?_) (fun q hq => ?_) (fun _ _ hm => hm)
    fun _ hk => ?_
  · simp [hq]
  · simpa [hq] using TaskState.SameAttempt.refl _
  · simp only [Function.update_self]
    refine ⟨hk.generation, hk.tried, fun hn hf => ?_, fun r hr' => ?_⟩
    · obtain ⟨h₁, h₂, h₃⟩ := hk.inFlight hn hf
      exact ⟨h₁, h₂, h₃⟩
    · cases hr'
      refine ⟨hr, hg.1, fun hnone => hg.2 ?_⟩
      rw [hnone, Option.getD_none]

/-- A password that is not blank is taken over. -/
theorem adopt {password : Option String} (hn : notBlank (password.getD "") = true) :
    Keeps (Identified b D) (modifyTask p fun k => { k with jobPassword := password }) := by
  refine Keeps.modify fun s h => h.change p (fun _ => rfl) (fun q hq => ?_) (fun q hq => ?_)
    (fun _ _ hm => hm) fun _ hk => ?_
  · simp [hq]
  · simpa [hq] using TaskState.SameAttempt.refl _
  · simp only [Function.update_self]
    refine { hk with inFlight := fun hn' hf => ?_ }
    obtain ⟨h₁, h₂, -⟩ := hk.inFlight hn' hf
    refine ⟨h₁, h₂, fun hempty => ?_⟩
    rw [hempty] at hn
    cases hn

end Identified

/-! ### Every command keeps the identities -/

/-- **Every command keeps the identities**, as long as the index can forget every path that a task
has recorded: otherwise a requeue, or a force to queued, raises between the loss of an attempt and the
change of the status. -/
theorem identified_stable (b : Bunch) :
    ServerStable b (fun D s => Identified b D s ∧ b.Forgettable s) ReadyIdentity where
  mono hD h := ⟨h.1.mono hD, h.2⟩
  silent hq h := ⟨h.1.silent hq, h.2.indexKept hq.index⟩
  ready_silent hq hr := ⟨(hq.task _).hasIdentity hr.1, (hq.task _).unknown_none hr.2⟩
  ready_statusSet hs hr := ⟨(hs.task _).hasIdentity hr.1, (hs.task _).unknown_none hr.2⟩
  ready_of_inFlight hp h hf hn := ⟨(h.1.task _ hp).inFlight (Set.notMem_empty _) hf, hn⟩
  container hb ht hs h := ⟨h.1.container hb ht hs, h.2.indexKept hs.index⟩
  calm _ ht _ hr hs h := ⟨h.1.calm ht hr hs, h.2.indexKept hs.index⟩
  cleared _ hc h := ⟨h.1.cleared hc, h.2.indexKept hc.index⟩
  cleared_calm _ hf hc h := ⟨h.1.cleared_calm hf hc, h.2.indexKept hc.index⟩
  cleared_or_forgettable := .inr fun h => h.2
  lowered _ ht hst hs h := ⟨h.1.lowered ht hst hs, h.2.indexKept hs.index⟩
  settled _ hf hl h := ⟨h.1.settled hf hl, h.2.indexKept hl.indexKept⟩
  raised _ _ _ hr hs hl h := ⟨h.1.raised hr hs hl, h.2.indexKept (hs.index.trans hl.indexKept)⟩
  touched := by
    rintro p s s' _ ⟨marks, rfl⟩ h
    exact ⟨h.1.congr rfl rfl, h.2⟩
  attempt {p} hp := Triple.of_forall fun s ⟨h, _⟩ =>
    (incrementTryNo_spec p s).conseq (fun _ hu => hu)
      (fun _ u hu => ⟨⟨(h.1.attempt hu.2).1, h.2.indexKept hu.2.index⟩, (h.1.attempt hu.2).2⟩)
      fun _ u hu => absurd hu.1 (Bunch.forgettable_iff.mp h.2 p hp)
  unknown _ hr := (Identified.unknown hr).and
    ((onlyTask_markSubmissionUnknown _ _).keeps fun _ _ hu h => h.indexKept hu.index)
  adopt {p password} _ hn := (Identified.adopt hn).and
    ((onlyTask_modifyTask p (fun k => { k with jobPassword := password })
      fun _ => List.Subset.refl _).keeps fun _ _ hu h => h.indexKept hu.index)
  deleteInLimit _ := (sameNodes_deleteInLimit _ _ _).keeps fun _ _ hs h =>
    ⟨h.1.congr hs.node hs.flow, h.2.indexKept (.of_eq hs.node hs.moved)⟩

/-! ### Flows that come and go -/

/-- The tasks of a flow that was just built have no attempt, and other flows are as before. -/
theorem Identified.install {b b' : Bunch} {s : State} (h : Identified b ∅ s) {f : Tree}
    (hnode : ∀ p, flowName p ≠ f.name → b'.node? p = b.node? p)
    (hflows : ∀ e ∈ b'.flows, e.name = f.name ∨ e ∈ b.flows) (generation : String) :
    Identified b' ∅ (s.install b' f generation) where
  generated e he := by
    by_cases hn : e.name = f.name
    · simp [State.install, hn]
    · simpa [State.install, hn] using h.generated e ((hflows e he).resolve_left hn)
  task p hp := by
    by_cases hn : flowName p = f.name
    · obtain ⟨t, hb, ht⟩ := Bunch.exists_of_isTask hp
      simp only [State.install, hn, hb, ht, if_true, Function.update_self]
      exact ⟨rfl, fun ha => absurd rfl ha, fun _ hf => (by cases hf), fun r hr => by cases hr⟩
    · have hp' : b.isTask p = true := by rwa [Bunch.isTask, hnode p hn] at hp
      simpa [State.install, hn] using h.task p hp'

theorem Identified.load {w w' : World} (h : Identified w.bunch ∅ w.state) {f : Tree} {wf : f.WF}
    {isFlow : f.kind = .flow} {generation : String}
    (hw : w.load f wf isFlow generation = some w') : Identified w'.bunch ∅ w'.state := by
  obtain ⟨fresh, marks, rfl⟩ := World.load_eq_some hw
  refine Identified.congr (h.install (fun p hp => Bunch.node?_addFlow wf isFlow fresh hp)
    (fun e he => ?_) generation) rfl rfl
  rcases List.mem_append.mp he with he | he
  · exact .inr he
  · exact .inl (List.mem_singleton.mp he ▸ rfl)

/-- The new flow is begun before the old one is dropped: a task of it has recorded no path yet. -/
theorem Identified.replace {w w' : World} (h : Identified w.bunch ∅ w.state)
    (hm : w.bunch.Forgettable w.state) {f : Tree} {wf : f.WF} {isFlow : f.kind = .flow}
    {generation : String} {now realNow : ℤ}
    (hw : w.replace f wf isFlow generation now realNow = some w') :
    Identified w'.bunch ∅ w'.state ∧ w'.bunch.Forgettable w'.state := by
  obtain ⟨hmem, suspended, marks, rfl⟩ := World.replace_eq_some hw
  have hinstalled : Identified (w.bunch.replaceFlow f wf isFlow) ∅
      (w.state.install (w.bunch.replaceFlow f wf isFlow) f generation) := by
    refine h.install (fun p hp => Bunch.node?_replaceFlow wf isFlow hp) (fun e he => ?_) generation
    obtain ⟨g, hg, rfl⟩ := List.mem_map.mp he
    split_ifs with hn
    · exact .inl rfl
    · exact .inr hg
  have hbegun := ((identified_stable _).begin (Bunch.node?_flow hmem) false now
    realNow).exec ⟨hinstalled, hm.install (fun p hp => Bunch.node?_replaceFlow wf isFlow hp) _⟩
  refine ⟨hbegun.1.change [f.name] (fun _ => rfl) (fun q hq => ?_) (fun q hq => ?_)
    (fun _ _ hm => hm) fun _ hk => ?_,
    hbegun.2.indexKept (.update rfl rfl (List.Subset.refl _))⟩
  · simp [hq]
  · simpa [hq] using TaskState.SameAttempt.refl _
  · simpa using hk

/-! ### Runs of the server -/

/-- The checks of `NodeRuntime` that concern the attempt of a task. -/
def NodeRuntime.checkTask (status : NodeStatus) (k : TaskState) : Except Err Unit :=
  if k.definitionGeneration = none then .error (.valueError "incomplete task runtime")
  else if k.tryNo = 0 ∧ k.attemptId ≠ none then
    .error (.valueError "inconsistent task identity")
  else if status.inFlight ∧ k.attemptId = none then
    .error (.valueError "in-flight task lacks attempt")
  else if k.submissionUnknownReason.any fun reason =>
      reason = "" ∨ status ≠ .submitted ∨ k.attemptId = none then
    .error (.valueError "invalid unknown submission")
  else .ok ()

/-- The checks accept an identity in order. -/
theorem TaskState.InOrder.checkTask {k : TaskState} {status : NodeStatus} {generation : Option String}
    (h : k.InOrder status generation True) (hg : generation ≠ none) :
    NodeRuntime.checkTask status k = .ok () := by
  have hattempt (hf : status.inFlight = true) : k.attemptId ≠ none := by
    intro hn
    exact (h.inFlight trivial hf).attemptId (by simp [hn])
  rw [NodeRuntime.checkTask, if_neg (h.generation ▸ hg), if_neg fun hc => h.tried hc.2 hc.1,
    if_neg fun hc => hattempt hc.1 hc.2, if_neg]
  cases hr : k.submissionUnknownReason with
  | none => simp
  | some reason =>
    obtain ⟨h₁, h₂, h₃⟩ := h.unknown reason hr
    simp [h₁, h₂, h₃]

theorem identified_of_reachable {w : World} (h : server.Reachable World.KeepsPaths w) :
    Identified w.bunch ∅ w.state ∧ w.bunch.Forgettable w.state := by
  refine StepSystem.Reachable.invariant
    (I := fun w => Identified w.bunch ∅ w.state ∧ w.bunch.Forgettable w.state) ?_ ?_ h
  · rintro _ ⟨entropy, rfl⟩
    refine ⟨⟨fun f hf => absurd hf List.not_mem_nil, fun p hp => ?_⟩,
      fun f hf => absurd hf List.not_mem_nil⟩
    obtain ⟨t, hb, -⟩ := Bunch.exists_of_isTask hp
    obtain ⟨f, hf, -⟩ := Bunch.exists_flow hb
    exact absurd hf List.not_mem_nil
  · rintro w a w' ⟨hw, hm⟩ hk hs
    rcases World.step_cases hs with ⟨moved, rfl, rfl⟩ |
      ⟨_, _, _, _, -, hl⟩ | ⟨_, _, _, _, _, _, -, hr⟩ | ⟨m, hp, rfl⟩
    · exact ⟨hw.congr rfl rfl, hk.forgettable⟩
    · exact ⟨hw.load hl, hm.load hl⟩
    · exact hw.replace hm hr
    · exact ((identified_stable w.bunch).action hp).exec ⟨hw, hm⟩

/-- **In-flight identity.** As long as no file that a task has recorded moves, a task in flight has
been tried, has an attempt identifier, a job password and the generation of its flow; a submission
is unknown only when the task is submitted and has an attempt; and the checks of a checkpoint accept
every task.

The proof is an induction over the run. A command keeps the identities because an attempt is cleared
only next to a status change that takes the task out of flight, and nothing can raise between the
two while every recorded path can be forgotten. A flow that is loaded or replaced has no task in
flight. -/
theorem task_in_flight_has_identity {w : World} (h : server.Reachable World.KeepsPaths w)
    {p : NodePath} (hp : w.bunch.isTask p = true) :
    ((w.state.node p).status.inFlight = true →
      0 < (w.state.node p).task.tryNo ∧
      (∃ attemptId, (w.state.node p).task.attemptId = some attemptId ∧ attemptId ≠ "") ∧
      (∃ password, (w.state.node p).task.jobPassword = some password ∧ password ≠ "") ∧
      (w.state.node p).task.definitionGeneration =
        (w.state.flow (flowName p)).definitionGeneration) ∧
    ((w.state.node p).task.submissionUnknownReason ≠ none →
      (w.state.node p).status = .submitted ∧ (w.state.node p).task.attemptId ≠ none) ∧
    NodeRuntime.checkTask (w.state.node p).status (w.state.node p).task = .ok () := by
  obtain ⟨hw, -⟩ := identified_of_reachable h
  have hk := hw.task p hp
  obtain ⟨t, hb, -⟩ := Bunch.exists_of_isTask hp
  obtain ⟨f, hf, hname⟩ := Bunch.exists_flow hb
  refine ⟨fun hflight => ?_, fun hu => ?_, ?_⟩
  · obtain ⟨h₁, h₂, h₃⟩ := hk.inFlight (Set.notMem_empty p) hflight
    refine ⟨Nat.pos_of_ne_zero h₁, ?_, ?_, hk.generation⟩
    · cases ha : (w.state.node p).task.attemptId with
      | none => simp [ha] at h₂
      | some attemptId => exact ⟨attemptId, rfl, by simpa [ha] using h₂⟩
    · cases ha : (w.state.node p).task.jobPassword with
      | none => simp [ha] at h₃
      | some password => exact ⟨password, rfl, by simpa [ha] using h₃⟩
  · obtain ⟨reason, hr⟩ := Option.ne_none_iff_exists'.mp hu
    exact (hk.unknown reason hr).2
  · exact (hk.same (.refl _) fun _ => Set.notMem_empty p).checkTask
      (hname ▸ hw.generated f hf)

/-- A flow with one shell task. -/
def shellTree : Tree :=
  .node { name := "f", kind := .flow } [.node { name := "t", kind := .shell } []]

theorem shellTree_wf : shellTree.WF := by decide

theorem shellTree_kind : shellTree.kind = .flow := rfl

/-- The task runs, and its external submission fails with an open outcome. -/
def unknownRun : List Action :=
  [.load shellTree shellTree_wf rfl "g", .command none (.begin "f" false 0 0),
    .command none (.run ["f", "t"] false),
    .jobFailure ⟨["t", "f"], 1, some "attempt 0", some "g", true⟩ false "RuntimeError: 1" (by decide)]

theorem unknownRun_has_identity : ∃ w,
    server.run World.KeepsPaths (.start true) unknownRun = some w ∧
      w.bunch.isTask ["t", "f"] = true ∧ (w.state.node ["t", "f"]).status = .submitted ∧
      (w.state.node ["t", "f"]).task.submissionUnknownReason = some "RuntimeError: 1" ∧
      0 < (w.state.node ["t", "f"]).task.tryNo ∧
      NodeRuntime.checkTask (w.state.node ["t", "f"]).status (w.state.node ["t", "f"]).task =
        .ok () := by
  obtain ⟨w, hw⟩ := Option.isSome_iff_exists.mp (show (server.run World.KeepsPaths
    (.start true) unknownRun).isSome by decide +kernel)
  have hv : (server.run World.KeepsPaths (.start true) unknownRun).map
      (fun w => (w.bunch.isTask ["t", "f"], (w.state.node ["t", "f"]).status,
        (w.state.node ["t", "f"]).task.submissionUnknownReason)) =
      some (true, .submitted, some "RuntimeError: 1") := by decide +kernel
  rw [hw, Option.map_some, Option.some_inj, Prod.mk.injEq, Prod.mk.injEq] at hv
  obtain ⟨hflight, -, hcheck⟩ := task_in_flight_has_identity
    (StepSystem.reachable_of_run _ (World.start_init true) hw) hv.1
  exact ⟨w, hw, hv.1, hv.2.1, hv.2.2, (hflight (by rw [hv.2.1]; rfl)).1, hcheck⟩

/-- The task is submitted, its job file moves, and the task is requeued. -/
def movedRun : List Action :=
  [.load shellTree shellTree_wf rfl "g", .command none (.begin "f" false 0 0),
    .command none (.run ["f", "t"] false), .relink fun _ _ => true,
    .command none (.requeue ["f", "t"])]

/-- The requeue raises once the attempt is cleared, and the task stays submitted without one: a
checkpoint of this state is refused. -/
theorem movedRun_loses_identity : (server.run StepSystem.Free (.start true) movedRun).map
    (fun w => ((w.state.node ["t", "f"]).status, (w.state.node ["t", "f"]).task.tryNo,
      (w.state.node ["t", "f"]).task.attemptId, (w.state.node ["t", "f"]).task.jobPassword,
      (NodeRuntime.checkTask (w.state.node ["t", "f"]).status
        (w.state.node ["t", "f"]).task).isOk)) =
    some (.submitted, 0, none, none, false) := by
  decide +kernel

end Takler
