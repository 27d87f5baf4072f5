import Takler.Core.Aggregate
import Takler.Server.Invariant
import Mathlib

/-!
# The status of containers over runs of the server

After every step every container with children has the most significant status of its children,
in a run whose requeues leave the parent of their target in order and in which no recorded file
moves. A requeue sets statuses without swimming up, so that one by a client may leave the ancestors
behind; and it raises at a task whose recorded paths cannot be forgotten, once the nodes above that
task are queued.

## Main definitions

* `StaysInOrder`: the steps of such a run.

## Main results

* `propagated_sustained`: every command and every step of the scan keeps the invariant.
* `propagated_of_reachable`: it holds in every state of such a run.
-/

namespace Takler

open Program Propagated

variable {R : NodeStatus → NodeStatus → Prop} {b : Bunch} {s s' : State} {p : NodePath} {t : Tree}

/-! ### Commands -/

/-- A force to a status in flight finds no unknown submission. -/
private theorem aggregated_force {st : NodeStatus} (hR : Follows R) (hw : b.RepeatsKeep R)
    (hb : b.node? p = some t) (recursive : Bool) :
    Keeps (Aggregated R b ∅) (forceNode b p t st recursive) := by
  refine Triple.get_bind fun s hs => Triple.ite (fun _ => Triple.throw fun _ hu => hu ▸ hs)
    fun hunknown => Triple.ite (fun _ => Triple.throw fun _ hu => hu ▸ hs) fun _ =>
      Triple.ite (fun _ => Triple.throw fun _ hu => hu ▸ hs) fun _ => ?_
  -- clearing attempts makes no submission unknown
  let Known (u : State) : Prop := Aggregated R b ∅ u ∧ (st.inFlight = true →
    ∀ x ∈ if recursive then t.walk p else [(p, t)], u.isUnknown x = false)
  have hknown : Known s := by
    refine ⟨hs, fun hst x hx => State.isUnknown_eq_false_iff.mpr fun hxt => ?_⟩
    by_contra hn
    refine hunknown ⟨List.any_eq_true.mpr ⟨x, List.mem_filter.mpr ⟨hx, hxt⟩, ?_⟩, .inr (.inr ?_)⟩
    · simpa [State.isUnknown, hxt, Option.isSome_iff_ne_none] using hn
    · constructor <;> rintro rfl <;> cases hst
  have hclear (l : List (NodePath × Tree)) : Triple Known (l.forM fun x =>
      clearCurrentAttempt x.1 x.2.kind) (fun _ => Known) (fun _ => Aggregated R b ∅) :=
    Triple.forM (P := fun _ => Known) (fun x _ => Triple.of_forall fun u hu =>
      (cleared_clearCurrentAttempt x.1 x.2.kind u).conseq (fun _ h => h)
        (fun _ v hc => ⟨hu.1.changeNone (hc.changedAt []), fun hst y hy =>
          (hc.changedAt []).isUnknown (hu.2 hst y hy)⟩)
        fun _ v hc => hu.1.changeNone (hc.changedAt [])) l
  refine Triple.bind (Q := fun _ => Known) (Triple.when (fun _ => (hclear _).pre
    fun _ hu => hu ▸ hknown) fun _ _ hu => hu ▸ hknown) fun _ => ?_
  cases recursive with
  | true =>
    exact (Aggregated.sinkStatusChange hR hw hb).conseq (fun _ hu => hu) (fun _ _ hu => hu)
      fun _ _ hf => hf.elim
  | false =>
    refine (Aggregated.setNodeStatus hR hw hb).conseq (fun u hu => ⟨hu.1, fun ht hst => ?_⟩)
      (fun _ _ hu => hu) fun _ _ hf => hf.elim
    exact State.isUnknown_eq_false_iff.mp (hu.2 hst (p, t) (List.mem_singleton_self _)) ht

theorem Aggregated.newAttempt {password : Option String} (h : Aggregated R b ∅ s)
    (ha : State.NewAttempt p password s s') : Aggregated R b ∅ s' :=
  h.onlyTask ha.toOnlyTask fun hsome => absurd ha.unknown hsome

/-- **Every command and every step of the scan keeps the statuses in order**, when what is
requeued fits. -/
theorem aggregated_sustained (hR : Follows R) (hw : b.RepeatsKeep R)
    {Fit : NodePath → Tree → State → Prop}
    (hquiet : ∀ {p t s s'}, State.Quiet s s' → Fit p t s → Fit p t s')
    (hrequeue : ∀ {p t}, b.node? p = some t → Triple (fun s => Aggregated R b ∅ s ∧ Fit p t s)
      (requeue p t true) (fun _ => Aggregated R b ∅) (fun _ => Aggregated R b ∅)) :
    ServerSustained b (Aggregated R b ∅)
      (fun p s => (s.node p).task.submissionUnknownReason = none) Fit where
  quiet hq h := h.quiet hq
  ready_quiet hq hr := (hq.changedAt []).unknown _ hr
  fit_quiet := hquiet
  ready_of_inFlight _ _ _ hn := hn
  requeue := hrequeue
  handleStatusChange hb :=
    (Aggregated.handleStatusChange hR hw hb).conseq (fun _ hs => hs.mono (Set.empty_subset _))
      (fun _ _ hs => hs) fun _ _ hf => hf.elim
  setNodeStatus hb :=
    (Aggregated.setNodeStatus hR hw hb).conseq (fun _ hs => hs) (fun _ _ hs => hs)
      fun _ _ hf => hf.elim
  attempt _ := Triple.of_forall fun s ⟨h, _⟩ => (incrementTryNo_spec _ s).conseq (fun _ hu => hu)
    (fun _ _ hu => ⟨h.newAttempt hu.2, hu.2.unknown⟩) fun _ _ hu => h.newAttempt hu.2
  unknown := by
    intro p reason _ _
    refine Triple.get_bind fun s hs => Triple.ite (fun _ => Triple.throw fun _ hu => hu ▸ hs)
      fun hsubmitted => Triple.ite (fun _ => ?_) fun _ => Triple.pure fun _ hu => hu ▸ hs
    push Not at hsubmitted
    exact Triple.bind (Aggregated.modifyTask fun _ hu => hu ▸ ⟨hs, fun _ => hsubmitted.1⟩)
      fun _ => (quiet_notifyQueryChange p _ _).keeps fun _ _ hq hs => hs.quiet hq
  forceNode hb := aggregated_force hR hw hb _
  adopt hbt _ := Aggregated.modifyTask fun s hs => ⟨hs, fun hsome => hs.unknown _ hbt hsome⟩
  deleteInLimit _ := (sameNodes_deleteInLimit _ _ _).keeps fun s u hs h =>
    h.changeNone ⟨.of_eq hs.node hs.moved, fun q _ => by rw [hs.node],
      fun q hq => by rwa [hs.node], fun q => .inl (by rw [hs.node])⟩

theorem propagated_sustained (hw : b.RepeatsWell) : ServerSustained b (Propagated b ∅)
    (fun p s => (s.node p).task.submissionUnknownReason = none) (RequeueFits b) := by
  refine aggregated_sustained follows_eq hw.keep (fun {p t s s'} hq h => ?_) fun hb =>
    Propagated.requeue hb true
  cases p with
  | nil => exact h
  | cons n up =>
    refine ⟨h.1, fun u hu => ?_⟩
    simpa only [hq.status] using h.2 u hu

/-- The weaker order asks nothing of what is requeued. -/
theorem reflects_sustained (hw : b.RepeatsEnd) : ServerSustained b (Aggregated Reflects b ∅)
    (fun p s => (s.node p).task.submissionUnknownReason = none) (fun _ _ _ => True) :=
  aggregated_sustained follows_reflects hw.keep (fun _ h => h) fun hb =>
    (Aggregated.requeue_reflects hb true).pre fun _ hs => hs.1

/-! ### Flows that come and go -/

private theorem flowName_child {n : String} (hb : b.node? p = some t) :
    flowName (n :: p) = flowName p := by
  cases p with
  | nil => cases hb
  | cons m up => simp [flowName]

/-- The nodes of a flow that was just built all have the same status. -/
theorem Aggregated.install (hR : Follows R) {b' : Bunch} (h : Aggregated R b ∅ s) {f : Tree}
    (hnode : ∀ p, flowName p ≠ f.name → b'.node? p = b.node? p) (generation : String) :
    Aggregated R b' ∅ (s.install b' f generation) := by
  have hnew {p : NodePath} {t : Tree} (hb : b'.node? p = some t) (hp : flowName p = f.name) :
      (s.install b' f generation).node p = { NodeState.initial t.defn with
        task := { definitionGeneration := if t.isTask then some generation else none } } := by
    simp [State.install, hp, hb]
  have hold {p : NodePath} (hp : flowName p ≠ f.name) :
      (s.install b' f generation).node p = s.node p := by
    simp [State.install, hp]
  refine ⟨fun p t hb _ => ?_, fun p hbt hsome => ?_, fun p t hb r hr => ?_,
    h.forgettable.install hnode generation⟩
  · by_cases hp : flowName p = f.name
    · rw [State.computedStatus_of_forall_eq fun c hc => ?_]
      · exact hR.refl _
      · rw [hnew hb hp, hnew (Bunch.node?_child hb hc) ((flowName_child hb).trans hp)]
        rfl
    · rw [hold hp, State.computedStatus_congr (s := s) (by rw [hold hp]) fun c _ => by
        rw [hold ((flowName_child hb).trans_ne hp)]]
      exact h.aggregate p t (hnode p hp ▸ hb) (Set.notMem_empty p)
  · obtain ⟨t, hb, -⟩ := Bunch.exists_of_isTask hbt
    by_cases hp : flowName p = f.name
    · rw [hnew hb hp] at hsome
      exact absurd rfl hsome
    · rw [hold hp] at hsome ⊢
      exact h.unknown p (by rwa [Bunch.isTask, hnode p hp] at hbt) hsome
  · by_cases hp : flowName p = f.name
    · have hr : t.defn.repeatDate = some r := hr
      rw [hnew hb hp]
      simpa [NodeState.initial, NodeDef.repeatInitial, hr] using r.start_le
    · rw [hold hp]
      exact h.repeatBound p t (hnode p hp ▸ hb) r hr

/-- The invariant is about the statuses, the attempts, the repeats and the recorded paths. -/
theorem Aggregated.congr {A : Set NodePath} (h : Aggregated R b A s)
    (hn : ∀ q, (s'.node q).status = (s.node q).status ∧ (s'.node q).task = (s.node q).task ∧
      (s'.node q).repeatValue = (s.node q).repeatValue) (hm : s.IndexKept s') :
    Aggregated R b A s' :=
  h.changeNone ⟨hm, fun q _ => (hn q).1, fun q hq => by rwa [(hn q).2.1],
    fun q => .inl (hn q).2.2⟩

theorem aggregated_init (R : NodeStatus → NodeStatus → Prop) (entropy : ℕ → Draw) :
    Aggregated R .empty ∅ (.empty entropy) := by
  have hnone {p : NodePath} {t : Tree} (hb : Bunch.empty.node? p = some t) : False := by
    obtain ⟨f, hf, -⟩ := Bunch.exists_flow hb
    exact absurd hf List.not_mem_nil
  refine ⟨fun p t hb => (hnone hb).elim, fun p hbt => ?_, fun p t hb => (hnone hb).elim,
    fun f hf => absurd hf List.not_mem_nil⟩
  obtain ⟨t, hb, -⟩ := Bunch.exists_of_isTask hbt
  exact (hnone hb).elim

theorem Aggregated.load (hR : Follows R) {w w' : World} (h : Aggregated R w.bunch ∅ w.state)
    {f : Tree} {wf : f.WF} {isFlow : f.kind = .flow} {generation : String}
    (hl : w.load f wf isFlow generation = some w') : Aggregated R w'.bunch ∅ w'.state := by
  obtain ⟨fresh, marks, rfl⟩ := World.load_eq_some hl
  exact (h.install hR (fun p hp => Bunch.node?_addFlow wf isFlow fresh hp) generation).congr
    (fun _ => ⟨rfl, rfl, rfl⟩) (.of_eq rfl rfl)

/-- The new tree is begun, which requeues it. -/
theorem Aggregated.replace (hR : Follows R) {w w' : World} (h : Aggregated R w.bunch ∅ w.state)
    {f : Tree} {wf : f.WF} {isFlow : f.kind = .flow} {generation : String} {now realNow : ℤ}
    (hr : w.replace f wf isFlow generation now realNow = some w')
    {Ready : NodePath → State → Prop} {Fit : NodePath → Tree → State → Prop}
    (hs : Sustained (w.bunch.replaceFlow f wf isFlow)
      (Aggregated R (w.bunch.replaceFlow f wf isFlow) ∅) Ready Fit)
    (hfit : ∀ s, Fit [f.name] f s) : Aggregated R w'.bunch ∅ w'.state := by
  obtain ⟨hmem, suspended, marks, rfl⟩ := World.replace_eq_some hr
  have hinstalled := h.install hR (fun p hp => Bunch.node?_replaceFlow wf isFlow hp) generation
  refine ((hs.begin (Bunch.node?_flow hmem) false now realNow).exec
    ⟨hinstalled, hfit _⟩).congr (fun q => ?_) (.update rfl rfl (List.Subset.refl _))
  by_cases hq : q = [f.name]
  · simp [hq]
  · simp [hq]

/-! ### Properties of all flows -/

theorem Bunch.forall_addFlow {P : Tree → Prop} (h : ∀ e ∈ b.flows, P e) {f : Tree} (wf : f.WF)
    (isFlow : f.kind = .flow) (fresh : f.name ∉ b.flows.map Tree.name) (hf : P f) :
    ∀ e ∈ (b.addFlow f wf isFlow fresh).flows, P e := by
  intro e he
  rcases List.mem_append.mp he with he | he
  · exact h e he
  · exact List.mem_singleton.mp he ▸ hf

theorem Bunch.forall_replaceFlow {P : Tree → Prop} (h : ∀ e ∈ b.flows, P e) {f : Tree} (wf : f.WF)
    (isFlow : f.kind = .flow) (hf : P f) : ∀ e ∈ (b.replaceFlow f wf isFlow).flows, P e := by
  intro e he
  obtain ⟨g, hg, rfl⟩ := List.mem_map.mp he
  split_ifs
  · exact hf
  · exact h g hg

/-! ### Runs of the server -/

/-- The steps that leave statuses in order: what is requeued requeues well, the parent of the
target of a client's requeue has the status it would compute afterwards, and a file that moves
leaves the paths that tasks have recorded where the index finds them. -/
def StaysInOrder (w : World) : Action → Prop
  | .relink moved => w.Spares moved
  | .load f _ _ _ => f.RepeatsWell
  | .replace f _ _ _ _ _ => f.RepeatsWell ∧ f.requeuesWell = true
  | a => a.Fits (RequeueFits w.bunch) w.bunch w.state

instance (w : World) : ∀ a : Action, Decidable (StaysInOrder w a)
  | .relink moved => inferInstanceAs (Decidable (w.Spares moved))
  | .load f _ _ _ => inferInstanceAs (Decidable f.RepeatsWell)
  | .replace f _ _ _ _ _ => inferInstanceAs (Decidable (f.RepeatsWell ∧ f.requeuesWell = true))
  | .command _ c => inferInstanceAs (Decidable (c.Fits (RequeueFits w.bunch) w.bunch w.state))
  | .visit _ | .resolve _ | .updateCalendar _ _ | .jobFailure _ _ _ _ | .jobSkipped _
  | .parameter _ _ _ => .isTrue trivial

theorem propagated_of_reachable {w : World} (h : server.Reachable StaysInOrder w) :
    w.bunch.RepeatsWell ∧ Propagated w.bunch ∅ w.state := by
  refine StepSystem.Reachable.invariant
    (I := fun w => w.bunch.RepeatsWell ∧ Propagated w.bunch ∅ w.state) ?_ ?_ h
  · rintro _ ⟨entropy, rfl⟩
    exact ⟨fun f hf => absurd hf List.not_mem_nil, aggregated_init Eq entropy⟩
  · rintro w a w' ⟨hw, hs⟩ hg hstep
    rcases World.step_cases hstep with ⟨moved, rfl, rfl⟩ |
      ⟨f, wf, isFlow, g, rfl, hl⟩ | ⟨f, wf, isFlow, g, now, realNow, rfl, hr⟩ | ⟨m, hm, rfl⟩
    · exact ⟨hw, { hs with forgettable := hg.forgettable }⟩
    · refine ⟨?_, hs.load follows_eq hl⟩
      obtain ⟨fresh, marks, rfl⟩ := World.load_eq_some hl
      exact Bunch.forall_addFlow hw wf isFlow fresh hg
    · have hw' := Bunch.forall_replaceFlow hw wf isFlow hg.1
      refine ⟨?_, hs.replace follows_eq hr (propagated_sustained hw').toSustained fun _ =>
        ⟨hg.2, fun u hu => by cases hu⟩⟩
      obtain ⟨-, suspended, marks, rfl⟩ := World.replace_eq_some hr
      exact hw'
    · refine ⟨hw, ?_⟩
      have hfit : a.Fits (RequeueFits w.bunch) w.bunch w.state := by
        cases a with
        | relink _ => trivial
        | load _ _ _ _ => trivial
        | replace _ _ _ _ _ _ => trivial
        | _ => exact hg
      exact ((propagated_sustained hw).action hm).exec ⟨hs, hfit⟩

/-- **Aggregate status.** In a run whose requeues leave statuses in order, after every step every
container with children has the greatest of the statuses of its children.

A status that is set swims up, and the nodes it has not reached yet are the exceptions `A` of
`Aggregated`; a command is in order when none is left at its end. A requeue does not swim, so that
the condition on the run asks for what the swimming would have brought about. -/
theorem container_has_greatest_status {w : World} (h : server.Reachable StaysInOrder w)
    {p : NodePath} {t : Tree} (hb : w.bunch.node? p = some t) (ht : t.isTask = false)
    (hc : t.children ≠ []) :
    IsGreatest {st | ∃ c ∈ t.children, (w.state.node (c.name :: p)).status = st}
      (w.state.node p).status := by
  rw [← (propagated_of_reachable h).2.aggregate p t hb (Set.notMem_empty p),
    State.computedStatus_eq ht hc]
  constructor
  · exact List.mem_map.mp (mostSignificant_mem (by simpa using hc))
  · rintro _ ⟨c, hmem, rfl⟩
    exact le_mostSignificant (List.mem_map_of_mem hmem)

/-- A container with two tasks. -/
def pairTree (repeatDate : Option RepeatDate) : Tree :=
  .node { name := "c", kind := .container, repeatDate := repeatDate }
    [.node { name := "t", kind := .task } [], .node { name := "u", kind := .task } []]

/-- A flow with this container. -/
def nestedTree (repeatDate : Option RepeatDate) : Tree :=
  .node { name := "f", kind := .flow } [pairTree repeatDate]

theorem nestedTree_wf (repeatDate : Option RepeatDate) : (nestedTree repeatDate).WF :=
  of_decide_eq_true rfl

/-- Two days. -/
def twoDays : RepeatDate where
  name := "DAY"
  startDate := 1
  endDate := 2
  step := 1
  start_le := by decide
  end_le := by decide
  step_pos := by decide

/-- Both tasks complete, so that the repeat requeues the container; a client requeues one task once
more and then aborts it. -/
def repeatedRun : List Action :=
  [.load (nestedTree (some twoDays)) (nestedTree_wf _) rfl "g",
    .command none (.begin "f" false 0 0),
    .command none (.force ["f", "c", "t"] .complete false),
    .command none (.force ["f", "c", "u"] .complete false),
    .command none (.requeue ["f", "c", "t"]),
    .command none (.force ["f", "c", "t"] .aborted false)]

theorem repeatedRun_container_status : ∃ w,
    server.run StaysInOrder (.start false) repeatedRun = some w ∧
      w.bunch.node? ["c", "f"] = some (pairTree (some twoDays)) ∧
      (w.state.node ["c", "f"]).repeatValue = 2 ∧ (w.state.node ["c", "f"]).status = .aborted ∧
      IsGreatest {st | ∃ c ∈ (pairTree (some twoDays)).children,
        (w.state.node [c.name, "c", "f"]).status = st} (w.state.node ["c", "f"]).status := by
  have hview : (server.run StaysInOrder (.start false) repeatedRun).map (fun w =>
      (w.bunch.node? ["c", "f"], (w.state.node ["c", "f"]).repeatValue,
        (w.state.node ["c", "f"]).status)) = some (some (pairTree (some twoDays)), 2, .aborted) := by
    rfl
  obtain ⟨w, hw, hview⟩ := Option.map_eq_some_iff.mp hview
  obtain ⟨hb, hvalue, hstatus⟩ : _ ∧ _ ∧ _ := by simpa only [Prod.mk.injEq] using hview
  exact ⟨w, hw, hb, hvalue, hstatus, container_has_greatest_status
    (StepSystem.reachable_of_run _ (World.start_init false) hw) hb rfl (by simp [pairTree])⟩

/-- A requeue of a container leaves its flow behind: the flow stays complete while the container
and its tasks are queued. -/
theorem requeue_leaves_parent_behind :
    (server.run StepSystem.Free (.start false)
      [.load (nestedTree none) (nestedTree_wf _) rfl "g", .command none (.begin "f" false 0 0),
        .command none (.force ["f"] .complete true), .command none (.requeue ["f", "c"])]).map
      (fun w => ((w.state.node ["f"]).status, (w.state.node ["c", "f"]).status)) =
      some (.complete, .queued) := by
  decide +kernel

/-- **The status of a flow.** In such a run every node has the greatest status of the leaves below
it, at whatever depth they are. -/
theorem status_isGreatest_leaves {w : World} (h : server.Reachable StaysInOrder w) {t : Tree} :
    ∀ {p : NodePath}, w.bunch.node? p = some t →
      IsGreatest {st | ∃ x ∈ t.walk p, x.2.children = [] ∧ (w.state.node x.1).status = st}
        (w.state.node p).status := by
  induction t using Tree.induction with
  | h d cs ih =>
    intro p hb
    by_cases hc : cs = []
    · subst hc
      refine ⟨⟨_, Tree.self_mem_walk p _, rfl, rfl⟩, ?_⟩
      rintro _ ⟨x, hx, -, rfl⟩
      rcases Tree.mem_walk.mp hx with rfl | ⟨c, hmem, -⟩
      · exact le_rfl
      · exact absurd hmem List.not_mem_nil
    · have ht : (Tree.node d cs).isTask = false :=
        Bool.eq_false_of_not_eq_true fun ht => hc ((Bunch.wf_of_node? hb).children_of_isTask ht)
      have hstatus := (propagated_of_reachable h).2.aggregate p _ hb (Set.notMem_empty p)
      rw [State.computedStatus_eq ht hc] at hstatus
      constructor
      · obtain ⟨c, hmem, hst⟩ := List.mem_map.mp (mostSignificant_mem
          (l := cs.map fun c => (w.state.node (c.name :: p)).status) (by simpa using hc))
        obtain ⟨x, hx, hleaf, hx'⟩ := (ih c hmem (Bunch.node?_child hb hmem)).1
        exact ⟨x, Tree.mem_walk.mpr (.inr ⟨c, hmem, hx⟩), hleaf, hx'.trans (hst.trans hstatus)⟩
      · rintro _ ⟨x, hx, hleaf, rfl⟩
        rcases Tree.mem_walk.mp hx with rfl | ⟨c, hmem, hx⟩
        · exact absurd hleaf hc
        · exact ((ih c hmem (Bunch.node?_child hb hmem)).2 ⟨x, hx, hleaf, rfl⟩).trans
            ((le_mostSignificant (List.mem_map_of_mem hmem)).trans_eq hstatus)

theorem repeatedRun_flow_status : ∃ w t, server.Reachable StaysInOrder w ∧
    w.bunch.node? ["f"] = some t ∧ (w.state.node ["f"]).status = .aborted ∧
      IsGreatest {st | ∃ x ∈ t.walk ["f"], x.2.children = [] ∧ (w.state.node x.1).status = st}
        (w.state.node ["f"]).status := by
  obtain ⟨w, hw, hst, hsome⟩ := StepSystem.exists_of_run (S := server) (G := StaysInOrder)
    repeatedRun (fun w => (w.state.node ["f"]).status = .aborted ∧
      (w.bunch.node? ["f"]).isSome = true) (World.start_init false) (by decide +kernel)
  obtain ⟨t, ht⟩ := Option.isSome_iff_exists.mp hsome
  exact ⟨w, t, hw, ht, hst, status_isGreatest_leaves hw ht⟩

end Takler
