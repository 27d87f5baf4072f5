import Takler.Core.Requeue
import Takler.Core.RunInvariant

/-!
# The status of a container

A status change swims up to the flow, and each ancestor takes what it computes from its children:
the most significant status among them. While the change is on its way, the ancestors it has not
reached are behind. `Aggregated R b A` says that outside `A` the computed status of every node is in
the relation `R` to the status it has. Two relations matter: equality (`Propagated`), and that a
container is at least submitted when it computes so (`Reflects`), which survives requeues that
equality does not.

On the way up a repeat may advance and requeue its whole tree. For the change to arrive, this
requeue must leave the tree in order and must not raise: no submission below a complete node is
unknown, the index can forget every recorded path, and the repeat does not leave the calendar.

## Main definitions

* `Aggregated`, `Follows`, `Bunch.RepeatsKeep`: the invariant, and what it asks of the relation and
  of the repeats.
* `Propagated`, `Tree.RepeatsWell`, `Bunch.RepeatsWell`: the case of equality.
* `Reflects`, `Bunch.RepeatsEnd`: the weaker case.

## Main results

* `Aggregated.swim`: swimming brings the ancestors up to date, and never raises.
* `Aggregated.setNodeStatus`, `Aggregated.sinkStatusChange`, `Propagated.requeue`,
  `Aggregated.requeue_reflects`.
-/

namespace Takler

open Program

/-- The nodes of a flow with a repeat requeue well, and the repeats end before the calendar
does. -/
def Tree.RepeatsWell (f : Tree) : Prop :=
  ∀ x ∈ f.walk [f.name], ∀ r ∈ x.2.defn.repeatDate,
    x.2.requeuesWell = true ∧ r.endDate + r.step ≤ maxOrdinal

instance (f : Tree) : Decidable f.RepeatsWell :=
  inferInstanceAs (Decidable (∀ x ∈ f.walk [f.name], ∀ r ∈ x.2.defn.repeatDate,
    x.2.requeuesWell = true ∧ r.endDate + r.step ≤ maxOrdinal))

/-- All flows are such. -/
def Bunch.RepeatsWell (b : Bunch) : Prop := ∀ f ∈ b.flows, f.RepeatsWell

theorem Bunch.RepeatsWell.of_node? {b : Bunch} (hw : b.RepeatsWell) {p : NodePath} {t : Tree}
    (hb : b.node? p = some t) {r : RepeatDate} (hr : t.defn.repeatDate = some r) :
    t.requeuesWell = true ∧ r.endDate + r.step ≤ maxOrdinal := by
  obtain ⟨f, hf, hs⟩ := Bunch.exists_flow_suffix hb
  exact hw f hf (p, t) (Bunch.mem_walk_of_suffix (Bunch.node?_flow hf) hb hs) r hr

/-- Outside `A` the computed status of a node is in relation to its status. Besides, an unknown
submission is submitted, no repeat is past its end, and no recorded path stops a requeue. -/
structure Aggregated (R : NodeStatus → NodeStatus → Prop) (b : Bunch) (A : Set NodePath)
    (s : State) : Prop where
  aggregate : ∀ p t, b.node? p = some t → p ∉ A → R (s.computedStatus p t) (s.node p).status
  unknown : ∀ p, b.isTask p = true → (s.node p).task.submissionUnknownReason ≠ none →
    (s.node p).status = .submitted
  repeatBound : ∀ p t, b.node? p = some t → ∀ r ∈ t.defn.repeatDate,
    (s.node p).repeatValue ≤ r.endDate
  forgettable : b.Forgettable s

/-- A node that has the status it computes is in order, and one below `submitted` computes a status
below `submitted`. -/
structure Follows (R : NodeStatus → NodeStatus → Prop) : Prop where
  refl : ∀ a, R a a
  low : ∀ {a c}, R a c → c < .submitted → a < .submitted

/-- A requeue by a repeat leaves its tree in order, and the repeats end before the calendar does. -/
def Bunch.RepeatsKeep (b : Bunch) (R : NodeStatus → NodeStatus → Prop) : Prop :=
  ∀ p t, b.node? p = some t → ∀ r ∈ t.defn.repeatDate,
    (∀ s s', State.Requeued p t s s' → ∀ x ∈ t.walk p,
      R (s'.computedStatus x.1 x.2) (s'.node x.1).status) ∧ r.endDate + r.step ≤ maxOrdinal

/-- Every container has the status of its children. -/
abbrev Propagated (b : Bunch) (A : Set NodePath) (s : State) : Prop := Aggregated Eq b A s

theorem follows_eq : Follows Eq := ⟨fun _ => rfl, fun h hlow => h ▸ hlow⟩

theorem Bunch.RepeatsWell.keep {b : Bunch} (hw : b.RepeatsWell) : b.RepeatsKeep Eq := by
  intro p t hb r hr
  obtain ⟨hwell, hend⟩ := hw.of_node? hb hr
  exact ⟨fun s s' hs x hx => hs.aggregate (Bunch.wf_of_node? hb) hwell x hx, hend⟩

/-- A node is at least submitted when it computes so. -/
def Reflects (a c : NodeStatus) : Prop := .submitted ≤ a → .submitted ≤ c

theorem follows_reflects : Follows Reflects where
  refl _ h := h
  low h hlow := lt_of_not_ge fun hge => absurd (h hge) hlow.not_ge

/-- The repeats of a flow end before the calendar does. -/
def Tree.RepeatsEnd (f : Tree) : Prop :=
  ∀ x ∈ f.walk [f.name], ∀ r ∈ x.2.defn.repeatDate, r.endDate + r.step ≤ maxOrdinal

instance (f : Tree) : Decidable f.RepeatsEnd :=
  inferInstanceAs (Decidable (∀ x ∈ f.walk [f.name], ∀ r ∈ x.2.defn.repeatDate,
    r.endDate + r.step ≤ maxOrdinal))

/-- The repeats of all flows do. -/
def Bunch.RepeatsEnd (b : Bunch) : Prop := ∀ f ∈ b.flows, f.RepeatsEnd

/-- A tree after its requeue computes nothing above `queued`. -/
theorem State.Requeued.reflects {p : NodePath} {t : Tree} {s s' : State}
    (h : State.Requeued p t s s') {x : NodePath × Tree} (hx : x ∈ t.walk p) :
    Reflects (s'.computedStatus x.1 x.2) (s'.node x.1).status := by
  intro hge
  refine absurd hge (not_le_of_gt ?_)
  by_cases hx' : x.2.isTask = false ∧ x.2.children ≠ []
  · rw [State.computedStatus_eq hx'.1 hx'.2]
    obtain ⟨c, hc, hmem⟩ := List.mem_map.mp (mostSignificant_mem
      (l := x.2.children.map fun c => (s'.node (c.name :: x.1)).status) (by simpa using hx'.2))
    rw [← hmem]
    exact h.low _ (Bunch.mem_walk_child hx hc)
  · have hself : s'.computedStatus x.1 x.2 = (s'.node x.1).status := by
      unfold State.computedStatus
      split_ifs with ht
      · rfl
      · rw [not_and_or, not_not] at hx'
        rw [hx'.resolve_left (by simpa using ht)]
    rw [hself]
    exact h.low x hx

theorem Bunch.RepeatsEnd.keep {b : Bunch} (hw : b.RepeatsEnd) : b.RepeatsKeep Reflects := by
  intro p t hb r hr
  obtain ⟨f, hf, hs⟩ := Bunch.exists_flow_suffix hb
  exact ⟨fun s s' hs x hx => hs.reflects hx,
    hw f hf (p, t) (Bunch.mem_walk_of_suffix (Bunch.node?_flow hf) hb hs) r hr⟩

/-- A node and its ancestors. -/
def upFrom (p : NodePath) : Set NodePath := {q | q <:+ p}

theorem upFrom_subset (n : String) (up : NodePath) : upFrom up ⊆ upFrom (n :: up) :=
  fun _ hq => hq.trans (List.suffix_cons n up)

theorem notMem_upFrom_of_mem_walk {n : String} {up : NodePath} {t : Tree} {x : NodePath × Tree}
    (hx : x ∈ t.walk (n :: up)) : x.1 ∉ upFrom up := by
  intro hup
  have h₁ := (Tree.suffix_of_mem_walk hx).length_le
  have h₂ := List.IsSuffix.length_le hup
  simp only [List.length_cons] at h₁
  omega

namespace Aggregated

variable {R : NodeStatus → NodeStatus → Prop} {b : Bunch} {A A' : Set NodePath} {s s' : State} {p : NodePath} {t : Tree}

theorem mono (h : Aggregated R b A s) (hA : A ⊆ A') : Aggregated R b A' s where
  aggregate p t hb hp := h.aggregate p t hb fun hm => hp (hA hm)
  unknown := h.unknown
  repeatBound := h.repeatBound
  forgettable := h.forgettable

/-- A change at some nodes: the nodes outside `A'` that it concerns have to be in order
afterwards. -/
theorem change {l : List (NodePath × Tree)} (h : Aggregated R b A s) (hc : State.ChangedAt l s s')
    (hl : ∀ x ∈ l, b.node? x.1 = some x.2)
    (hunknown : ∀ x ∈ l, x.2.isTask = true →
      (s'.node x.1).task.submissionUnknownReason ≠ none → (s'.node x.1).status = .submitted)
    (haggregate : ∀ p t, b.node? p = some t → p ∉ A' →
      R (s'.computedStatus p t) (s'.node p).status ∨
      (p ∉ A ∧ (∀ x ∈ l, x.1 ≠ p) ∧ ∀ c ∈ t.children, ∀ x ∈ l, x.1 ≠ c.name :: p)) :
    Aggregated R b A' s' where
  aggregate p t hb hp := by
    rcases haggregate p t hb hp with hs | ⟨hA, hself, hchildren⟩
    · exact hs
    · rw [hc.computedStatus hself hchildren, hc.status p hself]
      exact h.aggregate p t hb hA
  unknown p hbt hu := by
    obtain ⟨t, hb, ht⟩ := Bunch.exists_of_isTask hbt
    by_cases hmem : ∃ x ∈ l, x.1 = p
    · obtain ⟨x, hx, rfl⟩ := hmem
      rw [hl x hx, Option.some_inj] at hb
      exact hunknown x hx (hb ▸ ht) hu
    · rw [hc.status p fun x hx hxp => hmem ⟨x, hx, hxp⟩]
      exact h.unknown p hbt fun hn => hu (hc.unknown p hn)
  repeatBound p t hb r hr := by
    rcases hc.repeatValue p with hv | ⟨x, hx, rfl, hv⟩
    · rw [hv]
      exact h.repeatBound p t hb r hr
    · rw [hl x hx, Option.some_inj] at hb
      have hr : t.defn.repeatDate = some r := hr
      rw [hv, hb, NodeDef.repeatInitial, hr]
      exact r.start_le
  forgettable := h.forgettable.indexKept hc.index

/-- A change of no status and no repeat. -/
theorem changeNone (h : Aggregated R b A s) (hc : State.ChangedAt [] s s') : Aggregated R b A s' :=
  h.change hc (by simp) (by simp) fun _ _ _ hp => .inr ⟨hp, by simp, by simp⟩

theorem quiet (h : Aggregated R b A s) (hq : s.Quiet s') : Aggregated R b A s' :=
  h.changeNone (hq.changedAt [])

/-- The attempt of one task has changed. -/
theorem onlyTask (h : Aggregated R b A s) (ho : State.OnlyTask p s s')
    (hu : (s'.node p).task.submissionUnknownReason ≠ none → (s.node p).status = .submitted) :
    Aggregated R b A s' where
  aggregate q u hq hA := by
    rw [ho.status q, State.computedStatus_congr (ho.status q) fun c _ => ho.status _]
    exact h.aggregate q u hq hA
  unknown q hq hsome := by
    rw [ho.status q]
    by_cases hqp : q = p
    · exact hqp ▸ hu (hqp ▸ hsome)
    · refine h.unknown q hq fun hn => hsome ?_
      rcases (ho.task q hqp).unknown with heq | hnone
      · exact heq.trans hn
      · exact hnone
  repeatBound q u hq r hr := by
    rw [ho.repeatValue q]
    exact h.repeatBound q u hq r hr
  forgettable := h.forgettable.indexKept ho.index

theorem modifyTask {f : TaskState → TaskState} {P : State → Prop} {E : Err → State → Prop}
    (hP : ∀ s, P s → Aggregated R b A s ∧
      ((f (s.node p).task).submissionUnknownReason ≠ none → (s.node p).status = .submitted))
    (hx : ∀ k : TaskState, (f k).paths ⊆ k.paths := by exact fun _ => List.Subset.refl _) :
    Triple P (modifyTask p f) (fun _ => Aggregated R b A) E := by
  intro s hs
  refine (hP s hs).1.onlyTask (onlyTask_modifyTask p f hx s) fun hsome => (hP s hs).2 ?_
  simpa [Takler.modifyTask, modifyNode] using hsome

/-- The status of one node was set: it and its ancestors are behind. -/
theorem statusSet {st : NodeStatus} (h : Aggregated R b A s) (hb : b.node? p = some t)
    (hs : State.StatusSet p t st s s')
    (hu : t.isTask = true → st.inFlight = true →
      (s.node p).task.submissionUnknownReason = none) (hA : upFrom p ⊆ A) :
    Aggregated R b A s' := by
  refine h.change hs.changedAt (by simpa using hb) ?_ fun q u hq hqA => .inr ⟨hqA, ?_, ?_⟩
  · simp only [List.mem_singleton, forall_eq]
    intro ht hsome
    cases hst : st.inFlight with
    | false => exact absurd (hs.forgotten ht hst) hsome
    | true => exact absurd (hs.changedAt.unknown p (hu ht hst)) hsome
  · simp only [List.mem_singleton, forall_eq]
    rintro rfl
    exact hqA (hA (List.suffix_refl p))
  · simp only [List.mem_singleton, forall_eq]
    rintro c - rfl
    exact hqA (hA (List.suffix_cons c.name q))

/-! ### Swimming up -/

/-- A node that is in order is not behind. -/
theorem settle {n : String} {up : NodePath} (h : Aggregated R b (upFrom (n :: up)) s)
    (hb : b.node? (n :: up) = some t)
    (ht : R (s.computedStatus (n :: up) t) (s.node (n :: up)).status) :
    Aggregated R b (upFrom up) s where
  aggregate q u hq hup := by
    by_cases hqp : q = n :: up
    · subst hqp
      rw [hb, Option.some_inj] at hq
      exact hq ▸ ht
    · refine h.aggregate q u hq fun hm => ?_
      exact (List.suffix_cons_iff.mp hm).elim hqp hup
  unknown := h.unknown
  repeatBound := h.repeatBound
  forgettable := h.forgettable

/-- A node takes its computed status, and its parent is next. -/
theorem adoptComputed (hR : Follows R) {n : String} {up : NodePath}
    (hb : b.node? (n :: up) = some t) :
    Triple (Aggregated R b (upFrom (n :: up))) (adoptComputed (n :: up) t)
      (fun st s => Aggregated R b (upFrom up) s ∧ (s.node (n :: up)).status = st)
      (fun _ _ => False) := by
  refine Triple.get_bind fun s hs => Triple.bind (Q := fun _ u => Aggregated R b (upFrom up) u ∧
    (u.node (n :: up)).status = s.computedStatus (n :: up) t) (Triple.get_bind ?_)
      fun _ => Triple.pure fun u hu => hu
  rintro s rfl
  refine Triple.when (fun hne => ?_) fun heq v hv => ?_
  · have ht : t.isTask = false := by
      by_contra hn
      exact hne (by simp [State.computedStatus, Bool.eq_true_of_not_eq_false hn])
    refine (effect_setNodeStatusOnly (n :: up) t _).triple fun v u hset hv => ?_
    subst hv
    have hstatus : (u.node (n :: up)).status = v.computedStatus (n :: up) t := by
      rw [hset.status, if_pos rfl]
    have hcomputed : u.computedStatus (n :: up) t = (u.node (n :: up)).status := by
      by_cases hc : t.children = []
      · exact State.computedStatus_of_forall_eq (by simp [hc])
      · rw [hstatus, State.computedStatus_eq ht hc, State.computedStatus_eq ht hc]
        congr 1
        refine List.map_congr_left fun c _ => ?_
        rw [hset.status, if_neg (by simp)]
    refine ⟨(hs.statusSet hb hset (by simp [ht]) subset_rfl).settle hb ?_, hstatus⟩
    exact hcomputed ▸ hR.refl _
  · subst hv
    have heq : v.computedStatus (n :: up) t = (v.node (n :: up)).status := not_not.mp heq
    exact ⟨hs.settle hb (heq ▸ hR.refl _), heq.symm⟩

/-- Below a node that is below `submitted` everything is. -/
theorem low (hR : Follows R) (h : Aggregated R b A s) : ∀ {p : NodePath}, b.node? p = some t →
    (∀ x ∈ t.walk p, x.1 ∉ A) → (s.node p).status < .submitted →
    ∀ x ∈ t.walk p, (s.node x.1).status < .submitted := by
  induction t using Tree.induction with
  | h d cs ih =>
    intro p hb hA hp x hx
    rcases Tree.mem_walk.mp hx with rfl | ⟨c, hc, hx⟩
    · exact hp
    · have ht : (Tree.node d cs).isTask = false := by
        by_contra hn
        have hnil := (Bunch.wf_of_node? hb).children_of_isTask (Bool.eq_true_of_not_eq_false hn)
        simp [hnil] at hc
      refine ih c hc (Bunch.node?_child hb hc) (fun y hy => hA y ?_) ?_ x hx
      · exact Tree.mem_walk.mpr (.inr ⟨c, hc, hy⟩)
      · have hlow := hR.low (h.aggregate p _ hb (hA (p, _) (Tree.self_mem_walk _ _))) hp
        rw [State.computedStatus_eq ht (List.ne_nil_of_mem hc)] at hlow
        exact (le_mostSignificant (List.mem_map_of_mem hc)).trans_lt hlow

/-- A requeue raises only at an unknown submission. -/
theorem not_stuck (h : Aggregated R b A s) (hb : b.node? p = some t) {x : NodePath × Tree}
    (hx : x ∈ t.walk p) (hu : s.isUnknown x = false) : ¬ s.Stuck x :=
  State.not_stuck hu fun ht => Bunch.forgettable_iff.mp h.forgettable x.1
    ((Bunch.isTask_of_node? (Bunch.node?_of_mem_walk hb hx)).trans ht)

/-- Below a complete node no submission is unknown. -/
theorem isUnknown_of_complete (hR : Follows R) (h : Aggregated R b A s) (hb : b.node? p = some t)
    (hA : ∀ x ∈ t.walk p, x.1 ∉ A) (hp : (s.node p).status = .complete) :
    ∀ x ∈ t.walk p, s.isUnknown x = false := by
  intro x hx
  refine State.isUnknown_eq_false_iff.mpr fun ht => by_contra fun hn => ?_
  have hbt : b.isTask x.1 = true :=
    (Bunch.isTask_of_node? (Bunch.node?_of_mem_walk hb hx)).trans ht
  have hlow := h.low hR hb hA (hp ▸ by decide) x hx
  rw [h.unknown x.1 hbt hn] at hlow
  exact absurd hlow (by decide)

/-- The nodes that a requeue concerns are in the tree, apart from the parent. -/
theorem requeued {n : String} {up : NodePath} (h : Aggregated R b A s)
    (hb : b.node? (n :: up) = some t)
    (hunknown : ∀ x ∈ t.walk (n :: up), s.isUnknown x = false)
    (hr : State.Requeued (n :: up) t s s')
    (hin : ∀ x ∈ t.walk (n :: up), R (s'.computedStatus x.1 x.2) (s'.node x.1).status)
    (hup : up ∉ A → ∀ u, b.node? up = some u → R (s'.computedStatus up u) (s'.node up).status) :
    Aggregated R b A s' := by
  refine h.change hr.toChangedAt (fun x hx => Bunch.node?_of_mem_walk hb hx) ?_ ?_
  · intro x hx ht hsome
    exact absurd (State.isUnknown_eq_false_iff.mp (hr.isUnknown (hunknown x hx)) ht) hsome
  · intro q u hq hqA
    by_cases hmem : (q, u) ∈ t.walk (n :: up)
    · exact .inl (hin _ hmem)
    by_cases hqup : q = up
    · exact .inl (hqup ▸ hup (hqup ▸ hqA) u (hqup ▸ hq))
    refine .inr ⟨hqA, fun x hx hxq => hmem ?_, fun c hc x hx hxq => ?_⟩
    · exact Bunch.mem_walk_of_suffix hb hq (hxq ▸ Tree.suffix_of_mem_walk hx)
    · rcases List.suffix_cons_iff.mp (hxq ▸ Tree.suffix_of_mem_walk hx) with heq | hs
      · exact hqup (List.cons.inj heq).2.symm
      · exact hmem (Bunch.mem_walk_of_suffix hb hq hs)

/-- The repeat of a node has another value. -/
theorem repeatSet (h : Aggregated R b A s) (hb : b.node? p = some t) {r : RepeatDate}
    (hr : t.defn.repeatDate = some r) {value : ℕ} (hv : value ≤ r.endDate) :
    Aggregated R b A { s with
      node := Function.update s.node p { s.node p with repeatValue := value } } := by
  have hstatus (q : NodePath) : (Function.update s.node p
      { s.node p with repeatValue := value } q).status = (s.node q).status := by
    by_cases hq : q = p
    · simp [hq]
    · simp [hq]
  refine ⟨fun q u hq hA => ?_, fun q hq hu => ?_, fun q u hq r' hr' => ?_,
    h.forgettable.indexKept (.update rfl rfl (List.Subset.refl _))⟩
  · have hcomputed : State.computedStatus { s with
        node := Function.update s.node p { s.node p with repeatValue := value } } q u =
        s.computedStatus q u := State.computedStatus_congr (hstatus q) fun c _ => hstatus _
    rw [hstatus q, hcomputed]
    exact h.aggregate q u hq hA
  · rw [hstatus q]
    refine h.unknown q hq fun hn => hu ?_
    by_cases hqp : q = p
    · subst hqp
      simpa using hn
    · simpa [hqp] using hn
  · by_cases hqp : q = p
    · subst hqp
      rw [hb, Option.some_inj] at hq
      have hr' : u.defn.repeatDate = some r' := hr'
      rw [← hq, hr, Option.some_inj] at hr'
      simpa [← hr'] using hv
    · simpa [hqp] using h.repeatBound q u hq r' hr'

/-- A repeat of a complete node advances and requeues the node, or has ended. -/
theorem advanceRepeat (hR : Follows R) (hw : b.RepeatsKeep R) {n : String} {up : NodePath}
    (hb : b.node? (n :: up) = some t) :
    Triple (fun s => Aggregated R b (upFrom up) s ∧ (s.node (n :: up)).status = .complete)
      (advanceRepeat (n :: up) t) (fun _ => Aggregated R b (upFrom up)) (fun _ _ => False) := by
  unfold Takler.advanceRepeat
  split
  · exact Triple.pure fun s hs => hs.1
  · rename_i r hr
    obtain ⟨hwell, hend⟩ := hw (n :: up) t hb r hr
    have hadvance : Triple
        (fun s => Aggregated R b (upFrom up) s ∧ (s.node (n :: up)).status = .complete)
        (r.advance (n :: up))
        (fun _ s => Aggregated R b (upFrom up) s ∧ (s.node (n :: up)).status = .complete)
        (fun _ _ => False) := by
      refine Triple.get_bind fun s hs => Triple.ite (fun hover => ?_) fun _ => Triple.ite
        (fun hle => Triple.bind (Q := fun _ s => Aggregated R b (upFrom up) s ∧
          (s.node (n :: up)).status = .complete) (Triple.modify ?_) fun _ =>
            Triple.pure fun _ hs => hs) fun _ => Triple.pure fun _ hu => hu ▸ hs
      · have hbound := hs.1.repeatBound (n :: up) t hb r hr
        omega
      · rintro s rfl
        exact ⟨hs.1.repeatSet hb hr hle, by simpa using hs.2⟩
    refine hadvance.bind fun advanced => Triple.ite (fun _ => ?_) fun _ =>
      Triple.pure fun s hs => hs.1
    have hmark : Triple
        (fun s => Aggregated R b (upFrom up) s ∧ (s.node (n :: up)).status = .complete)
        (notifyQueryChange (n :: up) [.runtime])
        (fun _ s => Aggregated R b (upFrom up) s ∧ (s.node (n :: up)).status = .complete)
        (fun _ _ => False) :=
      (effect_notifyQueryChange (n :: up) _ _).triple fun s u hq hs =>
        ⟨hs.1.quiet hq, (hq.status _).trans hs.2⟩
    refine hmark.bind fun _ => Triple.of_forall fun s hs => ?_
    have hunknown :=
      hs.1.isUnknown_of_complete hR hb (fun x hx => notMem_upFrom_of_mem_walk hx) hs.2
    exact (requeue_spec hb false fun x hx => hs.1.not_stuck hb hx (hunknown x hx)).bind
      fun _ => Triple.pure fun u hu =>
      hs.1.requeued hb hunknown hu (hwell s u hu) fun hup => absurd (List.suffix_refl up) hup

/-- **Swimming brings every ancestor up to date**, and nothing on the way raises. -/
theorem swim (hR : Follows R) (hw : b.RepeatsKeep R) : ∀ p : NodePath, (p = [] ∨ (b.node? p).isSome) →
    Triple (Aggregated R b (upFrom p)) (swimStatusChange b p) (fun _ => Aggregated R b ∅)
      (fun _ _ => False) ∧
    Triple (Aggregated R b (upFrom p)) (swimStatusChangeOnly b p) (fun _ => Aggregated R b ∅)
      (fun _ _ => False)
  | [], _ => by
    have htop : ∀ s, Aggregated R b (upFrom []) s → Aggregated R b ∅ s := by
      refine fun s hs => ⟨fun p t hb _ => hs.aggregate p t hb fun hp => ?_, hs.unknown,
        hs.repeatBound, hs.forgettable⟩
      rw [List.suffix_nil.mp hp] at hb
      cases hb
    rw [swimStatusChange, swimStatusChangeOnly]
    exact ⟨Triple.pure htop, Triple.pure htop⟩
  | n :: up, hp => by
    obtain ⟨t, hb⟩ := Option.isSome_iff_exists.mp (hp.resolve_left (by simp))
    have hup : up = [] ∨ (b.node? up).isSome := by
      cases up with
      | nil => exact .inl rfl
      | cons m up =>
        obtain ⟨u, hu, -⟩ := Bunch.parent_of_node? hb
        exact .inr (by simp [hu])
    obtain ⟨hswim, honly⟩ := swim hR hw up hup
    have hadopt := adoptComputed hR hb
    have hagain : Triple (Aggregated R b (upFrom up)) (do
        let _ ← Takler.adoptComputed (n :: up) t
        swimStatusChange b up) (fun _ => Aggregated R b ∅) (fun _ _ => False) :=
      Triple.bind (hadopt.pre fun s hs => hs.mono (upFrom_subset n up)) fun _ =>
        hswim.pre fun s hs => hs.1
    rw [swimStatusChange, swimStatusChangeOnly, hb]
    refine ⟨hadopt.bind fun st => Triple.ite (fun hst => ?_) fun _ => hswim.pre fun s hs => hs.1,
      Triple.ite (fun ht => honly.pre fun s hs => hs.settle hb ?_) fun _ =>
        hadopt.bind fun _ => hswim.pre fun s hs => hs.1⟩
    · exact Triple.bind ((advanceRepeat hR hw hb).pre fun s hs => ⟨hs.1, hs.2.trans hst⟩) fun _ =>
        Triple.ite (fun _ => Triple.ite (fun _ => honly) fun _ => hagain) fun _ => hswim
    · rw [State.computedStatus, if_pos ht]
      exact hR.refl _

theorem handleStatusChange (hR : Follows R) (hw : b.RepeatsKeep R) (hb : b.node? p = some t) :
    Triple (Aggregated R b (upFrom p)) (handleStatusChange b p t) (fun _ => Aggregated R b ∅)
      (fun _ _ => False) := by
  refine Triple.bind (Q := fun _ => Aggregated R b (upFrom p)) (Triple.when (fun _ => ?_)
    fun _ s hs => hs) fun _ => (swim hR hw p (.inr (by simp [hb]))).1
  exact (effect_updateLimits p).triple fun s u hl hs => hs.changeNone (hl.changedAt [])

/-- **A status change** is passed on to every ancestor. -/
theorem setNodeStatus (hR : Follows R) (hw : b.RepeatsKeep R) {st : NodeStatus} (hb : b.node? p = some t) :
    Triple (fun s => Aggregated R b ∅ s ∧ (t.isTask = true → st.inFlight = true →
        (s.node p).task.submissionUnknownReason = none))
      (setNodeStatus b p t st) (fun _ => Aggregated R b ∅) (fun _ _ => False) := by
  refine Triple.get_bind fun s hs => Triple.ite (fun _ => Triple.pure fun _ hu => hu ▸ hs.1)
    fun _ => Triple.bind (Q := fun _ => Aggregated R b (upFrom p)) ?_
      fun _ => handleStatusChange hR hw hb
  refine (effect_setNodeStatusOnly p t st).triple ?_
  rintro s u hset rfl
  exact (hs.1.mono (Set.empty_subset _)).statusSet hb hset hs.2 subset_rfl

/-- **A status that sinks** through a tree is passed on to every ancestor. -/
theorem sinkStatusChange (hR : Follows R) (hw : b.RepeatsKeep R) {st : NodeStatus} (hb : b.node? p = some t) :
    Triple (fun s => Aggregated R b ∅ s ∧ (st.inFlight = true →
        ∀ x ∈ t.walk p, s.isUnknown x = false))
      (sinkStatusChange b p t st) (fun _ => Aggregated R b ∅) (fun _ _ => False) := by
  refine Triple.ite (fun ht => (setNodeStatus hR hw hb).pre fun s hs => ⟨hs.1, fun _ hst => ?_⟩)
    fun ht => Triple.bind (Q := fun _ => Aggregated R b (upFrom p)) ?_ fun _ =>
      Triple.bind (Q := fun _ => Aggregated R b (upFrom p)) ?_ fun _ => handleStatusChange hR hw hb
  · exact State.isUnknown_eq_false_iff.mp (hs.2 hst (p, t) (Tree.self_mem_walk p t)) ht
  · refine (effect_sinkStatusChangeOnly p t st).triple fun s u hsunk hs => ?_
    refine hs.1.change hsunk.1 (fun x hx => Bunch.node?_of_mem_walk hb hx)
      (fun x hx hxt hsome => ?_) fun q v hq hup => ?_
    · cases hst : st.inFlight with
      | false => exact absurd ((hsunk.2 x hx).2 hxt hst) hsome
      | true =>
        exact absurd (State.isUnknown_eq_false_iff.mp (hsunk.1.isUnknown (hs.2 hst x hx)) hxt) hsome
    · by_cases hmem : (q, v) ∈ t.walk p
      · refine .inl (State.computedStatus_of_forall_eq (fun c hc => ?_) ▸ hR.refl _)
        rw [(hsunk.2 _ hmem).1]
        exact (hsunk.2 _ (Bunch.mem_walk_child hmem hc)).1
      · refine .inr ⟨Set.notMem_empty q, fun x hx hxq => hmem ?_, fun c _ x hx hxq => ?_⟩
        · exact Bunch.mem_walk_of_suffix hb hq (hxq ▸ Tree.suffix_of_mem_walk hx)
        · rcases List.suffix_cons_iff.mp (hxq ▸ Tree.suffix_of_mem_walk hx) with heq | hs
          · exact hup (heq ▸ List.suffix_cons c.name q)
          · exact hmem (Bunch.mem_walk_of_suffix hb hq hs)
  · exact Triple.forM (P := fun _ => Aggregated R b (upFrom p)) (fun x _ =>
      (effect_updateLimits x.1).triple fun s u hl hs => hs.changeNone (hl.changedAt [])) _

end Aggregated

/-! ### Requeue -/

variable {b : Bunch} {s s' : State} {p : NodePath} {t : Tree}

theorem State.ChangedAt.status_parent {n : String} {up : NodePath}
    (h : State.ChangedAt (t.walk (n :: up)) s s') : (s'.node up).status = (s.node up).status := by
  refine h.status _ fun x hx heq => ?_
  have hlen := (heq ▸ Tree.suffix_of_mem_walk hx).length_le
  simp only [List.length_cons] at hlen
  omega

theorem State.ChangedAt.status_sibling {n m : String} {up : NodePath}
    (h : State.ChangedAt (t.walk (n :: up)) s s') (hm : m ≠ n) :
    (s'.node (m :: up)).status = (s.node (m :: up)).status := by
  refine h.status _ fun x hx heq => hm ?_
  have hsuffix := heq ▸ Tree.suffix_of_mem_walk hx
  exact (List.cons.inj (hsuffix.eq_of_length (by simp))).1.symm

/-- The parent of a node computes its status from its children. -/
theorem State.computedStatus_parent {n : String} {up : NodePath} {v : Tree}
    (hb : b.node? (n :: up) = some t) (hv : b.node? up = some v) (s : State) :
    v.children ≠ [] ∧ s.computedStatus up v =
      mostSignificant (v.children.map fun c => (s.node (c.name :: up)).status) := by
  obtain ⟨m, up', rfl⟩ : ∃ m up', up = m :: up' := by
    cases up with
    | nil => cases hv
    | cons m up' => exact ⟨m, up', rfl⟩
  obtain ⟨w, hw, hc, -⟩ := Bunch.parent_of_node? hb
  rw [hv, Option.some_inj] at hw
  subst hw
  have ht : v.isTask = false := by
    by_contra hn
    have hnil := (Bunch.wf_of_node? hv).children_of_isTask (Bool.eq_true_of_not_eq_false hn)
    simp [hnil] at hc
  exact ⟨List.ne_nil_of_mem hc, State.computedStatus_eq ht (List.ne_nil_of_mem hc)⟩

/-- The parent of a requeued node. -/
theorem State.Requeued.parent {n : String} {up : NodePath} {v : Tree}
    (hr : State.Requeued (n :: up) t s s') (hb : b.node? (n :: up) = some t)
    (hv : b.node? up = some v)
    (hs : mostSignificant (v.children.map fun c => if c.name = n
      then t.defn.defaultNodeStatus.toStatus else (s.node (c.name :: up)).status) =
        (s.node up).status) :
    s'.computedStatus up v = (s'.node up).status := by
  rw [(State.computedStatus_parent hb hv s').2, hr.status_parent, ← hs]
  congr 1
  refine List.map_congr_left fun c _ => ?_
  split_ifs with hcn
  · rw [hcn]
    exact hr.root
  · exact hr.status_sibling hcn

/-- A requeue puts nothing into flight, so the parent stays in order. -/
theorem State.Requeued.parent_reflects {n : String} {up : NodePath} {v : Tree}
    (hr : State.Requeued (n :: up) t s s') (hb : b.node? (n :: up) = some t)
    (hv : b.node? up = some v) (hs : Reflects (s.computedStatus up v) (s.node up).status) :
    Reflects (s'.computedStatus up v) (s'.node up).status := by
  intro hge
  rw [hr.status_parent]
  refine hs ?_
  obtain ⟨hne, hcomputed⟩ := State.computedStatus_parent hb hv s'
  rw [hcomputed] at hge
  obtain ⟨c, hc, hmem⟩ := List.mem_map.mp (mostSignificant_mem
    (l := v.children.map fun c => (s'.node (c.name :: up)).status) (by simpa using hne))
  rw [← hmem] at hge
  by_cases hcn : c.name = n
  · rw [hcn] at hge
    exact absurd hge (hr.low _ (Tree.self_mem_walk _ _)).not_ge
  · rw [(State.computedStatus_parent hb hv s).2]
    rw [hr.status_sibling hcn] at hge
    exact hge.trans (le_mostSignificant (List.mem_map_of_mem hc))

/-- A requeue of which only the parent matters. -/
theorem Aggregated.requeue {R : NodeStatus → NodeStatus → Prop} (hb : b.node? p = some t)
    (resetRepeat : Bool) {F : State → Prop}
    (hfit : ∀ s s', Aggregated R b ∅ s → F s → State.Requeued p t s s' →
      (∀ x ∈ t.walk p, R (s'.computedStatus x.1 x.2) (s'.node x.1).status) ∧
      ∀ n up, p = n :: up → ∀ u, b.node? up = some u →
        R (s'.computedStatus up u) (s'.node up).status) :
    Triple (fun s => Aggregated R b ∅ s ∧ F s) (requeue p t resetRepeat)
      (fun _ => Aggregated R b ∅) (fun _ => Aggregated R b ∅) := by
  refine Triple.of_forall fun s hs => ?_
  by_cases hunknown : ∀ x ∈ t.walk p, s.isUnknown x = false
  · refine (requeue_spec hb resetRepeat fun x hx => hs.1.not_stuck hb hx (hunknown x hx)).conseq
      (fun _ hu => hu) (fun _ u hu => ?_) fun _ _ hf => hf.elim
    obtain ⟨hin, hup⟩ := hfit s u hs.1 hs.2 hu
    cases p with
    | nil => cases hb
    | cons n up => exact hs.1.requeued hb hunknown hu hin fun _ v hv => hup n up rfl v hv
  · push Not at hunknown
    obtain ⟨x, hx, hu⟩ := hunknown
    exact (requeue_refused hb resetRepeat hx (Bool.eq_true_of_not_eq_false hu)).conseq
      (fun _ hu => hu) (fun _ _ hf => hf.elim) fun _ u hq => hs.1.quiet hq

theorem Aggregated.requeue_reflects (hb : b.node? p = some t) (resetRepeat : Bool) :
    Keeps (Aggregated Reflects b ∅) (Takler.requeue p t resetRepeat) := by
  refine (Aggregated.requeue hb resetRepeat (F := fun _ => True) fun s s' hs _ hr =>
    ⟨fun x hx => hr.reflects hx, ?_⟩).pre fun s hs => ⟨hs, trivial⟩
  rintro n up rfl u hu
  exact hr.parent_reflects hb hu (hs.aggregate up u hu (Set.notMem_empty up))

namespace Propagated

/-- The tree requeues well, and the parent keeps its status when the node takes its default
status: a requeue does not swim up. -/
def RequeueFits (b : Bunch) : NodePath → Tree → State → Prop
  | [], t, _ => t.requeuesWell = true
  | n :: up, t, s => t.requeuesWell = true ∧ ∀ u ∈ b.node? up,
      mostSignificant (u.children.map fun c => if c.name = n then t.defn.defaultNodeStatus.toStatus
        else (s.node (c.name :: up)).status) = (s.node up).status

instance (b : Bunch) : ∀ (p : NodePath) (t : Tree) (s : State), Decidable (RequeueFits b p t s)
  | [], t, _ => inferInstanceAs (Decidable (t.requeuesWell = true))
  | n :: up, t, s => inferInstanceAs (Decidable (t.requeuesWell = true ∧ ∀ u ∈ b.node? up,
      mostSignificant (u.children.map fun c => if c.name = n then t.defn.defaultNodeStatus.toStatus
        else (s.node (c.name :: up)).status) = (s.node up).status))

theorem requeue (hb : b.node? p = some t) (resetRepeat : Bool) :
    Triple (fun s => Propagated b ∅ s ∧ RequeueFits b p t s) (requeue p t resetRepeat)
      (fun _ => Propagated b ∅) (fun _ => Propagated b ∅) := by
  refine Aggregated.requeue hb resetRepeat fun s s' hs hfit hr => ?_
  cases p with
  | nil => cases hb
  | cons n up =>
    refine ⟨fun x hx => hr.aggregate (Bunch.wf_of_node? hb) hfit.1 x hx, ?_⟩
    rintro _ _ ⟨⟩ v hv
    exact hr.parent hb hv (hfit.2 v hv)

end Propagated

end Takler
