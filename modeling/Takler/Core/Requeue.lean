import Takler.Core.Frame

/-!
# What a requeue leaves behind

A requeue sets every node of a tree to its default status, and a container whose default status is
complete sets everything below it to complete. Afterwards each container of the tree has the most
significant status of its children only when the default statuses are chosen so: a container that
is queued by default and has children needs one that is queued by default, unless an ancestor
completes them all (`Tree.requeuesWell`).

A requeue raises for two reasons (`State.Stuck`). An unknown submission of a task of the tree is
found before anything that matters has changed. A recorded path that the index cannot forget is found
when its task is reached: the nodes before it in the tree have been requeued, the containers above it
have their default status, and the task itself has its old status without an attempt.

## Main definitions

* `Tree.requeuesWell`.
* `State.ChangedAt`: the nodes whose status or repeat may have changed.
* `State.Stuck`: the tasks at which a requeue raises.
* `Tree.CompletedByDefault`, `Tree.Restarts`: the nodes that a requeue completes, and the statuses
  it gives.
* `State.Requeued`: the state after a requeue.

## Main results

* `effect_sinkStatusChangeOnly`: sinking a status.
* `requeue_within`: what the steps of a requeue keep, a requeue keeps.
* `requeue_spec`: a requeue of a tree in which no task is stuck.
* `State.Requeued.aggregate`: when every container has the status of its children then.
* `requeue_refused`: a requeue of a tree with an unknown submission.
-/

namespace Takler

open Program

mutual
/-- Whether after a requeue of the tree every container has the status of its children. -/
def Tree.requeuesWell : Tree → Bool
  | .node d cs => d.defaultNodeStatus = .complete ||
    ((cs.isEmpty || cs.any fun c => c.defn.defaultNodeStatus = .queued) && Tree.allRequeueWell cs)

/-- Whether all trees requeue well. -/
def Tree.allRequeueWell : List Tree → Bool
  | [] => true
  | c :: cs => c.requeuesWell && Tree.allRequeueWell cs
end

theorem Tree.allRequeueWell_iff {cs : List Tree} :
    Tree.allRequeueWell cs = true ↔ ∀ c ∈ cs, c.requeuesWell = true := by
  induction cs with
  | nil => simp [Tree.allRequeueWell]
  | cons c cs ih => simp [Tree.allRequeueWell, ih]

/-! ### Frames -/

/-- At most the nodes of a list have another status, or the first value of their repeat; no
submission has become unknown, and no path was recorded that the index cannot forget. -/
structure State.ChangedAt (l : List (NodePath × Tree)) (s s' : State) : Prop where
  index : s.IndexKept s'
  status : ∀ q, (∀ x ∈ l, x.1 ≠ q) → (s'.node q).status = (s.node q).status
  unknown : ∀ q, (s.node q).task.submissionUnknownReason = none →
    (s'.node q).task.submissionUnknownReason = none
  repeatValue : ∀ q, (s'.node q).repeatValue = (s.node q).repeatValue ∨
    ∃ x ∈ l, x.1 = q ∧ (s'.node q).repeatValue = x.2.defn.repeatInitial

namespace State

variable {l l' : List (NodePath × Tree)} {s t u : State}

theorem ChangedAt.refl (l : List (NodePath × Tree)) (s : State) : ChangedAt l s s :=
  ⟨.refl s, fun _ _ => rfl, fun _ h => h, fun _ => .inl rfl⟩

theorem ChangedAt.mono (h : ChangedAt l s t) (hl : l ⊆ l') : ChangedAt l' s t where
  index := h.index
  status q hq := h.status q fun x hx => hq x (hl hx)
  unknown := h.unknown
  repeatValue q := (h.repeatValue q).imp_right fun ⟨x, hx, hq⟩ => ⟨x, hl hx, hq⟩

theorem ChangedAt.trans (h : ChangedAt l s t) (h' : ChangedAt l t u) : ChangedAt l s u where
  index := h.index.trans h'.index
  status q hq := (h'.status q hq).trans (h.status q hq)
  unknown q hq := h'.unknown q (h.unknown q hq)
  repeatValue q := by
    rcases h'.repeatValue q with hq | hq
    · rw [hq]
      exact h.repeatValue q
    · exact .inr hq

theorem isUnknown_eq_false_iff {x : NodePath × Tree} : s.isUnknown x = false ↔
    (x.2.isTask = true → (s.node x.1).task.submissionUnknownReason = none) := by
  simp only [State.isUnknown, Bool.and_eq_false_imp, Option.isSome_eq_false_iff,
    Option.isNone_iff_eq_none]

theorem ChangedAt.isUnknown (h : ChangedAt l s t) {x : NodePath × Tree}
    (hx : s.isUnknown x = false) : t.isUnknown x = false :=
  isUnknown_eq_false_iff.mpr fun ht => h.unknown x.1 (isUnknown_eq_false_iff.mp hx ht)

theorem Quiet.changedAt (h : s.Quiet t) (l : List (NodePath × Tree)) : ChangedAt l s t where
  index := h.index
  status q _ := h.status q
  unknown q hq := by
    rcases (h.task q).unknown with hu | hu
    · exact hu.trans hq
    · exact hu
  repeatValue q := .inl (h.repeatValue q)

theorem StatusSet.changedAt {p : NodePath} {d : Tree} {st : NodeStatus}
    (h : StatusSet p d st s t) : ChangedAt [(p, d)] s t where
  index := h.index
  status q hq := by
    have hne : q ≠ p := fun heq => hq (p, d) List.mem_cons_self heq.symm
    rw [h.status q, if_neg hne]
  unknown q hq := by
    rcases (h.task q).unknown with hu | hu
    · exact hu.trans hq
    · exact hu
  repeatValue q := (h.repeatValue q).imp_right fun hq => ⟨(p, d), List.mem_cons_self, hq.1.symm, hq.2⟩

theorem Cleared.changedAt {p : NodePath} (h : Cleared p s t) (l : List (NodePath × Tree)) :
    ChangedAt l s t where
  index := h.index
  status q _ := h.status q
  unknown q hq := by
    by_cases hqp : q = p
    · exact hqp ▸ h.unknown
    · rcases (h.task q hqp).unknown with hu | hu
      · exact hu.trans hq
      · exact hu
  repeatValue q := .inl (h.repeatValue q)

theorem LimitsUpdated.changedAt {p : NodePath} (h : LimitsUpdated p s t)
    (l : List (NodePath × Tree)) : ChangedAt l s t := by
  obtain ⟨marks, rfl⟩ := h
  exact ⟨.of_eq rfl rfl, fun _ _ => rfl, fun _ hq => hq, fun _ => .inl rfl⟩

/-- A requeue raises at a task whose submission has an unknown outcome, and at one of which the index
cannot forget a path. -/
def Stuck (s : State) (x : NodePath × Tree) : Prop :=
  x.2.isTask = true ∧ ((s.node x.1).task.submissionUnknownReason ≠ none ∨ s.IsMoved x.1)

theorem isUnknown_of_not_stuck {x : NodePath × Tree} (hx : ¬ s.Stuck x) : s.isUnknown x = false :=
  isUnknown_eq_false_iff.mpr fun ht => by_contra fun hu => hx ⟨ht, .inl hu⟩

theorem not_stuck {x : NodePath × Tree} (hu : s.isUnknown x = false)
    (hm : x.2.isTask = true → ¬ s.IsMoved x.1) : ¬ s.Stuck x := by
  rintro ⟨ht, hx | hx⟩
  · exact hx (isUnknown_eq_false_iff.mp hu ht)
  · exact hm ht hx

theorem ChangedAt.not_stuck (h : ChangedAt l s t) {x : NodePath × Tree} (hx : ¬ s.Stuck x) :
    ¬ t.Stuck x :=
  State.not_stuck (h.isUnknown (isUnknown_of_not_stuck hx)) fun ht hm =>
    hx ⟨ht, .inr (h.index.isMoved x.1 hm)⟩

/-- The computed status depends on the statuses of the node and of its children. -/
theorem computedStatus_congr {p : NodePath} {d : Tree}
    (hp : (t.node p).status = (s.node p).status)
    (hc : ∀ c ∈ d.children, (t.node (c.name :: p)).status = (s.node (c.name :: p)).status) :
    t.computedStatus p d = s.computedStatus p d := by
  unfold computedStatus
  rw [hp]
  split_ifs
  · rfl
  · cases hd : d.children with
    | nil => rfl
    | cons c cs =>
      rw [hd] at hc
      simp only
      rw [List.map_congr_left hc]

/-- A container with children. -/
theorem computedStatus_eq {p : NodePath} {d : Tree} (hd : d.isTask = false)
    (hc : d.children ≠ []) :
    s.computedStatus p d = mostSignificant (d.children.map fun c => (s.node (c.name :: p)).status) := by
  rw [computedStatus, if_neg (by simp [hd])]
  cases hcs : d.children with
  | nil => exact absurd hcs hc
  | cons c cs => rfl

/-- A node whose children all have the status of the node. -/
theorem computedStatus_of_forall_eq {p : NodePath} {d : Tree}
    (hc : ∀ c ∈ d.children, (s.node (c.name :: p)).status = (s.node p).status) :
    s.computedStatus p d = (s.node p).status := by
  unfold computedStatus
  split_ifs
  · rfl
  · cases hd : d.children with
    | nil => rfl
    | cons c cs =>
      rw [hd] at hc
      refine mostSignificant_of_forall_eq (by simp) fun a ha => ?_
      obtain ⟨e, he, rfl⟩ := List.mem_map.mp ha
      exact hc e he

/-- What happens elsewhere does not concern a node. -/
theorem ChangedAt.computedStatus (h : ChangedAt l s t) {p : NodePath} {d : Tree}
    (hp : ∀ x ∈ l, x.1 ≠ p) (hc : ∀ c ∈ d.children, ∀ x ∈ l, x.1 ≠ c.name :: p) :
    t.computedStatus p d = s.computedStatus p d :=
  computedStatus_congr (h.status p hp) fun c hcs => h.status _ (hc c hcs)

end State

/-! ### Sinking a status -/

/-- Every node of a list has a status, and its tasks have forgotten unknown submissions. -/
private def Sunk (st : NodeStatus) (l : List (NodePath × Tree)) (s s' : State) : Prop :=
  State.ChangedAt l s s' ∧ ∀ x ∈ l, (s'.node x.1).status = st ∧
    (x.2.isTask = true → st.inFlight = false → (s'.node x.1).task.submissionUnknownReason = none)

private theorem Sunk.cons {st : NodeStatus} {x : NodePath × Tree} {l : List (NodePath × Tree)}
    {s t u : State} (hx : State.StatusSet x.1 x.2 st s t) (hl : Sunk st l t u) :
    Sunk st (x :: l) s u := by
  refine ⟨(hx.changedAt.mono (by simp)).trans (hl.1.mono (by simp)), fun y hy => ?_⟩
  by_cases hmem : ∃ z ∈ l, z.1 = y.1
  · obtain ⟨z, hz, hzy⟩ := hmem
    refine ⟨hzy ▸ (hl.2 z hz).1, fun hyt hst => ?_⟩
    rcases List.mem_cons.mp hy with rfl | hy
    · exact hl.1.unknown _ (hx.forgotten hyt hst)
    · exact (hl.2 y hy).2 hyt hst
  · -- the node is not set again
    have hnot : y ∉ l := fun h => hmem ⟨y, h, rfl⟩
    obtain rfl := (List.mem_cons.mp hy).resolve_right hnot
    refine ⟨?_, fun hyt hst => hl.1.unknown _ (hx.forgotten hyt hst)⟩
    rw [hl.1.status y.1 fun z hz h => hmem ⟨z, hz, h⟩, hx.status, if_pos rfl]

theorem effect_sinkStatusChangeOnly (p : NodePath) (t : Tree) (st : NodeStatus) :
    Effect (fun s s' => State.ChangedAt (t.walk p) s s' ∧ ∀ x ∈ t.walk p,
        (s'.node x.1).status = st ∧ (x.2.isTask = true → st.inFlight = false →
          (s'.node x.1).task.submissionUnknownReason = none))
      (sinkStatusChangeOnly p t st) :=
  Effect.forM (R := Sunk st) (fun x => effect_setNodeStatusOnly x.1 x.2 st)
    (fun s => ⟨State.ChangedAt.refl [] s, by simp⟩) (fun _ _ _ _ _ hx hl => Sunk.cons hx hl) (t.walk p)

/-! ### Requeue -/

/-- **What the steps of a requeue keep, a requeue keeps**, returned or raised. -/
theorem requeue_within {R : State → State → Prop} [Std.Refl R] [IsTrans State R]
    {resetRepeat : Bool} (t : Tree) : ∀ p : NodePath,
    (∀ x ∈ t.walk p, Within R (Node.requeue x.1 x.2 resetRepeat) ∧
      Within R (Task.requeue x.1 x.2 resetRepeat) ∧
      Within R (setNodeStatusOnly x.1 x.2 .complete)) →
    Within R (requeue p t resetRepeat) := by
  induction t using Tree.induction with
  | h d cs ih =>
    intro p h
    have hp := h _ (Tree.self_mem_walk p (.node d cs))
    have hchildren : ∀ l : List Tree, (∀ c ∈ l, c ∈ cs) →
        Within R (requeueChildren p l resetRepeat) := by
      intro l hl
      induction l with
      | nil =>
        rw [requeueChildren]
        exact Within.pure _
      | cons c l ihl =>
        rw [requeueChildren]
        have hc := hl c List.mem_cons_self
        exact .bind (ih c hc _ fun x hx => h x (Tree.mem_walk.mpr (.inr ⟨c, hc, hx⟩))) fun _ =>
          ihl fun e he => hl e (List.mem_cons_of_mem c he)
    rw [requeue]
    exact .ite hp.2.1 (Within.get.bind fun _ => .ite (.throw _)
      (.bind hp.1 fun _ => .bind (hchildren cs fun _ hc => hc) fun _ =>
        .when (.forM fun x hx => (h x hx).2.2)))

/-! ### The statuses after a requeue -/

/-- A requeue of the tree at `p` completes the node at `q`: a node between the two is complete by
default. -/
def Tree.CompletedByDefault (p : NodePath) (t : Tree) (q : NodePath) : Prop :=
  ∃ y ∈ t.walk p, y.1 <:+ q ∧ y.2.defn.defaultNodeStatus = .complete

/-- The status that a requeue of the tree at `p` gives the node at `q`. -/
def Tree.Restarts (p : NodePath) (t : Tree) (q : NodePath) (status : NodeStatus) : Prop :=
  (status = .complete ∧ t.CompletedByDefault p q) ∨
    (status = .queued ∧ ¬ t.CompletedByDefault p q)

theorem Tree.Restarts.le_complete_iff {p q : NodePath} {t : Tree} {status : NodeStatus}
    (h : t.Restarts p q status) : status ≤ .complete ↔ t.CompletedByDefault p q := by
  rcases h with ⟨rfl, hq⟩ | ⟨rfl, hq⟩
  · simp [hq]
  · exact iff_of_false (by decide) hq

theorem Tree.Restarts.complete_le {p q : NodePath} {t : Tree} {status : NodeStatus}
    (h : t.Restarts p q status) : .complete ≤ status := by
  rcases h with ⟨rfl, -⟩ | ⟨rfl, -⟩ <;> decide

/-- Below a root that is queued by default, the child decides. -/
theorem Tree.completedByDefault_child {t c : Tree} {p : NodePath} {x : NodePath × Tree} (hwf : t.WF)
    (hd : t.defn.defaultNodeStatus ≠ .complete) (hc : c ∈ t.children)
    (hx : x ∈ c.walk (c.name :: p)) :
    t.CompletedByDefault p x.1 ↔ c.CompletedByDefault (c.name :: p) x.1 := by
  constructor
  · rintro ⟨y, hy, hyx, hdefault⟩
    rcases Tree.mem_walk.mp hy with rfl | ⟨e, he, hy⟩
    · exact absurd hdefault hd
    · have hsuffix := List.suffix_of_suffix_length_le
        ((Tree.suffix_of_mem_walk hy).trans hyx) (Tree.suffix_of_mem_walk hx) (by simp)
      have hname : e.name = c.name := (List.cons.inj (hsuffix.eq_of_length (by simp))).1
      obtain rfl := List.inj_on_of_nodup_map hwf.nodup he hc hname
      exact ⟨y, hy, hyx, hdefault⟩
  · rintro ⟨y, hy, hyx, hdefault⟩
    exact ⟨y, Tree.mem_walk.mpr (.inr ⟨c, hc, hy⟩), hyx, hdefault⟩

theorem Tree.completedByDefault_self {p : NodePath} {t : Tree} :
    t.CompletedByDefault p p ↔ t.defn.defaultNodeStatus = .complete := by
  constructor
  · rintro ⟨y, hy, hyp, hdefault⟩
    rcases Tree.mem_walk.mp hy with rfl | ⟨c, -, hy⟩
    · exact hdefault
    · simpa using ((Tree.suffix_of_mem_walk hy).trans hyp).length_le
  · exact fun hdefault => ⟨(p, t), Tree.self_mem_walk p t, List.suffix_rfl, hdefault⟩

/-- The root takes its default status. -/
theorem Tree.restarts_self_iff {p : NodePath} {t : Tree} {status : NodeStatus} :
    t.Restarts p p status ↔ status = t.defn.defaultNodeStatus.toStatus := by
  rw [Tree.Restarts, Tree.completedByDefault_self]
  cases t.defn.defaultNodeStatus <;> simp [DefaultStatus.toStatus]

theorem Tree.Restarts.lt_submitted {p q : NodePath} {t : Tree} {status : NodeStatus}
    (h : t.Restarts p q status) : status < .submitted := by
  rcases h with ⟨rfl, -⟩ | ⟨rfl, -⟩ <;> decide

/-- When the tree requeues well, the statuses that a requeue gives are those that the containers
compute. -/
theorem Tree.computedStatus_of_restarts {s : State} {t : Tree} : ∀ {p : NodePath}, t.WF →
    t.requeuesWell = true → (∀ x ∈ t.walk p, t.Restarts p x.1 (s.node x.1).status) →
    ∀ x ∈ t.walk p, s.computedStatus x.1 x.2 = (s.node x.1).status := by
  induction t using Tree.induction with
  | h d cs ih =>
    intro p hwf hwell hst x hx
    by_cases hd : d.defaultNodeStatus = .complete
    · -- everything is complete
      have hstatus {x : NodePath × Tree} (hx : x ∈ (Tree.node d cs).walk p) :
          (s.node x.1).status = .complete := (hst x hx).complete_le.antisymm' <|
        (hst x hx).le_complete_iff.mpr ⟨_, Tree.self_mem_walk p _, Tree.suffix_of_mem_walk hx, hd⟩
      refine State.computedStatus_of_forall_eq fun c hc => ?_
      rw [hstatus hx, hstatus (Bunch.mem_walk_child hx hc)]
    have hchild {c : Tree} (hc : c ∈ cs) :
        ∀ x ∈ c.walk (c.name :: p), c.Restarts (c.name :: p) x.1 (s.node x.1).status := by
      intro x hx
      have := hst x (Tree.mem_walk.mpr (.inr ⟨c, hc, hx⟩))
      rwa [Tree.Restarts, Tree.completedByDefault_child hwf hd hc hx] at this
    obtain ⟨hsome, hall⟩ : (cs = [] ∨ ∃ c ∈ cs, c.defn.defaultNodeStatus = .queued) ∧
        Tree.allRequeueWell cs = true := by simpa [Tree.requeuesWell, hd] using hwell
    rcases Tree.mem_walk.mp hx with rfl | ⟨c, hc, hx⟩
    · -- the root: one child is queued, and the others are queued or complete
      rcases hsome with rfl | ⟨c, hc, hq⟩
      · exact State.computedStatus_of_forall_eq (by simp)
      have ht : (Tree.node d cs).isTask = false := Bool.eq_false_of_not_eq_true fun ht =>
        List.ne_nil_of_mem hc (hwf.children_of_isTask ht)
      have hself {c : Tree} (hc : c ∈ cs) :=
        Tree.restarts_self_iff.mp (hchild hc _ (Tree.self_mem_walk _ c))
      have hroot : (s.node p).status = .queued := by
        have hroot := Tree.restarts_self_iff.mp (hst _ (Tree.self_mem_walk p _))
        cases hq : d.defaultNodeStatus with
        | queued => rwa [Tree.defn_node, hq] at hroot
        | complete => exact absurd hq hd
      change s.computedStatus p (.node d cs) = (s.node p).status
      rw [hroot, State.computedStatus_eq ht (List.ne_nil_of_mem hc)]
      refine le_antisymm (mostSignificant_le fun a ha => ?_) (le_mostSignificant ?_)
      · obtain ⟨f, hf, rfl⟩ := List.mem_map.mp ha
        rw [hself hf]
        cases f.defn.defaultNodeStatus <;> decide
      · refine List.mem_map.mpr ⟨c, hc, ?_⟩
        rw [hself hc, hq]
        rfl
    · exact ih c hc (hwf.child hc) (Tree.allRequeueWell_iff.mp hall c hc) (hchild hc) x hx

/-- The state after the requeue of a tree. -/
structure State.Requeued (p : NodePath) (t : Tree) (s s' : State) : Prop
    extends State.ChangedAt (t.walk p) s s' where
  restarts : ∀ x ∈ t.walk p, t.Restarts p x.1 (s'.node x.1).status

namespace State.Requeued

variable {p : NodePath} {t : Tree} {s s' : State}

theorem root (h : State.Requeued p t s s') :
    (s'.node p).status = t.defn.defaultNodeStatus.toStatus :=
  Tree.restarts_self_iff.mp (h.restarts _ (Tree.self_mem_walk p t))

theorem low (h : State.Requeued p t s s') :
    ∀ x ∈ t.walk p, (s'.node x.1).status < .submitted := fun x hx => (h.restarts x hx).lt_submitted

theorem aggregate (h : State.Requeued p t s s') (hwf : t.WF) (hwell : t.requeuesWell = true) :
    ∀ x ∈ t.walk p, s'.computedStatus x.1 x.2 = (s'.node x.1).status :=
  Tree.computedStatus_of_restarts hwf hwell h.restarts

end State.Requeued

variable {b : Bunch}

private theorem taskRequeue_spec {p : NodePath} {t : Tree} (hb : b.node? p = some t)
    (ht : t.isTask = true) (resetRepeat : Bool) {s : State} (hs : ¬ s.Stuck (p, t)) :
    Triple (· = s) (Task.requeue p t resetRepeat) (fun _ => State.Requeued p t s)
      (fun _ _ => False) := by
  have hwalk {x : NodePath × Tree} := (Bunch.wf_of_node? hb).eq_of_mem_walk (p := p) (x := x) ht
  have htoken : Within State.Quiet (when (t.kind = .shell)
      (modifyTask p fun k => { k with submissionToken := none })) :=
    .when (quiet_modifyTask p fun _ => ⟨rfl, rfl, rfl, rfl, .inl rfl⟩)
  have hraises : Raises (fun _ => False) (when (t.kind = .shell)
      (modifyTask p fun k => { k with submissionToken := none })) := .when (.modify _)
  refine Triple.bind (Q := fun _ u => s.Quiet u ∧ ¬ u.Stuck (p, t))
    (((htoken.triple s).and hraises).conseq (fun _ hu => ⟨hu, trivial⟩)
      (fun _ u hu => ⟨hu.1, (hu.1.changedAt []).not_stuck hs⟩) fun _ _ hu => hu.2)
    fun _ => Triple.get_bind fun u hu => ?_
  refine Triple.ite (fun hsome => ?_) fun _ => ?_
  · exact absurd ⟨ht, .inl (Option.isSome_iff_ne_none.mp hsome)⟩ hu.2
  refine (requeueTask_spec p t resetRepeat _ u).conseq (fun _ hv => hv) ?_
    fun _ _ hv => hu.2 ⟨ht, .inr hv.1⟩
  rintro _ w ⟨-, v, v', hc, hset, hl⟩
  have hchanged : State.ChangedAt (t.walk p) s w :=
    (hu.1.changedAt _).trans ((hc.changedAt _).trans
      ((hset.changedAt.mono (by simpa using Tree.self_mem_walk p t)).trans (hl.changedAt _)))
  have hroot : (w.node p).status = t.defn.defaultNodeStatus.toStatus := by
    rw [(hl.changedAt []).status p (by simp), hset.status, if_pos rfl]
  refine { hchanged with restarts := fun x hx => ?_ }
  rw [hwalk hx, Tree.restarts_self_iff]
  exact hroot

/-- The children are requeued one after the other. -/
private theorem requeueChildren_spec {p : NodePath} {resetRepeat : Bool} :
    ∀ (cs : List Tree) (_ : ∀ c ∈ cs, ∀ s : State,
      (∀ x ∈ c.walk (c.name :: p), ¬ s.Stuck x) →
      Triple (· = s) (requeue (c.name :: p) c resetRepeat)
        (fun _ => State.Requeued (c.name :: p) c s) (fun _ _ => False))
      (_ : (cs.map Tree.name).Nodup) (s : State)
      (_ : ∀ x ∈ Tree.walkList p cs, ¬ s.Stuck x),
    Triple (· = s) (requeueChildren p cs resetRepeat)
      (fun _ u => State.ChangedAt (Tree.walkList p cs) s u ∧
        ∀ c ∈ cs, ∀ x ∈ c.walk (c.name :: p), c.Restarts (c.name :: p) x.1 (u.node x.1).status)
      (fun _ _ => False)
  | [], _, _, s, _ => by
    rw [requeueChildren]
    refine Triple.pure ?_
    rintro s rfl
    exact ⟨State.ChangedAt.refl _ s, by simp⟩
  | c :: cs, ih, hnodup, s, hs => by
    rw [requeueChildren]
    have hs : ∀ x, x ∈ c.walk (c.name :: p) ∨ x ∈ Tree.walkList p cs → ¬ s.Stuck x :=
      fun x hx => hs x (by simpa [Tree.walkList] using hx)
    have hne : ∀ d ∈ cs, d.name ≠ c.name := fun d hd heq =>
      (List.nodup_cons.mp hnodup).1 (heq ▸ List.mem_map_of_mem hd)
    refine (ih c List.mem_cons_self s fun x hx => hs x (.inl hx)).bind fun _ =>
      Triple.of_forall fun u hu => ?_
    refine (requeueChildren_spec cs (fun d hd => ih d (List.mem_cons_of_mem c hd))
      (List.nodup_cons.mp hnodup).2 u fun x hx => hu.toChangedAt.not_stuck (hs x (.inr hx))).post
        fun _ v hv => ⟨?_, fun d hd x hx => ?_⟩
    · exact (hu.toChangedAt.mono (by simp [Tree.walkList])).trans
        (hv.1.mono (by simp [Tree.walkList]))
    · rcases List.mem_cons.mp hd with rfl | hd
      · -- the later siblings leave the first one alone
        rw [hv.1.status x.1 fun y hy => ?_]
        · exact hu.restarts x hx
        obtain ⟨e, he, hy⟩ := Tree.mem_walkList.mp hy
        exact Tree.walk_disjoint (hne e he) hy hx
      · exact hv.2 d hd x hx

/-- **A requeue of a tree in which no task is stuck** returns, and every node of it has the status that
the default statuses give it. By induction over the tree: a container sets its own default status
first, then its children are requeued one after the other, each from a state in which still no task
is stuck, and a container that is complete by default sinks its status last. -/
theorem requeue_spec {t : Tree} : ∀ {p : NodePath}, b.node? p = some t → ∀ (resetRepeat : Bool)
    {s : State}, (∀ x ∈ t.walk p, ¬ s.Stuck x) →
    Triple (· = s) (requeue p t resetRepeat) (fun _ => State.Requeued p t s)
      (fun _ _ => False) := by
  induction t using Tree.induction with
  | h d cs ih =>
    intro p hb resetRepeat s hs
    rw [requeue]
    refine Triple.ite (fun hk => taskRequeue_spec hb hk resetRepeat (hs _ (Tree.self_mem_walk _ _)))
      fun _ => Triple.get_bind ?_
    rintro s rfl
    have hbelow : ∀ x ∈ Tree.walkList p cs, ¬ s.Stuck x := fun x hx =>
      hs x (by simp [Tree.walk, hx])
    refine Triple.ite (fun hany => ?_) fun _ => ?_
    · obtain ⟨x, hx, hu⟩ := List.any_eq_true.mp hany
      simp [State.isUnknown_of_not_stuck (hbelow x hx)] at hu
    have hself : Triple (· = s) (Node.requeue p (.node d cs) resetRepeat)
        (fun _ => State.StatusSet p (.node d cs) d.defaultNodeStatus.toStatus s)
        (fun _ _ => False) :=
      (effect_nodeRequeue p (.node d cs) resetRepeat).triple fun _ u hset hu => hu ▸ hset
    refine hself.bind fun _ => Triple.of_forall fun u hu => ?_
    have hchanged {v : State} (hv : State.ChangedAt (Tree.walkList p cs) u v) :
        State.ChangedAt ((Tree.node d cs).walk p) s v := by
      rw [Tree.walk]
      exact (hu.changedAt.mono (by simp)).trans (hv.mono (by simp))
    refine (requeueChildren_spec cs
      (fun c hc s hs => ih c hc (Bunch.node?_child hb hc) resetRepeat hs)
      (Bunch.wf_of_node? hb).nodup u fun x hx => hu.changedAt.not_stuck (hbelow x hx)).bind
        fun _ => Triple.when (fun hd => ?_) fun hd v hv => ?_
    · -- everything is complete, and the root completes it by default
      refine (effect_sinkStatusChangeOnly p (.node d cs) .complete).triple fun v w hsunk hv =>
        { (hchanged hv.1).trans hsunk.1 with restarts := fun x hx => .inl ⟨(hsunk.2 x hx).1, ?_⟩ }
      exact ⟨(p, .node d cs), Tree.self_mem_walk _ _, Tree.suffix_of_mem_walk hx, hd⟩
    · refine { hchanged hv.1 with restarts := fun x hx => ?_ }
      rcases Tree.mem_walk.mp hx with rfl | ⟨c, hc, hx⟩
      · rw [Tree.restarts_self_iff]
        dsimp only
        rw [hv.1.status p fun x hx => Tree.ne_of_mem_walkList hx, hu.status, if_pos rfl,
          Tree.defn_node]
      · rw [Tree.Restarts, Tree.completedByDefault_child (Bunch.wf_of_node? hb) hd hc hx]
        exact hv.2 c hc x hx

/-- A requeue of a tree with an unknown submission is refused. -/
theorem requeue_refused {p : NodePath} {t : Tree} (hb : b.node? p = some t) (resetRepeat : Bool)
    {s : State} {x : NodePath × Tree} (hx : x ∈ t.walk p) (hu : s.isUnknown x = true) :
    Triple (· = s) (requeue p t resetRepeat) (fun _ _ => False) (fun _ => State.Quiet s) := by
  cases t with
  | node d cs =>
    rw [requeue]
    refine Triple.ite (fun hk => ?_) fun hk => Triple.get_bind ?_
    · have hcs : cs = [] := (Bunch.wf_of_node? hb).children_of_isTask hk
      obtain rfl : x = (p, .node d cs) := by simpa [hcs, Tree.walk, Tree.walkList] using hx
      have htoken : Triple (· = s) (when ((Tree.node d cs).kind = .shell)
          (modifyTask p fun k => { k with submissionToken := none }))
          (fun _ v => s.Quiet v ∧ (v.node p).task.submissionUnknownReason.isSome = true)
          (fun _ => State.Quiet s) := by
        have hsome : (s.node p).task.submissionUnknownReason.isSome = true :=
          (Bool.and_eq_true _ _ ▸ hu).2
        refine Triple.when (fun _ => Triple.modify ?_) fun _ => ?_
        · rintro s rfl
          have hq : Within State.Quiet (modifyTask p fun k => { k with submissionToken := none }) :=
            quiet_modifyTask p fun _ => ⟨rfl, rfl, rfl, rfl, .inl rfl⟩
          exact ⟨hq s, by simpa using hsome⟩
        · rintro s rfl
          exact ⟨refl_of State.Quiet s, hsome⟩
      refine htoken.bind fun _ => Triple.get_bind fun v hv => Triple.ite
        (fun _ => Triple.throw fun _ hw => hw ▸ hv.1) fun hn => absurd hv.2 hn
    · rintro s rfl
      refine Triple.ite (fun _ => Triple.throw fun v hv => ?_) fun hn => ?_
      · exact hv ▸ refl_of State.Quiet s
      rcases Tree.mem_walk.mp hx with rfl | hx
      · simp [State.isUnknown, Tree.isTask, Tree.kind, hk] at hu
      · exact absurd (List.any_eq_true.mpr ⟨x, Tree.mem_walkList.mpr hx, hu⟩) hn

end Takler
