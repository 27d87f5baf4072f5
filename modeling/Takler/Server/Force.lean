import Takler.Core.RunInvariant
import Takler.Server.Scheduler

/-!
# A force keeps the invariants

A force sets the status of a node, or of all nodes below it, after checks over all targets. Before
a force to queued the attempts of the tasks are cleared, and until their status is set these tasks
are not in order. The policy `adopt` takes over a password, and an in-limit may be deleted; these
two writes are made by commands only.

## Main definitions

* `ServerStable`: what the invariant has to stand.

## Main results

* `ServerStable.forceNode`: a force, recursive or not.
-/

namespace Takler

open Program

/-- The conditions under which all commands keep `I ∅`. -/
structure ServerStable (b : Bunch) (I : Set NodePath → State → Prop)
    (Ready : NodePath → State → Prop) : Prop extends Stable b I Ready where
  /-- A password of a call is taken over. -/
  adopt {p : NodePath} {password : Option String} : b.isTask p = true →
    notBlank (password.getD "") = true →
    Keeps (I ∅) (modifyTask p fun k => { k with jobPassword := password })
  /-- An in-limit is deleted. -/
  deleteInLimit {p : NodePath} {t : Tree} {name : String} : b.node? p = some t →
    Keeps (I ∅) (deleteInLimit p t name)

namespace ServerStable

variable {b : Bunch} {I : Set NodePath → State → Prop} {Ready : NodePath → State → Prop}

/-- The attempts of tasks of a tree are cleared. -/
theorem clearAll (h : ServerStable b I Ready) {p : NodePath} {t : Tree}
    (hb : b.node? p = some t) {l : List (NodePath × Tree)}
    (hl : ∀ x ∈ l, x ∈ t.walk p ∧ x.2.isTask = true) :
    Triple (I ∅) (l.forM fun x => clearCurrentAttempt x.1 x.2.kind)
      (fun _ => I (Stable.taskPaths p t)) (fun _ => I ∅) := by
  have htask {x : NodePath × Tree} (hx : x ∈ t.walk p ∧ x.2.isTask = true) : b.isTask x.1 = true :=
    (Bunch.isTask_of_node? (Bunch.node?_of_mem_walk hb hx.1)).trans hx.2
  rcases h.cleared_or_forgettable with hclear | hforget
  · -- nothing is broken on the way, so an exception leaves the tasks in order
    refine Triple.conseq (Keeps.forM (I := I ∅) fun x hx => Triple.of_forall fun s hs => ?_)
      (fun _ hs => hs) (fun _ _ hs => h.mono (Set.empty_subset _) hs) fun _ _ hs => hs
    exact (cleared_clearCurrentAttempt x.1 x.2.kind s).conseq (fun _ hu => hu)
      (fun _ _ hc => hclear (htask (hl x hx)) hc hs) fun _ _ hc => hclear (htask (hl x hx)) hc hs
  have hloop := Triple.forM (E := fun _ => I ∅) (f := fun x => clearCurrentAttempt x.1 x.2.kind)
    (P := fun (l : List (NodePath × Tree)) s => (∀ x ∈ l, x ∈ t.walk p ∧ x.2.isTask = true) ∧
      I (Stable.taskPaths p t) s) ?_ l
  · exact hloop.conseq (fun s hs => ⟨hl, h.mono (Set.empty_subset _) hs⟩) (fun _ _ hs => hs.2)
      fun _ _ hs => hs
  · -- no exception is raised
    refine fun x l => Triple.of_forall fun s ⟨hl, hs⟩ => ?_
    have hx := hl x List.mem_cons_self
    have hmem : x.1 ∈ Stable.taskPaths p t := ⟨x, hx.1, hx.2, rfl⟩
    refine (clearCurrentAttempt_spec x.1 x.2.kind s).conseq (fun _ hu => hu)
      (fun _ _ hc => ⟨fun y hy => hl y (List.mem_cons_of_mem x hy),
        Set.insert_eq_of_mem hmem ▸ h.cleared (htask hx) hc.2 hs⟩)
      fun _ _ hc => absurd hc.1 (Bunch.forgettable_iff.mp (hforget hs) x.1 (htask hx))

/-- A task whose attempt was just cleared goes to a status that is not in flight. -/
theorem setNodeStatus_cleared (h : ServerStable b I Ready) {p : NodePath} {t : Tree}
    {st : NodeStatus} (hb : b.node? p = some t) (ht : t.isTask = true)
    (hst : st.inFlight = false) :
    Triple (fun s => I {p} s ∧ ((s.node p).status.inFlight = false → I ∅ s))
      (setNodeStatus b p t st) (fun _ => I ∅) (fun _ => I ∅) := by
  refine Triple.get_bind fun s hs => Triple.ite (fun he => Triple.pure ?_) fun _ =>
    (h.lowerTask hb ht hst).pre fun _ hu => hu ▸ hs.1
  rintro _ rfl
  exact hs.2 (he ▸ hst)

/-- The tasks that a force is for. -/
private def forceTasks (p : NodePath) (t : Tree) (recursive : Bool) : List (NodePath × Tree) :=
  (if recursive then t.walk p else [(p, t)]).filter fun x => x.2.isTask

private theorem mem_forceTasks {p : NodePath} {t : Tree} {recursive : Bool}
    {x : NodePath × Tree} (hx : x ∈ forceTasks p t recursive) :
    x ∈ t.walk p ∧ x.2.isTask = true := by
  obtain ⟨hx, ht⟩ := List.mem_filter.mp hx
  refine ⟨?_, ht⟩
  cases recursive with
  | true => exact hx
  | false => exact List.mem_singleton.mp hx ▸ Tree.self_mem_walk p t

private theorem forceTasks_task {p : NodePath} {t : Tree} (hb : b.node? p = some t)
    (ht : t.isTask = true) (recursive : Bool) : forceTasks p t recursive = [(p, t)] := by
  have hcs : t.children = [] := (Bunch.wf_of_node? hb).children_of_isTask ht
  cases t with
  | node d cs =>
    cases recursive <;> simp_all [forceTasks, Tree.walk, Tree.walkList]

private theorem sinkStatusChange_task {p : NodePath} {t : Tree} (ht : t.isTask = true)
    (st : NodeStatus) : sinkStatusChange b p t st = setNodeStatus b p t st := by
  rw [sinkStatusChange, if_pos ht]

/-- A force to a status in flight of tasks that are in flight. -/
private theorem force_inFlight (h : ServerStable b I Ready) {p : NodePath} {t : Tree}
    {st : NodeStatus} (hb : b.node? p = some t) (hst : st.inFlight = true) (recursive : Bool) :
    Triple (fun s => I ∅ s ∧ ∀ x ∈ forceTasks p t recursive,
        Ready x.1 s ∧ (s.node x.1).status.inFlight = true)
      (if recursive then sinkStatusChange b p t st else setNodeStatus b p t st)
      (fun _ => I ∅) (fun _ => I ∅) := by
  cases ht : t.isTask with
  | true =>
    rw [sinkStatusChange_task ht, ite_self, forceTasks_task hb ht]
    refine (h.setNodeStatus hb).pre fun s hs => ⟨hs.1, fun _ _ => ?_⟩
    exact (hs.2 (p, t) List.mem_cons_self).1
  | false =>
    cases recursive with
    | true =>
      refine (h.sinkStatusChange_inFlight hb ht hst).pre fun s hs => ⟨hs.1, ?_⟩
      rintro _ ⟨x, hx, hxt, rfl⟩
      exact hs.2 x (List.mem_filter.mpr ⟨hx, hxt⟩)
    | false =>
      exact (h.setNodeStatus hb).pre fun s hs => ⟨hs.1, fun hf => by simp [ht] at hf⟩

/-- A force to a status that is not in flight; the one to queued clears the attempts first. -/
private theorem force_lower (h : ServerStable b I Ready) {p : NodePath} {t : Tree}
    {st : NodeStatus} (hb : b.node? p = some t) (hst : st.inFlight = false) (recursive : Bool) :
    Keeps (I ∅) (do
      when (st = .queued)
        ((forceTasks p t recursive).forM fun x => clearCurrentAttempt x.1 x.2.kind)
      if recursive then sinkStatusChange b p t st else setNodeStatus b p t st) := by
  cases ht : t.isTask with
  | true =>
    have hbt : b.isTask p = true := (Bunch.isTask_of_node? hb).trans ht
    rw [sinkStatusChange_task ht, forceTasks_task hb ht]
    simp only [ite_self]
    refine Triple.bind (Triple.when (fun _ => ?_) fun _ s hs => ?_) fun _ =>
      h.setNodeStatus_cleared hb ht hst
    · refine Triple.bind (Q := fun _ s => I {p} s ∧ ((s.node p).status.inFlight = false → I ∅ s))
        ?_ fun _ => Triple.pure fun _ hs => hs
      refine Triple.of_forall fun s hs => (clearCurrentAttempt_spec p t.kind s).conseq
        (fun _ hu => hu) (fun _ u hc => ⟨?_, fun hf => ?_⟩)
          fun _ u hc => h.cleared_of_isMoved hbt hc.1 hc.2 hs
      · simpa using h.cleared hbt hc.2 hs
      · exact h.cleared_calm hbt (hc.2.status p ▸ hf) hc.2 hs
    · exact ⟨h.mono (by simp) hs, fun _ => hs⟩
  | false =>
    cases recursive with
    | true =>
      refine Triple.bind (Q := fun _ => I (Stable.taskPaths p t)) ?_
        fun _ => h.sinkStatusChange_lower hb ht hst
      exact Triple.when (fun _ => h.clearAll hb fun x hx => mem_forceTasks hx)
        fun _ s hs => h.mono (Set.empty_subset _) hs
    | false =>
      -- a container alone has no task to clear
      have hnil : forceTasks p t false = [] := by simp [forceTasks, ht]
      rw [hnil]
      exact Keeps.bind (Keeps.when fun _ => Keeps.pure _) fun _ => h.setNodeStatus_lower hb hst

/-- **A force keeps the invariant**, refused or not. -/
theorem forceNode (h : ServerStable b I Ready) {p : NodePath} {t : Tree} {st : NodeStatus}
    (hb : b.node? p = some t) (recursive : Bool) :
    Keeps (I ∅) (forceNode b p t st recursive) := by
  refine Triple.get_bind fun s hs => Triple.ite (fun _ => Triple.throw fun _ hu => hu ▸ hs)
    fun hunknown => Triple.ite (fun _ => Triple.throw fun _ hu => hu ▸ hs) fun hattempt =>
      Triple.ite (fun _ => Triple.throw fun _ hu => hu ▸ hs) fun _ => ?_
  cases hst : st.inFlight with
  | false => exact (h.force_lower hb hst recursive).pre fun _ hu => hu ▸ hs
  | true =>
    have hne : st ≠ .queued ∧ st ≠ .complete ∧ st ≠ .aborted := by
      refine ⟨?_, ?_, ?_⟩ <;> rintro rfl <;> cases hst
    refine Triple.bind (Q := fun _ => (· = s)) (Triple.when (fun hq => absurd hq hne.1)
      fun _ _ hu => hu) fun _ => (h.force_inFlight hb hst recursive).pre ?_
    rintro s rfl
    refine ⟨hs, fun x hx => ?_⟩
    have hflight : (s.node x.1).status.inFlight = true := by
      have hall : (forceTasks p t recursive).all (fun x => s.hasCurrentAttempt x.1) = true := by
        by_contra hn
        exact hattempt ⟨hst, hn⟩
      have := List.all_eq_true.mp hall x hx
      simp only [State.hasCurrentAttempt, Bool.and_eq_true] at this
      exact this.1.1.1.1
    have hnone : (s.node x.1).task.submissionUnknownReason = none := by
      by_contra hn
      refine hunknown ⟨List.any_eq_true.mpr ⟨x, hx, ?_⟩, .inr (.inr ⟨hne.2.1, hne.2.2⟩)⟩
      simp [State.isUnknown, (mem_forceTasks hx).2, Option.isSome_iff_ne_none, hn]
    have hw := mem_forceTasks hx
    exact ⟨h.ready_of_inFlight ((Bunch.isTask_of_node? (Bunch.node?_of_mem_walk hb hw.1)).trans
      hw.2) hs hflight hnone, hflight⟩

end ServerStable

end Takler
