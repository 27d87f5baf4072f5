import Takler.Core.Frame
import Mathlib

/-!
# Invariants of the operations

What an invariant of the running bunch has to stand so that every operation keeps it. The
operations are built on few writes: a status, the attempt of a task, the tokens of a task. A
status change of a task is several of them, and in between the task is not in order. So an
invariant comes with a set of tasks for which it may be broken: `I D` is the invariant up to the
tasks of `D`, and `I ∅` is the invariant itself.

A task may come into flight only when it is ready (`Ready`), which a run establishes and a task in
flight keeps.

When the index cannot forget a path, a requeue raises after the attempt of a task in flight is gone.
Either the invariant stands that, or it says that the index can forget every path that a task has
recorded (`Bunch.Forgettable`).

## Main definitions

* `Bunch.Forgettable`: the index can forget every recorded path.
* `Stable`: what the invariant has to stand.

## Main results

* `Stable.requeue`, `Stable.swim`, `Stable.setNodeStatus`, `Stable.sinkStatusChange_lower`,
  `Stable.sinkStatusChange_inFlight`: the propagation of statuses keeps the invariant.
-/

namespace Takler

open Program

/-- No node of a set is in flight. -/
def State.Calm (s : State) (X : Set NodePath) : Prop :=
  ∀ p ∈ X, (s.node p).status.inFlight = false

/-- The index can forget every path that a task of the bunch has recorded. -/
def Bunch.Forgettable (b : Bunch) (s : State) : Prop :=
  ∀ f ∈ b.flows, ∀ x ∈ f.walk [f.name], x.2.isTask = true → ¬ s.IsMoved x.1

theorem Bunch.isTask_of_node? {b : Bunch} {p : NodePath} {t : Tree} (h : b.node? p = some t) :
    b.isTask p = t.isTask := by
  simp [Bunch.isTask, h]

theorem Bunch.forgettable_iff {b : Bunch} {s : State} :
    b.Forgettable s ↔ ∀ p, b.isTask p = true → ¬ s.IsMoved p := by
  constructor
  · intro h p hp
    obtain ⟨t, hb, ht⟩ := Bunch.exists_of_isTask hp
    obtain ⟨f, hf, hs⟩ := Bunch.exists_flow_suffix hb
    exact h f hf (p, t) (Bunch.mem_walk_of_suffix (Bunch.node?_flow hf) hb hs) ht
  · exact fun h f hf x hx ht => h x.1 ((Bunch.isTask_of_node?
      (Bunch.node?_of_mem_walk (Bunch.node?_flow hf) hx)).trans ht)

theorem Bunch.Forgettable.indexKept {b : Bunch} {s s' : State} (h : b.Forgettable s)
    (hs : s.IndexKept s') : b.Forgettable s' :=
  fun f hf x hx ht hm => h f hf x hx ht (hs.isMoved x.1 hm)

/-- The conditions under which all operations keep `I ∅`. -/
structure Stable (b : Bunch) (I : Set NodePath → State → Prop) (Ready : NodePath → State → Prop) :
    Prop where
  mono {D D' : Set NodePath} {s : State} : D ⊆ D' → I D s → I D' s
  silent {D : Set NodePath} {s s' : State} : s.Silent s' → I D s → I D s'
  ready_silent {p : NodePath} {s s' : State} : s.Silent s' → Ready p s → Ready p s'
  ready_statusSet {p q : NodePath} {t : Tree} {st : NodeStatus} {s s' : State} :
    State.StatusSet q t st s s' → Ready p s → Ready p s'
  /-- A task in flight whose submission is not unknown is ready. -/
  ready_of_inFlight {p : NodePath} {s : State} : b.isTask p = true → I ∅ s →
    (s.node p).status.inFlight = true → (s.node p).task.submissionUnknownReason = none → Ready p s
  /-- The status of a container. -/
  container {D : Set NodePath} {p : NodePath} {t : Tree} {st : NodeStatus} {s s' : State} :
    b.node? p = some t → t.isTask = false → State.StatusSet p t st s s' → I D s → I D s'
  /-- A status that is in flight as the one before is. -/
  calm {D : Set NodePath} {p : NodePath} {t : Tree} {st : NodeStatus} {s s' : State} :
    b.node? p = some t → t.isTask = true → (s.node p).status.inFlight = st.inFlight →
    (st.inFlight = true → Ready p s) → State.StatusSet p t st s s' → I D s → I D s'
  /-- A task loses its attempt. -/
  cleared {D : Set NodePath} {p : NodePath} {s s' : State} :
    b.isTask p = true → State.Cleared p s s' → I D s → I (insert p D) s'
  /-- A task that is not in flight loses its attempt. -/
  cleared_calm {D : Set NodePath} {p : NodePath} {s s' : State} : b.isTask p = true →
    (s.node p).status.inFlight = false → State.Cleared p s s' → I D s → I D s'
  /-- Either a task may lose its attempt in flight, or no exception can leave it so. -/
  cleared_or_forgettable :
    (∀ {D : Set NodePath} {p : NodePath} {s s' : State}, b.isTask p = true →
      State.Cleared p s s' → I D s → I D s') ∨
    ∀ {D : Set NodePath} {s : State}, I D s → b.Forgettable s
  /-- A task goes out of flight. -/
  lowered {D : Set NodePath} {p : NodePath} {t : Tree} {st : NodeStatus} {s s' : State} :
    b.node? p = some t → t.isTask = true → st.inFlight = false → State.StatusSet p t st s s' →
    I D s → I (insert p D) s'
  /-- A task that is out of flight releases its tokens. -/
  settled {D : Set NodePath} {p : NodePath} {s s' : State} : b.isTask p = true →
    (s.node p).status.inFlight = false → State.LimitsUpdated p s s' → I D s → I (D \ {p}) s'
  /-- A task comes into flight and takes its tokens. -/
  raised {p : NodePath} {t : Tree} {st : NodeStatus} {s u s' : State} :
    b.node? p = some t → t.isTask = true → st.inFlight = true → Ready p s →
    State.StatusSet p t st s u → State.LimitsUpdated p u s' → I ∅ s → I ∅ s'
  /-- The tokens of a task in order are brought up to date. -/
  touched {p : NodePath} {s s' : State} : b.isTask p = true → State.LimitsUpdated p s s' →
    I ∅ s → I ∅ s'
  /-- A new attempt. -/
  attempt {p : NodePath} : b.isTask p = true →
    Triple (fun s => I ∅ s ∧ s.checkInLimitUp p = true) (incrementTryNo p)
      (fun _ s => I ∅ s ∧ Ready p s) (fun _ => I ∅)
  /-- An unknown outcome of a submission. -/
  unknown {p : NodePath} {reason : String} : b.isTask p = true → reason ≠ "" →
    Keeps (I ∅) (Task.markSubmissionUnknown p reason)

theorem State.Calm.silent {X : Set NodePath} {s s' : State} (h : s.Calm X) (hq : s.Silent s') :
    s'.Calm X := by
  intro p hp
  rw [hq.status p]
  exact h p hp

theorem State.Calm.statusSet {X : Set NodePath} {p : NodePath} {t : Tree} {st : NodeStatus}
    {s s' : State} (h : s.Calm X) (hst : st.inFlight = false)
    (hs : State.StatusSet p t st s s') : s'.Calm (insert p X) := by
  intro q hq
  rw [hs.status q]
  split_ifs with hqp
  · exact hst
  · exact h q (hq.resolve_left hqp)

theorem State.Calm.limitsUpdated {X : Set NodePath} {p : NodePath} {s s' : State} (h : s.Calm X)
    (hs : State.LimitsUpdated p s s') : s'.Calm X := by
  obtain ⟨marks, rfl⟩ := hs
  exact h

theorem DefaultStatus.inFlight_toStatus (d : DefaultStatus) : d.toStatus.inFlight = false := by
  cases d <;> rfl

namespace Stable

variable {b : Bunch} {I : Set NodePath → State → Prop} {Ready : NodePath → State → Prop}

/-- An exception may leave a task in flight without its attempt. -/
theorem cleared_of_isMoved (h : Stable b I Ready) {D : Set NodePath} {p : NodePath} {s s' : State}
    (hbt : b.isTask p = true) (hm : s.IsMoved p) (hc : State.Cleared p s s') (hs : I D s) :
    I D s' := by
  rcases h.cleared_or_forgettable with hclear | hforget
  · exact hclear hbt hc hs
  · exact absurd hm (Bunch.forgettable_iff.mp (hforget hs) p hbt)

theorem keeps_quiet (h : Stable b I Ready) {α : Type} {m : M α} {D : Set NodePath}
    (hm : Within State.Quiet m) : Keeps (I D) m :=
  hm.keeps fun _ _ hq hI => h.silent hq.toSilent hI

theorem keeps_quiet_calm (h : Stable b I Ready) {α : Type} {m : M α} (hm : Within State.Quiet m)
    (X : Set NodePath) : Keeps (fun s => I ∅ s ∧ s.Calm X) m :=
  hm.keeps fun _ _ hq hs => ⟨h.silent hq.toSilent hs.1, hs.2.silent hq.toSilent⟩

/-! ### Requeue -/

section Requeue

theorem requeueTask (h : Stable b I Ready) {p : NodePath} {t : Tree} (hb : b.node? p = some t)
    (ht : t.isTask = true) (resetRepeat : Bool) (X : Set NodePath) :
    Triple (fun s => I ∅ s ∧ s.Calm X) (Task.requeue p t resetRepeat)
      (fun _ s => I ∅ s ∧ s.Calm (insert p X)) (fun _ => I ∅) := by
  have hbt : b.isTask p = true := (Bunch.isTask_of_node? hb).trans ht
  have htoken : Within State.Quiet (when (t.kind = .shell)
      (modifyTask p fun k => { k with submissionToken := none })) :=
    .when (quiet_modifyTask p fun _ => ⟨rfl, rfl, rfl, rfl, .inl rfl⟩)
  refine Triple.bind ((h.keeps_quiet_calm htoken X).conseq (fun _ hs => hs) (fun _ _ hs => hs)
    fun _ _ hs => hs.1) fun _ => Triple.get_bind fun s hs =>
      Triple.ite (fun _ => Triple.throw fun _ hu => hu ▸ hs.1) fun _ => ?_
  refine (requeueTask_spec p t resetRepeat _ s).conseq (fun _ hu => hu) ?_ fun _ s' hs' =>
    h.cleared_of_isMoved hbt hs'.1 hs'.2 hs.1
  rintro _ s' ⟨-, u, v, hc, hset, hl⟩
  have hcalm : v.Calm (insert p X) :=
    State.Calm.statusSet (s := u) (fun q hq => (hc.status q).symm ▸ hs.2 q hq)
      t.defn.defaultNodeStatus.inFlight_toStatus hset
  have hv := h.lowered hb ht t.defn.defaultNodeStatus.inFlight_toStatus hset
    (h.cleared hbt hc hs.1)
  refine ⟨?_, hcalm.limitsUpdated hl⟩
  simpa using h.settled hbt (hcalm p (Set.mem_insert p X)) hl hv

/-- Sinking a status that is not in flight through a tree that is not. -/
theorem sinkCalm (h : Stable b I Ready) {p : NodePath} {t : Tree} (hb : b.node? p = some t)
    (st : NodeStatus) (hst : st.inFlight = false) {X : Set NodePath}
    (hX : ∀ x ∈ t.walk p, x.1 ∈ X) :
    Keeps (fun s => I ∅ s ∧ s.Calm X) (sinkStatusChangeOnly p t st) := by
  refine Keeps.forM fun x hx => (effect_setNodeStatusOnly x.1 x.2 st).triple ?_
  rintro s s' hset ⟨hI, hs⟩
  have hbx := Bunch.node?_of_mem_walk hb hx
  refine ⟨?_, fun q hq => hs.statusSet hst hset q (Set.mem_insert_of_mem _ hq)⟩
  cases ht : x.2.isTask with
  | false => exact h.container hbx ht hset hI
  | true => exact h.calm hbx ht ((hs x.1 (hX x hx)).trans hst.symm) (by simp [hst]) hset hI

private theorem requeueChildren_calm {p : NodePath} {resetRepeat : Bool} :
    ∀ (cs : List Tree) (_ : ∀ c ∈ cs, ∀ X : Set NodePath,
      Triple (fun s => I ∅ s ∧ s.Calm X) (requeue (c.name :: p) c resetRepeat)
        (fun _ s => I ∅ s ∧ s.Calm (X ∪ {q | ∃ x ∈ c.walk (c.name :: p), x.1 = q}))
        (fun _ => I ∅)) (X : Set NodePath),
    Triple (fun s => I ∅ s ∧ s.Calm X) (requeueChildren p cs resetRepeat)
      (fun _ s => I ∅ s ∧ s.Calm (X ∪ {q | ∃ x ∈ Tree.walkList p cs, x.1 = q})) (fun _ => I ∅)
  | [], _, X => by
    rw [requeueChildren]
    refine Triple.pure fun s hs => ⟨hs.1, fun q hq => hs.2 q ?_⟩
    simpa [Tree.walkList] using hq
  | c :: cs, ih, X => by
    rw [requeueChildren]
    refine (ih c List.mem_cons_self X).bind fun _ =>
      (requeueChildren_calm cs (fun d hd => ih d (List.mem_cons_of_mem c hd)) _).post
        fun _ s hs => ⟨hs.1, fun q hq => hs.2 q ?_⟩
    simp only [Tree.walkList, List.mem_append, Set.mem_union, Set.mem_ofPred_eq] at hq ⊢
    rcases hq with hq | ⟨x, hx | hx, rfl⟩
    · exact .inl (.inl hq)
    · exact .inl (.inr ⟨x, hx, rfl⟩)
    · exact .inr ⟨x, hx, rfl⟩

/-- **A requeue keeps the invariant**, and when it returns no node of the tree is in flight. The
set `X` carries the siblings that were requeued before. -/
theorem requeue_calm (h : Stable b I Ready) {t : Tree} : ∀ {p : NodePath},
    b.node? p = some t → ∀ (resetRepeat : Bool) (X : Set NodePath),
    Triple (fun s => I ∅ s ∧ s.Calm X) (requeue p t resetRepeat)
      (fun _ s => I ∅ s ∧ s.Calm (X ∪ {q | ∃ x ∈ t.walk p, x.1 = q})) (fun _ => I ∅) := by
  induction t using Tree.induction with
  | h d cs ih =>
    intro p hb resetRepeat X
    rw [requeue]
    split_ifs with hk
    · -- a task is a leaf
      have hcs : cs = [] := (Bunch.wf_of_node? hb).children_of_isTask hk
      refine (h.requeueTask hb hk resetRepeat X).post fun _ s hs => ⟨hs.1, fun q hq => hs.2 q ?_⟩
      simpa [hcs, Tree.walk, Tree.walkList, or_comm, eq_comm] using hq
    · have hself : Triple (fun s => I ∅ s ∧ s.Calm X) (Node.requeue p (.node d cs) resetRepeat)
          (fun _ s => I ∅ s ∧ s.Calm (insert p X)) (fun _ => I ∅) :=
        (effect_nodeRequeue p (.node d cs) resetRepeat).triple fun s u hset hs =>
          ⟨h.container hb (Bool.eq_false_of_not_eq_true hk) hset hs.1,
            hs.2.statusSet d.defaultNodeStatus.inFlight_toStatus hset⟩
      have hchildren := requeueChildren_calm (I := I) cs
        (fun c hc X => ih c hc (Bunch.node?_child hb hc) resetRepeat X) (insert p X)
      have hX : insert p X ∪ {q | ∃ x ∈ Tree.walkList p cs, x.1 = q} =
          X ∪ {q | ∃ x ∈ (Tree.node d cs).walk p, x.1 = q} := by
        ext q
        simp [Tree.walk, or_assoc, or_left_comm, eq_comm]
      rw [hX] at hchildren
      have hsink := h.sinkCalm hb .complete rfl
        (X := X ∪ {q | ∃ x ∈ (Tree.node d cs).walk p, x.1 = q}) fun x hx => .inr ⟨x, hx, rfl⟩
      refine Triple.get_bind fun s hs =>
        Triple.ite (fun _ => Triple.throw fun _ hu => hu ▸ hs.1) fun _ => ?_
      refine Triple.pre (Triple.bind hself fun _ => Triple.bind hchildren fun _ => ?_)
        fun _ hu => hu ▸ hs
      exact Triple.when (fun _ => hsink.conseq (fun _ hs => hs) (fun _ _ hs => hs)
        fun _ _ hs => hs.1) fun _ s hs => hs

theorem requeue (h : Stable b I Ready) {p : NodePath} {t : Tree} (hb : b.node? p = some t)
    (resetRepeat : Bool) : Keeps (I ∅) (requeue p t resetRepeat) :=
  (h.requeue_calm hb resetRepeat ∅).conseq (fun _ hs => ⟨hs, fun _ hq => hq.elim⟩)
    (fun _ _ hs => hs.1) fun _ _ hs => hs

end Requeue

/-! ### Swimming up -/

theorem adoptComputed (h : Stable b I Ready) {p : NodePath} {t : Tree} (hb : b.node? p = some t) :
    Keeps (I ∅) (adoptComputed p t) := by
  refine Triple.get_bind fun s hs => Triple.bind (Q := fun _ => I ∅)
    (Triple.get_bind ?_) fun _ => Keeps.pure _
  rintro _ rfl
  refine Triple.when (fun hne => ?_) fun _ _ hu => hu ▸ hs
  cases ht : t.isTask with
  | true => exact absurd (by simp [State.computedStatus, ht]) hne
  | false =>
    exact (effect_setNodeStatusOnly p t _).triple fun _ u hset hu =>
      h.container hb ht hset (hu ▸ hs)

theorem advanceRepeat (h : Stable b I Ready) {p : NodePath} {t : Tree} (hb : b.node? p = some t) :
    Keeps (I ∅) (advanceRepeat p t) := by
  unfold Takler.advanceRepeat
  split
  · exact Keeps.pure _
  · rename_i r _
    have hadvance : Keeps (I ∅) (r.advance p) :=
      (silent_advance p r).keeps fun _ _ hq hI => h.silent hq hI
    refine hadvance.bind fun advanced => Keeps.ite (fun _ => ?_) fun _ => Keeps.pure _
    exact Keeps.bind (h.keeps_quiet (quiet_notifyQueryChange p _ _)) fun _ =>
      (h.requeue hb false).bind fun _ => Keeps.pure _

theorem swim (h : Stable b I Ready) : ∀ p : NodePath,
    Keeps (I ∅) (swimStatusChange b p) ∧ Keeps (I ∅) (swimStatusChangeOnly b p)
  | [] => by
    rw [swimStatusChange, swimStatusChangeOnly]
    exact ⟨Keeps.pure _, Keeps.pure _⟩
  | n :: up => by
    obtain ⟨hup, hupOnly⟩ := h.swim up
    rw [swimStatusChange, swimStatusChangeOnly]
    cases hb : b.node? (n :: up) with
    | none => exact ⟨Keeps.pure _, Keeps.pure _⟩
    | some t =>
      have hadopt := h.adoptComputed hb
      refine ⟨hadopt.bind fun status => Keeps.ite (fun _ => ?_) fun _ => hup,
        Keeps.ite (fun _ => hupOnly) fun _ => hadopt.bind fun _ => hup⟩
      exact (h.advanceRepeat hb).bind fun _ => Keeps.ite
        (fun _ => Keeps.ite (fun _ => hupOnly) fun _ => hadopt.bind fun _ => hup) fun _ => hup

theorem handleStatusChange (h : Stable b I Ready) {p : NodePath} {t : Tree}
    (hb : b.node? p = some t) : Keeps (I ∅) (handleStatusChange b p t) := by
  refine Keeps.bind (Keeps.when fun ht => ?_) fun _ => (h.swim p).1
  exact (effect_updateLimits p).triple fun s u hl hs =>
    h.touched ((Bunch.isTask_of_node? hb).trans ht) hl hs

/-! ### Setting a status -/

/-- A task goes out of flight, from a state in which only this task is not in order. -/
theorem lowerTask (h : Stable b I Ready) {p : NodePath} {t : Tree} {st : NodeStatus}
    (hb : b.node? p = some t) (ht : t.isTask = true) (hst : st.inFlight = false) :
    Triple (I {p}) (do
        setNodeStatusOnly p t st
        Takler.handleStatusChange b p t) (fun _ => I ∅) (fun _ => I ∅) := by
  have hset : Triple (I {p}) (setNodeStatusOnly p t st)
      (fun _ s => I {p} s ∧ (s.node p).status.inFlight = false) (fun _ => I ∅) := by
    refine (effect_setNodeStatusOnly p t st).triple fun s u hset hs => ⟨?_, ?_⟩
    · simpa using h.lowered hb ht hst hset hs
    · simpa [hset.status p] using hst
  refine hset.bind fun _ => Triple.bind ?_ fun _ => (h.swim p).1
  refine Triple.when (fun _ => ?_) fun hn => absurd ht hn
  refine (effect_updateLimits p).triple fun s u hl hs => ?_
  simpa using h.settled ((Bunch.isTask_of_node? hb).trans ht) hs.2 hl hs.1

/-- A task that is ready comes into flight. -/
theorem raiseTask (h : Stable b I Ready) {p : NodePath} {t : Tree} {st : NodeStatus}
    (hb : b.node? p = some t) (ht : t.isTask = true) (hst : st.inFlight = true) :
    Triple (fun s => I ∅ s ∧ Ready p s) (do
        setNodeStatusOnly p t st
        Takler.handleStatusChange b p t) (fun _ => I ∅) (fun _ => I ∅) := by
  have hset : Triple (fun s => I ∅ s ∧ Ready p s) (setNodeStatusOnly p t st)
      (fun _ u => ∃ s, (I ∅ s ∧ Ready p s) ∧ State.StatusSet p t st s u) (fun _ => I ∅) :=
    (effect_setNodeStatusOnly p t st).triple fun s u hset hs => ⟨s, hs, hset⟩
  refine hset.bind fun _ => Triple.bind ?_ fun _ => (h.swim p).1
  refine Triple.when (fun _ => ?_) fun hn => absurd ht hn
  refine (effect_updateLimits p).triple ?_
  rintro u v hl ⟨s, ⟨hI, hr⟩, hset⟩
  exact h.raised hb ht hst hr hset hl hI

/-- **A status change keeps the invariant**; a task that comes into flight has to be ready. -/
theorem setNodeStatus (h : Stable b I Ready) {p : NodePath} {t : Tree} {st : NodeStatus}
    (hb : b.node? p = some t) :
    Triple (fun s => I ∅ s ∧ (t.isTask = true → st.inFlight = true → Ready p s))
      (setNodeStatus b p t st) (fun _ => I ∅) (fun _ => I ∅) := by
  refine Triple.get_bind fun s hs => Triple.ite (fun _ => Triple.pure fun _ hu => hu ▸ hs.1)
    fun _ => ?_
  cases ht : t.isTask with
  | false =>
    refine Triple.bind (Q := fun _ => I ∅) ?_ fun _ => h.handleStatusChange hb
    exact (effect_setNodeStatusOnly p t st).triple fun _ u hset hu =>
      h.container hb ht hset (hu ▸ hs.1)
  | true =>
    cases hst : st.inFlight with
    | false => exact (h.lowerTask hb ht hst).pre fun _ hu => h.mono (by simp) (hu ▸ hs.1)
    | true => exact (h.raiseTask hb ht hst).pre fun _ hu => hu ▸ ⟨hs.1, hs.2 ht hst⟩

theorem setNodeStatus_lower (h : Stable b I Ready) {p : NodePath} {t : Tree} {st : NodeStatus}
    (hb : b.node? p = some t) (hst : st.inFlight = false) :
    Keeps (I ∅) (Takler.setNodeStatus b p t st) :=
  (h.setNodeStatus hb).pre fun _ hs => ⟨hs, fun _ hf => by simp [hst] at hf⟩

/-! ### Sinking a status -/

/-- The tasks of a tree at a path. -/
def taskPaths (p : NodePath) (t : Tree) : Set NodePath :=
  {q | ∃ x ∈ t.walk p, x.2.isTask = true ∧ x.1 = q}

/-- Sinking a status that is not in flight puts the tasks of the tree out of flight; their tokens
come later. -/
theorem sinkLower (h : Stable b I Ready) {p : NodePath} {t : Tree} {st : NodeStatus}
    (hb : b.node? p = some t) (hst : st.inFlight = false) :
    Triple (I (taskPaths p t)) (sinkStatusChangeOnly p t st)
      (fun _ s => I (taskPaths p t) s ∧ s.Calm (taskPaths p t)) (fun _ => I ∅) := by
  have hloop := Triple.forM (E := fun _ => I ∅) (f := fun x => setNodeStatusOnly x.1 x.2 st)
    (P := fun l s => (∀ x ∈ l, x ∈ t.walk p) ∧ I (taskPaths p t) s ∧
      ∀ x ∈ t.walk p, x ∈ l ∨ (s.node x.1).status.inFlight = false) ?_ (t.walk p)
  · refine hloop.conseq (fun s hs => ⟨fun _ hx => hx, hs, fun _ hx => .inl hx⟩) ?_ fun _ _ hs => hs
    rintro _ s ⟨-, hI, hcalm⟩
    refine ⟨hI, ?_⟩
    rintro _ ⟨x, hx, -, rfl⟩
    simpa using hcalm x hx
  · intro x l
    refine (effect_setNodeStatusOnly x.1 x.2 st).triple ?_
    rintro s u hset ⟨hl, hI, hcalm⟩
    have hx : x ∈ t.walk p := hl x List.mem_cons_self
    refine ⟨fun y hy => hl y (List.mem_cons_of_mem x hy), ?_, fun y hy => ?_⟩
    · cases ht : x.2.isTask with
      | false => exact h.container (Bunch.node?_of_mem_walk hb hx) ht hset hI
      | true =>
        have hmem : x.1 ∈ taskPaths p t := ⟨x, hx, ht, rfl⟩
        exact Set.insert_eq_of_mem hmem ▸
          h.lowered (Bunch.node?_of_mem_walk hb hx) ht hst hset hI
    · rw [hset.status y.1]
      split_ifs with hyx
      · exact .inr hst
      · refine (hcalm y hy).imp_left fun hm => ?_
        rcases List.mem_cons.mp hm with rfl | hm
        · exact absurd rfl hyx
        · exact hm

/-- The tokens of tasks that are out of flight are released, one task after the other. -/
theorem settleAll (h : Stable b I Ready) {l : List (NodePath × Tree)} {D : Set NodePath}
    (hl : ∀ x ∈ l, b.isTask x.1 = true) (hD : ∀ q ∈ D, ∃ x ∈ l, x.1 = q) :
    Triple (fun s => I D s ∧ s.Calm {q | ∃ x ∈ l, x.1 = q}) (l.forM fun x => updateLimits x.1)
      (fun _ => I ∅) (fun _ => I ∅) := by
  have hloop := Triple.forM (E := fun _ => I ∅) (f := fun x => updateLimits x.1)
    (P := fun (l : List (NodePath × Tree)) s => (∀ x ∈ l, b.isTask x.1 = true) ∧
      s.Calm {q | ∃ x ∈ l, x.1 = q} ∧ I {q | ∃ x ∈ l, x.1 = q} s) ?_ l
  · refine hloop.conseq (fun s hs => ⟨hl, hs.2, h.mono hD hs.1⟩) ?_ fun _ _ hs => hs
    rintro _ s ⟨-, -, hI⟩
    simpa using hI
  · intro x l
    refine (effect_updateLimits x.1).triple ?_
    rintro s u hs ⟨hl, hcalm, hI⟩
    refine ⟨fun y hy => hl y (List.mem_cons_of_mem x hy), ?_, ?_⟩
    · exact fun q hq => hcalm.limitsUpdated hs q (by obtain ⟨y, hy, rfl⟩ := hq; exact
        ⟨y, List.mem_cons_of_mem x hy, rfl⟩)
    · refine h.mono ?_ (h.settled (hl x List.mem_cons_self)
        (hcalm x.1 ⟨x, List.mem_cons_self, rfl⟩) hs hI)
      rintro q ⟨⟨y, hy, rfl⟩, hne⟩
      rcases List.mem_cons.mp hy with rfl | hy
      · exact absurd rfl hne
      · exact ⟨y, hy, rfl⟩

private theorem isTask_of_mem_tasks {p : NodePath} {t : Tree} (hb : b.node? p = some t)
    {x : NodePath × Tree}
    (hx : x ∈ ((t.descendants p).filter fun x => x.2.isTask).reverse) : b.isTask x.1 = true := by
  simp only [List.mem_reverse, List.mem_filter] at hx
  have hw : x ∈ t.walk p := by
    rw [Tree.mem_walk]
    exact .inr (Tree.mem_walkList.mp hx.1)
  exact (Bunch.isTask_of_node? (Bunch.node?_of_mem_walk hb hw)).trans hx.2

private theorem mem_tasks_of_mem_taskPaths {p q : NodePath} {t : Tree} (ht : t.isTask = false)
    (hq : q ∈ taskPaths p t) :
    ∃ x ∈ ((t.descendants p).filter fun x => x.2.isTask).reverse, x.1 = q := by
  obtain ⟨x, hx, hxt, rfl⟩ := hq
  refine ⟨x, ?_, rfl⟩
  simp only [List.mem_reverse, List.mem_filter]
  rcases Tree.mem_walk.mp hx with rfl | hx
  · simp [ht] at hxt
  · exact ⟨Tree.mem_walkList.mpr hx, hxt⟩

/-- A recursive force of a container to a status that is not in flight. -/
theorem sinkStatusChange_lower (h : Stable b I Ready) {p : NodePath} {t : Tree} {st : NodeStatus}
    (hb : b.node? p = some t) (ht : t.isTask = false) (hst : st.inFlight = false) :
    Triple (I (taskPaths p t)) (sinkStatusChange b p t st) (fun _ => I ∅) (fun _ => I ∅) := by
  unfold sinkStatusChange
  rw [if_neg (by simp [ht])]
  refine (h.sinkLower hb hst).bind fun _ => Triple.bind (Q := fun _ => I ∅) ?_
    fun _ => h.handleStatusChange hb
  refine (h.settleAll (fun x hx => isTask_of_mem_tasks hb hx)
    fun q hq => mem_tasks_of_mem_taskPaths ht hq).pre fun s hs => ⟨hs.1, ?_⟩
  rintro _ ⟨x, hx, rfl⟩
  refine hs.2 x.1 ⟨x, ?_, ?_, rfl⟩
  · rw [Tree.mem_walk]
    exact .inr (Tree.mem_walkList.mp (List.mem_filter.mp (List.mem_reverse.mp hx)).1)
  · exact (List.mem_filter.mp (List.mem_reverse.mp hx)).2

/-- A recursive force of a container to a status in flight, all tasks being in flight already. -/
theorem sinkStatusChange_inFlight (h : Stable b I Ready) {p : NodePath} {t : Tree}
    {st : NodeStatus} (hb : b.node? p = some t) (ht : t.isTask = false)
    (hst : st.inFlight = true) :
    Triple (fun s => I ∅ s ∧ ∀ q ∈ taskPaths p t,
        Ready q s ∧ (s.node q).status.inFlight = true)
      (sinkStatusChange b p t st) (fun _ => I ∅) (fun _ => I ∅) := by
  unfold sinkStatusChange
  rw [if_neg (by simp [ht])]
  have hsink : Keeps (fun s => I ∅ s ∧ ∀ q ∈ taskPaths p t,
      Ready q s ∧ (s.node q).status.inFlight = true) (sinkStatusChangeOnly p t st) := by
    refine Keeps.forM fun x hx => (effect_setNodeStatusOnly x.1 x.2 st).triple ?_
    rintro s u hset ⟨hI, hq⟩
    have hbx := Bunch.node?_of_mem_walk hb hx
    refine ⟨?_, fun q hm => ⟨h.ready_statusSet hset (hq q hm).1, ?_⟩⟩
    · cases hxt : x.2.isTask with
      | false => exact h.container hbx hxt hset hI
      | true =>
        have hx' := hq x.1 ⟨x, hx, hxt, rfl⟩
        exact h.calm hbx hxt (hx'.2.trans hst.symm) (fun _ => hx'.1) hset hI
    · rw [hset.status q]
      split_ifs
      · exact hst
      · exact (hq q hm).2
  refine Triple.bind (hsink.conseq (fun _ hs => hs) (fun _ _ hs => hs.1) fun _ _ hs => hs.1)
    fun _ => Triple.bind (Q := fun _ => I ∅) ?_ fun _ => h.handleStatusChange hb
  exact Keeps.forM fun x hx => (effect_updateLimits x.1).triple fun s u hl hs =>
    h.touched (isTask_of_mem_tasks hb hx) hl hs

end Stable

end Takler
