import Takler.Core.Requeue

/-!
# What an operation may change

Checks, runs and requeues change nodes, limits and marks. None of them halts or stops the service,
ends a flow or suspends a node: whether a node is suspended is for a client to say. And they change
only the nodes of a *scope*: the node itself, the way up to the flow, which takes the statuses of
the children, and the tree below a repeat that advances on the way, which is requeued.

A repeat on the way does not advance when something else below it is not complete. So the scope of
a status change can be told from the state before it: it is enough to know where the completion may
come to (`Alive`), and that elsewhere another child keeps the container from being complete.

## Main definitions

* `State.SameService`: two states with the same causes of a halt, the same flows begun and the same
  nodes suspended.
* `Scope`, `Beyond`: the nodes that may change, and the states that differ only there.
* `Scope.Covers`: what a status change of a node may reach is in the scope.

## Main results

* `below_requeue`: a requeue stays inside its tree.
* `beyond_swim`: a status that swims up stays inside a scope that covers it.
* `beyond_run`, `beyond_checkDependencies`: so do a run and a check.
* `service_checkDependencies`, `service_run`, `service_updateCalendar`: what the scan does to a node
  leaves the service alone.
-/

namespace Takler

open Program

/-- The service, the flows that have begun and the nodes that are suspended are the same. -/
structure State.SameService (s s' : State) : Prop where
  haltCauses : s'.haltCauses = s.haltCauses
  serviceStopping : s'.serviceStopping = s.serviceStopping
  begun : ∀ f, (s'.flow f).begun = (s.flow f).begun
  suspended : ∀ q, (s'.node q).suspended = (s.node q).suspended

instance : Std.Refl State.SameService := ⟨fun _ => ⟨rfl, rfl, fun _ => rfl, fun _ => rfl⟩⟩

instance : IsTrans State State.SameService where
  trans _ _ _ h h' :=
    ⟨h'.haltCauses.trans h.haltCauses, h'.serviceStopping.trans h.serviceStopping,
      fun f => (h'.begun f).trans (h.begun f), fun q => (h'.suspended q).trans (h.suspended q)⟩

/-! ### Scopes -/

/-- The nodes that a step may change. -/
structure Scope where
  /-- The status, the variables, or the identity of a task. -/
  touched : NodePath → Bool := fun _ => false
  /-- The dependencies that were freed, and the clock of the flow. -/
  reset : NodePath → Bool := fun _ => false
  /-- The value of the repeat. -/
  restarted : NodePath → Bool := fun _ => false
  /-- The node is suspended: no operation here does that, but a client may. -/
  suspended : NodePath → Bool := fun _ => false

/-- What the triggers of other nodes see of a node. -/
def NodeState.seen (n : NodeState) : NodeStatus × (String → Bool) × (String → ℤ) :=
  (n.status, n.eventValue, n.meterValue)

/-- The dependencies of a node that were freed. -/
def NodeState.freed (n : NodeState) : Bool × (TimeDef → Bool) := (n.triggerFree, n.timeFree)

/-- Two states that differ only inside a scope. -/
structure Beyond (K : Scope) (s s' : State) : Prop where
  service : s.SameService s'
  parameterValue : s'.parameterValue = s.parameterValue
  completeTriggerFree : ∀ q, (s'.node q).completeTriggerFree = (s.node q).completeTriggerFree
  shown : ∀ q, K.touched q = false →
    ((s'.node q).seen, (s'.node q).task) = ((s.node q).seen, (s.node q).task)
  moved : ∀ q, K.touched q = false → s'.moved q = s.moved q
  freed : ∀ q, K.reset q = false → (s'.node q).freed = (s.node q).freed
  calendar : ∀ q, K.reset q = false →
    (s'.flow (flowName q)).calendar = (s.flow (flowName q)).calendar
  repeatValue : ∀ q, K.restarted q = false → (s'.node q).repeatValue = (s.node q).repeatValue

variable {K : Scope}

/-- Limits, marks, draws and submissions are not looked at. -/
theorem Beyond.of_eq {s s' : State} (hnode : s'.node = s.node)
    (hflow : s'.flow = s.flow) (hmoved : s'.moved = s.moved)
    (hparameter : s'.parameterValue = s.parameterValue) (hhalt : s'.haltCauses = s.haltCauses)
    (hstopping : s'.serviceStopping = s.serviceStopping) : Beyond K s s' :=
  ⟨⟨hhalt, hstopping, fun _ => by rw [hflow], fun _ => by rw [hnode]⟩, hparameter,
    fun _ => by rw [hnode], fun _ _ => by rw [hnode], fun _ _ => by rw [hmoved], fun _ _ => by rw [hnode],
    fun _ _ => by rw [hflow], fun _ _ => by rw [hnode]⟩

theorem Beyond.refl (s : State) : Beyond K s s :=
  .of_eq rfl rfl rfl rfl rfl rfl

theorem Beyond.trans {s s' s'' : State} (h : Beyond K s s')
    (h' : Beyond K s' s'') : Beyond K s s'' where
  service := trans_of State.SameService h.service h'.service
  parameterValue := h'.parameterValue.trans h.parameterValue
  completeTriggerFree q := (h'.completeTriggerFree q).trans (h.completeTriggerFree q)
  shown q hq := (h'.shown q hq).trans (h.shown q hq)
  moved q hq := (h'.moved q hq).trans (h.moved q hq)
  freed q hq := (h'.freed q hq).trans (h.freed q hq)
  calendar q hq := (h'.calendar q hq).trans (h.calendar q hq)
  repeatValue q hq := (h'.repeatValue q hq).trans (h.repeatValue q hq)

instance : Std.Refl (Beyond K) := ⟨Beyond.refl⟩

instance : IsTrans State (Beyond K) := ⟨fun _ _ _ h h' => h.trans h'⟩

theorem Beyond.status {s s' : State} (h : Beyond K s s') {q : NodePath}
    (hq : K.touched q = false) : (s'.node q).status = (s.node q).status :=
  congrArg (fun x => x.1.1) (h.shown q hq)

theorem Beyond.task {s s' : State} (h : Beyond K s s') {q : NodePath}
    (hq : K.touched q = false) : (s'.node q).task = (s.node q).task :=
  congrArg Prod.snd (h.shown q hq)

/-! ### Writes -/

theorem beyond_modifyNode {p : NodePath} {f : NodeState → NodeState}
    (ht : K.touched p = true ∨ ∀ n, ((f n).seen, (f n).task) = (n.seen, n.task))
    (hr : K.reset p = true ∨ ∀ n, (f n).freed = n.freed := by exact .inr fun _ => rfl)
    (hv : K.restarted p = true ∨ ∀ n, (f n).repeatValue = n.repeatValue := by
      exact .inr fun _ => rfl)
    (hs : ∀ n, (f n).suspended = n.suspended := by exact fun _ => rfl)
    (hc : ∀ n, (f n).completeTriggerFree = n.completeTriggerFree := by exact fun _ => rfl) :
    Within (Beyond K) (modifyNode p f) := by
  refine .modify fun s => ⟨⟨rfl, rfl, fun _ => rfl, fun q => ?_⟩, rfl, fun q => ?_, fun q hq => ?_,
    fun _ _ => rfl, fun q hq => ?_, fun _ _ => rfl, fun q hq => ?_⟩
  all_goals
    by_cases hqp : q = p
    · subst hqp
      simp_all
    · simp [hqp]

theorem beyond_modifyTask {p : NodePath} (h : K.touched p = true) (f : TaskState → TaskState) :
    Within (Beyond K) (modifyTask p f) :=
  beyond_modifyNode (.inl h)

theorem beyond_notifyQueryChange (p : NodePath) (groups : List FieldGroup) (invalidate : Bool) :
    Within (Beyond K) (notifyQueryChange p groups invalidate) :=
  .modify fun _ => .of_eq rfl rfl rfl rfl rfl rfl

theorem beyond_draw : Within (Beyond K) draw := fun _ =>
  .of_eq rfl rfl rfl rfl rfl rfl

theorem beyond_liftEval {α : Type} (e : Except Err α) :
    Within (Beyond K) (liftEval e) := by
  cases e with
  | error e => exact .throw e
  | ok a => exact .pure a

theorem beyond_updateLimits (p : NodePath) : Within (Beyond K) (updateLimits p) := by
  refine ((effect_updateLimits p).mono ?_).within
  rintro s _ ⟨marks, rfl⟩
  exact .of_eq rfl rfl rfl rfl rfl rfl

/-! ### Statuses and requeues -/

theorem beyond_setNodeStatusOnly {p : NodePath} (h : K.touched p = true) (t : Tree)
    (status : NodeStatus) : Within (Beyond K) (setNodeStatusOnly p t status) := by
  have hforget : Within (Beyond K) (forgetSubmission p t.kind) :=
    (Within.when (beyond_modifyTask h _)).bind fun _ => Within.get.bind fun _ =>
      Within.when ((beyond_modifyTask h _).bind fun _ => beyond_notifyQueryChange _ _ _)
  exact (Within.when hforget).bind fun _ => Within.get.bind fun _ =>
    .ite (.pure _) ((beyond_modifyNode (.inl h)).bind fun _ => beyond_notifyQueryChange _ _ _)

/-- The node may be requeued. -/
def Scope.Resets (K : Scope) (p : NodePath) (resetRepeat : Bool) : Prop :=
  K.touched p = true ∧ K.reset p = true ∧ (resetRepeat = true → K.restarted p = true)

theorem beyond_nodeRequeue {p : NodePath} {resetRepeat : Bool} (h : K.Resets p resetRepeat)
    (t : Tree) : Within (Beyond K) (Node.requeue p t resetRepeat) := by
  refine Within.get.bind fun _ => (beyond_setNodeStatusOnly h.1 _ _).bind fun _ =>
    (beyond_modifyNode (.inl h.1) (.inl h.2.1) ?_).bind fun _ =>
      Within.when (beyond_notifyQueryChange _ _ _)
  cases resetRepeat with
  | true => exact .inl (h.2.2 rfl)
  | false => exact .inr fun _ => rfl

theorem beyond_clearPaths {p : NodePath} (h : K.touched p = true) :
    Within (Beyond K) (clearPaths p) := by
  have hclear (path : TaskState → Option String) (clear : TaskState → TaskState) :
      Within (Beyond K) (clearPath p path clear) := by
    refine Within.get.bind fun _ => ?_
    split
    · exact .pure _
    · exact .ite (.throw _) (beyond_modifyTask h clear)
  exact (hclear _ _).bind fun _ => (hclear _ _).bind fun _ => hclear _ _

theorem beyond_clearCurrentAttempt {p : NodePath} (h : K.touched p = true) (kind : NodeKind) :
    Within (Beyond K) (clearCurrentAttempt p kind) :=
  Within.get.bind fun _ => (Within.when (beyond_notifyQueryChange _ _ _)).bind fun _ =>
    (beyond_modifyTask h _).bind fun _ => (beyond_clearPaths h).bind fun _ =>
      Within.when (beyond_modifyTask h _)

theorem beyond_requeueTask {p : NodePath} {resetRepeat : Bool} (h : K.Resets p resetRepeat)
    (t : Tree) : Within (Beyond K) (Task.requeue p t resetRepeat) :=
  (Within.when (beyond_modifyTask h.1 _)).bind fun _ => Within.get.bind fun _ =>
    .ite (.throw _) <| (Within.when (beyond_notifyQueryChange _ _ _)).bind fun _ =>
      Within.bind ((beyond_modifyTask h.1 _).bind fun _ => beyond_clearCurrentAttempt h.1 _)
        fun _ => (beyond_nodeRequeue h t).bind fun _ => beyond_updateLimits _

theorem beyond_requeue {p : NodePath} {resetRepeat : Bool}
    (h : ∀ q, p <:+ q → K.Resets q resetRepeat) (t : Tree) :
    Within (Beyond K) (requeue p t resetRepeat) :=
  requeue_within t p fun x hx =>
    have hq := h x.1 (Tree.suffix_of_mem_walk hx)
    ⟨beyond_nodeRequeue hq x.2, beyond_requeueTask hq x.2,
      beyond_setNodeStatusOnly hq.1 x.2 .complete⟩

/-- The nodes of a tree may change, with or without the values of their repeats. -/
def Scope.below (p : NodePath) (resetRepeat : Bool) : Scope where
  touched q := p <:+ q
  reset q := p <:+ q
  restarted q := resetRepeat ∧ p <:+ q

/-- **A requeue stays inside its tree**, returned or raised, and leaves the repeats alone when it
does not reset them. -/
theorem below_requeue (p : NodePath) (t : Tree) (resetRepeat : Bool) :
    Within (Beyond (.below p resetRepeat)) (requeue p t resetRepeat) :=
  beyond_requeue (fun q hq => by simp [Scope.Resets, Scope.below, hq]) t

theorem beyond_advanceRepeat {p : NodePath} {t : Tree}
    (h : t.defn.repeatDate.isSome = true → ∀ q, p <:+ q → K.Resets q true) :
    Within (Beyond K) (advanceRepeat p t) := by
  unfold advanceRepeat
  cases hr : t.defn.repeatDate with
  | none => exact .pure _
  | some r =>
    replace h := h (hr ▸ rfl)
    have hp := h p List.suffix_rfl
    have hadvance : Within (Beyond K) (r.advance p) :=
      Within.get.bind fun _ => .ite (.throw _) <| .ite
        ((beyond_modifyNode (.inl hp.1) (.inl hp.2.1) (.inl (hp.2.2 rfl))).bind
          fun _ => .pure _) (.pure _)
    have hrequeue : Within (Beyond K) (requeue p t false) :=
      beyond_requeue (fun q hq => ⟨(h q hq).1, (h q hq).2.1, fun hf => by cases hf⟩) t
    exact hadvance.bind fun _ => .ite ((beyond_notifyQueryChange _ _ _).bind fun _ =>
      hrequeue.bind fun _ => .pure _) (.pure _)

/-! ### Swimming up -/

/-- What a change of the status of the node at `p` may reach is in the scope: the way up, and the
tree below each repeat on it to which the completion may come. Where the completion may come no
further, a child that stays as it is keeps the container from being complete. -/
structure Scope.Covers (K : Scope) (b : Bunch) (s : State) (Alive : NodePath → Prop)
    (p : NodePath) : Prop where
  way : ∀ q, q <:+ p → K.touched q = true
  below : ∀ q t, q <:+ p → Alive q → b.node? q = some t → t.defn.repeatDate.isSome = true →
    ∀ x, q <:+ x → K.Resets x true
  alive : ∀ q, q <:+ p → Alive q → Alive p
  stops : ∀ n up t, n :: up <:+ p → Alive (n :: up) → ¬ Alive up → b.node? up = some t →
    ∃ c ∈ t.children, K.touched (c.name :: up) = false ∧
      .complete < (s.node (c.name :: up)).status

/-- A state that differs from `s` only inside the scope, and in which the node at `p` is not
complete if it is not to be completed. -/
def Reached (K : Scope) (s : State) (Alive : NodePath → Prop) (p : NodePath) (u : State) :
    Prop :=
  Beyond K s u ∧ (¬ Alive p → .complete < (u.node p).status)

section Swim

variable {b : Bunch} {s : State} {Alive : NodePath → Prop} {p : NodePath}

theorem Reached.within {α : Type} {m : M α} (h : Within (Beyond K) m)
    (hp : ∀ u, ((m.exec u).2.node p).status = (u.node p).status) :
    Keeps (Reached K s Alive p) m := by
  intro u hu
  have hm := h u
  have hs := hp u
  rcases hx : m.exec u with ⟨_ | _, v⟩ <;> rw [hx] at hm hs <;>
    exact ⟨hu.1.trans hm, fun halive => hs ▸ hu.2 halive⟩

/-- A container above a node that is not complete is not complete, and neither is one in which the
completion stops. -/
theorem Scope.Covers.climb (hK : K.Covers b s Alive p) {n m : String} {up : NodePath}
    (hs : n :: m :: up <:+ p) {t u : Tree} (hb : b.node? (n :: m :: up) = some t)
    (hup : b.node? (m :: up) = some u) {v : State} (hv : Beyond K s v)
    (hn : ¬ Alive (n :: m :: up) → .complete < (v.node (n :: m :: up)).status)
    (halive : ¬ Alive (m :: up)) : .complete < v.computedStatus (m :: up) u := by
  obtain ⟨u', hu', hmem, hname⟩ := Bunch.parent_of_node? hb
  obtain rfl : u' = u := Option.some_inj.mp (hu'.symm.trans hup)
  obtain ⟨c, hc, hstatus⟩ :
      ∃ c ∈ u'.children, .complete < (v.node (c.name :: m :: up)).status := by
    by_cases hx : Alive (n :: m :: up)
    · obtain ⟨c, hc, htouched, hlt⟩ := hK.stops n (m :: up) u' hs hx halive hup
      exact ⟨c, hc, (hv.status htouched).symm ▸ hlt⟩
    · exact ⟨t, hmem, hname ▸ hn hx⟩
  have htask : ¬ u'.isTask = true := by
    intro ht
    rw [(Bunch.wf_of_node? hup).children_of_isTask ht] at hc
    cases hc
  rw [State.computedStatus, if_neg htask]
  split
  · rename_i hnil
    rw [hnil] at hc
    cases hc
  · exact hstatus.trans_le (le_mostSignificant (List.mem_map_of_mem hc))

/-- What swims up from a node: the node is not complete if it is not to be completed. -/
def Ready (b : Bunch) (Alive : NodePath → Prop) (q : NodePath) (u : State) : Prop :=
  ∀ t, b.node? q = some t → ¬ Alive q → .complete < u.computedStatus q t

theorem reached_adoptComputed (hK : K.Covers b s Alive p) {q : NodePath} (hs : q <:+ p)
    {t : Tree} (hb : b.node? q = some t) :
    Triple (fun u => Reached K s Alive p u ∧ Ready b Alive q u) (adoptComputed q t)
      (fun st u => Reached K s Alive p u ∧
        (¬ Alive q → .complete < st ∧ .complete < (u.node q).status))
      (fun _ => Beyond K s) := by
  refine Triple.get_bind fun u hu => ?_
  obtain ⟨⟨hbeyond, hp⟩, hready⟩ := hu
  have hadopt : Triple (· = u) (adoptStatus q t (u.computedStatus q t))
      (fun _ v => Reached K s Alive p v ∧ (v.node q).status = u.computedStatus q t)
      (fun _ => Beyond K s) := by
    refine Triple.get_bind fun v hv => Triple.when (fun _ => ?_) fun hne w hw => ?_
    · rintro w rfl
      subst hv
      obtain ⟨v, hexec, hset⟩ := effect_setNodeStatusOnly q t (w.computedStatus q t) w
      have hwithin := beyond_setNodeStatusOnly (hK.way q hs) t (w.computedStatus q t) w
      rw [hexec] at hwithin ⊢
      refine ⟨⟨hbeyond.trans hwithin, fun halive => ?_⟩, by simp [hset.status]⟩
      rw [hset.status]
      split_ifs with hpq
      · exact hready t hb (hpq ▸ halive)
      · exact hp halive
    · subst hw hv
      exact ⟨⟨hbeyond, hp⟩, (not_not.mp hne).symm⟩
  refine hadopt.bind fun _ => Triple.pure ?_
  rintro v ⟨hv, hstatus⟩
  exact ⟨hv, fun halive => ⟨hready t hb halive, hstatus ▸ hready t hb halive⟩⟩

/-- **A status that swims up stays inside the scope.** By induction over the way: the repeat of a
node advances only when the node is complete, and then the completion may come there. -/
theorem beyond_swim (hK : K.Covers b s Alive p) : ∀ q, q <:+ p →
    Triple (fun u => Reached K s Alive p u ∧ Ready b Alive q u) (swimStatusChange b q)
      (fun _ => Reached K s Alive p) (fun _ => Beyond K s) ∧
    Triple (fun u => Reached K s Alive p u ∧ Ready b Alive q u) (swimStatusChangeOnly b q)
      (fun _ => Reached K s Alive p) (fun _ => Beyond K s) := by
  intro q
  induction q with
  | nil =>
    rw [swimStatusChange, swimStatusChangeOnly]
    exact fun _ => ⟨Triple.pure fun _ h => h.1, Triple.pure fun _ h => h.1⟩
  | cons n up ih =>
    intro hs
    rw [swimStatusChange, swimStatusChangeOnly]
    cases hb : b.node? (n :: up) with
    | none => exact ⟨Triple.pure fun _ h => h.1, Triple.pure fun _ h => h.1⟩
    | some t =>
      obtain ⟨hswim, honly⟩ := ih ((List.suffix_cons n up).trans hs)
      -- the parent is ready when the node has its status
      have hnext (u : State) (hu : Reached K s Alive p u)
          (hn : ¬ Alive (n :: up) → .complete < (u.node (n :: up)).status) :
          Reached K s Alive p u ∧ Ready b Alive up u := by
        refine ⟨hu, fun v hv halive => ?_⟩
        cases up with
        | nil => cases hv
        | cons m up => exact hK.climb hs hb hv hu.1 hn halive
      have hadopt := reached_adoptComputed hK hs hb
      have hadopted : Triple (fun u => Reached K s Alive p u ∧ Ready b Alive (n :: up) u)
          (do let _ ← adoptComputed (n :: up) t; swimStatusChange b up)
          (fun _ => Reached K s Alive p) (fun _ => Beyond K s) :=
        hadopt.bind fun _ => hswim.pre fun u hu => hnext u hu.1 fun h => (hu.2 h).2
      refine ⟨hadopt.bind fun status => Triple.ite (fun hstatus => ?_) fun _ =>
        hswim.pre fun u hu => hnext u hu.1 fun h => (hu.2 h).2, Triple.ite (fun ht => ?_)
          fun _ => hadopted⟩
      · -- a complete node is one to which the completion may come
        refine Triple.of_forall fun u hu => ?_
        have halive : Alive (n :: up) := by
          by_contra h
          exact absurd (hu.2 h).1 (by simp [hstatus])
        have hp := hK.alive _ hs halive
        have hadvance : Triple (· = u) (advanceRepeat (n :: up) t)
            (fun _ => Reached K s Alive p) (fun _ => Beyond K s) := by
          have hkeeps := beyond_advanceRepeat fun hr => hK.below _ t hs halive hb hr
          refine (hkeeps.since s).conseq ?_ (fun _ v hv => ⟨hv, fun h => absurd hp h⟩) fun _ _ hv => hv
          rintro _ rfl
          exact hu.1.1
        refine hadvance.bind fun advanced => Triple.ite (fun _ => Triple.ite (fun _ => ?_)
          fun _ => ?_) fun _ => ?_
        · exact honly.pre fun v hv => hnext v hv fun h => absurd halive h
        · exact hadopted.pre fun v hv => ⟨hv, fun _ _ h => absurd halive h⟩
        · exact hswim.pre fun v hv => hnext v hv fun h => absurd halive h
      · refine honly.pre fun u hu => hnext u hu.1 fun h => ?_
        have := hu.2 t hb h
        rwa [State.computedStatus, if_pos ht] at this

variable {t : Tree} (hK : K.Covers b s Alive p)
  (hp : ¬ Alive p → b.node? p = some t ∧ t.isTask = true)

include hK hp

theorem beyond_handleStatusChange :
    Triple (Reached K s Alive p) (handleStatusChange b p t)
      (fun _ => Reached K s Alive p) (fun _ => Beyond K s) := by
  have hlimits : Keeps (Reached K s Alive p) (updateLimits p) := by
    refine Reached.within (beyond_updateLimits p) fun u => ?_
    obtain ⟨v, hv, marks, rfl⟩ := effect_updateLimits p u
    rw [hv]
  refine Triple.bind ((Keeps.when fun _ => hlimits).conseq (fun _ h => h) (fun _ _ h => h)
    fun _ _ h => h.1) fun _ => (beyond_swim hK p List.suffix_rfl).1.pre fun u hu => ⟨hu, ?_⟩
  intro t' ht' halive
  obtain ⟨hb, ht⟩ := hp halive
  obtain rfl := Option.some_inj.mp (hb.symm.trans ht')
  rw [State.computedStatus, if_pos ht]
  exact hu.2 halive

theorem beyond_setNodeStatus {status : NodeStatus}
    (hstatus : ¬ Alive p → .complete < status) :
    Triple (Beyond K s) (setNodeStatus b p t status)
      (fun _ => Reached K s Alive p) (fun _ => Beyond K s) := by
  refine Triple.get_bind fun u hu => Triple.ite (fun heq => Triple.pure ?_) fun _ => ?_
  · rintro _ rfl
    exact ⟨hu, fun halive => heq ▸ hstatus halive⟩
  · refine Triple.bind (Q := fun _ => Reached K s Alive p) ?_ fun _ =>
      beyond_handleStatusChange hK hp
    intro v hv
    subst hv
    obtain ⟨w, hexec, hset⟩ := effect_setNodeStatusOnly p t status v
    have hwithin := beyond_setNodeStatusOnly (hK.way p List.suffix_rfl) t status v
    rw [hexec] at hwithin ⊢
    exact ⟨hu.trans hwithin, fun halive => by simpa [hset.status] using hstatus halive⟩

theorem beyond_settle {status : NodeStatus} (hstatus : ¬ Alive p → .complete < status) :
    Keeps (Beyond K s) (do setNodeStatus b p t status; handleStatusChange b p t) :=
  (beyond_setNodeStatus hK hp hstatus).bind fun _ =>
    (beyond_handleStatusChange hK hp).post fun _ _ h => h.1

/-! ### Reports and runs -/

theorem beyond_init (taskId : String) : Keeps (Beyond K s) (Task.init b p t taskId) := by
  have h := hK.way p List.suffix_rfl
  exact (beyond_modifyTask h _).andThen fun _ => (beyond_notifyQueryChange _ _ _).andThen fun _ =>
    beyond_draw.andThen fun _ => (beyond_modifyTask h _).andThen fun _ =>
      beyond_settle hK hp fun _ => by decide

theorem beyond_complete (halive : Alive p) : Keeps (Beyond K s) (Task.complete b p t) := by
  have h := hK.way p List.suffix_rfl
  exact (beyond_modifyTask h _).andThen fun _ => (beyond_notifyQueryChange _ _ _).andThen fun _ =>
    (beyond_draw.bind fun _ => beyond_modifyTask h _).andThen fun _ =>
      beyond_settle hK hp fun hn => absurd halive hn

theorem beyond_abort (reason : String) : Keeps (Beyond K s) (Task.abort b p t reason) := by
  have h := hK.way p List.suffix_rfl
  have hreason : Keeps (Reached K s Alive p)
      (modifyTask p fun k => { k with abortedReason := some reason }) :=
    Reached.within (beyond_modifyTask h _) fun u => by simp [modifyTask, modifyNode]
  exact (beyond_modifyTask h _).andThen fun _ => (beyond_notifyQueryChange _ _ _).andThen fun _ =>
    (beyond_draw.bind fun _ => beyond_modifyTask h _).andThen fun _ =>
      (beyond_setNodeStatus hK hp fun _ => by decide).bind fun _ =>
        (hreason.conseq (fun _ h => h) (fun _ _ h => h) fun _ _ h => h.1).bind fun _ =>
          (beyond_handleStatusChange hK hp).post fun _ _ h => h.1

omit hK hp in
private theorem beyond_requireRunning : Within (Beyond K) requireRunning :=
  Within.get.bind fun _ => .ite (.throw _) (.ite (.throw _) (.pure _))

omit hK hp in
private theorem beyond_submit (h : K.touched p = true) : Within (Beyond K) (Shell.submit p) := by
  refine beyond_requireRunning.bind fun _ => Within.get.bind fun _ => beyond_draw.bind fun _ =>
    (beyond_modifyTask h _).bind fun _ => Within.bind ((beyond_modifyTask h _).bind fun _ =>
      .modify fun u => ?_) fun _ => Within.bind (Within.when (.modify fun _ =>
        .of_eq rfl rfl rfl rfl rfl rfl)) fun _ => .pure _
  refine ⟨⟨rfl, rfl, fun _ => rfl, fun _ => rfl⟩, rfl, fun _ => rfl, fun _ _ => rfl,
    fun q hq => ?_, fun _ _ => rfl, fun _ _ => rfl, fun _ _ => rfl⟩
  have hqp : q ≠ p := by
    rintro rfl
    simp [h] at hq
  funext x
  simp [hqp]

theorem beyond_run : Keeps (Beyond K s) (Task.run b p t) := by
  have h := hK.way p List.suffix_rfl
  have hcapacity : Within (Beyond K) (requireLimitCapacity p) :=
    Within.get.bind fun _ => .ite (.pure _) (.throw _)
  have hstart : Within (Beyond K) (incrementTryNo p) :=
    beyond_draw.bind fun _ => Within.get.bind fun _ => (beyond_modifyTask h _).bind fun _ =>
      (beyond_notifyQueryChange _ _ _).bind fun _ => (beyond_clearPaths h).bind fun _ =>
        beyond_modifyTask h _
  have hdo : Keeps (Beyond K s) (Task.doRun b p t) := by
    refine Keeps.ite (fun _ => (beyond_submit h).andThen fun error => ?_) fun _ => Keeps.pure _
    cases error with
    | none => exact Keeps.pure _
    | some e => exact (beyond_abort hK hp _).bind fun _ => Keeps.pure _
  refine beyond_requireRunning.andThen fun _ => Within.get.andThen fun u =>
    Keeps.ite (fun _ => Keeps.throw _) fun _ => hcapacity.andThen fun _ => hstart.andThen fun _ =>
      (beyond_notifyQueryChange _ _ _).andThen fun _ => (Within.tryCatch ?_ fun e => ?_).andThen
        fun _ => hdo.bind fun _ => Keeps.ite (fun _ => Keeps.bind ?_ fun _ => Keeps.pure _)
          fun _ => Keeps.pure _
  · exact beyond_requireRunning.bind fun _ => beyond_requireRunning.bind fun _ => hcapacity
  · exact (beyond_modifyTask h _).bind fun _ => .throw e
  · exact beyond_draw.andThen fun _ => (beyond_modifyTask h _).andThen fun _ =>
      beyond_settle hK hp fun _ => by decide

end Swim

/-! ### Checks and the calendar -/

/-- A visit of the node completes it: its complete trigger holds, and it is not complete yet. -/
def State.completes (s : State) (b : Bunch) (p : NodePath) (t : Tree) : Bool :=
  !(s.node p).suspended && decide ((s.node p).status ≠ .complete) &&
    decide (s.evaluateCompleteTrigger b p t = .ok true)

section Checks

variable {b : Bunch} {s u : State} {p : NodePath} {t : Tree}

/-- What is told from statuses and variables is the same when they are. -/
theorem Beyond.completes (h : Beyond K s u) (hK : ∀ q, K.touched q = false) :
    u.completes b p t = s.completes b p t := by
  have hseen (q : NodePath) : (u.node q).seen = (s.node q).seen := congrArg Prod.fst (h.shown q (hK q))
  have hvaluation : u.valuation b = s.valuation b := by
    simp only [NodeState.seen, Prod.mk.injEq] at hseen
    simp [State.valuation, State.variableValue, hseen, h.parameterValue]
  have heval : u.evaluateCompleteTrigger b p t = s.evaluateCompleteTrigger b p t := by
    simp only [State.evaluateCompleteTrigger, evaluateExpression, hvaluation, h.completeTriggerFree]
  rw [State.completes, State.completes, heval, h.service.suspended, h.status (hK p)]

theorem beyond_nodeCheckDependencies (hu : Beyond K s u) (hK : u.completes b p t = true →
    ∃ Alive, K.Covers b s Alive p ∧ Alive p) :
    Triple (· = u) (Node.checkDependencies b p t) (fun _ => Beyond K s) (fun _ => Beyond K s) := by
  refine Triple.get_bind fun u' hu' => ?_
  obtain rfl := hu'.symm
  have hsame : ∀ v, v = u → Beyond K s v := fun v hv => hv ▸ hu
  refine Triple.ite (fun _ => Triple.pure hsame) fun hsuspended => ?_
  cases u.resolveTimeDependencies p t with
  | error e => exact Triple.throw hsame
  | ok timely => cases timely with
    | false => exact Triple.pure hsame
    | true => cases hc : u.evaluateCompleteTrigger b p t with
      | error e => exact Triple.throw hsame
      | ok completed => cases completed with
        | false => exact ((beyond_liftEval _).since s).pre hsame
        | true =>
          change Triple (· = u) (completeByTrigger b p t >>= fun _ => pure false) _ _
          refine Triple.bind (Q := fun _ => Beyond K s) ?_ fun _ => Triple.pure fun _ hv => hv
          refine Triple.get_bind fun u' hu' => ?_
          obtain rfl := hu'.symm
          have hmark : Within (Beyond K)
              (modifyNode p fun n => { n with isCompleteTriggered := true }) :=
            beyond_modifyNode (.inr fun _ => rfl)
          by_cases hstatus : (u.node p).status = .complete
          · -- the status is set to what it is
            have hkeeps : Keeps (fun v => Beyond K s v ∧ (v.node p).status = .complete)
                (when (¬ (u.node p).isCompleteTriggered = true) do
                  modifyNode p fun n => { n with isCompleteTriggered := true }
                  notifyQueryChange p [.runtime]) :=
              Keeps.when fun _ => Keeps.bind (Keeps.modify fun v hv =>
                ⟨hv.1.trans (hmark v), by simpa using hv.2⟩) fun _ =>
                  Keeps.modify fun v hv => ⟨hv.1.trans (.of_eq rfl rfl rfl rfl rfl rfl), hv.2⟩
            refine (hkeeps.conseq (fun v hv => ⟨hsame v hv, hv ▸ hstatus⟩) (fun _ _ hv => hv)
              fun _ _ hv => hv.1).bind fun _ => Triple.get_bind fun v hv => ?_
            rw [if_pos hv.2]
            exact Triple.pure fun _ hw => hw ▸ hv.1
          · obtain ⟨Alive, hcovers, halive⟩ := hK (by simp [State.completes, *])
            exact (((Within.when (hmark.bind fun _ => beyond_notifyQueryChange _ _ _)).since s).pre
              hsame).bind fun _ => (beyond_setNodeStatus hcovers (fun hn => absurd halive hn)
                fun hn => absurd halive hn).post fun _ _ hv => hv.1

/-- A check stays inside a scope that covers the completion of the node, if there is one. -/
theorem beyond_checkDependencies (hu : Beyond K s u) (hK : u.completes b p t = true →
    ∃ Alive, K.Covers b s Alive p ∧ Alive p) :
    Triple (· = u) (checkDependencies b p t) (fun _ => Beyond K s) (fun _ => Beyond K s) := by
  have hnode := beyond_nodeCheckDependencies hu hK
  refine Triple.ite (fun _ => Triple.get_bind fun v hv => ?_) fun _ => hnode
  obtain rfl := hv.symm
  exact Triple.ite (fun _ => Triple.pure fun v hv => hv ▸ hu) fun _ => hnode.bind fun _ =>
    Keeps.ite (fun _ => Keeps.ite (fun _ => Keeps.pure _) fun _ =>
      Keeps.bind Keeps.get fun _ => Keeps.pure _) fun _ => Keeps.pure _

end Checks

theorem flowName_of_suffix {name : String} {p : NodePath} (h : [name] <:+ p) :
    flowName p = name := by
  obtain ⟨l, rfl⟩ := h
  simp [flowName]

theorem beyond_updateCalendar {t : Tree} (h : ∀ q, flowName q = t.name → K.reset q = true)
    (now : ℤ) : Within (Beyond K) (Flow.updateCalendar t now) := by
  have hcalendar (c : Calendar) :
      Within (Beyond K) (modifyFlow t.name fun f => { f with calendar := c }) := by
    refine .modify fun s => ⟨⟨rfl, rfl, fun f => ?_, fun _ => rfl⟩, rfl, fun _ => rfl,
      fun _ _ => rfl, fun _ _ => rfl, fun _ _ => rfl, fun q hq => ?_, fun _ _ => rfl⟩
    · rcases eq_or_ne f t.name with rfl | hf
      · simp
      · simp [hf]
    · have hne : flowName q ≠ t.name := fun heq => by simp [h q heq] at hq
      simp [hne]
  have hfree {x : NodePath × Tree} (hx : x ∈ t.walk [t.name]) (free : TimeDef → Bool) :
      Within (Beyond K) (modifyNode x.1 fun n => { n with timeFree := free }) :=
    beyond_modifyNode (.inr fun _ => rfl)
      (.inl (h _ (flowName_of_suffix (Tree.suffix_of_mem_walk hx))))
  exact Within.get.bind fun _ => (beyond_liftEval _).bind fun _ => (hcalendar _).bind fun _ =>
    (Within.when (beyond_notifyQueryChange _ _ _)).bind fun _ => Within.forM fun x hx =>
      Within.get.bind fun _ => (hfree (List.mem_of_mem_filter hx) _).bind fun _ =>
        Within.when (beyond_notifyQueryChange _ _ _)

/-! ### The service -/

/-- Every node may change. -/
def Scope.all : Scope where
  touched _ := true
  reset _ := true
  restarted _ := true

theorem Scope.all_covers (b : Bunch) (s : State) (p : NodePath) :
    Scope.all.Covers b s (fun _ => True) p where
  way _ _ := rfl
  below _ _ _ _ _ _ _ _ := ⟨rfl, rfl, fun _ => rfl⟩
  alive _ _ _ := trivial
  stops _ _ _ _ _ h := absurd trivial h

theorem service_run (b : Bunch) (p : NodePath) (t : Tree) :
    Within State.SameService (Task.run b p t) := fun s =>
  ((beyond_run (Scope.all_covers b s p) fun h => absurd trivial h).exec (.refl s)).service

/-- A check leaves the service alone. -/
theorem service_checkDependencies (b : Bunch) (p : NodePath) (t : Tree) :
    Within State.SameService (checkDependencies b p t) := fun s =>
  ((beyond_checkDependencies (.refl s) fun _ => ⟨_, Scope.all_covers b s p, trivial⟩).exec
    rfl).service

theorem service_updateCalendar (t : Tree) (now : ℤ) :
    Within State.SameService (Flow.updateCalendar t now) := fun s =>
  (beyond_updateCalendar (K := Scope.all) (fun _ _ => rfl) now s).service

end Takler
