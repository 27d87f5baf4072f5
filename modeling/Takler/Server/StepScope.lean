import Takler.Core.Scope
import Takler.Server.Invariant

/-!
# The nodes that a step may close

A node is open when it is not suspended and its time and trigger dependencies are satisfied. This
module tells from a step of the server and the state before it which nodes the step may close. It
computes the scope of the step, and compares it with what the dependencies of a node read: whether
the node is suspended, the times and the clock of its flow, and the nodes that its trigger refers to.

## Main definitions

* `World.isOpen`: suspension, time and trigger let a node go on.
* `Bunch.reach`: how far up a completion may come.
* `Bunch.changeScope`, `Command.scope`, `World.visitScope`, `Action.scope`: the scopes of steps.
* `World.spares`: nothing in a scope is read by the dependencies of a node.

## Main results

* `World.isOpen_of_spares`: a node that is spared stays open.
* `Bunch.changeScope_covers`: the scope of a status change covers what the change may reach.
* `Action.reads_scope`: a step changes what dependencies read inside its scope only.
-/

namespace Takler

open Program

/-! ### Open nodes -/

/-- The node is not suspended, and its time and trigger dependencies are satisfied. -/
def World.isOpen (w : World) (p : NodePath) : Bool :=
  match w.bunch.node? p with
  | none => false
  | some t => !(w.state.node p).suspended && decide (w.state.resolveTimeDependencies p t = .ok true) &&
      decide (w.state.evaluateTrigger w.bunch p t = .ok true)

theorem World.isOpen_iff {w : World} {p : NodePath} {t : Tree} (h : w.bunch.node? p = some t) :
    w.isOpen p = true ↔ (w.state.node p).suspended = false ∧ w.state.resolveTimeDependencies p t = .ok true ∧
      w.state.evaluateTrigger w.bunch p t = .ok true := by
  simp [World.isOpen, h, and_assoc]

/-- The dependencies of the node read nothing that may change in the scope. -/
def World.spares (w : World) (K : Scope) (q : NodePath) : Bool :=
  !K.suspended q && (w.bunch.node? q).all fun t =>
    (t.defn.times.isEmpty || !K.reset q) && t.defn.trigger.all fun ast =>
      if (w.state.node q).triggerFree then !K.reset q else ast.refs.all fun r => !K.touched r

/-- What dependencies read has changed inside a scope only: elsewhere nodes were at most resumed and
dependencies freed. -/
structure State.SameReads (K : Scope) (s s' : State) : Prop where
  suspended : ∀ q, K.suspended q = false →
    (s'.node q).suspended = true → (s.node q).suspended = true
  seen : ∀ q, K.touched q = false →
    (s'.node q).seen = (s.node q).seen ∧ s'.parameterValue q = s.parameterValue q
  calendar : ∀ q, K.reset q = false →
    (s'.flow (flowName q)).calendar = (s.flow (flowName q)).calendar
  freed : ∀ q, K.reset q = false →
    ((s.node q).triggerFree = true → (s'.node q).triggerFree = true) ∧
      ∀ d, (s.node q).timeFree d = true → (s'.node q).timeFree d = true

variable {K : Scope} {s s' : State}

theorem Beyond.reads (h : Beyond K s s') : s.SameReads K s' where
  suspended q _ := (h.service.suspended q).symm ▸ id
  seen q hq := ⟨congrArg Prod.fst (h.shown q hq), by rw [h.parameterValue]⟩
  calendar := h.calendar
  freed q hq := by
    obtain ⟨htrigger, htime⟩ := Prod.mk.inj (h.freed q hq)
    exact ⟨fun h => htrigger.trans h, fun d h => (congrFun htime d).trans h⟩

/-- With more times freed, the time dependencies stay satisfied. -/
theorem anyFree_mono {n n' : NodeState} {c : Calendar}
    (h : ∀ d, n.timeFree d = true → n'.timeFree d = true) : ∀ ds : List TimeDef,
    anyFree n c ds = .ok true → anyFree n' c ds = .ok true
  | [], hfree => by cases hfree
  | d :: ds, hfree => by
    rw [anyFree] at hfree ⊢
    by_cases hd : n'.timeFree d = true
    · simp [TimeDef.isFree, hd]
      rfl
    · simp only [TimeDef.isFree, if_neg hd, if_neg fun hn => hd (h d hn)] at hfree ⊢
      cases hc : c.flowTime with
      | none =>
        simp only [hc] at hfree
        cases hfree
      | some time =>
        simp only [hc] at hfree ⊢
        by_cases hclock : clock time = ((d.hour : ℤ), (d.minute : ℤ))
        · simp only [hclock, decide_true]
          rfl
        · simp only [hclock, decide_false] at hfree ⊢
          exact anyFree_mono h ds hfree

/-- **A node that is spared stays open.** -/
theorem World.isOpen_of_spares {w w' : World} {q : NodePath}
    (hq : w'.bunch.node? q = w.bunch.node? q)
    (hb : ∀ r, K.touched r = false → w'.bunch.node? r = w.bunch.node? r)
    (hr : w.state.SameReads K w'.state) (hs : w.spares K q = true) (h : w.isOpen q = true) :
    w'.isOpen q = true := by
  cases ht : w.bunch.node? q with
  | none => simp [World.isOpen, ht] at h
  | some t =>
    rw [World.isOpen_iff ht] at h
    rw [World.isOpen_iff (hq.trans ht)]
    obtain ⟨hsuspended, htimes, htrigger⟩ := h
    simp only [World.spares, ht, Option.all_some, Bool.and_eq_true, Bool.not_eq_true',
      Bool.or_eq_true] at hs
    obtain ⟨hs, htime, href⟩ := hs
    refine ⟨?_, ?_, ?_⟩
    · by_contra hn
      simp [hr.suspended q hs (by simpa using hn)] at hsuspended
    · unfold State.resolveTimeDependencies at htimes ⊢
      split_ifs at htimes ⊢ with hempty
      · rfl
      · have hreset := htime.resolve_left hempty
        rw [hr.calendar q hreset]
        exact anyFree_mono (hr.freed q hreset).2 _ htimes
    · unfold State.evaluateTrigger at htrigger ⊢
      split
      · rfl
      · rename_i ast hast
        rw [hast] at htrigger href
        simp only [Option.all_some] at href
        unfold evaluateExpression at htrigger ⊢
        dsimp only at htrigger
        split_ifs with hfree'
        · rfl
        · have hfree : ¬ (w.state.node q).triggerFree = true := fun hf => hfree'
            ((hr.freed q (by simpa [hf] using href)).1 hf)
          rw [if_neg hfree] at htrigger href
          rw [← htrigger]
          refine (Ast.evaluate_congr fun r hmem => ?_).symm
          have htouched : K.touched r = false := by simpa using List.all_eq_true.mp href r hmem
          obtain ⟨hseen, hparameter⟩ := hr.seen r htouched
          obtain ⟨hstatus, hevents, hmeters⟩ := by simpa [NodeState.seen] using hseen
          refine ⟨hstatus.symm, funext fun name => ?_⟩
          simp only [State.valuation, State.variableValue, hb r htouched, hevents, hmeters,
            hparameter]

/-! ### Status changes -/

/-- The other children of the container above a node are at most complete. -/
def Bunch.othersDone (b : Bunch) (s : State) (n : String) (up : NodePath) : Bool :=
  (b.node? up).all fun t =>
    t.children.all fun c => c.name = n ∨ (s.node (c.name :: up)).status ≤ .complete

/-- How far up a completion of a node may come: past a container in which something else is not
complete it does not come. -/
def Bunch.reach (b : Bunch) (s : State) : NodePath → List NodePath
  | [] => []
  | n :: up => (n :: up) :: if b.othersDone s n up then b.reach s up else []

theorem Bunch.mem_reach {b : Bunch} {a : NodePath} : ∀ {p : NodePath}, a ∈ b.reach s p ↔
    a ≠ [] ∧ a <:+ p ∧ ∀ n l, n :: l <:+ p → a <:+ l → b.othersDone s n l = true
  | [] => ⟨fun h => absurd h List.not_mem_nil,
      fun ⟨hne, hs, _⟩ => absurd (List.suffix_nil.mp hs) hne⟩
  | m :: up => by
    rw [reach, List.mem_cons]
    constructor
    · rintro (rfl | h)
      · refine ⟨List.cons_ne_nil m up, List.suffix_rfl, fun n l hs ha => ?_⟩
        have := hs.length_le.trans ha.length_le
        simp at this
      · split_ifs at h with hdone
        · obtain ⟨hne, hs, hall⟩ := mem_reach.mp h
          refine ⟨hne, hs.trans (List.suffix_cons m up), fun n l hl ha => ?_⟩
          rcases List.suffix_cons_iff.mp hl with heq | hl
          · cases heq
            exact hdone
          · exact hall n l hl ha
        · cases h
    · rintro ⟨hne, hs, hall⟩
      rcases List.suffix_cons_iff.mp hs with rfl | hs
      · exact .inl rfl
      · right
        rw [if_pos (hall m up List.suffix_rfl hs)]
        exact mem_reach.mpr ⟨hne, hs, fun n l hl ha => hall n l (hl.trans (List.suffix_cons m up)) ha⟩

/-- The repeats on the way up from a node that may advance when the node completes. -/
def Bunch.restarts (b : Bunch) (s : State) (p : NodePath) : List NodePath :=
  (b.reach s p).filter fun a => (b.node? a).any fun t => t.defn.repeatDate.isSome

/-- The scope of a status change: the way up, what is below the repeats that may advance, and the
tree of the node when the status sinks down. -/
def Bunch.changeScope (b : Bunch) (s : State) (p : NodePath) (completes sinks : Bool) : Scope :=
  let below (q : NodePath) : Bool := completes && (b.restarts s p).any fun a => a <:+ q
  { touched := fun q => q <:+ p || below q || (sinks && p <:+ q), reset := below, restarted := below }

/-- **The scope of a status change covers what it may reach.** Where the completion stops, a sibling
of the way is not complete, and it is outside the scope: the repeats that may advance are below. -/
theorem Bunch.changeScope_covers (b : Bunch) (s : State) (p : NodePath) (completes sinks : Bool) :
    (b.changeScope s p completes sinks).Covers b s (fun q => completes = true ∧ q ∈ b.reach s p) p where
  way q hq := by simp [changeScope, hq]
  below q t _ halive hb hr x hx := by
    have hmem : q ∈ b.restarts s p := List.mem_filter.mpr ⟨halive.2, by simp [hb, hr]⟩
    have hbelow : ((b.restarts s p).any fun a => a <:+ x) = true :=
      List.any_eq_true.mpr ⟨q, hmem, by simpa using hx⟩
    simp [Scope.Resets, changeScope, halive.1, hbelow]
  alive q _ halive := by
    refine ⟨halive.1, mem_reach.mpr ⟨?_, List.suffix_rfl, fun n l hs hp => ?_⟩⟩
    · rintro rfl
      cases halive.2
    · have := hs.length_le.trans hp.length_le
      simp at this
  stops n up t hs halive hstop hb := by
    obtain ⟨hc, hreach⟩ := halive
    obtain ⟨-, -, hall⟩ := mem_reach.mp hreach
    have hname {m : String} (hm : m :: up <:+ p) : m = n :=
      (List.cons.inj ((List.suffix_of_suffix_length_le hm hs (by simp)).eq_of_length (by simp))).1
    have hne : up ≠ [] := by
      rintro rfl
      cases hb
    have hdone : b.othersDone s n up = false := by
      by_contra hdone
      refine hstop ⟨hc, mem_reach.mpr ⟨hne, (List.suffix_cons n up).trans hs, fun m l hl hup => ?_⟩⟩
      rcases Nat.lt_or_ge up.length l.length with hlt | hge
      · exact hall m l hl (List.suffix_of_suffix_length_le hs ((List.suffix_cons m l).trans hl)
          (by simpa using hlt))
      · obtain rfl := hup.eq_of_length_le hge
        rw [hname hl]
        simpa using hdone
    simp only [othersDone, hb, Option.all_some, List.all_eq_false, decide_eq_true_eq, not_or,
      not_le] at hdone
    obtain ⟨c, hmem, hcn, hlt⟩ := hdone
    refine ⟨c, hmem, ?_, hlt⟩
    have hway : ¬ c.name :: up <:+ p := fun h => hcn (hname h)
    have hbelow : ¬ ∃ a ∈ b.restarts s p, a <:+ c.name :: up := by
      rintro ⟨a, ha, hac⟩
      obtain ⟨-, hap, hall⟩ := mem_reach.mp (List.mem_filter.mp ha).1
      rcases List.suffix_cons_iff.mp hac with rfl | hau
      · exact hway hap
      · have := hall n up hs hau
        simp only [othersDone, hb, Option.all_some, List.all_eq_true, decide_eq_true_eq] at this
        exact (this c hmem).elim hcn fun h => absurd h (not_le.mpr hlt)
    have hsinks : ¬ p <:+ c.name :: up := fun h => hway ((h.eq_of_length_le (by
      simpa using hs.length_le)) ▸ List.suffix_rfl)
    simpa [changeScope, hway, hsinks] using fun _ a ha h => hbelow ⟨a, ha, h⟩

theorem Bunch.mem_reach_self {b : Bunch} {p : NodePath} (hp : p ≠ []) : p ∈ b.reach s p := by
  cases p with
  | nil => exact absurd rfl hp
  | cons n up => exact List.mem_cons_self

/-! ### Commands -/

theorem State.SameReads.refl (s : State) : s.SameReads K s :=
  (Beyond.refl s).reads

theorem State.SameReads.trans {s'' : State} (h : s.SameReads K s') (h' : s'.SameReads K s'') :
    s.SameReads K s'' where
  suspended q hq hs := h.suspended q hq (h'.suspended q hq hs)
  seen q hq := ⟨(h'.seen q hq).1.trans (h.seen q hq).1, (h'.seen q hq).2.trans (h.seen q hq).2⟩
  calendar q hq := (h'.calendar q hq).trans (h.calendar q hq)
  freed q hq := ⟨fun hs => (h'.freed q hq).1 ((h.freed q hq).1 hs),
    fun d hs => (h'.freed q hq).2 d ((h.freed q hq).2 d hs)⟩

instance : IsTrans State (State.SameReads K) := ⟨fun _ _ _ h h' => h.trans h'⟩

instance : Std.Refl (State.SameReads K) := ⟨State.SameReads.refl⟩

theorem State.SameReads.of_eq (hnode : s'.node = s.node) (hflow : s'.flow = s.flow)
    (hparameter : s'.parameterValue = s.parameterValue) : s.SameReads K s' where
  suspended q _ h := hnode ▸ h
  seen q _ := by simp [hnode, hparameter]
  calendar q _ := by rw [hflow]
  freed q _ := by simp [hnode]

/-- Everything may change. -/
def Scope.everything : Scope where
  touched _ := true
  reset _ := true
  restarted _ := true
  suspended _ := true

theorem State.SameReads.everything : s.SameReads .everything s' where
  suspended _ h := by cases h
  seen _ h := by cases h
  calendar _ h := by cases h
  freed _ h := by cases h

private theorem reads_modifyNode {p : NodePath} {f : NodeState → NodeState}
    (hseen : K.touched p = true ∨ ∀ n, (f n).seen = n.seen)
    (hs : ∀ n, K.suspended p = false → (f n).suspended = true → n.suspended = true := by
      exact fun _ _ h => h)
    (hfreed : ∀ n, (n.triggerFree = true → (f n).triggerFree = true) ∧
      ∀ d, n.timeFree d = true → (f n).timeFree d = true := by
        exact fun _ => ⟨fun h => h, fun _ h => h⟩) :
    Within (State.SameReads K) (modifyNode p f) := by
  refine .modify fun s => ⟨fun q hq => ?_, fun q hq => ⟨?_, rfl⟩, fun _ _ => rfl, fun q _ => ?_⟩
  all_goals
    by_cases hqp : q = p
    · subst hqp
      simp_all
    · simp [hqp]

private theorem reads_notifyQueryChange (p : NodePath) (groups : List FieldGroup)
    (invalidate : Bool) : Within (State.SameReads K) (notifyQueryChange p groups invalidate) :=
  .modify fun _ => .of_eq rfl rfl rfl

private theorem reads_modifyTask (p : NodePath) (f : TaskState → TaskState) :
    Within (State.SameReads K) (modifyTask p f) :=
  reads_modifyNode (f := fun n => { n with task := f n.task }) (.inr fun _ => rfl)

private theorem reads_suspend (p : NodePath) :
    Within (State.SameReads { suspended := (· = p) }) (suspend p) :=
  Within.get.bind fun _ => .ite (.pure _) (.bind (reads_modifyNode
    (f := fun n => { n with suspended := true }) (.inr fun _ => rfl) fun _ h => by simp at h)
      fun _ => reads_notifyQueryChange _ _ _)

private theorem reads_resume (p : NodePath) : Within (State.SameReads K) (resume p) :=
  Within.get.bind fun _ => .ite (.bind (reads_modifyNode
    (f := fun n => { n with suspended := false }) (.inr fun _ => rfl) fun _ _ h => by cases h)
      fun _ => reads_notifyQueryChange _ _ _) (.pure _)

private theorem reads_freeDependencies (p : NodePath) (t : Tree) (dep : DepType) :
    Within (State.SameReads K) (freeDependencies p t dep) := by
  refine fun s => (Triple.get_bind (P := (· = s)) fun u hu => Triple.bind
    (Q := fun _ => State.SameReads K s) (Triple.modify ?_) fun _ =>
      (Within.when (reads_notifyQueryChange _ _ _)).since s).exec (I := State.SameReads K s) rfl
  rintro _ rfl
  subst hu
  refine ⟨fun q _ => ?_, fun q _ => ⟨?_, rfl⟩, fun _ _ => rfl, fun q _ => ?_⟩
  all_goals
    by_cases hqp : q = p
    · subst hqp
      simp +contextual [NodeState.seen]
    · simp [hqp]

/-- The nodes of a flow may be reset as well, with its clock. -/
def Scope.clocked (K : Scope) (flow : String) : Scope where
  touched := K.touched
  reset q := K.reset q || flowName q = flow
  restarted := K.restarted
  suspended := K.suspended

theorem Scope.Covers.clocked {b : Bunch} {Alive : NodePath → Prop} {p : NodePath}
    (h : K.Covers b s Alive p) (flow : String) : (K.clocked flow).Covers b s Alive p where
  way := h.way
  below q t hq halive hb hr x hx :=
    have hx := h.below q t hq halive hb hr x hx
    ⟨hx.1, by simp [Scope.clocked, hx.2.1], hx.2.2⟩
  alive := h.alive
  stops := h.stops

/-- The scope of a command on the node of a path text. -/
def Bunch.scopeAt (b : Bunch) (path : List String) (scope : NodePath → Scope) : Scope :=
  ((b.findNode path).map scope).getD {}

/-- The scope of a command, from the state before it. -/
def Command.scope (b : Bunch) (s : State) : Command → Scope
  | init path _ _ _ | abort path _ _ _ | run path _ =>
    b.scopeAt path fun p => b.changeScope s p false false
  | complete path _ _ => b.scopeAt path fun p => b.changeScope s p true false
  | force path status recursive => b.scopeAt path fun p =>
      b.changeScope s p (!b.isTask p || status ≤ .complete) recursive
  | event path _ _ _ _ | meter path _ _ _ _ _ | forceEvent path _ _ =>
    b.scopeAt path fun p => { touched := (· = p) }
  | requeue path => b.scopeAt path fun p => .below p true
  | suspend path => b.scopeAt path fun p => { suspended := (· = p) }
  | begin _ _ _ _ => .everything
  | resume _ | freeDep _ _ | serverHalt | serverResume | deleteInLimit _ _ => {}

section Commands

variable {b : Bunch}

/-- A status change on a task that was found stays inside the scope of the command. -/
private theorem keeps_change {path : List String} (completes : NodePath → Bool)
    {p : NodePath} {t : Tree} (hp : b.findNode path = some p) (hb : b.node? p = some t)
    (ht : t.isTask = true) {α : Type} {m : M α}
    (h : ∀ {K : Scope} {Alive : NodePath → Prop}, K.Covers b s Alive p →
      (¬ Alive p → b.node? p = some t ∧ t.isTask = true) → (completes p = true → Alive p) →
        Keeps (Beyond K s) m) :
    let K := b.scopeAt path fun p => b.changeScope s p (completes p) false
    Adopts (Beyond K s) p ∧ Keeps (Beyond K s) m := by
  have hcovers := b.changeScope_covers s p (completes p) false
  simp only [Bunch.scopeAt, hp, Option.map_some, Option.getD_some]
  exact ⟨fun _ _ => (beyond_modifyTask (hcovers.way p List.suffix_rfl) _).since s,
    h hcovers (fun _ => ⟨hb, ht⟩) fun hc => ⟨hc, Bunch.mem_reach_self (Bunch.ne_nil_of_node? hb)⟩⟩

private theorem beyond_forceNode {Alive : NodePath → Prop} {p : NodePath} {t : Tree}
    {status : NodeStatus} {recursive : Bool} (hK : K.Covers b s Alive p) (hb : b.node? p = some t)
    (halive : t.isTask = false ∨ status ≤ .complete → Alive p)
    (hsinks : recursive = true → ∀ q, p <:+ q → K.touched q = true) :
    Keeps (Beyond K s) (forceNode b p t status recursive) := by
  have hp (hn : ¬ Alive p) : b.node? p = some t ∧ t.isTask = true :=
    ⟨hb, by simpa using mt (fun h => halive (.inl h)) hn⟩
  have hset : Keeps (Beyond K s) (setNodeStatus b p t status) :=
    (beyond_setNodeStatus hK hp fun hn => not_le.mp (mt (fun h => halive (.inr h)) hn)).post
      fun _ _ h => h.1
  refine Keeps.bind Keeps.get fun u => Keeps.ite (fun _ => Keeps.throw _) fun _ =>
    Keeps.ite (fun _ => Keeps.throw _) fun _ => Keeps.ite (fun _ => Keeps.throw _) fun _ =>
      Keeps.bind (Keeps.when fun _ => Keeps.forM fun x hx => ?_) fun _ =>
        Keeps.ite (fun hrec => Keeps.ite (fun _ => hset) fun ht => ?_) fun _ => hset
  · refine (beyond_clearCurrentAttempt ?_ x.2.kind).since s
    have hx := List.mem_of_mem_filter hx
    split_ifs at hx with hrec
    · exact hsinks hrec x.1 (Tree.suffix_of_mem_walk hx)
    · rw [List.mem_singleton.mp hx]
      exact hK.way p List.suffix_rfl
  · have ha := halive (.inl (by simpa using ht))
    refine Keeps.bind (Keeps.forM fun x hx => (beyond_setNodeStatusOnly
      (hsinks hrec x.1 (Tree.suffix_of_mem_walk hx)) x.2 status).since s) fun _ =>
        Keeps.bind (Keeps.forM fun x _ => (beyond_updateLimits x.1).since s) fun _ => ?_
    exact (beyond_handleStatusChange hK hp).conseq (fun u hu => ⟨hu, fun hn => absurd ha hn⟩)
      (fun _ _ h => h.1) fun _ _ h => h

/-- **A command changes what dependencies read inside its scope only**, returned or raised. -/
theorem Command.reads_scope (z : Option ZombieDetector) (s : State) (c : Command) :
    s.SameReads (c.scope b s) ((c.program b z).exec s).2 := by
  -- what stays inside the scope, and what changes nothing that dependencies read
  have hbeyond {K : Scope} {m : M Unit} (h : Keeps (Beyond K s) m) : s.SameReads K (m.exec s).2 :=
    (h.exec (.refl s)).reads
  have hreads {K : Scope} {m : M Unit} (h : Keeps (State.SameReads K s) m) :
      s.SameReads K (m.exec s).2 := h.exec (.refl s)
  unfold Command.program
  cases c with
  | init path taskId attemptId password =>
    exact hbeyond (keeps_commandInit fun p t hp hb ht => (keeps_change (fun _ => false) hp hb ht
      fun hK h _ => beyond_init hK h taskId).imp_right Keeps.given)
  | complete path attemptId password =>
    exact hbeyond (keeps_commandReport fun p t hp hb ht => keeps_change (fun _ => true) hp hb ht
      fun hK h halive => beyond_complete hK h (halive rfl))
  | abort path attemptId reason password =>
    exact hbeyond (keeps_commandReport fun p t hp hb ht => keeps_change (fun _ => false) hp hb ht
      fun hK h _ => beyond_abort hK h reason)
  | run path forced =>
    exact hbeyond (keeps_runNode fun p t hp hb ht => (keeps_change (fun _ => false) hp hb ht
      fun hK h _ => beyond_run hK h).2)
  | force path status recursive =>
    refine hbeyond (keeps_findBegun fun p t hp hb => ?_)
    simp only [Command.scope, Bunch.scopeAt, hp, Option.map_some, Option.getD_some]
    refine beyond_forceNode (b.changeScope_covers s p _ recursive) hb (fun h => ⟨?_,
      Bunch.mem_reach_self (Bunch.ne_nil_of_node? hb)⟩) fun hrec q hq => by
        simp [Bunch.changeScope, hrec, hq]
    simpa [Bunch.isTask, hb] using h
  | event path source name attemptId password =>
    refine hreads (keeps_commandSetVariable (fun p _ _ _ => (reads_modifyTask p _).since s)
      fun p t hp => Within.since (.ite (Within.get.bind fun _ => .bind (reads_modifyNode (.inl ?_))
        fun _ => .bind (.when (reads_notifyQueryChange _ _ _)) fun _ => .pure _) (.pure _)) s)
    simp [Command.scope, Bunch.scopeAt, hp]
  | meter path source name attemptId value password =>
    refine hreads (keeps_commandSetVariable (fun p _ _ _ => (reads_modifyTask p _).since s)
      fun p t hp => Within.since ?_ s)
    unfold setMeter
    split
    · exact .pure _
    · refine .ite (.throw _) (Within.get.bind fun _ => .bind (reads_modifyNode (.inl ?_))
        fun _ => .bind (.when (reads_notifyQueryChange _ _ _)) fun _ => .pure _)
      simp [Command.scope, Bunch.scopeAt, hp]
  | forceEvent path name value =>
    refine hreads (keeps_findBegun fun p t hp _ => Keeps.ite (fun _ => Within.since
      (Within.get.bind fun _ => .bind (reads_modifyNode (.inl ?_))
        fun _ => .when (reads_notifyQueryChange _ _ _)) s) fun _ => Keeps.throw _)
    simp [Command.scope, Bunch.scopeAt, hp]
  | requeue path =>
    refine hreads (keeps_findBegun fun p t hp _ => Within.since (fun u => ?_) s)
    simp only [Command.scope, Bunch.scopeAt, hp, Option.map_some, Option.getD_some]
    exact (below_requeue p t true u).reads
  | suspend path =>
    refine hreads (keeps_findNode fun p t hp _ => ?_)
    simp only [Command.scope, Bunch.scopeAt, hp, Option.map_some, Option.getD_some]
    exact (reads_suspend p).since s
  | resume path => exact hreads (keeps_findNode fun p t _ _ => (reads_resume p).since s)
  | freeDep path dep =>
    exact hreads (keeps_findBegun fun p t _ _ => (reads_freeDependencies p t dep).since s)
  | begin flow forced now realNow => exact .everything
  | serverHalt =>
    exact hreads (Within.since (Within.get.bind fun _ => .ite (.pure _)
      (.bind (.modify fun _ => .of_eq rfl rfl rfl) fun _ => reads_notifyQueryChange _ _ _)) s)
  | serverResume =>
    exact hreads (Within.since (Within.get.bind fun _ => .ite
      (.bind (.modify fun _ => .of_eq rfl rfl rfl) fun _ => reads_notifyQueryChange _ _ _)
      (.pure _)) s)
  | deleteInLimit path name =>
    refine hreads (keeps_findNode fun p t _ _ => Within.since (.bind (fun u => ?_) fun _ => .pure _) s)
    have h := sameNodes_deleteInLimit p t name u
    exact .of_eq h.node h.flow h.parameterValue

end Commands

/-! ### Visits -/

theorem exec_liftEval {α : Type} (e : Except Err α) (s : State) : (liftEval e).exec s = (e, s) := by
  cases e <;> rfl

/-- A program that goes on with the value of an evaluation. -/
private theorem exec_liftEval_bind {α β : Type} {e : Except Err α} {f : α → M β} {s s' : State}
    {x : β} (h : (liftEval e >>= f).exec s = (.ok x, s')) :
    ∃ a, e = .ok a ∧ (f a).exec s = (.ok x, s') := by
  rw [exec_bind, exec_liftEval] at h
  cases e with
  | error _ => cases h
  | ok a => exact ⟨a, rfl, h⟩

/-- A node whose check is passed is open, and the check has changed nothing. -/
theorem Node.checkDependencies_true {b : Bunch} {p : NodePath} {t : Tree} {s s' : State}
    (hb : b.node? p = some t) (h : (Node.checkDependencies b p t).exec s = (.ok true, s')) :
    s' = s ∧ World.isOpen ⟨b, s⟩ p = true := by
  rw [World.isOpen_iff hb]
  rw [Node.checkDependencies, exec_bind_of_ok (exec_get s)] at h
  by_cases hsuspended : (s.node p).suspended = true
  · rw [if_pos hsuspended] at h
    cases h
  rw [if_neg hsuspended] at h
  obtain ⟨timely, htimely, h⟩ := exec_liftEval_bind h
  cases timely with
  | false => cases h
  | true =>
    obtain ⟨completed, -, h⟩ := exec_liftEval_bind h
    cases completed with
    | true =>
      rw [if_pos rfl, exec_bind] at h
      split at h <;> cases h
    | false =>
      rw [if_neg Bool.false_ne_true, exec_liftEval] at h
      obtain ⟨htrigger, rfl⟩ := Prod.mk.inj h
      exact ⟨rfl, Bool.eq_false_of_not_eq_true hsuspended, htimely, htrigger⟩

/-- **A passed check**: the node is open, a task is queued, and nothing has changed. -/
theorem checkDependencies_true {b : Bunch} {p : NodePath} {t : Tree} {s s' : State}
    (hb : b.node? p = some t) (h : (checkDependencies b p t).exec s = (.ok true, s')) :
    s' = s ∧ World.isOpen ⟨b, s⟩ p = true ∧ (t.isTask = true → (s.node p).status = .queued) := by
  unfold checkDependencies at h
  by_cases ht : t.isTask = true
  · rw [if_pos ht, exec_bind_of_ok (exec_get s)] at h
    dsimp only at h
    split at h
    · cases h
    rename_i hstatus
    rw [exec_bind] at h
    rcases hc : (Node.checkDependencies b p t).exec s with ⟨_ | passed, s''⟩ <;> rw [hc] at h
    · cases h
    cases passed with
    | false => cases h
    | true =>
      obtain ⟨rfl, hopen⟩ := Node.checkDependencies_true hb hc
      dsimp only at h
      rw [if_pos rfl] at h
      split at h
      · cases h
      rename_i haborted
      rw [exec_bind_of_ok (exec_get _)] at h
      refine ⟨(Prod.mk.inj h).2.symm, hopen, fun _ => ?_⟩
      cases hq : (s''.node p).status <;> simp_all
  · rw [if_neg ht] at h
    obtain ⟨heq, hopen⟩ := Node.checkDependencies_true hb h
    exact ⟨heq, hopen, fun hn => absurd hn ht⟩

theorem resolveDependencies_task {b : Bunch} {p : NodePath} {t : Tree} (ht : t.isTask = true) :
    resolveDependencies b p t = (do
      if ← checkDependencies b p t then do
        let _ ← Task.run b p t
        return true
      else return false) := by
  obtain ⟨d, cs⟩ := t
  have hd : d.kind.isTask = true := ht
  rw [resolveDependencies, if_pos hd]

/-- The scope of a visit: it completes the node when the complete trigger holds, it runs a task that
is queued, and otherwise it changes nothing. -/
def World.visitScope (w : World) (p : NodePath) : Scope :=
  match w.bunch.node? p with
  | none => {}
  | some t =>
    if w.state.completes w.bunch p t then w.bunch.changeScope w.state p true false
    else if t.isTask ∧ (w.state.node p).status = .queued then
      w.bunch.changeScope w.state p false false
    else {}

theorem World.visitScope_completes {w : World} {p : NodePath} {t : Tree}
    (hp : w.bunch.node? p = some t) (hc : w.state.completes w.bunch p t = true) :
    ∃ Alive, (w.visitScope p).Covers w.bunch w.state Alive p ∧ Alive p := by
  simp only [World.visitScope, hp, hc, if_true]
  exact ⟨_, w.bunch.changeScope_covers w.state p true false, rfl,
    Bunch.mem_reach_self (Bunch.ne_nil_of_node? hp)⟩

theorem World.visitScope_queued {w : World} {p : NodePath} {t : Tree}
    (hp : w.bunch.node? p = some t) (ht : t.isTask = true)
    (hq : (w.state.node p).status = .queued) :
    ∃ Alive, (w.visitScope p).Covers w.bunch w.state Alive p := by
  by_cases hc : w.state.completes w.bunch p t = true
  · obtain ⟨Alive, h, -⟩ := w.visitScope_completes hp hc
    exact ⟨Alive, h⟩
  · simp only [World.visitScope, hp, if_neg hc, ht, hq, and_self, if_true]
    exact ⟨_, w.bunch.changeScope_covers w.state p false false⟩

/-- A visit stays inside its scope. -/
theorem World.beyond_visit {w : World} {p : NodePath} {t : Tree} (hp : w.bunch.node? p = some t) :
    Triple (· = w.state)
      (do let _ ← if t.isTask then resolveDependencies w.bunch p t else checkDependencies w.bunch p t
          pure ())
      (fun _ => Beyond (w.visitScope p) w.state) (fun _ => Beyond (w.visitScope p) w.state) := by
  have hcheck := beyond_checkDependencies (K := w.visitScope p) (.refl w.state)
    fun hc => w.visitScope_completes hp hc
  refine Triple.ite (fun ht => Triple.bind ?_ fun _ => Keeps.pure _) fun _ =>
    hcheck.bind fun _ => Keeps.pure _
  rw [resolveDependencies_task ht]
  -- a task whose check is passed is queued, and nothing has changed
  have hpassed : Triple (· = w.state) (checkDependencies w.bunch p t)
      (fun passed u => Beyond (w.visitScope p) w.state u ∧
        (passed = true → (w.state.node p).status = .queued))
      (fun _ => Beyond (w.visitScope p) w.state) := by
    rintro _ rfl
    have h := hcheck _ rfl
    rcases hx : (checkDependencies w.bunch p t).exec w.state with ⟨e | passed, u⟩ <;> rw [hx] at h
    · exact h
    · refine ⟨h, ?_⟩
      rintro rfl
      exact (checkDependencies_true hp hx).2.2 ht
  refine hpassed.bind fun passed => Triple.of_forall fun u hu => Triple.pre (P := Beyond _ w.state)
    (Keeps.ite (fun h => ?_) fun _ => Keeps.pure _) fun _ hv => hv ▸ hu.1
  obtain ⟨Alive, hK⟩ := w.visitScope_queued hp ht (hu.2 h)
  exact Keeps.bind (beyond_run hK fun _ => ⟨hp, ht⟩) fun _ => Keeps.pure _

/-! ### Steps -/

/-- The scope of a step, from the world before it. -/
def Action.scope (w : World) : Action → Scope
  | command _ c => c.scope w.bunch w.state
  | visit p => w.visitScope p
  | updateCalendar flow _ => Scope.clocked {} flow
  | jobFailure x _ _ _ | jobSkipped x => w.bunch.changeScope w.state x.path false false
  | parameter p _ _ => { touched := (· = p) }
  | relink _ => {}
  | resolve _ | load _ _ _ _ | replace _ _ _ _ _ _ => .everything

/-- **A step changes what dependencies read inside its scope only.** -/
theorem Action.reads_scope {w w' : World} {a : Action} (h : w.step a = some w') :
    w.state.SameReads (a.scope w) w'.state := by
  rcases World.step_cases h with ⟨moved, rfl, rfl⟩ | ⟨f, wf, isFlow, generation, rfl, -⟩ |
    ⟨f, wf, isFlow, generation, now, realNow, rfl, -⟩ | ⟨m, hm, rfl⟩
  · exact .of_eq rfl rfl rfl
  · exact .everything
  · exact .everything
  cases a with
  | command z c =>
    cases hm
    exact c.reads_scope z w.state
  | visit p =>
    simp only [Action.program] at hm
    split_ifs at hm
    obtain ⟨t, hb, rfl⟩ := Option.map_eq_some_iff.mp hm
    exact Beyond.reads ((w.beyond_visit hb).exec rfl)
  | resolve flow => exact .everything
  | updateCalendar flow now =>
    simp only [Action.program] at hm
    split_ifs at hm
    obtain ⟨t, hb, rfl⟩ := Option.map_eq_some_iff.mp hm
    have hname : t.name = flow := by simpa using (Bunch.head?_of_node? hb).symm
    exact (beyond_updateCalendar (fun q hq => by simp [Action.scope, Scope.clocked, hq, hname]) now
      w.state).reads
  | jobFailure x submissionError reason hr =>
    simp only [Action.program] at hm
    split_ifs at hm
    obtain ⟨t, ht, rfl⟩ := Option.map_eq_some_iff.mp hm
    obtain ⟨hb, hk⟩ := Option.filter_eq_some_iff.mp ht
    have hK := w.bunch.changeScope_covers w.state x.path false false
    have htask : t.isTask = true := by simp [Tree.isTask, of_decide_eq_true hk, NodeKind.isTask]
    refine Beyond.reads (Keeps.exec (I := Beyond _ w.state) ?_ (.refl _))
    refine Keeps.bind Keeps.get fun _ => Keeps.ite (fun _ => Keeps.ite (fun _ => Keeps.ite
      (fun _ => Keeps.pure _) fun _ => Within.since ?_ _) fun _ =>
        beyond_abort hK (fun _ => ⟨hb, htask⟩) reason) fun _ => Keeps.pure _
    exact Within.get.bind fun _ => .ite (.throw _) (.ite ((beyond_modifyTask
      (hK.way _ List.suffix_rfl) _).bind fun _ => beyond_notifyQueryChange _ _ _) (.pure _))
  | jobSkipped x =>
    simp only [Action.program] at hm
    split_ifs at hm
    obtain ⟨t, ht, rfl⟩ := Option.map_eq_some_iff.mp hm
    obtain ⟨hb, hk⟩ := Option.filter_eq_some_iff.mp ht
    have htask : t.isTask = true := by simp [Tree.isTask, of_decide_eq_true hk, NodeKind.isTask]
    exact Beyond.reads (Keeps.exec (I := Beyond _ w.state) (Keeps.bind Keeps.get fun _ => Keeps.ite
      (fun _ => beyond_abort (w.bunch.changeScope_covers w.state x.path false false)
        (fun _ => ⟨hb, htask⟩) _) fun _ => Keeps.pure _) (.refl _))
  | parameter p name value =>
    cases hm
    refine ⟨fun _ _ h => h, fun q hq => ⟨rfl, ?_⟩, fun _ _ => rfl, fun _ _ => ⟨id, fun _ => id⟩⟩
    have hqp : q ≠ p := by simpa [Action.scope] using hq
    exact Function.update_of_ne hqp _ _
  | relink _ | load _ _ _ _ | replace _ _ _ _ _ _ => cases hm

/-- **A step leaves a node open whose dependencies read nothing in its scope.** -/
theorem World.isOpen_of_step {w w' : World} {a : Action} (h : w.step a = some w') {q : NodePath}
    (hs : w.spares (a.scope w) q = true) (hq : w.isOpen q = true) : w'.isOpen q = true := by
  have hsuspended : (a.scope w).suspended q = false := by
    simp only [World.spares, Bool.and_eq_true, Bool.not_eq_true'] at hs
    exact hs.1
  have hbunch : w'.bunch = w.bunch := by
    rcases World.step_cases h with ⟨moved, rfl, rfl⟩ | ⟨f, wf, isFlow, generation, rfl, -⟩ |
      ⟨f, wf, isFlow, generation, now, realNow, rfl, -⟩ | ⟨m, hm, rfl⟩
    · rfl
    · cases hsuspended
    · cases hsuspended
    · rfl
  exact w.isOpen_of_spares (by rw [hbunch]) (fun _ _ => by rw [hbunch]) (Action.reads_scope h) hs hq

end Takler
