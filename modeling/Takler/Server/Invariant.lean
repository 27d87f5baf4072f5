import Takler.Server.Force

/-!
# Commands keep the invariants

Every command of a client and every other step that keeps the flows keeps an invariant that is
`Sustained`, given that the invariant also stands a force and the two writes that only commands
make.

## Main definitions

* `ServerSustained`: what it has to stand so that all commands do.
* `Command.Fits`, `Action.Fits`: the commands that requeue have a target that is fit.
* `World.Spares`, `World.KeepsPaths`: no file moves away from a path that a task has recorded.

## Main results

* `keeps_commandInit`, `keeps_commandReport`, `keeps_commandSetVariable`: child commands, up to what
  they report.
* `ServerStable.sustained`: a stable invariant is sustained.
* `ServerSustained.command`: every command.
* `ServerSustained.action`: every step that keeps the flows.
-/

namespace Takler

open Program

/-- The conditions under which all commands keep `J`. -/
structure ServerSustained (b : Bunch) (J : State → Prop) (Ready : NodePath → State → Prop)
    (Fit : NodePath → Tree → State → Prop) : Prop extends Sustained b J Ready Fit where
  /-- A force. -/
  forceNode {p : NodePath} {t : Tree} {st : NodeStatus} {recursive : Bool} :
    b.node? p = some t → Keeps J (forceNode b p t st recursive)
  /-- A password of a call is taken over. -/
  adopt {p : NodePath} {password : Option String} : b.isTask p = true →
    notBlank (password.getD "") = true →
    Keeps J (modifyTask p fun k => { k with jobPassword := password })
  /-- An in-limit is deleted. -/
  deleteInLimit {p : NodePath} {t : Tree} {name : String} : b.node? p = some t →
    Keeps J (deleteInLimit p t name)

theorem ServerStable.sustained {b : Bunch} {I : Set NodePath → State → Prop}
    {Ready : NodePath → State → Prop} (h : ServerStable b I Ready) :
    ServerSustained b (I ∅) Ready fun _ _ _ => True where
  toSustained := h.toStable.sustained
  forceNode hb := h.forceNode hb _
  adopt hbt hn := h.adopt hbt hn
  deleteInLimit hb := h.deleteInLimit hb

/-- The target of a command that requeues is fit. -/
def Command.Fits (Fit : NodePath → Tree → State → Prop) (b : Bunch) (s : State) : Command → Prop
  | requeue path => ∀ p ∈ b.findNode path, ∀ t ∈ b.node? p, Fit p t s
  | begin flow _ _ _ => ∀ t ∈ b.node? [flow], Fit [flow] t s
  | _ => True

instance {Fit : NodePath → Tree → State → Prop} [∀ p t s, Decidable (Fit p t s)] (b : Bunch)
    (s : State) : ∀ c : Command, Decidable (c.Fits Fit b s)
  | .requeue path => inferInstanceAs (Decidable (∀ p ∈ b.findNode path, ∀ t ∈ b.node? p, Fit p t s))
  | .begin flow _ _ _ => inferInstanceAs (Decidable (∀ t ∈ b.node? [flow], Fit [flow] t s))
  | .init _ _ _ _ | .complete _ _ _ | .abort _ _ _ _ | .event _ _ _ _ _ | .meter _ _ _ _ _ _
  | .suspend _ | .resume _ | .run _ _ | .force _ _ _ | .forceEvent _ _ _ | .freeDep _ _
  | .serverHalt | .serverResume | .deleteInLimit _ _ => .isTrue trivial

/-- The target of a command that requeues is fit. -/
def Action.Fits (Fit : NodePath → Tree → State → Prop) (b : Bunch) (s : State) : Action → Prop
  | command _ c => c.Fits Fit b s
  | _ => True

/-! ### Looking up nodes -/

theorem findNodeOrRaise_triple (b : Bunch) (parts : List String) (P : State → Prop) :
    Triple P (findNodeOrRaise b parts)
      (fun x s => P s ∧ b.findNode parts = some x.1 ∧ b.node? x.1 = some x.2) (fun _ => P) := by
  unfold findNodeOrRaise
  split
  · rename_i x hx
    refine Triple.pure fun s hs => ⟨hs, ?_⟩
    obtain ⟨p, hp, hx⟩ := Option.bind_eq_some_iff.mp hx
    obtain ⟨t, ht, rfl⟩ := Option.map_eq_some_iff.mp hx
    exact ⟨hp, ht⟩
  · exact Triple.throw fun s hs => hs

theorem findTaskOrRaise_triple (b : Bunch) (parts : List String) (P : State → Prop) :
    Triple P (findTaskOrRaise b parts)
      (fun x s => P s ∧ b.findNode parts = some x.1 ∧ b.node? x.1 = some x.2 ∧ x.2.isTask = true)
      (fun _ => P) := by
  refine Triple.bind ((findNodeOrRaise_triple b parts P)) fun x =>
    Triple.ite (fun ht => Triple.pure fun s hs => ⟨hs.1, hs.2.1, hs.2.2, ht⟩)
      fun _ => Triple.throw fun s hs => hs.1

/-! ### Checks -/

theorem reads_findNodeOrRaise (b : Bunch) (parts : List String) :
    Within Eq (findNodeOrRaise b parts) := by
  unfold findNodeOrRaise
  split
  · exact Within.pure _
  · exact Within.throw _

theorem reads_findTaskOrRaise (b : Bunch) (parts : List String) :
    Within Eq (findTaskOrRaise b parts) :=
  (reads_findNodeOrRaise b parts).bind fun _ => .ite (.pure _) (.throw _)

theorem reads_validateAttemptId (attemptId : String) : Within Eq (validateAttemptId attemptId) :=
  .ite (.throw _) (.ite (.pure _) (.throw _))

theorem reads_guardAttempt (p : NodePath) (attemptId : String) :
    Within Eq (guardAttempt p attemptId) :=
  (reads_validateAttemptId attemptId).bind fun _ => Within.get.bind fun _ => .ite (.pure _) (.throw _)

theorem reads_requireBegun (p : NodePath) : Within Eq (requireBegun p) :=
  Within.get.bind fun _ => .ite (.pure _) (.throw _)

theorem quiet_forceEvent (p : NodePath) (name : String) (value : Bool) :
    Within State.Quiet (forceEvent p name value) :=
  Within.get.bind fun _ => .bind (quiet_modifyNode p (fun _ => rfl) (fun _ => rfl) fun _ => .refl _) fun _ =>
    .when (quiet_notifyQueryChange p _ _)

section Checks

variable {b : Bunch} {J : State → Prop}

/-- What passes `guardAttempt` is in flight. -/
theorem guardAttempt_triple (p : NodePath) (attemptId : String) :
    Triple J (guardAttempt p attemptId)
      (fun _ s => J s ∧ (s.node p).status.inFlight = true) (fun _ => J) := by
  refine Triple.bind (reads_validateAttemptId attemptId).always fun _ =>
    Triple.get_bind fun s hs => Triple.ite (fun hc => Triple.pure ?_)
      fun _ => Triple.throw fun _ hu => hu ▸ hs
  rintro _ rfl
  exact ⟨hs, hc.2⟩

/-- A command that finds a node and goes on with it. -/
theorem keeps_findNode {parts : List String} {f : NodePath × Tree → M Unit}
    (h : ∀ p t, b.findNode parts = some p → b.node? p = some t → Keeps J (f (p, t))) :
    Keeps J (findNodeOrRaise b parts >>= f) := by
  refine (findNodeOrRaise_triple b parts J).bind ?_
  rintro ⟨p, t⟩
  exact Triple.of_forall fun s ⟨hs, hp, hb⟩ => (h p t hp hb).pre fun _ hu => hu ▸ hs

/-- So does one on a node of a flow that has begun. -/
theorem keeps_findBegun {parts : List String} {f : NodePath × Tree → M Unit}
    (h : ∀ p t, b.findNode parts = some p → b.node? p = some t → Keeps J (f (p, t))) :
    Keeps J (findNodeOrRaise b parts >>= fun x => requireBegun x.1 >>= fun _ => f x) :=
  keeps_findNode fun p t hp hb => Keeps.bind (reads_requireBegun p).always fun _ => h p t hp hb

/-! ### Child commands -/

/-- A password of a call may be taken over. -/
def Adopts (J : State → Prop) (p : NodePath) : Prop :=
  ∀ password : Option String, notBlank (password.getD "") = true →
    Keeps J (modifyTask p fun k => { k with jobPassword := password })

/-- The zombie check of a task in flight: it may take over a password. -/
theorem guardChildCommand_triple {p : NodePath} (h : Adopts J p) (z : Option ZombieDetector)
    (command : String) (init password : Option String) :
    Triple (fun s => J s ∧ (s.node p).status.inFlight = true)
      (guardChildCommand z p command init password)
      (fun _ s => J s ∧ (s.node p).status.inFlight = true) (fun _ => J) := by
  refine Triple.get_bind fun s hs => ?_
  have hsame (r : Bool) : Triple (· = s) (pure r : M Bool)
      (fun _ s => J s ∧ (s.node p).status.inFlight = true) (fun _ => J) :=
    Triple.pure fun _ hu => hu ▸ hs
  cases z with
  | none => exact hsame true
  | some z =>
    cases hz : z.detect (s.node p) init password with
    | none => simpa only [hz] using hsame true
    | some condition =>
      simp only [hz]
      cases z.policy with
      | fail => exact Triple.throw fun _ hu => hu ▸ hs.1
      | fob => exact hsame false
      | adopt =>
        refine Triple.bind ?_ fun _ => Triple.pure fun _ hu => hu
        refine Triple.when (fun hn => ?_) fun _ u hu => hu ▸ hs
        refine ((h password hn).and (Triple.modify (P := fun u => u = s)
          (Q := fun _ u => (u.node p).status.inFlight = true) (E := fun _ _ => True) ?_)).conseq
          (fun u hu => ⟨hu ▸ hs.1, hu⟩) (fun _ _ hu => hu) fun _ _ hu => hu.1
        rintro u rfl
        simpa using hs.2

/-- A child command on a task comes to its report with the task in flight. -/
private theorem keeps_findTask {parts : List String} {attemptId : String}
    {f : NodePath × Tree → M Unit}
    (h : ∀ p t, b.findNode parts = some p → b.node? p = some t → t.isTask = true →
      Triple (fun s => J s ∧ (s.node p).status.inFlight = true) (f (p, t)) (fun _ => J)
        (fun _ => J)) :
    Keeps J (do
      validateAttemptId attemptId
      let x ← findTaskOrRaise b parts
      guardAttempt x.1 attemptId
      f x) := by
  refine Keeps.bind (reads_validateAttemptId attemptId).always fun _ =>
    (findTaskOrRaise_triple b parts J).bind ?_
  rintro ⟨p, t⟩
  exact Triple.of_forall fun s ⟨hs, hp, hb, ht⟩ => Triple.pre
    ((guardAttempt_triple p attemptId).bind fun _ => h p t hp hb ht) fun _ hu => hu ▸ hs

variable {z : Option ZombieDetector} {parts source : List String} {command attemptId : String}
  {password : Option String}

theorem keeps_commandInit {taskId : String}
    (h : ∀ p t, b.findNode parts = some p → b.node? p = some t → t.isTask = true → Adopts J p ∧
      Triple (fun s => J s ∧ (s.node p).status.inFlight = true) (Task.init b p t taskId)
        (fun _ => J) (fun _ => J)) :
    Keeps J (commandInit b z parts taskId attemptId password) := by
  refine keeps_findTask fun p t hp hb ht => Triple.get_bind fun s hs => Triple.ite (fun _ => ?_)
    fun _ => ?_
  · exact Triple.ite (fun _ => Triple.throw fun _ hu => hu ▸ hs.1) fun _ =>
      Triple.ite (fun _ => Triple.throw fun _ hu => hu ▸ hs.1) fun _ =>
        Triple.pure fun _ hu => hu ▸ hs.1
  · obtain ⟨hadopt, hinit⟩ := h p t hp hb ht
    exact Triple.pre (Triple.bind (guardChildCommand_triple hadopt z _ _ _) fun _ =>
      Triple.ite (fun _ => hinit) fun _ => Triple.pure fun _ hs => hs.1) fun _ hu => hu ▸ hs

/-- A report that keeps the invariant. -/
theorem keeps_commandReport {report : NodePath → Tree → M Unit}
    (h : ∀ p t, b.findNode parts = some p → b.node? p = some t → t.isTask = true →
      Adopts J p ∧ Keeps J (report p t)) :
    Keeps J (commandReport b z parts command attemptId password report) :=
  keeps_findTask fun p t hp hb ht =>
    (guardChildCommand_triple (h p t hp hb ht).1 z _ _ _).bind fun _ => Triple.ite
      (fun _ => Triple.pre (h p t hp hb ht).2 fun _ hs => hs.1) fun _ => Triple.pure fun _ hs => hs.1

/-- The task that reports an event or a meter is a task of the bunch, and in flight. -/
theorem guardChildTarget_triple (target : NodePath) :
    Triple J (guardChildTarget b target source attemptId)
      (fun p s => (J s ∧ (s.node p).status.inFlight = true) ∧ b.isTask p = true)
      (fun _ => J) := by
  refine Triple.ite (fun _ => Triple.throw fun _ hs => hs) fun _ => ?_
  split
  · exact Triple.throw fun _ hs => hs
  · rename_i p hp
    exact Triple.ite (fun _ => Triple.throw fun _ hs => hs) fun _ =>
      (guardAttempt_triple p attemptId).bind fun _ =>
        Triple.pure fun _ hs => ⟨hs, (Option.filter_eq_some_iff.mp hp).2⟩

theorem keeps_commandSetVariable {setting : NodePath → Tree → M Bool}
    (hadopt : ∀ p, b.isTask p = true → Adopts J p)
    (h : ∀ p t, b.findNode parts = some p → Keeps J (setting p t)) :
    Keeps J (commandSetVariable b z parts source command attemptId password setting) := by
  refine Keeps.bind (reads_validateAttemptId attemptId).always fun _ => keeps_findNode
    fun p t hp _ => (guardChildTarget_triple p).bind fun src => ?_
  refine Triple.of_forall fun s ⟨hs, hbt⟩ => Triple.pre ?_ fun _ hu => hu ▸ hs
  refine (guardChildCommand_triple (hadopt src hbt) z _ _ _).bind fun _ => Triple.ite
    (fun _ => ?_) fun _ => Triple.pure fun _ hs => hs.1
  exact Triple.pre (Keeps.bind (h p t hp) fun _ => Keeps.pure _) fun _ hs => hs.1

/-- A run on request. -/
theorem keeps_runNode {force : Bool}
    (h : ∀ p t, b.findNode parts = some p → b.node? p = some t → t.isTask = true →
      Keeps J (Task.run b p t)) : Keeps J (runNode b parts force) := by
  refine keeps_findBegun fun p t hp hb => Keeps.ite (fun ht => Keeps.bind ?_ fun _ =>
    Keeps.bind Keeps.get fun _ => Keeps.ite (fun _ => Keeps.throw _) fun _ =>
      Keeps.bind (h p t hp hb ht) fun _ => Keeps.ite (fun _ => Keeps.pure _) fun _ => Keeps.throw _)
    fun _ => Keeps.throw _
  exact Keeps.bind Keeps.get fun _ => Keeps.ite (fun _ => Keeps.throw _) fun _ =>
    Keeps.ite (fun _ => Keeps.throw _) fun _ => Keeps.pure _

end Checks

namespace ServerSustained

variable {b : Bunch} {J : State → Prop} {Ready : NodePath → State → Prop}
  {Fit : NodePath → Tree → State → Prop}

theorem adopts (h : ServerSustained b J Ready Fit) {p : NodePath} (hp : b.isTask p = true) :
    Adopts J p := fun _ hn => h.adopt hp hn

private theorem quiet_service {f : State → State} (hn : ∀ s, (f s).node = s.node)
    (hl : ∀ s, (f s).limit = s.limit) (hi : ∀ s, (f s).inLimits = s.inLimits)
    (hf : ∀ s, (f s).flow = s.flow) (hm : ∀ s, (f s).moved = s.moved)
    (hd : ∀ s : State, s.Draws (f s)) : Within State.Quiet (modify f : M PUnit) :=
  Within.modify fun s => .of_eq (hn s) (hl s) (hi s) (hf s) (hm s) (hd s)

theorem commandRequeue (h : ServerSustained b J Ready Fit) (path : List String)
    (z : Option ZombieDetector) :
    Triple (fun s => J s ∧ (Command.requeue path).Fits Fit b s)
      ((Command.requeue path).program b z) (fun _ => J) (fun _ => J) := by
  refine Triple.bind ((findNodeOrRaise_triple b path _).conseq (fun _ hs => hs) (fun _ _ hs => hs)
    fun _ _ hs => hs.1) ?_
  rintro ⟨p, t⟩
  refine Triple.of_forall fun s ⟨⟨hs, hfit⟩, hp, hb⟩ => Triple.pre (P := fun s => J s ∧ Fit p t s)
    ?_ fun _ hu => hu ▸ ⟨hs, hfit p hp t hb⟩
  have hbegun : Keeps (fun s => J s ∧ Fit p t s) (requireBegun p) := (reads_requireBegun p).always
  exact Triple.bind (hbegun.conseq (fun _ hs => hs) (fun _ _ hs => hs) fun _ _ hs => hs.1)
    fun _ => h.requeue hb

theorem commandBegin (h : ServerSustained b J Ready Fit) (flow : String) (forced : Bool)
    (now realNow : ℤ) (z : Option ZombieDetector) :
    Triple (fun s => J s ∧ (Command.begin flow forced now realNow).Fits Fit b s)
      ((Command.begin flow forced now realNow).program b z) (fun _ => J) (fun _ => J) := by
  simp only [Command.program]
  split
  · exact Triple.throw fun _ hs => hs.1
  · rename_i t hb
    have hname : [flow] = [t.name] := by simpa using Bunch.head?_of_node? hb
    rw [hname] at hb
    exact (h.begin hb forced now realNow).pre fun s hs => ⟨hs.1, hname ▸ hs.2 t (hname ▸ hb)⟩

/-- **Every command keeps the invariant**, whether it succeeds or raises. -/
theorem command (h : ServerSustained b J Ready Fit) (z : Option ZombieDetector) (c : Command) :
    Triple (fun s => J s ∧ c.Fits Fit b s) (c.program b z) (fun _ => J) (fun _ => J) := by
  unfold Command.program
  cases c with
  | init path taskId attemptId password =>
    exact Keeps.given (keeps_commandInit fun p t _ hb ht =>
      ⟨h.adopts ((Bunch.isTask_of_node? hb).trans ht), h.runSustained.init hb ht taskId⟩)
  | complete path attemptId password =>
    exact Keeps.given (keeps_commandReport fun p t _ hb ht =>
      ⟨h.adopts ((Bunch.isTask_of_node? hb).trans ht), h.complete hb⟩)
  | abort path attemptId reason password =>
    exact Keeps.given (keeps_commandReport fun p t _ hb ht =>
      ⟨h.adopts ((Bunch.isTask_of_node? hb).trans ht), h.runSustained.abort hb reason⟩)
  | event path source name attemptId password =>
    exact Keeps.given (keeps_commandSetVariable (fun _ hp => h.adopts hp) fun p t _ =>
      h.keeps_quiet (quiet_setEvent p t name true))
  | meter path source name attemptId value password =>
    exact Keeps.given (keeps_commandSetVariable (fun _ hp => h.adopts hp) fun p t _ =>
      h.keeps_quiet (quiet_setMeter p t name value))
  | requeue path => exact h.commandRequeue path z
  | suspend path => exact Keeps.given (keeps_findNode fun p t _ _ => h.keeps_quiet (quiet_suspend p))
  | resume path => exact Keeps.given (keeps_findNode fun p t _ _ => h.keeps_quiet (quiet_resume p))
  | run path forced => exact Keeps.given (keeps_runNode fun p t _ hb ht => h.run hb ht)
  | force path status recursive =>
    exact Keeps.given (keeps_findBegun fun p t _ hb => h.forceNode hb)
  | forceEvent path name value =>
    exact Keeps.given (keeps_findBegun fun p t _ _ =>
      .ite (fun _ => h.keeps_quiet (quiet_forceEvent p name value)) fun _ => .throw _)
  | freeDep path dep =>
    exact Keeps.given (keeps_findBegun fun p t _ _ => h.keeps_quiet (quiet_freeDependencies p t dep))
  | begin flow forced now realNow => exact h.commandBegin flow forced now realNow z
  | serverHalt =>
    exact Keeps.given (Keeps.get.bind fun _ => .ite (fun _ => .pure _) fun _ =>
      .bind (h.keeps_quiet (quiet_service (fun _ => rfl) (fun _ => rfl) (fun _ => rfl)
        (fun _ => rfl) (fun _ => rfl) fun _ => ⟨rfl, le_rfl⟩)) fun _ =>
          h.keeps_quiet (quiet_notifyQueryChange _ _ _))
  | serverResume =>
    exact Keeps.given (Keeps.get.bind fun _ => .ite
      (fun _ => .bind (h.keeps_quiet (quiet_service (fun _ => rfl) (fun _ => rfl) (fun _ => rfl)
        (fun _ => rfl) (fun _ => rfl) fun _ => ⟨rfl, le_rfl⟩)) fun _ =>
          h.keeps_quiet (quiet_notifyQueryChange _ _ _)) fun _ => .pure _)
  | deleteInLimit path name =>
    exact Keeps.given (keeps_findNode fun p t _ hb => Keeps.bind (h.deleteInLimit hb) fun _ => .pure _)

/-- **Every step that keeps the flows keeps the invariant.** -/
theorem action (h : ServerSustained b J Ready Fit) {s : State} {a : Action} {m : M Unit}
    (hm : a.program b s = some m) :
    Triple (fun u => J u ∧ a.Fits Fit b u) m (fun _ => J) (fun _ => J) := by
  cases a with
  | command z c =>
    cases hm
    exact h.command z c
  | visit p =>
    simp only [Action.program] at hm
    split_ifs at hm
    obtain ⟨t, hb, rfl⟩ := Option.map_eq_some_iff.mp hm
    exact Keeps.given (Keeps.ite (fun _ => Keeps.bind (h.runSustained.resolveDependencies hb) fun _ => .pure _)
      fun _ => Keeps.bind (h.runSustained.checkDependencies hb) fun _ => .pure _)
  | resolve flow =>
    simp only [Action.program] at hm
    split_ifs at hm
    obtain ⟨t, hb, rfl⟩ := Option.map_eq_some_iff.mp hm
    exact Keeps.given (Keeps.bind (h.runSustained.resolveDependencies hb) fun _ => .pure _)
  | updateCalendar flow now =>
    simp only [Action.program] at hm
    split_ifs at hm
    obtain ⟨t, hb, rfl⟩ := Option.map_eq_some_iff.mp hm
    exact Keeps.given (h.keeps_quiet (quiet_updateCalendar t now))
  | jobFailure x submissionError reason hr =>
    simp only [Action.program] at hm
    split_ifs at hm
    obtain ⟨t, ht, rfl⟩ := Option.map_eq_some_iff.mp hm
    obtain ⟨hb, hk⟩ := Option.filter_eq_some_iff.mp ht
    exact Keeps.given (h.onFailure hb
      (by simp [Tree.isTask, of_decide_eq_true hk, NodeKind.isTask]) submissionError hr)
  | jobSkipped x =>
    simp only [Action.program] at hm
    split_ifs at hm
    obtain ⟨t, ht, rfl⟩ := Option.map_eq_some_iff.mp hm
    exact Keeps.given (h.onSkipped (Option.filter_eq_some_iff.mp ht).1)
  | parameter p name value =>
    cases hm
    exact Keeps.given (h.keeps_quiet (quiet_service (fun _ => rfl) (fun _ => rfl) (fun _ => rfl)
      (fun _ => rfl) (fun _ => rfl) fun _ => ⟨rfl, le_rfl⟩))
  | relink _ => cases hm
  | load _ _ _ _ => cases hm
  | replace _ _ _ _ _ _ => cases hm

end ServerSustained

theorem ServerStable.action {b : Bunch} {I : Set NodePath → State → Prop}
    {Ready : NodePath → State → Prop} (h : ServerStable b I Ready) {s : State} {a : Action}
    {m : M Unit} (hm : a.program b s = some m) : Keeps (I ∅) m := by
  refine (h.sustained.action hm).pre fun u hu => ⟨hu, ?_⟩
  cases a with
  | command z c => cases c <;> simp [Action.Fits, Command.Fits]
  | _ => trivial

/-! ### Recorded paths -/

/-- None of the paths that the tasks have recorded is among those that move. -/
def World.Spares (w : World) (moved : NodePath → String → Bool) : Prop :=
  ∀ f ∈ w.bunch.flows, ∀ x ∈ f.walk [f.name], x.2.isTask = true →
    ∀ path ∈ (w.state.node x.1).task.paths, moved x.1 path = false

instance (w : World) (moved : NodePath → String → Bool) : Decidable (w.Spares moved) :=
  inferInstanceAs (Decidable (∀ f ∈ w.bunch.flows, ∀ x ∈ f.walk [f.name], x.2.isTask = true →
    ∀ path ∈ (w.state.node x.1).task.paths, moved x.1 path = false))

theorem World.Spares.forgettable {w : World} {moved : NodePath → String → Bool}
    (h : w.Spares moved) : w.bunch.Forgettable (w.relink moved).state := by
  rintro f hf x hx ht ⟨path, hpath, hmoved⟩
  exact absurd hmoved (Bool.eq_false_iff.mp (h f hf x hx ht path hpath))

/-- A file that moves leaves every path that a task has recorded where the index finds it. -/
def World.KeepsPaths (w : World) : Action → Prop
  | .relink moved => w.Spares moved
  | _ => True

instance (w : World) : ∀ a : Action, Decidable (w.KeepsPaths a)
  | .relink moved => inferInstanceAs (Decidable (w.Spares moved))
  | .load _ _ _ _ | .replace _ _ _ _ _ _ | .command _ _ | .visit _ | .resolve _
  | .updateCalendar _ _ | .jobFailure _ _ _ _ | .jobSkipped _ | .parameter _ _ _ => .isTrue trivial

/-- The tasks of a flow that was just built have recorded no path. -/
theorem Bunch.Forgettable.install {b b' : Bunch} {s : State} (h : b.Forgettable s) {f : Tree}
    (hnode : ∀ p, flowName p ≠ f.name → b'.node? p = b.node? p) (generation : String) :
    b'.Forgettable (s.install b' f generation) := by
  rw [Bunch.forgettable_iff] at h ⊢
  intro p hp
  by_cases hn : flowName p = f.name
  · obtain ⟨t, hb, -⟩ := Bunch.exists_of_isTask hp
    rintro ⟨x, hx, -⟩
    simp [State.install, hn, hb, TaskState.paths] at hx
  · have hp' : b.isTask p = true := by rwa [Bunch.isTask, hnode p hn] at hp
    simpa [State.IsMoved, State.install, hn] using h p hp'

theorem Bunch.Forgettable.load {w w' : World} (h : w.bunch.Forgettable w.state) {f : Tree}
    {wf : f.WF} {isFlow : f.kind = .flow} {generation : String}
    (hw : w.load f wf isFlow generation = some w') : w'.bunch.Forgettable w'.state := by
  obtain ⟨fresh, marks, rfl⟩ := World.load_eq_some hw
  exact (h.install (fun p hp => Bunch.node?_addFlow wf isFlow fresh hp) generation).indexKept
    (.of_eq rfl rfl)

end Takler
