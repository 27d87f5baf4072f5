import Takler.Server.AggregateStatus
import Takler.Server.AttemptIsolation

/-!
# Rejected reports

A report of a job that is answered with an error should leave the tree as it was. Almost all checks
of the five commands come before anything is written. Two writes come before a check. The policy
`adopt` takes the password of the call over, and then a meter may refuse its value. And a completion
swims up to repeats that advance: a repeat whose next date is past the last date of the calendar
raises halfway, and so does one that requeues a task whose recorded paths cannot be forgotten. An
unknown submission never stops the completion wave: it would be below a node that is complete.

## Main definitions

* `StaysInCalendar`: the steps after which all repeats end before the calendar does and all recorded
  paths can be forgotten.
* `Command.AdoptsBeforeRefusal`: a meter report that takes a password over and is refused.

## Main results

* `Aggregated.complete`, `Aggregated.init`, `Aggregated.abort`: reports that pass the checks return.
* `reflects_of_reachable`: the invariant of the run that lets them return.
-/

namespace Takler

open Program

variable {b : Bunch} {s : State} {p : NodePath} {t : Tree}

/-! ### Reports that pass the checks -/

section Reports

variable {R : NodeStatus → NodeStatus → Prop} {P : State → Prop} {α : Type}

/-- The statuses are in order, and the submission of the task is not unknown. -/
private def Known (R : NodeStatus → NodeStatus → Prop) (b : Bunch) (p : NodePath) (s : State) :
    Prop :=
  Aggregated R b ∅ s ∧ (s.node p).task.submissionUnknownReason = none

private theorem Known.quiet {s' : State} (h : Known R b p s) (hq : s.Quiet s') : Known R b p s' :=
  ⟨h.1.quiet hq, (hq.changedAt []).unknown p h.2⟩

private theorem known_of_effect {m : M Unit} (hm : Effect State.Quiet m) {E : Err → State → Prop} :
    Triple (Known R b p) m (fun _ => Known R b p) E :=
  hm.triple fun _ _ hq hs => hs.quiet hq

private theorem known_draw {E : Err → State → Prop} :
    Triple (Known R b p) draw (fun _ => Known R b p) E :=
  fun s hs => hs.quiet (quiet_draw s)

/-- A report starts with forgetting that the submission was unknown. -/
private theorem known_forget {f : TaskState → TaskState} (hf : ∀ k : TaskState, k.SameAttempt (f k))
    (hn : ∀ k : TaskState, (f k).submissionUnknownReason = none) {E : Err → State → Prop}
    (hx : ∀ k : TaskState, (f k).paths ⊆ k.paths := by exact fun _ => List.Subset.refl _) :
    Triple (Aggregated R b ∅) (modifyTask p f) (fun _ => Known R b p) E :=
  fun s hs => ⟨hs.quiet ((effect_modifyTask p hf hx).within s), by
    simpa [modifyTask, modifyNode] using hn _⟩

private theorem known_recordEnd {E : Err → State → Prop} :
    Triple (Known R b p) (recordEnd p) (fun _ => Known R b p) E := by
  refine known_draw.bind fun d => known_of_effect (effect_modifyTask p (fun k => ?_) fun k => ?_)
  · split_ifs
    · exact ⟨rfl, rfl, rfl, rfl, .inl rfl⟩
    · exact .refl k
  · split_ifs <;> exact List.Subset.refl _

theorem Aggregated.init (hR : Follows R) (hw : b.RepeatsKeep R) (hb : b.node? p = some t)
    (taskId : String) :
    Triple (Aggregated R b ∅) (Task.init b p t taskId) (fun _ => Aggregated R b ∅)
      (fun _ _ => False) := by
  refine Triple.bind (known_forget (f := fun k =>
    { k with submissionUnknownReason := none, taskId := some taskId })
    (fun _ => ⟨rfl, rfl, rfl, rfl, .inr rfl⟩) fun _ => rfl) fun _ =>
      Triple.bind (known_of_effect (effect_notifyQueryChange p _ _)) fun _ =>
        known_draw.bind fun d => Triple.bind
          (known_of_effect (effect_modifyTask p (fun k => ?_) fun k => ?_))
          fun _ => Triple.bind ((Aggregated.setNodeStatus hR hw hb).pre fun s hs =>
            ⟨hs.1, fun _ _ => hs.2⟩) fun _ =>
              (Aggregated.handleStatusChange hR hw hb).pre fun s hs => hs.mono (Set.empty_subset _)
  · split_ifs
    · exact ⟨rfl, rfl, rfl, rfl, .inl rfl⟩
    · exact .refl k
  · split_ifs <;> exact List.Subset.refl _

theorem Aggregated.complete (hR : Follows R) (hw : b.RepeatsKeep R) (hb : b.node? p = some t) :
    Triple (Aggregated R b ∅) (Task.complete b p t) (fun _ => Aggregated R b ∅)
      (fun _ _ => False) :=
  Triple.bind (known_forget (f := fun k => { k with submissionUnknownReason := none })
    (fun _ => ⟨rfl, rfl, rfl, rfl, .inr rfl⟩) fun _ => rfl) fun _ =>
      Triple.bind (known_of_effect (effect_notifyQueryChange p _ _)) fun _ =>
        known_recordEnd.bind fun _ => Triple.bind ((Aggregated.setNodeStatus hR hw hb).pre
          fun _ hs => ⟨hs.1, fun _ _ => hs.2⟩) fun _ =>
            (Aggregated.handleStatusChange hR hw hb).pre fun _ hs => hs.mono (Set.empty_subset _)

theorem Aggregated.abort (hR : Follows R) (hw : b.RepeatsKeep R) (hb : b.node? p = some t)
    (reason : String) :
    Triple (Aggregated R b ∅) (Task.abort b p t reason) (fun _ => Aggregated R b ∅)
      (fun _ _ => False) := by
  have hreason : Effect State.Quiet (Takler.modifyTask p fun k =>
      { k with abortedReason := some reason }) := effect_modifyTask p fun _ => ⟨rfl, rfl, rfl, rfl, .inl rfl⟩
  exact Triple.bind (known_forget (f := fun k => { k with submissionUnknownReason := none })
    (fun _ => ⟨rfl, rfl, rfl, rfl, .inr rfl⟩) fun _ => rfl) fun _ =>
      Triple.bind (known_of_effect (effect_notifyQueryChange p _ _)) fun _ =>
        known_recordEnd.bind fun _ => Triple.bind ((Aggregated.setNodeStatus hR hw hb).pre
          fun s hs => ⟨hs.1, fun _ _ => hs.2⟩) fun _ =>
            Triple.bind (hreason.triple (Q := Aggregated R b ∅) fun s u hq hs => hs.quiet hq)
              fun _ => (Aggregated.handleStatusChange hR hw hb).pre fun s hs =>
                hs.mono (Set.empty_subset _)

end Reports

/-! ### Runs of the server -/

/-- The repeats of every flow that comes end before the calendar does, and a file that moves leaves
the paths that tasks have recorded where the index finds them. -/
def StaysInCalendar (w : World) : Action → Prop
  | .load f _ _ _ | .replace f _ _ _ _ _ => f.RepeatsEnd
  | .relink moved => w.Spares moved
  | _ => True

instance (w : World) : ∀ a : Action, Decidable (StaysInCalendar w a)
  | .relink moved => inferInstanceAs (Decidable (w.Spares moved))
  | .load f _ _ _ | .replace f _ _ _ _ _ => inferInstanceAs (Decidable f.RepeatsEnd)
  | .command _ _ | .visit _ | .resolve _ | .updateCalendar _ _ | .jobFailure _ _ _ _
  | .jobSkipped _ | .parameter _ _ _ => .isTrue trivial

theorem reflects_of_reachable {w : World} (h : server.Reachable StaysInCalendar w) :
    w.bunch.RepeatsEnd ∧ Aggregated Reflects w.bunch ∅ w.state := by
  refine StepSystem.Reachable.invariant
    (I := fun w => w.bunch.RepeatsEnd ∧ Aggregated Reflects w.bunch ∅ w.state) ?_ ?_ h
  · rintro _ ⟨entropy, rfl⟩
    exact ⟨fun f hf => absurd hf List.not_mem_nil, aggregated_init Reflects entropy⟩
  · rintro w a w' ⟨hw, hs⟩ hg hstep
    rcases World.step_cases hstep with ⟨moved, rfl, rfl⟩ |
      ⟨f, wf, isFlow, g, rfl, hl⟩ | ⟨f, wf, isFlow, g, now, realNow, rfl, hr⟩ | ⟨m, hm, rfl⟩
    · exact ⟨hw, { hs with forgettable := hg.forgettable }⟩
    · refine ⟨?_, hs.load follows_reflects hl⟩
      obtain ⟨fresh, marks, rfl⟩ := World.load_eq_some hl
      exact Bunch.forall_addFlow hw wf isFlow fresh hg
    · have hw' := Bunch.forall_replaceFlow hw wf isFlow hg
      refine ⟨?_, hs.replace follows_reflects hr (reflects_sustained hw').toSustained fun _ =>
        trivial⟩
      obtain ⟨-, suspended, marks, rfl⟩ := World.replace_eq_some hr
      exact hw'
    · refine ⟨hw, ((reflects_sustained hw).action hm).exec ⟨hs, ?_⟩⟩
      cases a with
      | command z c => cases c <;> simp [Action.Fits, Command.Fits]
      | _ => trivial

/-! ### Rejections -/

/-- Nodes, limits and flows are as they were. -/
structure State.SameTree (s s' : State) : Prop where
  node : s'.node = s.node
  limit : s'.limit = s.limit
  inLimits : s'.inLimits = s.inLimits
  flow : s'.flow = s.flow

theorem State.SameTree.refl (s : State) : s.SameTree s := ⟨rfl, rfl, rfl, rfl⟩

/-- When the command raises, the tree is as before. -/
def RejectsCleanly (m : M Unit) (s : State) : Prop :=
  ∀ e s', m.exec s = (.error e, s') → s.SameTree s'

theorem RejectsCleanly.of_refuses {m : M Unit} (h : Refuses m s) : RejectsCleanly m s := by
  obtain ⟨e, he⟩ := h
  intro e' s' h'
  rw [he, Prod.mk.injEq] at h'
  exact h'.2 ▸ .refl s

/-- What only reads may come first. -/
theorem RejectsCleanly.bind {α : Type} {m : M α} {f : α → M Unit} (hm : Within Eq m)
    (hf : ∀ a, m.exec s = (.ok a, s) → RejectsCleanly (f a) s) : RejectsCleanly (m >>= f) s := by
  rcases Refuses.or_ok hm s with hr | ⟨a, ha⟩
  · exact .of_refuses (hr.left f)
  · unfold RejectsCleanly
    rw [exec_bind_of_ok ha]
    exact hf a ha

/-- What passed the checks of a report of an event or a meter. -/
structure Reporting (b : Bunch) (s : State) (path source : List String) (attemptId : String)
    (p : NodePath) (t : Tree) (src : NodePath) : Prop where
  canonical : isCanonicalUuid attemptId = true
  target : b.findNode path = some p
  node : b.node? p = some t
  found : b.findNode source = some src
  task : b.isTask src = true
  sameFlow : flowName src = flowName p
  current : s.InFlightWith src attemptId

/-- A meter report takes a password over, and then its value is out of bounds. -/
def Command.AdoptsBeforeRefusal (b : Bunch) (z : Option ZombieDetector) (s : State) :
    Command → Prop
  | meter path source name attemptId value password => ∃ p t src m,
      Reporting b s path source attemptId p t src ∧ z = some ⟨true, .adopt⟩ ∧
      notBlank (password.getD "") = true ∧ password ≠ (s.node src).task.jobPassword ∧
      (t.defn.meters.find? fun m => m.name = name) = some m ∧
      (value < m.minValue ∨ value > m.maxValue)
  | _ => False

theorem validateAttemptId_eq_ok {attemptId : String} {u : Unit}
    (h : (validateAttemptId attemptId).exec s = (.ok u, s)) : isCanonicalUuid attemptId = true := by
  unfold validateAttemptId at h
  split_ifs at h with h₁ h₂
  · cases h
  · exact h₂
  · cases h

theorem findNodeOrRaise_eq_ok {path : List String} {x : NodePath × Tree}
    (h : (findNodeOrRaise b path).exec s = (.ok x, s)) :
    b.findNode path = some x.1 ∧ b.node? x.1 = some x.2 := by
  have := findNodeOrRaise_triple b path (fun _ => True) s trivial
  rw [h] at this
  exact this.2

theorem findTaskOrRaise_node? {path : List String} {x : NodePath × Tree}
    (h : (findTaskOrRaise b path).exec s = (.ok x, s)) :
    b.node? x.1 = some x.2 ∧ x.2.isTask = true := by
  have := findTaskOrRaise_triple b path (fun _ => True) s trivial
  rw [h] at this
  exact this.2.2

theorem guardAttempt_eq_ok {attemptId : String} {u : Unit}
    (h : (guardAttempt p attemptId).exec s = (.ok u, s)) : s.InFlightWith p attemptId := by
  by_contra hn
  obtain ⟨e, he⟩ := refuses_guardAttempt hn
  rw [he] at h
  cases h

theorem reads_guardChildTarget (target : NodePath) (source : List String) (attemptId : String) :
    Within Eq (guardChildTarget b target source attemptId) := by
  refine .ite (.throw _) ?_
  split
  · exact Within.throw _
  · exact .ite (.throw _) ((reads_guardAttempt _ _).bind fun _ => .pure _)

theorem guardChildTarget_eq_ok {target src : NodePath} {source : List String} {attemptId : String}
    (h : (guardChildTarget b target source attemptId).exec s = (.ok src, s)) :
    b.findNode source = some src ∧ b.isTask src = true ∧ flowName src = flowName target ∧
      s.InFlightWith src attemptId := by
  unfold guardChildTarget at h
  split_ifs at h
  · cases h
  split at h
  · cases h
  · rename_i q hq
    obtain ⟨hq, ht⟩ := Option.filter_eq_some_iff.mp hq
    split_ifs at h with hflow
    · cases h
    rcases Refuses.or_ok (reads_guardAttempt q attemptId) s with hr | ⟨u, hu⟩
    · obtain ⟨e, he⟩ := hr.left fun _ => pure q
      rw [he] at h
      cases h
    · rw [exec_bind_of_ok hu] at h
      cases h
      exact ⟨hq, ht, not_not.mp hflow, guardAttempt_eq_ok hu⟩

/-- A report of an event or a meter is refused, or it comes to the zombie check. -/
theorem commandSetVariable_cases (b : Bunch) (z : Option ZombieDetector)
    (path source : List String) (command attemptId : String) (password : Option String)
    (setting : NodePath → Tree → M Bool) (s : State) :
    Refuses (commandSetVariable b z path source command attemptId password setting) s ∨
    ∃ p t src, Reporting b s path source attemptId p t src ∧
      (commandSetVariable b z path source command attemptId password setting).exec s =
        (do if ← guardChildCommand z src command none password then do
              let _ ← setting p t
              pure ()
            else pure () : M Unit).exec s := by
  unfold commandSetVariable
  rcases Refuses.or_ok (reads_validateAttemptId attemptId) s with hr | ⟨u, h₁⟩
  · exact .inl (hr.left _)
  simp only [Refuses, exec_bind_of_ok h₁]
  rcases Refuses.or_ok (reads_findNodeOrRaise b path) s with hr | ⟨⟨p, t⟩, h₂⟩
  · exact .inl (hr.left _)
  simp only [exec_bind_of_ok h₂]
  rcases Refuses.or_ok (reads_guardChildTarget p source attemptId) s with hr | ⟨src, h₃⟩
  · exact .inl (hr.left _)
  obtain ⟨hp, hb⟩ := findNodeOrRaise_eq_ok h₂
  obtain ⟨hsrc, ht, hflow, hcurrent⟩ := guardChildTarget_eq_ok h₃
  exact .inr ⟨p, t, src, ⟨validateAttemptId_eq_ok h₁, hp, hb, hsrc, ht, hflow, hcurrent⟩,
    exec_bind_of_ok h₃ _⟩

/-- The password of a call in place of the one of a task. -/
def State.withPassword (s : State) (p : NodePath) (password : Option String) : State :=
  { s with node := Function.update s.node p { s.node p with
      task := { (s.node p).task with jobPassword := password } } }

/-- The zombie check refuses, or lets the report pass or end, or it takes over a password. -/
theorem guardChildCommand_cases (z : Option ZombieDetector) (p : NodePath) (command : String)
    (init password : Option String) (s : State) :
    Refuses (guardChildCommand z p command init password) s ∨
    (∃ r, (guardChildCommand z p command init password).exec s = (.ok r, s)) ∨
    ∃ z', z = some z' ∧ z'.policy = .adopt ∧ (z'.detect (s.node p) init password).isSome ∧
      notBlank (password.getD "") = true ∧
      (guardChildCommand z p command init password).exec s =
        (.ok true, s.withPassword p password) := by
  cases z with
  | none => exact .inr (.inl ⟨true, rfl⟩)
  | some z =>
    unfold guardChildCommand Refuses
    simp only [exec_bind, exec_get]
    cases hd : z.detect (s.node p) init password with
    | none => exact .inr (.inl ⟨true, rfl⟩)
    | some condition =>
      cases hp : z.policy with
      | fail => exact .inl ⟨_, rfl⟩
      | fob => exact .inr (.inl ⟨false, rfl⟩)
      | adopt =>
        by_cases hn : notBlank (password.getD "") = true
        · refine .inr (.inr ⟨z, rfl, hp, by simp [hd], hn, ?_⟩)
          simp only [Program.when, hn, if_true, exec_bind]
          rfl
        · refine .inr (.inl ⟨true, ?_⟩)
          simp only [Program.when, hn, exec_bind]
          rfl

/-- A report that returns once it passed the zombie check. -/
theorem RejectsCleanly.guarded {R : NodeStatus → NodeStatus → Prop} (hs : Aggregated R b ∅ s)
    (hbt : b.isTask p = true) (z : Option ZombieDetector) (command : String)
    (init password : Option String) {f : M Unit}
    (hf : Triple (Aggregated R b ∅) f (fun _ _ => True) fun _ _ => False) :
    RejectsCleanly (do
      if ← guardChildCommand z p command init password then f else pure ()) s := by
  have hreturns {u : State} (hu : Aggregated R b ∅ u) {e : Err} {v : State} :
      f.exec u ≠ (.error e, v) := by
    intro he
    have := hf u hu
    rw [he] at this
    exact this
  rcases guardChildCommand_cases z p command init password s with hr | ⟨r, hr⟩ | ⟨_, _, _, _, _, hr⟩
  · exact .of_refuses (hr.left _)
  · intro e s' he
    rw [exec_bind_of_ok hr] at he
    cases r with
    | false => cases he
    | true => exact absurd he (hreturns hs)
  · intro e s' he
    rw [exec_bind_of_ok hr] at he
    refine absurd he (hreturns ?_)
    exact hs.onlyTask (onlyTask_modifyTask p (fun k => { k with jobPassword := password })
      (fun _ => List.Subset.refl _) s)
      fun hn => hs.unknown p hbt (by simpa [State.withPassword] using hn)

theorem commandInit_rejectsCleanly {w : World} (hw : w.bunch.RepeatsEnd)
    (hs : Aggregated Reflects w.bunch ∅ w.state) (z : Option ZombieDetector) (path : List String)
    (taskId attemptId : String) (password : Option String) :
    RejectsCleanly (commandInit w.bunch z path taskId attemptId password) w.state := by
  refine .bind (reads_validateAttemptId attemptId) fun _ _ =>
    .bind (reads_findTaskOrRaise w.bunch path) ?_
  rintro ⟨p, t⟩ h
  obtain ⟨hb, ht⟩ := findTaskOrRaise_node? h
  refine .bind (reads_guardAttempt p attemptId) fun _ _ => .bind .get ?_
  rintro _ ⟨⟩
  split_ifs
  · exact .of_refuses (.throw _ _)
  · exact .of_refuses (.throw _ _)
  · rintro e s' ⟨⟩
  · exact .guarded hs ((Bunch.isTask_of_node? hb).trans ht) z _ _ _
      ((Aggregated.init follows_reflects hw.keep hb taskId).post fun _ _ _ => trivial)

theorem commandReport_rejectsCleanly {w : World} (hs : Aggregated Reflects w.bunch ∅ w.state)
    (z : Option ZombieDetector) (path : List String) (command attemptId : String)
    (password : Option String) {report : NodePath → Tree → M Unit}
    (hreport : ∀ p t, w.bunch.node? p = some t → Triple (Aggregated Reflects w.bunch ∅)
      (report p t) (fun _ => Aggregated Reflects w.bunch ∅) fun _ _ => False) :
    RejectsCleanly (commandReport w.bunch z path command attemptId password report) w.state := by
  refine .bind (reads_validateAttemptId attemptId) fun _ _ =>
    .bind (reads_findTaskOrRaise w.bunch path) ?_
  rintro ⟨p, t⟩ h
  obtain ⟨hb, ht⟩ := findTaskOrRaise_node? h
  exact .bind (reads_guardAttempt p attemptId) fun _ _ =>
    .guarded hs ((Bunch.isTask_of_node? hb).trans ht) z _ _ _
      ((hreport p t hb).post fun _ _ _ => trivial)

/-- Only a password that is not the one of the task is taken over. -/
theorem ZombieDetector.detect_isSome_iff {z : ZombieDetector} {n : NodeState}
    (hn : n.status.inFlight = true) {password : Option String}
    (hb : notBlank (password.getD "") = true) :
    (z.detect n none password).isSome = true ↔
      z.authEnabled = true ∧ password ≠ n.task.jobPassword := by
  have hne : password.getD "" ≠ "" := by
    intro h
    rw [h] at hb
    cases hb
  unfold ZombieDetector.detect passwordsMatch
  by_cases hp : password = n.task.jobPassword
  · subst hp
    simp [hn, hne]
  · simp [hn, hp]

theorem setEvent_returns (p : NodePath) (t : Tree) (name : String) (value : Bool) :
    Raises (fun _ => False) (setEvent p t name value) :=
  .ite (Raises.get.bind fun _ => .bind (.modify _) fun _ => .bind (.when (.modify _)) fun _ =>
    .pure _) (.pure _)

theorem setMeter_returns {name : String} {value : ℤ}
    (h : ∀ m, (t.defn.meters.find? fun m => m.name = name) = some m →
      ¬ (value < m.minValue ∨ value > m.maxValue)) :
    Raises (fun _ => False) (setMeter p t name value) := by
  unfold setMeter
  split
  · exact Raises.pure _
  · rename_i m hm
    rw [if_neg (h m hm)]
    exact Raises.get.bind fun _ => .bind (.modify _) fun _ => .bind (.when (.modify _)) fun _ =>
      .pure _

theorem setMeter_refuses {name : String} {value : ℤ} {m : MeterDef}
    (hm : (t.defn.meters.find? fun m => m.name = name) = some m)
    (hv : value < m.minValue ∨ value > m.maxValue) (s : State) :
    Refuses (setMeter p t name value) s := by
  unfold setMeter
  rw [hm]
  simp only [if_pos hv]
  exact .throw _ s

/-- The setting of a variable that never raises. -/
theorem commandSetVariable_rejectsCleanly {w : World}
    (hs : Aggregated Reflects w.bunch ∅ w.state) (z : Option ZombieDetector)
    {src : NodePath} (ht : w.bunch.isTask src = true) (command : String) (password : Option String)
    {setting : M Bool} (hsetting : Raises (fun _ => False) setting) :
    RejectsCleanly (do
      if ← guardChildCommand z src command none password then do
        let _ ← setting
        pure ()
      else pure ()) w.state :=
  .guarded hs ht z command none password (Triple.pre (Raises.bind hsetting fun _ => .pure _)
    fun _ _ => trivial)

theorem event_rejectsCleanly {w : World} (hs : Aggregated Reflects w.bunch ∅ w.state)
    (z : Option ZombieDetector) (path source : List String) (name attemptId : String)
    (password : Option String) :
    RejectsCleanly (commandSetVariable w.bunch z path source "event" attemptId password
      fun p t => setEvent p t name true) w.state := by
  rcases commandSetVariable_cases w.bunch z path source "event" attemptId password
    (fun p t => setEvent p t name true) w.state with hr | ⟨p, t, src, hrep, hexec⟩
  · exact .of_refuses hr
  · unfold RejectsCleanly
    rw [hexec]
    exact commandSetVariable_rejectsCleanly hs z hrep.task _ _ (setEvent_returns p t name true)

/-- A task that took over another password is not as it was. -/
theorem State.not_sameTree_withPassword {s : State} {p : NodePath} {password : Option String}
    (hp : password ≠ (s.node p).task.jobPassword) : ¬ s.SameTree (s.withPassword p password) := by
  intro h
  have := congrArg (fun n => (n p).task.jobPassword) h.node
  simp only [State.withPassword, Function.update_self] at this
  exact hp this

theorem exec_validateAttemptId {attemptId : String} (h : isCanonicalUuid attemptId = true)
    (s : State) : (validateAttemptId attemptId).exec s = (.ok (), s) := by
  have hne : attemptId ≠ "" := by
    rintro rfl
    exact absurd h (by decide)
  rw [validateAttemptId, if_neg hne, if_pos h]
  rfl

/-- What passes the checks comes to the zombie check. -/
theorem Reporting.exec {path source : List String} {attemptId : String} {src : NodePath}
    (h : Reporting b s path source attemptId p t src) (z : Option ZombieDetector)
    (command : String) (password : Option String) (setting : NodePath → Tree → M Bool) :
    (commandSetVariable b z path source command attemptId password setting).exec s =
      (do if ← guardChildCommand z src command none password then do
            let _ ← setting p t
            pure ()
          else pure () : M Unit).exec s := by
  have hvalid := exec_validateAttemptId h.canonical s
  have hfound : (findNodeOrRaise b path).exec s = (.ok (p, t), s) := by
    simp only [findNodeOrRaise, h.target, h.node, Option.bind_some, Option.map_some]
    rfl
  have hattempt : (guardAttempt src attemptId).exec s = (.ok (), s) := by
    have hcurrent := h.current
    unfold State.InFlightWith at hcurrent
    rw [guardAttempt, exec_bind_of_ok hvalid, exec_bind_of_ok (exec_get s), if_pos hcurrent]
    rfl
  have htarget : (guardChildTarget b p source attemptId).exec s = (.ok src, s) := by
    have hsource : source ≠ [] := by
      rintro rfl
      cases h.found
    rw [guardChildTarget, if_neg hsource, Option.filter_eq_some_iff.mpr ⟨h.found, h.task⟩]
    simp only [h.sameFlow, ne_eq, not_true_eq_false, if_false]
    rw [exec_bind_of_ok hattempt]
    rfl
  rw [commandSetVariable, exec_bind_of_ok hvalid, exec_bind_of_ok hfound, exec_bind_of_ok htarget]

/-- The policy `adopt` takes over a password that is not blank and not the one of the task. -/
theorem exec_guardChildCommand_adopt {command : String} {password : Option String}
    (hf : (s.node p).status.inFlight = true) (hb : notBlank (password.getD "") = true)
    (hp : password ≠ (s.node p).task.jobPassword) :
    (guardChildCommand (some ⟨true, .adopt⟩) p command none password).exec s =
      (.ok true, s.withPassword p password) := by
  have hd := (ZombieDetector.detect_isSome_iff (z := ⟨true, .adopt⟩) hf hb).mpr ⟨rfl, hp⟩
  obtain ⟨condition, hd⟩ := Option.isSome_iff_exists.mp hd
  simp only [guardChildCommand, exec_bind_of_ok (exec_get s), hd, Program.when, hb, if_true]
  rfl

theorem meter_rejectsCleanly_iff {w : World} (hs : Aggregated Reflects w.bunch ∅ w.state)
    (z : Option ZombieDetector) (path source : List String) (name attemptId : String) (value : ℤ)
    (password : Option String) :
    RejectsCleanly (commandSetVariable w.bunch z path source "meter" attemptId password
        fun p t => setMeter p t name value) w.state ↔
      ¬ (Command.meter path source name attemptId value password).AdoptsBeforeRefusal w.bunch z
        w.state := by
  constructor
  · rintro hclean ⟨p, t, src, m, hrep, rfl, hblank, hpass, hm, hv⟩
    obtain ⟨e, he⟩ := setMeter_refuses (p := p) hm hv (w.state.withPassword src password)
    refine State.not_sameTree_withPassword hpass (hclean e _ ?_)
    rw [hrep.exec, exec_bind_of_ok (exec_guardChildCommand_adopt hrep.current.2 hblank hpass),
      if_pos rfl, exec_bind, he]
  · intro hn
    rcases commandSetVariable_cases w.bunch z path source "meter" attemptId password
      (fun p t => setMeter p t name value) w.state with hr | ⟨p, t, src, hrep, hexec⟩
    · exact .of_refuses hr
    by_cases hvalue : ∀ m, (t.defn.meters.find? fun m => m.name = name) = some m →
        ¬ (value < m.minValue ∨ value > m.maxValue)
    · unfold RejectsCleanly
      rw [hexec]
      exact commandSetVariable_rejectsCleanly hs z hrep.task _ _ (setMeter_returns hvalue)
    · push Not at hvalue
      obtain ⟨m, hm, hv⟩ := hvalue
      have hrefuses := setMeter_refuses (p := p) hm hv
      unfold RejectsCleanly
      rw [hexec]
      rcases guardChildCommand_cases z src "meter" none password w.state with
        hr | ⟨r, hr⟩ | ⟨z', rfl, hpolicy, hd, hblank, -⟩
      · exact RejectsCleanly.of_refuses (hr.left _)
      · rw [exec_bind_of_ok hr]
        cases r with
        | false => rintro e s' ⟨⟩
        | true => exact RejectsCleanly.of_refuses ((hrefuses w.state).left _)
      · obtain ⟨hauth, hpass⟩ :=
          (ZombieDetector.detect_isSome_iff hrep.current.2 hblank).mp hd
        refine absurd ⟨p, t, src, m, hrep, ?_, hblank, hpass, hm, hv⟩ hn
        cases z'
        simp_all

/-- **Rejected reports.** In a run in which every repeat ends before the calendar does and no recorded
file moves, a report that is answered with an error leaves the tree as it was, unless it is a meter
report that takes a password over before its value is refused.

Each report reads until the zombie check, so that a refusal up to there leaves everything alone. Past
the check `init`, `complete`, `abort` and `event` do not raise in a state that such a run reaches: the
nodes below a repeat that advances are complete, none of them has an unknown submission, and all their
paths can be forgotten. Only the bounds of a meter are left. -/
theorem rejected_report_changes_nothing_iff {w : World} (h : server.Reachable StaysInCalendar w)
    {c : Command} (hc : c.report?.isSome = true) (z : Option ZombieDetector) :
    RejectsCleanly (c.program w.bunch z) w.state ↔
      ¬ c.AdoptsBeforeRefusal w.bunch z w.state := by
  obtain ⟨hw, hs⟩ := reflects_of_reachable h
  unfold Command.program
  cases c with
  | init path taskId attemptId password =>
    refine iff_of_true ?_ fun hn => hn.elim
    exact commandInit_rejectsCleanly hw hs z path taskId attemptId password
  | complete path attemptId password =>
    refine iff_of_true ?_ fun hn => hn.elim
    exact commandReport_rejectsCleanly hs z path _ attemptId password fun p t hb =>
      Aggregated.complete follows_reflects hw.keep hb
  | abort path attemptId reason password =>
    refine iff_of_true ?_ fun hn => hn.elim
    exact commandReport_rejectsCleanly hs z path _ attemptId password fun p t hb =>
      Aggregated.abort follows_reflects hw.keep hb reason
  | event path source name attemptId password =>
    refine iff_of_true ?_ fun hn => hn.elim
    exact event_rejectsCleanly hs z path source name attemptId password
  | meter path source name attemptId value password =>
    exact meter_rejectsCleanly_iff hs z path source name attemptId value password
  | _ => cases hc

/-- A flow of one task with a meter, and a repeat of the flow that ends on a given day. -/
def meteredTree (endDate : ℕ) (h : endDate ≤ maxOrdinal) : Tree :=
  .node { name := "f", kind := .flow
          repeatDate := some ⟨"DAY", endDate, endDate, 1, le_rfl, h, one_pos⟩ }
    [.node { name := "t", kind := .task, meters := [⟨"m", 0, 100, by decide⟩] } []]

theorem meteredTree_wf (endDate : ℕ) (h : endDate ≤ maxOrdinal) : (meteredTree endDate h).WF :=
  of_decide_eq_true rfl

/-- The task of this flow runs. -/
def meteredRun (endDate : ℕ) (h : endDate ≤ maxOrdinal) : List Action :=
  [.load (meteredTree endDate h) (meteredTree_wf endDate h) rfl "g",
    .command none (.begin "f" false 0 0), .command none (.run ["f", "t"] false)]

theorem meteredRun_rejects_cleanly : ∃ w,
    server.run StaysInCalendar .startNumbered (meteredRun 1 (by decide)) = some w ∧
      RejectsCleanly ((Command.abort ["f", "t"] (numberedUuid 0) "killed" (some "other")).program
        w.bunch (some ⟨true, .fail⟩)) w.state := by
  obtain ⟨w, hw⟩ := Option.isSome_iff_exists.mp (show (server.run StaysInCalendar
    .startNumbered (meteredRun 1 (by decide))).isSome by decide +kernel)
  exact ⟨w, hw, (rejected_report_changes_nothing_iff
    (StepSystem.reachable_of_run _ ⟨_, rfl⟩ hw) rfl _).mpr fun hn => hn.elim⟩

/-- A flow of one shell task that is repeated once. -/
def repeatedShellTree : Tree :=
  .node { name := "f", kind := .flow, repeatDate := some twoDays }
    [.node { name := "t", kind := .shell } []]

/-- The task of this flow runs, and its job file moves. -/
def movedShellRun : List Action :=
  [.load repeatedShellTree (by decide) rfl "g", .command none (.begin "f" false 0 0),
    .command none (.run ["f", "t"] false), .relink fun _ _ => true]

/-- Three reports that are answered with an error and leave something behind: a meter report whose
value is out of bounds has changed the password of its task; a completion has completed its
task when the repeat of the flow cannot go beyond the last day of the calendar; and one has
advanced the repeat when the requeue it causes finds that the job file has moved. -/
theorem rejected_report_changes_tree :
    ((server.run StepSystem.Free .startNumbered (meteredRun 1 (by decide))).map fun w =>
        let m := (Command.meter ["f", "t"] ["f", "t"] "m" (numberedUuid 0) 200
          (some "other")).program w.bunch (some ⟨true, .adopt⟩)
        ((m.exec w.state).1.toOption.isSome, (w.state.node ["t", "f"]).task.jobPassword,
          ((m.exec w.state).2.node ["t", "f"]).task.jobPassword)) =
      some (false, some "secret", some "other") ∧
    ((server.run StepSystem.Free .startNumbered (meteredRun maxOrdinal le_rfl)).map fun w =>
        let m := (Command.complete ["f", "t"] (numberedUuid 0) none).program w.bunch none
        ((m.exec w.state).1.toOption.isSome, (w.state.node ["t", "f"]).status,
          ((m.exec w.state).2.node ["t", "f"]).status)) =
      some (false, .submitted, .complete) ∧
    ((server.run StepSystem.Free .startNumbered movedShellRun).map fun w =>
        let m := (Command.complete ["f", "t"] (numberedUuid 0) none).program w.bunch none
        ((m.exec w.state).1.toOption.isSome, (w.state.node ["f"]).repeatValue,
          ((m.exec w.state).2.node ["f"]).repeatValue)) =
      some (false, 1, 2) := by
  refine ⟨?_, ?_, ?_⟩ <;> decide +kernel

end Takler
