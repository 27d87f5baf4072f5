import Takler.Server.AttemptIdentity

/-!
# Attempts are isolated from each other

A report carries the attempt that it is about. The five commands of a job look at the attempt of
the reporting task before the zombie policy may write and before anything else changes, so a report
of an attempt that is not the current one of a task in flight is refused and leaves the state as it
was. An attempt that has ceased to be current never becomes current again: a task comes into flight
only with the attempt that a run has just drawn.

## Main definitions

* `Command.report?`: the reporting task and the attempt of a command of a job.
* `World.IsCurrent`: the attempt is the one of a task in flight.
* `State.DrawsFresh`: what was drawn so far has distinct attempts.

## Main results

* `Command.refuses_of_not_isCurrent`: a report of any other attempt is refused.
* `spent_stable`: every command leaves a spent attempt spent.
* `spent_attempt_is_refused`: so do runs of the server.
-/

namespace Takler

open Program

/-! ### Reports of other attempts -/

/-- The task that reports and the attempt that it reports on. -/
def Command.report? : Command → Option (List String × String)
  | init path _ attemptId _ | complete path attemptId _ | abort path attemptId _ _ =>
    some (path, attemptId)
  | event _ source _ attemptId _ | meter _ source _ attemptId _ _ => some (source, attemptId)
  | _ => none

/-- The task at a path is in flight with an attempt. -/
def State.InFlightWith (s : State) (p : NodePath) (attemptId : String) : Prop :=
  (s.node p).task.attemptId = some attemptId ∧ (s.node p).status.inFlight = true

instance (s : State) (p : NodePath) (attemptId : String) : Decidable (s.InFlightWith p attemptId) :=
  inferInstanceAs (Decidable (_ ∧ _))

/-- There is a task at a path, in flight with an attempt. -/
def World.IsCurrent (w : World) (p : NodePath) (attemptId : String) : Prop :=
  w.bunch.isTask p = true ∧ w.state.InFlightWith p attemptId

instance (w : World) (p : NodePath) (attemptId : String) : Decidable (w.IsCurrent p attemptId) :=
  inferInstanceAs (Decidable (_ ∧ _))

theorem refuses_guardAttempt {s : State} {p : NodePath} {attemptId : String}
    (h : ¬ s.InFlightWith p attemptId) : Refuses (guardAttempt p attemptId) s := by
  refine .bind (reads_validateAttemptId attemptId) fun _ _ => .get_bind ?_
  unfold State.InFlightWith at h
  rw [if_neg h]
  exact .throw _ s

theorem findTaskOrRaise_eq_ok {b : Bunch} {parts : List String} {s : State} {x : NodePath × Tree}
    (h : (findTaskOrRaise b parts).exec s = (.ok x, s)) :
    b.findNode parts = some x.1 ∧ b.isTask x.1 = true := by
  have := findTaskOrRaise_triple b parts (fun _ => True) s trivial
  rw [h] at this
  exact ⟨this.2.1, (Bunch.isTask_of_node? this.2.2.1).trans this.2.2.2⟩

/-- **A report of an attempt that is not the current one of a task in flight is refused**, for every
policy and all credentials, and nothing changes. -/
theorem Command.refuses_of_not_isCurrent {w : World} {c : Command} {parts : List String}
    {attemptId : String} (hc : c.report? = some (parts, attemptId))
    (h : ∀ p, w.bunch.findNode parts = some p → ¬ w.IsCurrent p attemptId)
    (z : Option ZombieDetector) : Refuses (c.program w.bunch z) w.state := by
  have htask {f : NodePath × Tree → M Unit}
      (hf : ∀ x, ¬ w.state.InFlightWith x.1 attemptId → Refuses (f x) w.state) :
      Refuses (do validateAttemptId attemptId; let x ← findTaskOrRaise w.bunch parts; f x)
        w.state := by
    refine .bind (reads_validateAttemptId attemptId) fun _ _ =>
      .bind (reads_findTaskOrRaise w.bunch parts) fun x hx => hf x fun hn => ?_
    obtain ⟨hp, ht⟩ := findTaskOrRaise_eq_ok hx
    exact h x.1 hp ⟨ht, hn⟩
  have htarget {path : List String} {f : NodePath × Tree → NodePath → M Unit} :
      Refuses (do
        validateAttemptId attemptId
        let x ← findNodeOrRaise w.bunch path
        let src ← guardChildTarget w.bunch x.1 parts attemptId
        f x src) w.state := by
    refine .bind (reads_validateAttemptId attemptId) fun _ _ =>
      .bind (reads_findNodeOrRaise w.bunch path) fun x _ => Refuses.left ?_ _
    unfold guardChildTarget
    split_ifs
    · exact .throw _ _
    · split
      · exact .throw _ _
      · rename_i p hp
        obtain ⟨hp, ht⟩ := Option.filter_eq_some_iff.mp hp
        split_ifs
        · exact .throw _ _
        · exact (refuses_guardAttempt fun hn => h p hp ⟨ht, hn⟩).left _
  unfold Command.program
  cases c with
  | init path taskId attemptId' password =>
    cases hc
    exact htask fun x hx => (refuses_guardAttempt hx).left _
  | complete path attemptId' password =>
    cases hc
    exact htask fun x hx => (refuses_guardAttempt hx).left _
  | abort path attemptId' reason password =>
    cases hc
    exact htask fun x hx => (refuses_guardAttempt hx).left _
  | event path source name attemptId' password =>
    cases hc
    exact htarget
  | meter path source name attemptId' value password =>
    cases hc
    exact htarget
  | _ => cases hc

/-! ### Drawn attempts -/

/-- Statuses and attempts are as they were. -/
structure State.SameAttempts (s s' : State) : Prop where
  draws : s.Draws s'
  attemptId : ∀ q, (s'.node q).task.attemptId = (s.node q).task.attemptId
  status : ∀ q, (s'.node q).status = (s.node q).status

instance : Std.Refl State.SameAttempts := ⟨fun s => ⟨.refl s, fun _ => rfl, fun _ => rfl⟩⟩

instance : IsTrans State State.SameAttempts where
  trans _ _ _ h h' := ⟨h.draws.trans h'.draws, fun q => (h'.attemptId q).trans (h.attemptId q),
    fun q => (h'.status q).trans (h.status q)⟩

theorem State.Silent.sameAttempts {s s' : State} (h : s.Silent s') : s.SameAttempts s' :=
  ⟨h.draws, fun q => (h.task q).attemptId, h.status⟩

theorem sameAttempts_modifyTask (p : NodePath) {f : TaskState → TaskState}
    (hf : ∀ k : TaskState, (f k).attemptId = k.attemptId) :
    Within State.SameAttempts (modifyTask p f) := by
  refine Within.modify fun s => ⟨⟨rfl, le_rfl⟩, fun q => ?_, fun q => ?_⟩
  all_goals
    by_cases hq : q = p
    · subst hq
      simp [hf]
    · simp [hq]

theorem sameAttempts_adopt (p : NodePath) (password : Option String) :
    Within State.SameAttempts (modifyTask p fun k => { k with jobPassword := password }) :=
  sameAttempts_modifyTask p fun _ => rfl

theorem sameAttempts_markSubmissionUnknown (p : NodePath) (reason : String) :
    Within State.SameAttempts (Task.markSubmissionUnknown p reason) :=
  Within.get.bind fun _ => .ite (.throw _) (.ite
    (.bind (sameAttempts_modifyTask p fun _ => rfl) fun _ => fun s =>
      (quiet_notifyQueryChange p _ _ s).sameAttempts)
    (.pure _))

theorem sameAttempts_deleteInLimit (p : NodePath) (t : Tree) (name : String) :
    Within State.SameAttempts (deleteInLimit p t name) := by
  intro s
  have h := sameNodes_deleteInLimit p t name s
  exact ⟨h.draws, fun q => by rw [h.node], fun q => by rw [h.node]⟩

theorem State.LimitsUpdated.sameAttempts {p : NodePath} {s s' : State}
    (h : State.LimitsUpdated p s s') : s.SameAttempts s' := by
  obtain ⟨marks, rfl⟩ := h
  exact ⟨⟨rfl, le_rfl⟩, fun _ => rfl, fun _ => rfl⟩

/-- Every attempt was drawn. -/
def State.AttemptsDrawn (s : State) : Prop :=
  ∀ p a, (s.node p).task.attemptId = some a → ∃ i < s.drawn, (s.entropy i).attemptId = a

namespace State.AttemptsDrawn

variable {s s' : State} {p : NodePath}

theorem of (h : s.AttemptsDrawn) (hd : s.Draws s')
    (ha : ∀ p, (s'.node p).task.attemptId = (s.node p).task.attemptId ∨
      (s'.node p).task.attemptId = none) : s'.AttemptsDrawn := by
  intro p a hp
  rcases ha p with hp' | hp'
  · obtain ⟨i, hi, rfl⟩ := h p a (hp' ▸ hp)
    exact ⟨i, hi.trans_le hd.drawn, by rw [hd.entropy]⟩
  · rw [hp'] at hp
    cases hp

theorem same (h : s.AttemptsDrawn) (hs : s.SameAttempts s') : s'.AttemptsDrawn :=
  h.of hs.draws fun q => .inl (hs.attemptId q)

theorem cleared (h : s.AttemptsDrawn) (hc : State.Cleared p s s') : s'.AttemptsDrawn := by
  refine h.of hc.draws fun q => ?_
  by_cases hq : q = p
  · exact .inr (hq ▸ hc.attemptId)
  · exact .inl (hc.task q hq).attemptId

/-- A new attempt is drawn, also when the paths of the one before cannot be forgotten. -/
theorem newAttempt {password : Option String} (h : s.AttemptsDrawn)
    (ha : State.NewAttempt p password s s') : s'.AttemptsDrawn := by
  intro q a hq
  by_cases hqp : q = p
  · rw [hqp, ha.attemptId, Option.some_inj] at hq
    exact ⟨s.drawn, ha.taken, by rw [ha.draws.entropy, hq]⟩
  · rw [(ha.task q hqp).attemptId] at hq
    obtain ⟨i, hi, rfl⟩ := h q a hq
    exact ⟨i, hi.trans ha.taken, by rw [ha.draws.entropy]⟩

theorem statusSet {t : Tree} {st : NodeStatus} (h : s.AttemptsDrawn)
    (hs : State.StatusSet p t st s s') : s'.AttemptsDrawn :=
  h.of hs.draws fun q => .inl (hs.task q).attemptId

end State.AttemptsDrawn

theorem attemptsDrawn_stable (b : Bunch) :
    ServerStable b (fun _ => State.AttemptsDrawn) fun _ _ => True where
  mono _ h := h
  silent hq h := h.same hq.sameAttempts
  ready_silent _ h := h
  ready_statusSet _ h := h
  ready_of_inFlight _ _ _ _ := trivial
  container _ _ hs h := h.statusSet hs
  calm _ _ _ _ hs h := h.statusSet hs
  cleared _ hc h := h.cleared hc
  cleared_calm _ _ hc h := h.cleared hc
  cleared_or_forgettable := .inl fun _ hc h => h.cleared hc
  lowered _ _ _ hs h := h.statusSet hs
  settled _ _ hl h := h.same hl.sameAttempts
  raised _ _ _ _ hs hl h := (h.statusSet hs).same hl.sameAttempts
  touched _ hl h := h.same hl.sameAttempts
  attempt _ := Triple.of_forall fun s ⟨h, _⟩ => (incrementTryNo_spec _ s).conseq (fun _ hu => hu)
    (fun _ _ hu => ⟨h.newAttempt hu.2, trivial⟩) fun _ _ hu => h.newAttempt hu.2
  unknown _ _ := (sameAttempts_markSubmissionUnknown _ _).keeps fun _ _ hs h => h.same hs
  adopt _ _ := (sameAttempts_adopt _ _).keeps fun _ _ hs h => h.same hs
  deleteInLimit _ := (sameAttempts_deleteInLimit _ _ _).keeps fun _ _ hs h => h.same hs

/-! ### Spent attempts -/

section Spent

variable (b : Bunch) (p₀ : NodePath) (a : String) (E : ℕ → Draw) (N L : ℕ)

/-- From the `N`-th draw on, and as long as no more than `L` are made, the task at a path is not in
flight with the attempt. -/
structure Spent (s : State) : Prop where
  entropy : s.entropy = E
  drawn : N ≤ s.drawn
  spent : s.drawn ≤ L → b.isTask p₀ = true → ¬ s.InFlightWith p₀ a

/-- A task that comes into flight has another attempt. -/
def ReadyOther (p : NodePath) (s : State) : Prop :=
  s.drawn ≤ L → p = p₀ → (s.node p₀).task.attemptId ≠ some a

variable {b p₀ a E N L}

theorem ReadyOther.of {p : NodePath} {s s' : State} (h : ReadyOther p₀ a L p s) (hd : s.Draws s')
    (ha : (s'.node p₀).task.attemptId = (s.node p₀).task.attemptId) : ReadyOther p₀ a L p s' := by
  intro hl hp
  rw [ha]
  exact h (hd.drawn.trans hl) hp

theorem Spent.of {s s' : State} (h : Spent b p₀ a E N L s) (hd : s.Draws s')
    (hs : s'.drawn ≤ L → b.isTask p₀ = true → s'.InFlightWith p₀ a → s.InFlightWith p₀ a) :
    Spent b p₀ a E N L s' where
  entropy := hd.entropy.trans h.entropy
  drawn := h.drawn.trans hd.drawn
  spent hl ht hn := h.spent (hd.drawn.trans hl) ht (hs hl ht hn)

theorem Spent.same {s s' : State} (h : Spent b p₀ a E N L s) (hs : s.SameAttempts s') :
    Spent b p₀ a E N L s' :=
  h.of hs.draws fun _ _ hn => ⟨hs.attemptId p₀ ▸ hn.1, hs.status p₀ ▸ hn.2⟩

theorem Spent.cleared {p : NodePath} {s s' : State} (h : Spent b p₀ a E N L s)
    (hc : State.Cleared p s s') : Spent b p₀ a E N L s' := by
  refine h.of hc.draws fun _ _ hn => ?_
  by_cases hp : p₀ = p
  · have hnone := hc.attemptId
    rw [← hp, hn.1] at hnone
    cases hnone
  · exact ⟨(hc.task p₀ hp).attemptId ▸ hn.1, hc.status p₀ ▸ hn.2⟩

/-- A status change leaves the attempt spent unless it puts that very task into flight. -/
theorem Spent.statusSet {p : NodePath} {t : Tree} {st : NodeStatus} {s s' : State}
    (h : Spent b p₀ a E N L s) (hs : State.StatusSet p t st s s')
    (hp : b.isTask p = true → st.inFlight = true → ReadyOther p₀ a L p s) :
    Spent b p₀ a E N L s' := by
  refine h.of hs.draws fun hl ht hn => ?_
  have hid : (s.node p₀).task.attemptId = some a := (hs.task p₀).attemptId ▸ hn.1
  have hst := hn.2
  rw [hs.status p₀] at hst
  split_ifs at hst with heq
  · subst heq
    exact absurd hid (hp ht hst (hs.draws.drawn.trans hl) rfl)
  · exact ⟨hid, hst⟩

/-- The attempt that is drawn is another one. -/
theorem Spent.newAttempt {p : NodePath} {password : Option String} {s s' : State}
    (hE : ∀ i, N ≤ i → i < L → (E i).attemptId ≠ a) (h : Spent b p₀ a E N L s)
    (ha : State.NewAttempt p password s s') :
    Spent b p₀ a E N L s' ∧ ReadyOther p₀ a L p s' := by
  have hnew : s'.drawn ≤ L → (s'.node p).task.attemptId ≠ some a := by
    intro hl heq
    rw [ha.attemptId, Option.some_inj, h.entropy] at heq
    exact hE s.drawn h.drawn (ha.taken.trans_le hl) heq
  refine ⟨h.of ha.draws fun hl _ hn => ?_, fun hl hp => hp ▸ hnew hl⟩
  by_cases hq : p₀ = p
  · exact absurd hn.1 (hq ▸ hnew hl)
  · exact ⟨(ha.task p₀ hq).attemptId ▸ hn.1, ha.status p₀ ▸ hn.2⟩

theorem spent_stable (hE : ∀ i, N ≤ i → i < L → (E i).attemptId ≠ a) :
    ServerStable b (fun _ => Spent b p₀ a E N L) (ReadyOther p₀ a L) where
  mono _ h := h
  silent hq h := h.same hq.sameAttempts
  ready_silent hq h := h.of hq.draws (hq.task p₀).attemptId
  ready_statusSet hs h := h.of hs.draws (hs.task p₀).attemptId
  ready_of_inFlight := by
    rintro p s hp h hf - hl rfl ha
    exact h.spent hl hp ⟨ha, hf⟩
  container hb ht hs h := h.statusSet hs fun hp => by
    rw [Bunch.isTask_of_node? hb, ht] at hp
    cases hp
  calm _ _ _ hr hs h := h.statusSet hs fun _ hst => hr hst
  cleared _ hc h := h.cleared hc
  cleared_calm _ _ hc h := h.cleared hc
  cleared_or_forgettable := .inl fun _ hc h => h.cleared hc
  lowered _ _ hst hs h := h.statusSet hs fun _ hf => by simp [hst] at hf
  settled _ _ hl h := h.same hl.sameAttempts
  raised _ _ _ hr hs hl h := (h.statusSet hs fun _ _ => hr).same hl.sameAttempts
  touched _ hl h := h.same hl.sameAttempts
  attempt _ := Triple.of_forall fun s ⟨h, _⟩ => (incrementTryNo_spec _ s).conseq (fun _ hu => hu)
    (fun _ _ hu => h.newAttempt hE hu.2) fun _ _ hu => (h.newAttempt hE hu.2).1
  unknown _ _ := (sameAttempts_markSubmissionUnknown _ _).keeps fun _ _ hs h => h.same hs
  adopt _ _ := (sameAttempts_adopt _ _).keeps fun _ _ hs h => h.same hs
  deleteInLimit _ := (sameAttempts_deleteInLimit _ _ _).keeps fun _ _ hs h => h.same hs

end Spent

/-! ### Runs of the server -/

/-- The tasks of a flow that was just built have no attempt. -/
theorem State.AttemptsDrawn.install {s : State} (h : s.AttemptsDrawn) (b : Bunch) (f : Tree)
    (generation : String) : (s.install b f generation).AttemptsDrawn := by
  refine h.of ⟨rfl, le_rfl⟩ fun p => ?_
  simp only [State.install]
  split_ifs
  · split
    · exact .inr rfl
    · exact .inl rfl
  · exact .inl rfl

theorem Spent.install {b b' : Bunch} {p₀ : NodePath} {a : String} {E : ℕ → Draw} {N L : ℕ}
    {s : State} (h : Spent b p₀ a E N L s) {f : Tree}
    (hnode : ∀ p, flowName p ≠ f.name → b'.node? p = b.node? p) (generation : String) :
    Spent b' p₀ a E N L (s.install b' f generation) where
  entropy := h.entropy
  drawn := h.drawn
  spent hl ht hn := by
    by_cases hf : flowName p₀ = f.name
    · obtain ⟨t, hb, -⟩ := Bunch.exists_of_isTask ht
      simp [State.InFlightWith, State.install, hf, hb] at hn
    · have ht' : b.isTask p₀ = true := by rwa [Bunch.isTask, hnode p₀ hf] at ht
      exact h.spent hl ht' (by simpa [State.InFlightWith, State.install, hf] using hn)

theorem State.sameAttempts_suspended (s : State) (p : NodePath) (suspended : Bool)
    (marks : List Mark) :
    s.SameAttempts { s with
      node := Function.update s.node p { s.node p with suspended }, marks } := by
  refine ⟨⟨rfl, le_rfl⟩, fun q => ?_, fun q => ?_⟩
  all_goals
    by_cases hq : q = p
    · subst hq
      simp
    · simp [hq]

/-- **A step of the server leaves every attempt drawn.** -/
theorem State.AttemptsDrawn.step {w w' : World} {x : Action} (h : w.state.AttemptsDrawn)
    (hs : w.step x = some w') : w'.state.AttemptsDrawn := by
  rcases World.step_cases hs with ⟨moved, -, rfl⟩ |
    ⟨f, _, _, generation, -, hl⟩ | ⟨f, wf, isFlow, generation, now, realNow, -, hr⟩ | ⟨m, hm, rfl⟩
  · exact h
  · obtain ⟨fresh, marks, rfl⟩ := World.load_eq_some hl
    exact h.install _ f generation
  · obtain ⟨hmem, suspended, marks, rfl⟩ := World.replace_eq_some hr
    exact (((attemptsDrawn_stable _).begin (Bunch.node?_flow hmem) false now realNow).exec
      (h.install _ f generation)).same (State.sameAttempts_suspended _ _ _ _)
  · exact ((attemptsDrawn_stable w.bunch).action hm).exec h

/-- **A step of the server leaves a spent attempt spent.** -/
theorem Spent.step {w w' : World} {x : Action} {p₀ : NodePath} {a : String} {E : ℕ → Draw}
    {N L : ℕ} (hE : ∀ i, N ≤ i → i < L → (E i).attemptId ≠ a)
    (h : Spent w.bunch p₀ a E N L w.state) (hs : w.step x = some w') :
    Spent w'.bunch p₀ a E N L w'.state := by
  rcases World.step_cases hs with ⟨moved, -, rfl⟩ |
    ⟨f, wf, isFlow, generation, -, hl⟩ | ⟨f, wf, isFlow, generation, now, realNow, -, hr⟩ |
      ⟨m, hm, rfl⟩
  · exact h.same ⟨⟨rfl, le_rfl⟩, fun _ => rfl, fun _ => rfl⟩
  · obtain ⟨fresh, marks, rfl⟩ := World.load_eq_some hl
    exact (h.install (fun p hp => Bunch.node?_addFlow wf isFlow fresh hp) generation).same
      ⟨⟨rfl, le_rfl⟩, fun _ => rfl, fun _ => rfl⟩
  · obtain ⟨hmem, suspended, marks, rfl⟩ := World.replace_eq_some hr
    exact (((spent_stable hE).begin (Bunch.node?_flow hmem) false now realNow).exec
      (h.install (fun p hp => Bunch.node?_replaceFlow wf isFlow hp) generation)).same
        (State.sameAttempts_suspended _ _ _ _)
  · exact ((spent_stable hE).action hm).exec h

theorem attemptsDrawn_of_reachable {w : World} (h : server.Reachable StepSystem.Free w) :
    w.state.AttemptsDrawn := by
  refine StepSystem.Reachable.invariant (I := fun w => w.state.AttemptsDrawn) ?_
    (fun _ _ _ hw _ hs => hw.step hs) h
  rintro _ ⟨entropy, rfl⟩ p a hp
  cases hp

/-- What was drawn so far has distinct attempts. -/
def State.DrawsFresh (s : State) : Prop :=
  ∀ i < s.drawn, ∀ j < s.drawn, (s.entropy i).attemptId = (s.entropy j).attemptId → i = j

instance (s : State) : Decidable s.DrawsFresh :=
  inferInstanceAs (Decidable (∀ i < s.drawn, ∀ j < s.drawn, _ → _))

/-- A run goes on with the stream. -/
theorem World.draws_of_run {w w' : World} {as : List Action}
    (h : server.run StepSystem.Free w as = some w') : w.state.Draws w'.state := by
  have hw : Spent w'.bunch [] "" w.state.entropy w.state.drawn 0 w'.state :=
    StepSystem.run_invariant (I := fun v => Spent v.bunch [] "" w.state.entropy w.state.drawn 0
      v.state) (fun _ _ _ hv _ hs => hv.step (fun _ _ hi => absurd hi (Nat.not_lt_zero _)) hs) as
      ⟨rfl, le_rfl, fun _ ht => by cases ht⟩ h
  exact ⟨hw.entropy, hw.drawn⟩

/-- **A spent attempt stays spent**: one that was drawn and is not current never is again. -/
theorem not_isCurrent_of_run {w w' : World} {as : List Action}
    (hrun : server.run StepSystem.Free w as = some w') (hfresh : w'.state.DrawsFresh)
    {p : NodePath} {i : ℕ} (hi : i < w.state.drawn)
    (hn : ¬ w.IsCurrent p (w.state.entropy i).attemptId) :
    ¬ w'.IsCurrent p (w.state.entropy i).attemptId := by
  have hdraws := World.draws_of_run hrun
  have hE : ∀ j, w.state.drawn ≤ j → j < w'.state.drawn →
      (w.state.entropy j).attemptId ≠ (w.state.entropy i).attemptId := by
    intro j hj hj' heq
    rw [← hdraws.entropy] at heq
    exact absurd (hfresh j hj' i (hi.trans_le hdraws.drawn) heq) (by omega)
  have hw : Spent w'.bunch p _ _ w.state.drawn w'.state.drawn w'.state :=
    StepSystem.run_invariant (I := fun v => Spent v.bunch p (w.state.entropy i).attemptId
      w.state.entropy w.state.drawn w'.state.drawn v.state) (fun _ _ _ hv _ hs => hv.step hE hs) as
      ⟨rfl, le_rfl, fun _ ht hf => hn ⟨ht, hf⟩⟩ hrun
  exact fun hc => hw.spent le_rfl hc.1 hc.2

/-- **Attempt isolation.** In every run of the server in which the drawn attempts are distinct, a
report is refused and leaves the state as it was when its attempt is not the one of its task, or
when that task is not in flight. This is so in particular for every attempt that a task has had and
that has ceased to be current since. -/
theorem spent_attempt_is_refused {w₀ w₁ w₂ : World} (h : server.Reachable StepSystem.Free w₀)
    {as bs : List Action} (h₁ : server.run StepSystem.Free w₀ as = some w₁)
    (h₂ : server.run StepSystem.Free w₁ bs = some w₂) (hfresh : w₂.state.DrawsFresh) {c : Command}
    {parts : List String} {attemptId : String} (hc : c.report? = some (parts, attemptId))
    (z : Option ZombieDetector) :
    ((∀ p, w₂.bunch.findNode parts = some p → ¬ w₂.IsCurrent p attemptId) →
      Refuses (c.program w₂.bunch z) w₂.state) ∧
    ∀ p, (w₀.state.node p).task.attemptId = some attemptId → ¬ w₁.IsCurrent p attemptId →
      w₂.bunch.findNode parts = some p → Refuses (c.program w₂.bunch z) w₂.state := by
  refine ⟨fun hn => Command.refuses_of_not_isCurrent hc hn z, fun p ha hn hp =>
    Command.refuses_of_not_isCurrent hc (fun q hq => ?_) z⟩
  obtain rfl : p = q := Option.some_inj.mp (hp.symm.trans hq)
  obtain ⟨i, hi, rfl⟩ := attemptsDrawn_of_reachable h p attemptId ha
  have hdraws := World.draws_of_run h₁
  rw [← hdraws.entropy] at hn ⊢
  exact not_isCurrent_of_run h₂ hfresh (hi.trans_le hdraws.drawn) hn

/-- A canonical identifier that ends with a number. -/
def numberedUuid (n : ℕ) : String :=
  let digits := Nat.toDigits 10 n
  "00000000-0000-4000-8000-" ++ String.ofList (List.replicate (12 - digits.length) '0' ++ digits)

theorem numberedUuid_ne (n : ℕ) : numberedUuid n ≠ "" := by
  unfold numberedUuid
  simp

/-- A server without flows that draws canonical identifiers. -/
def World.startNumbered : World :=
  ⟨.empty, .empty fun n => { Draw.fixed false n with
    attemptId := numberedUuid n
    attemptId_ne := numberedUuid_ne n }⟩

/-- The task runs. -/
def firstRun : List Action :=
  [.load shellTree shellTree_wf shellTree_kind "g", .command none (.begin "f" false 0 0),
    .command none (.run ["f", "t"] false)]

/-- The old job reports its end after the task was requeued and run again, and the policy is to
adopt. -/
theorem requeued_attempt_is_refused : ∃ w₀ w₁ w₂,
    server.run StepSystem.Free .startNumbered firstRun = some w₀ ∧
      server.run StepSystem.Free w₀ [.command none (.requeue ["f", "t"])] = some w₁ ∧
      server.run StepSystem.Free w₁ [.command none (.run ["f", "t"] false)] = some w₂ ∧
      isCanonicalUuid (numberedUuid 0) = true ∧ w₀.IsCurrent ["t", "f"] (numberedUuid 0) ∧
      Refuses ((Command.complete ["f", "t"] (numberedUuid 0) (some "password")).program w₂.bunch
        (some ⟨true, .adopt⟩)) w₂.state := by
  have hrun : ((server.run StepSystem.Free .startNumbered firstRun).bind fun w₀ =>
      (server.run StepSystem.Free w₀ [.command none (.requeue ["f", "t"])]).bind fun w₁ =>
        (server.run StepSystem.Free w₁ [.command none (.run ["f", "t"] false)]).map fun w₂ =>
          ((w₀.state.node ["t", "f"]).task.attemptId, decide (w₀.IsCurrent ["t", "f"] (numberedUuid 0)),
            decide (w₁.IsCurrent ["t", "f"] (numberedUuid 0)), decide w₂.state.DrawsFresh,
            w₂.bunch.findNode ["f", "t"])) =
      some (some (numberedUuid 0), true, false, true, some ["t", "f"]) := by
    decide +kernel
  obtain ⟨w₀, h₀, hrun⟩ := Option.bind_eq_some_iff.mp hrun
  obtain ⟨w₁, h₁, hrun⟩ := Option.bind_eq_some_iff.mp hrun
  obtain ⟨w₂, h₂, hv⟩ := Option.map_eq_some_iff.mp hrun
  simp only [Prod.mk.injEq, decide_eq_false_iff_not, decide_eq_true_eq] at hv
  obtain ⟨hid, hcurrent, hspent, hfresh, hfind⟩ := hv
  exact ⟨w₀, w₁, w₂, h₀, h₁, h₂, by decide +kernel, hcurrent,
    (spent_attempt_is_refused (StepSystem.reachable_of_run _ ⟨_, rfl⟩ h₀) h₁ h₂ hfresh rfl _).2
      ["t", "f"] hid hspent hfind⟩

end Takler
