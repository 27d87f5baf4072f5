import Takler.Checkpoint.Files
import Takler.Core.State
import Mathlib

/-!
# The order of publications and the outcomes that reach the loop

A write of a checkpoint has three parts that other writes may come between: its capture, which gets
a sequence number; its publication, by a worker that holds the publish lock; and its outcome, which
a callback applies on the loop (`CheckpointManager._apply_outcome`). Each of them may fail, a worker
may be cancelled while its thread goes on, and a write may be superseded by a newer one.

The files are those of `Takler.Checkpoint.Files`: the steps of one process, of which a publication
is several. On top of them are the results on their way to the loop and what the loop has made of
those it applied: `last_checkpoint_at`, the reason of a failure, and the halt cause of the service.

## Main definitions

* `Result`, `World`, `World.record`: results, the state, and `_apply_outcome`.
* `Event`, `World.step`, `publication`: the step system.
* `World.succeeded`, `World.resolved`, `World.failed`: the captures of applied outcomes.

## Main results

* `Recorded.step`: one event keeps the order of the files and the records of the outcomes.
* `publication_order`: installed checkpoints never go back, and the service state is that of the
  newest outcome.
-/

namespace Takler.Checkpoint

/-- What a write reports to the loop. -/
structure Result where
  success : Bool
  published : Bool
  savedAt : String
  reason : Option String

/-- The result of a write that raised. -/
def Result.failure (reason : String) : Result := ⟨false, false, "", some reason⟩

/-- A write that gave way to a newer view that is on disk. -/
def Result.Superseded (r : Result) : Prop := r.success = true ∧ r.published = false

/-- The files, and what the manager keeps for the outcomes. -/
structure World where
  files : State
  /-- `_write_error_kind`. -/
  writeErrorKind : Option String := none
  /-- The instant of each capture. -/
  savedAt : ℕ → String := fun _ => ""
  /-- The results on their way to the loop. -/
  pending : ℕ → Option Result := fun _ => none
  lastOutcomeSequence : ℕ := 0
  lastSuccessSequence : ℕ := 0
  lastCheckpointAt : Option String
  failureReason : Option String := none
  haltCauses : List HaltCause
  /-- The results that were applied. -/
  applied : ℕ → Option Result := fun _ => none
  /-- The captures that were renamed to the Checkpoint_File, the last one first. -/
  installed : List ℕ := []

/-- One event of the process. -/
inductive Event
  | capture (payload savedAt : String)
  | captureFails (reason : String)
  /-- `_pin_fixed_for_write` gets no version; no reason when the state is changing. -/
  | pinFails (reason : Option String)
  /-- The loop of the periodic snapshots catches an exception. -/
  | loopFails (reason : String)
  | prepareOpen (sequence uuid : ℕ)
  | prepareWrite (sequence : ℕ)
  /-- The preparation fails, is refused for lack of resources, or takes too long. -/
  | prepareFails (sequence : ℕ) (removed : Bool) (reason : String)
  | publish (sequence : ℕ) (removed : Bool)
  | advance (linked : Bool)
  | fails (reason : String)
  /-- The callback of a write whose task was cancelled or raised; its thread may go on. -/
  | finishFails (sequence : ℕ) (reason : String)
  /-- The callback of a write that reported. -/
  | finish (sequence : ℕ)
  | serverHalt
  | serverResume

namespace World

variable (w : World)

/-- The number of the next capture. -/
def next : ℕ := w.files.manager.nextSequence + 1

/-- A result is handed to the loop, unless the write has reported before. -/
def deliver (sequence : ℕ) (r : Result) : World :=
  if w.pending sequence = none ∧ w.applied sequence = none then
    { w with pending := Function.update w.pending sequence (some r) }
  else w

/-- `_apply_outcome`. -/
def record (sequence : ℕ) (r : Result) : World :=
  let w := if r.success ∧ r.published ∧ sequence > w.lastSuccessSequence then
      { w with lastCheckpointAt := some r.savedAt, lastSuccessSequence := sequence }
    else w
  if sequence < w.lastOutcomeSequence then w
  else if ¬ r.published ∧ r.success then w
  else if r.success then
    { w with
      lastOutcomeSequence := sequence
      failureReason := none
      haltCauses := w.haltCauses.filter fun c => c ≠ .checkpointFailure }
  else
    { w with
      lastOutcomeSequence := sequence
      failureReason := some (if r.reason.getD "" = "" then "storage I/O error" else r.reason.getD "")
      haltCauses := if .checkpointFailure ∈ w.haltCauses then w.haltCauses
        else w.haltCauses ++ [.checkpointFailure] }

/-- What the order checks report for a view that is not published. -/
def skipped? (sequence : ℕ) : Option Result :=
  let m := w.files.manager
  if sequence ≤ m.newerFailedSequence ∧ m.newerFailedSequence > m.lastAttemptedSequence then
    some ⟨false, false, w.savedAt sequence, none⟩
  else if sequence ≤ m.lastAttemptedSequence then
    some ⟨m.lastAttemptSucceeded, false, w.savedAt sequence, none⟩
  else none

/-- After a file operation of a publication: the rename to the Checkpoint_File installs the view,
and the end of the publication reports. -/
def advanced (job : Job) : World :=
  match job.pc with
  | .replaceCheckpoint => { w with installed := job.sequence :: w.installed }
  | .cleanup [] success =>
    w.deliver job.sequence ⟨success, success, w.savedAt job.sequence, w.writeErrorKind⟩
  | _ => w

/-- Whether a write has not come to its end. -/
def isOpen (sequence : ℕ) : Bool :=
  (w.files.manager.view? sequence).isSome || w.files.manager.job.any (fun j => j.sequence = sequence)
    || (w.pending sequence).isSome

/-- The failure of a write is noted for the order checks. -/
def noteFailure (sequence : ℕ) : World :=
  let m := w.files.manager
  { w with files := { w.files with manager := { m with
      newerFailedSequence := max m.newerFailedSequence sequence } } }

/-- The result of a write is applied. -/
def finish (sequence : ℕ) (r : Result) : World :=
  { w with
    pending := Function.update w.pending sequence none
    applied := Function.update w.applied sequence (some r) }.record sequence r

/-- One event. -/
def step : Event → Option World
  | .capture payload savedAt => some { w with
      files := w.files.capture payload
      savedAt := Function.update w.savedAt w.next savedAt }
  | .captureFails reason => w.files.captureFails.map fun files =>
      { w with files }.deliver w.next (.failure reason)
  | .pinFails none => some { w with files := w.files.pinFails false }
  | .pinFails (some reason) =>
    some ({ w with files := w.files.pinFails true }.deliver w.next (.failure reason))
  | .loopFails reason =>
    some ({ w with files := w.files.pinFails false }.deliver w.next (.failure reason))
  | .prepareOpen sequence uuid => (w.files.prepareOpen sequence uuid).map fun files =>
      { w with files }
  | .prepareWrite sequence => (w.files.prepareWrite sequence).map fun files => { w with files }
  | .prepareFails sequence removed reason => (w.files.prepareFails sequence removed).map fun files =>
      { w with files }.deliver sequence (.failure reason)
  | .publish sequence removed => (w.files.publish sequence removed).map fun files =>
      match w.skipped? sequence with
      | some r => { w with files }.deliver sequence r
      | none => { w with files, writeErrorKind := none }
  | .advance linked => w.files.manager.job.bind fun job =>
      (w.files.advance linked).map fun files => { w with files }.advanced job
  | .fails reason => w.files.manager.job.bind fun job =>
      w.files.fails.map fun files =>
        match job.pc with
        | .cleanup _ _ => { w with files }
        | _ => { w with files, writeErrorKind := some reason }
  | .finishFails sequence reason =>
    if w.isOpen sequence ∧ w.applied sequence = none then
      some ((w.noteFailure sequence).finish sequence (.failure reason))
    else none
  | .finish sequence => (w.pending sequence).map fun r => w.finish sequence r
  | .serverHalt => some { w with
      haltCauses := if .manual ∈ w.haltCauses then w.haltCauses else w.haltCauses ++ [.manual] }
  | .serverResume => some { w with
      haltCauses := w.haltCauses.filter fun c => c = .checkpointFailure }

/-- The captures whose successful outcome was applied. -/
def succeeded : Set ℕ :=
  {n | ∃ r, w.applied n = some r ∧ r.success = true ∧ r.published = true}

/-- The captures whose outcome was applied and not skipped as superseded. -/
def resolved : Set ℕ := {n | ∃ r, w.applied n = some r ∧ ¬ r.Superseded}

/-- The captures of which a failure was applied. -/
def failed : Set ℕ := {n | ∃ r, w.applied n = some r ∧ r.success = false}

end World

/-- A manager at the start of the service, with what a restore may have left. -/
def World.start (pid : ℕ) (restoredAt : Option String) (causes : List HaltCause) : World where
  files := State.start pid
  lastCheckpointAt := restoredAt
  haltCauses := causes

/-- The runs of one manager. -/
def publication (restoredAt : Option String) (causes : List HaltCause) :
    StepSystem World Event where
  init w := ∃ pid, w = .start pid restoredAt causes
  step := World.step

/-! ### What the applied outcomes leave -/

namespace World

variable {w : World} {n : ℕ} {r : Result}

theorem record_frame (w : World) (n : ℕ) (r : Result) :
    (w.record n r).files = w.files ∧ (w.record n r).savedAt = w.savedAt ∧
      (w.record n r).pending = w.pending ∧ (w.record n r).applied = w.applied ∧
      (w.record n r).installed = w.installed := by
  simp only [record]
  split_ifs <;> simp

theorem finish_frame (w : World) (n : ℕ) (r : Result) :
    (w.finish n r).files = w.files ∧ (w.finish n r).savedAt = w.savedAt ∧
      (w.finish n r).pending = Function.update w.pending n none ∧
      (w.finish n r).applied = Function.update w.applied n (some r) ∧
      (w.finish n r).installed = w.installed :=
  record_frame _ _ _

theorem finish_newest (hr : r.success = true ∧ r.published = true)
    (h : w.lastSuccessSequence < n) :
    (w.finish n r).lastSuccessSequence = n ∧
      (w.finish n r).lastCheckpointAt = some r.savedAt := by
  simp only [finish, record, hr.1, hr.2, true_and, gt_iff_lt, h, if_true]
  split_ifs <;> simp

theorem finish_older
    (h : ¬ ((r.success = true ∧ r.published = true) ∧ w.lastSuccessSequence < n)) :
    (w.finish n r).lastSuccessSequence = w.lastSuccessSequence ∧
      (w.finish n r).lastCheckpointAt = w.lastCheckpointAt := by
  have h' : ¬ (r.success = true ∧ r.published = true ∧ n > w.lastSuccessSequence) :=
    fun hn => h ⟨⟨hn.1, hn.2.1⟩, hn.2.2⟩
  simp only [finish, record, if_neg h']
  split_ifs <;> simp

/-- An older outcome, or one that gave way to a newer view, leaves the service as it is. -/
theorem finish_skipped (h : n < w.lastOutcomeSequence ∨ r.Superseded) :
    (w.finish n r).lastOutcomeSequence = w.lastOutcomeSequence ∧
      (w.finish n r).haltCauses = w.haltCauses := by
  rcases h with h | ⟨hs, hp⟩
  · simp only [finish, record]
    split_ifs <;> simp_all
  · simp only [finish, record]
    split_ifs <;> simp_all

/-- Any other outcome decides about the halt cause. -/
theorem finish_resolved (h : w.lastOutcomeSequence ≤ n) (hr : ¬ r.Superseded) :
    (w.finish n r).lastOutcomeSequence = n ∧
      (.checkpointFailure ∈ (w.finish n r).haltCauses ↔ r.success = false) := by
  have hlt : ¬ n < w.lastOutcomeSequence := h.not_gt
  have hskip : ¬ (¬ r.published = true ∧ r.success = true) := fun hn =>
    hr ⟨hn.2, Bool.eq_false_of_not_eq_true hn.1⟩
  simp only [finish, record]
  cases hs : r.success with
  | true =>
    have hp : r.published = true := by_contra fun hp => hskip ⟨hp, hs⟩
    split_ifs <;> simp_all
  | false => split_ifs <;> simp_all

end World

/-! ### The invariant -/

/-- Views and the running publication have numbers that were given out, the running publication is
the last attempt, and what was installed is not newer. -/
structure Ordered (s : State) (installed : List ℕ) : Prop where
  view : ∀ v ∈ s.manager.views, 0 < v.sequence ∧ v.sequence ≤ s.manager.nextSequence
  job : ∀ j ∈ s.manager.job, (0 < j.sequence ∧ j.sequence ≤ s.manager.nextSequence) ∧
    j.sequence = s.manager.lastAttemptedSequence
  sorted : installed.Pairwise (· ≥ ·)
  bounded : ∀ n ∈ installed, n ≤ s.manager.lastAttemptedSequence

/-- The results are those of captures, and the service state is that of the newest ones applied. -/
structure Recorded (restoredAt : Option String) (causes : List HaltCause) (w : World) : Prop where
  pending : ∀ n r, w.pending n = some r → (0 < n ∧ n ≤ w.files.manager.nextSequence) ∧
    w.applied n = none ∧ (r.success = true → r.published = true → r.savedAt = w.savedAt n)
  applied : ∀ n r, w.applied n = some r → 0 < n ∧ n ≤ w.files.manager.nextSequence
  success : (w.lastSuccessSequence = 0 ∧ w.succeeded = ∅ ∧ w.lastCheckpointAt = restoredAt) ∨
    (IsGreatest w.succeeded w.lastSuccessSequence ∧
      w.lastCheckpointAt = some (w.savedAt w.lastSuccessSequence))
  outcome : (w.lastOutcomeSequence = 0 ∧ w.resolved = ∅ ∧
      (.checkpointFailure ∈ w.haltCauses ↔ .checkpointFailure ∈ causes)) ∨
    (IsGreatest w.resolved w.lastOutcomeSequence ∧
      (.checkpointFailure ∈ w.haltCauses ↔ w.lastOutcomeSequence ∈ w.failed))

/-- The numbers of applied results with a property, after one more was applied. -/
private theorem applied_insert (f : ℕ → Option Result) (n : ℕ) {r : Result} {P : Result → Prop}
    (hr : P r) : {m | ∃ r', Function.update f n (some r) m = some r' ∧ P r'} =
      insert n {m | ∃ r', f m = some r' ∧ P r'} := by
  ext m
  by_cases hm : m = n
  · simp [hm, hr]
  · simp [hm]

private theorem applied_same {f : ℕ → Option Result} {n : ℕ} (ha : f n = none) {r : Result}
    {P : Result → Prop} (hr : ¬ P r) :
    {m | ∃ r', Function.update f n (some r) m = some r' ∧ P r'} =
      {m | ∃ r', f m = some r' ∧ P r'} := by
  ext m
  by_cases hm : m = n
  · simp [hm, hr, ha]
  · simp [hm]

namespace Recorded

variable {restoredAt : Option String} {causes : List HaltCause} {w : World} {n : ℕ} {r : Result}

/-- More captures, and other files. -/
theorem files (h : Recorded restoredAt causes w) {s : State}
    (hs : w.files.manager.nextSequence ≤ s.manager.nextSequence) (kind : Option String) :
    Recorded restoredAt causes { w with files := s, writeErrorKind := kind } where
  pending n r hn := by
    obtain ⟨⟨hpos, hle⟩, hrest⟩ := h.pending n r hn
    exact ⟨⟨hpos, hle.trans hs⟩, hrest⟩
  applied n r hn := ⟨(h.applied n r hn).1, (h.applied n r hn).2.trans hs⟩
  success := h.success
  outcome := h.outcome

theorem installs (h : Recorded restoredAt causes w) (l : List ℕ) :
    Recorded restoredAt causes { w with installed := l } :=
  ⟨h.pending, h.applied, h.success, h.outcome⟩

theorem deliver (h : Recorded restoredAt causes w)
    (hn : 0 < n ∧ n ≤ w.files.manager.nextSequence)
    (hr : r.success = true → r.published = true → r.savedAt = w.savedAt n) :
    Recorded restoredAt causes (w.deliver n r) := by
  unfold World.deliver
  split_ifs with hnew
  · refine ⟨fun m r' hm => ?_, h.applied, h.success, h.outcome⟩
    by_cases hmn : m = n
    · subst hmn
      simp only [Function.update_self, Option.some_inj] at hm
      exact ⟨hn, hnew.2, hm ▸ hr⟩
    · simp only [Function.update_of_ne hmn] at hm
      exact h.pending m r' hm
  · exact h

theorem failure (h : Recorded restoredAt causes w)
    (hn : 0 < n ∧ n ≤ w.files.manager.nextSequence) (reason : String) :
    Recorded restoredAt causes (w.deliver n (.failure reason)) :=
  h.deliver hn fun hs => by cases hs

/-- The service is halted or resumed by a client. -/
theorem halt (h : Recorded restoredAt causes w) {l : List HaltCause}
    (hl : .checkpointFailure ∈ l ↔ .checkpointFailure ∈ w.haltCauses) :
    Recorded restoredAt causes { w with haltCauses := l } where
  pending := h.pending
  applied := h.applied
  success := h.success
  outcome := h.outcome.imp (fun ⟨h₁, h₂, h₃⟩ => ⟨h₁, h₂, hl.trans h₃⟩)
    fun ⟨h₁, h₂⟩ => ⟨h₁, hl.trans h₂⟩

/-- A success with a number greater than all before is the greatest, a smaller one leaves the
greatest where it is. -/
private theorem finish_success (h : Recorded restoredAt causes w)
    (hn : 0 < n ∧ n ≤ w.files.manager.nextSequence) (ha : w.applied n = none)
    (hr : r.success = true → r.published = true → r.savedAt = w.savedAt n) :
    ((w.finish n r).lastSuccessSequence = 0 ∧ (w.finish n r).succeeded = ∅ ∧
        (w.finish n r).lastCheckpointAt = restoredAt) ∨
      (IsGreatest (w.finish n r).succeeded (w.finish n r).lastSuccessSequence ∧
        (w.finish n r).lastCheckpointAt =
          some ((w.finish n r).savedAt (w.finish n r).lastSuccessSequence)) := by
  obtain ⟨-, hsaved, -, happlied, -⟩ := World.finish_frame w n r
  by_cases hp : r.success = true ∧ r.published = true
  · have hset : (w.finish n r).succeeded = insert n w.succeeded := by
      rw [World.succeeded, happlied]
      exact applied_insert w.applied n hp
    rcases lt_or_ge w.lastSuccessSequence n with hlt | hge
    · obtain ⟨hlast, hat⟩ := World.finish_newest hp hlt
      refine .inr ?_
      rw [hset, hlast, hat, hsaved, hr hp.1 hp.2]
      refine ⟨?_, rfl⟩
      rcases h.success with ⟨-, hempty, -⟩ | ⟨hgreatest, -⟩
      · simp [hempty]
      · have hmax := hgreatest.insert n
        rwa [max_eq_left hlt.le] at hmax
    · obtain ⟨hlast, hat⟩ := World.finish_older (r := r) fun hn => hge.not_gt hn.2
      rcases h.success with ⟨hzero, -⟩ | ⟨hgreatest, hold⟩
      · omega
      · refine .inr ?_
        rw [hset, hlast, hat, hsaved]
        exact ⟨max_eq_right hge ▸ hgreatest.insert n, hold⟩
  · have hset : (w.finish n r).succeeded = w.succeeded := by
      rw [World.succeeded, happlied]
      exact applied_same ha hp
    obtain ⟨hlast, hat⟩ := World.finish_older (w := w) (n := n) fun hn => hp hn.1
    rw [hset, hlast, hat, hsaved]
    exact h.success

/-- The same for the outcomes that are not skipped, and the halt cause. -/
private theorem finish_outcome (h : Recorded restoredAt causes w)
    (hn : 0 < n ∧ n ≤ w.files.manager.nextSequence) (ha : w.applied n = none) :
    ((w.finish n r).lastOutcomeSequence = 0 ∧ (w.finish n r).resolved = ∅ ∧
        (.checkpointFailure ∈ (w.finish n r).haltCauses ↔ .checkpointFailure ∈ causes)) ∨
      (IsGreatest (w.finish n r).resolved (w.finish n r).lastOutcomeSequence ∧
        (.checkpointFailure ∈ (w.finish n r).haltCauses ↔
          (w.finish n r).lastOutcomeSequence ∈ (w.finish n r).failed)) := by
  obtain ⟨-, -, -, happlied, -⟩ := World.finish_frame w n r
  have hfailed {k : ℕ} (hk : k ∈ w.resolved) : k ∈ (w.finish n r).failed ↔ k ∈ w.failed := by
    have hne : k ≠ n := by
      rintro rfl
      obtain ⟨r', hr', -⟩ := hk
      rw [ha] at hr'
      cases hr'
    simp only [World.failed, happlied, Set.mem_ofPred_eq, Function.update_of_ne hne]
  by_cases hp : r.Superseded
  · have hset : (w.finish n r).resolved = w.resolved := by
      rw [World.resolved, happlied]
      exact applied_same (P := fun r => ¬ r.Superseded) ha (not_not.mpr hp)
    obtain ⟨hlast, hcauses⟩ := World.finish_skipped (w := w) (n := n) (.inr hp)
    rw [hset, hlast, hcauses]
    exact h.outcome.imp_right fun ⟨hgreatest, hiff⟩ =>
      ⟨hgreatest, hiff.trans (hfailed hgreatest.1).symm⟩
  · have hset : (w.finish n r).resolved = insert n w.resolved := by
      rw [World.resolved, happlied]
      exact applied_insert (P := fun r => ¬ r.Superseded) w.applied n hp
    rcases lt_or_ge n w.lastOutcomeSequence with hlt | hge
    · obtain ⟨hlast, hcauses⟩ := World.finish_skipped (r := r) (.inl hlt)
      rcases h.outcome with ⟨hzero, -⟩ | ⟨hgreatest, hiff⟩
      · omega
      · refine .inr ?_
        rw [hset, hlast, hcauses]
        exact ⟨max_eq_right hlt.le ▸ hgreatest.insert n,
          hiff.trans (hfailed hgreatest.1).symm⟩
    · obtain ⟨hlast, hcauses⟩ := World.finish_resolved hge hp
      refine .inr ?_
      rw [hset, hlast, hcauses]
      refine ⟨?_, ?_⟩
      · rcases h.outcome with ⟨-, hempty, -⟩ | ⟨hgreatest, -⟩
        · simp [hempty]
        · have hmax := hgreatest.insert n
          rwa [max_eq_left hge] at hmax
      · simp [World.failed, happlied]

/-- **An outcome is applied.** -/
theorem finish (h : Recorded restoredAt causes w) (hn : 0 < n ∧ n ≤ w.files.manager.nextSequence)
    (ha : w.applied n = none)
    (hr : r.success = true → r.published = true → r.savedAt = w.savedAt n) :
    Recorded restoredAt causes (w.finish n r) := by
  obtain ⟨hfiles, hsaved, hpending, happlied, -⟩ := World.finish_frame w n r
  refine ⟨fun m r' hm => ?_, fun m r' hm => ?_, ?_, ?_⟩
  · rw [hpending] at hm
    rw [hfiles, happlied, hsaved]
    by_cases hmn : m = n
    · simp [hmn] at hm
    · rw [Function.update_of_ne hmn] at hm ⊢
      exact h.pending m r' hm
  · rw [happlied] at hm
    rw [hfiles]
    by_cases hmn : m = n
    · exact hmn ▸ hn
    · rw [Function.update_of_ne hmn] at hm
      exact h.applied m r' hm
  · exact h.finish_success hn ha hr
  · exact h.finish_outcome hn ha

end Recorded

/-! ### One event -/

namespace Ordered

variable {s t : State} {installed : List ℕ}

/-- Steps before and after the publications: views come and go, and the order of attempts is as
before. -/
theorem views (h : Ordered s installed) (hj : t.manager.job = s.manager.job)
    (hl : t.manager.lastAttemptedSequence = s.manager.lastAttemptedSequence)
    (hn : s.manager.nextSequence ≤ t.manager.nextSequence)
    (hv : ∀ v ∈ t.manager.views, (∃ u ∈ s.manager.views, u.sequence = v.sequence) ∨
      0 < v.sequence ∧ v.sequence ≤ t.manager.nextSequence) : Ordered t installed where
  view v hv' := by
    rcases hv v hv' with ⟨u, hu, heq⟩ | hnew
    · exact ⟨heq ▸ (h.view u hu).1, heq ▸ (h.view u hu).2.trans hn⟩
    · exact hnew
  job j hj' := by
    rw [hj] at hj'
    obtain ⟨⟨hpos, hle⟩, heq⟩ := h.job j hj'
    exact ⟨⟨hpos, hle.trans hn⟩, hl ▸ heq⟩
  sorted := h.sorted
  bounded := hl ▸ h.bounded

theorem capture (h : Ordered s installed) (payload : String) :
    Ordered (s.capture payload) installed := by
  refine h.views rfl rfl (Nat.le_succ _) fun v hv => ?_
  rcases List.mem_append.mp hv with hv | hv
  · exact .inl ⟨v, hv, rfl⟩
  · rw [List.mem_singleton.mp hv]
    exact .inr ⟨Nat.succ_pos _, le_rfl⟩

theorem captureFails (h : Ordered s installed) (ht : s.captureFails = some t) :
    Ordered t installed := by
  unfold State.captureFails at ht
  dsimp only at ht
  split at ht
  · cases ht
  · rename_i hj
    cases ht
    refine ⟨fun v hv => ?_, fun j hj' => ?_, h.sorted, fun n hn => ?_⟩
    · exact ⟨(h.view v hv).1, (h.view v hv).2.trans (Nat.le_succ _)⟩
    · rw [hj] at hj'
      cases hj'
    · exact (h.bounded n hn).trans (le_max_left _ _)

theorem pinFails (h : Ordered s installed) (noted : Bool) : Ordered (s.pinFails noted) installed :=
  h.views rfl rfl (Nat.le_succ _) fun v hv => .inl ⟨v, hv, rfl⟩

theorem setStage (h : Ordered s installed) {dir : Directory FileName Content} (sequence : ℕ)
    (stage : Stage) :
    Ordered { s with dir, manager := s.manager.setStage sequence stage } installed := by
  refine h.views rfl rfl le_rfl fun v hv => .inl ?_
  obtain ⟨u, hu, rfl⟩ := List.mem_map.mp hv
  refine ⟨u, hu, ?_⟩
  split_ifs <;> rfl

theorem dropView (h : Ordered s installed) {dir : Directory FileName Content} (sequence : ℕ)
    (reported : List Snapshot) :
    Ordered { s with dir, manager := s.manager.dropView sequence, reported } installed :=
  h.views rfl rfl le_rfl fun v hv => .inl ⟨v, (List.mem_filter.mp hv).1, rfl⟩

theorem noteFailure (h : Ordered s installed) (failed : ℕ) :
    Ordered { s with manager := { s.manager with newerFailedSequence := failed } } installed :=
  h.views rfl rfl le_rfl fun v hv => .inl ⟨v, hv, rfl⟩

theorem prepareOpen (h : Ordered s installed) {sequence uuid : ℕ}
    (ht : s.prepareOpen sequence uuid = some t) :
    Ordered t installed ∧ s.manager.nextSequence ≤ t.manager.nextSequence := by
  unfold State.prepareOpen at ht
  split at ht
  · dsimp only at ht
    split at ht
    · cases ht
    · cases ht
      exact ⟨h.setStage sequence _, le_rfl⟩
  · cases ht

theorem prepareWrite (h : Ordered s installed) {sequence : ℕ}
    (ht : s.prepareWrite sequence = some t) :
    Ordered t installed ∧ s.manager.nextSequence ≤ t.manager.nextSequence := by
  unfold State.prepareWrite at ht
  split at ht
  · cases ht
    exact ⟨h.setStage sequence _, le_rfl⟩
  · cases ht

theorem prepareFails (h : Ordered s installed) {sequence : ℕ} {removed : Bool}
    (ht : s.prepareFails sequence removed = some t) :
    Ordered t installed ∧ s.manager.nextSequence ≤ t.manager.nextSequence ∧
      0 < sequence ∧ sequence ≤ t.manager.nextSequence := by
  unfold State.prepareFails at ht
  split at ht
  · rename_i v hv
    cases ht
    have hmem : v ∈ s.manager.views := List.mem_of_find?_eq_some hv
    have hseq : v.sequence = sequence := by simpa using List.find?_some hv
    exact ⟨(h.dropView sequence _).noteFailure _, le_rfl, hseq ▸ h.view v hmem⟩
  · cases ht

/-- A publication that passes the order checks is the last attempt, and newer than all before. -/
theorem publish (h : Ordered s installed) {sequence : ℕ} {removed : Bool}
    (ht : s.publish sequence removed = some t) :
    Ordered t installed ∧ s.manager.nextSequence ≤ t.manager.nextSequence ∧
      0 < sequence ∧ sequence ≤ t.manager.nextSequence := by
  unfold State.publish at ht
  dsimp only at ht
  split at ht
  · rename_i v hnone hv
    have hmem : v ∈ s.manager.views := List.mem_of_find?_eq_some hv
    have hseq : v.sequence = sequence := by simpa using List.find?_some hv
    have hbound := hseq ▸ h.view v hmem
    split at ht
    · cases ht
    · rename_i job hjob
      have hjseq : job.sequence = sequence := by
        unfold State.start? at hjob
        split at hjob <;> cases hjob <;> exact hseq
      split at ht
      · cases ht
        exact ⟨h.dropView sequence _, le_rfl, hbound⟩
      · split at ht
        · cases ht
          exact ⟨h.dropView sequence _, le_rfl, hbound⟩
        · rename_i hlast
          cases ht
          refine ⟨⟨fun u hu => h.view u (List.mem_filter.mp hu).1, ?_, h.sorted, fun n hn => ?_⟩,
            le_rfl, hbound⟩
          · rintro _ ⟨⟩
            exact ⟨hjseq ▸ hbound, hjseq⟩
          · exact (h.bounded n hn).trans (not_le.mp hlast).le
  · cases ht

/-- The running publication goes on. -/
theorem goto (h : Ordered s installed) {job : Job} (hj : s.manager.job = some job) (pc : Pc)
    (dir : Directory FileName Content) : Ordered (s.goto job pc dir) installed where
  view := h.view
  job := by
    rintro _ ⟨⟩
    exact h.job job hj
  sorted := h.sorted
  bounded := h.bounded

theorem leave (h : Ordered s installed) (job : Job) (success : Bool) :
    Ordered (s.leave job success) installed where
  view := h.view
  job := by rintro _ ⟨⟩
  sorted := h.sorted
  bounded := h.bounded

/-- The running publication installs its view: none before was newer. -/
theorem install (h : Ordered s installed) {job : Job} (hj : s.manager.job = some job) :
    Ordered s (job.sequence :: installed) where
  view := h.view
  job := h.job
  sorted := List.pairwise_cons.mpr ⟨fun n hn => (h.job job hj).2 ▸ h.bounded n hn, h.sorted⟩
  bounded n hn := by
    rcases List.mem_cons.mp hn with rfl | hn
    · exact (h.job job hj).2.le
    · exact h.bounded n hn

theorem advance (h : Ordered s installed) {linked : Bool} (ht : s.advance linked = some t) :
    Ordered t installed ∧ s.manager.nextSequence ≤ t.manager.nextSequence := by
  unfold State.advance at ht
  split at ht
  · cases ht
  · rename_i job hj
    have hgoto (pc : Pc) (dir : Directory FileName Content) :
        Ordered (s.goto job pc dir) installed ∧
          s.manager.nextSequence ≤ (s.goto job pc dir).manager.nextSequence :=
      ⟨h.goto hj pc dir, le_rfl⟩
    split at ht
    · cases ht
      exact hgoto _ _
    · cases ht
      exact hgoto _ _
    · unfold State.copyToBackupTemp at ht
      dsimp only at ht
      split at ht
      · cases ht
        exact hgoto _ _
      · split at ht <;> cases ht <;> exact hgoto _ _
    · cases ht
      exact hgoto _ _
    · split at ht <;> cases ht <;> exact hgoto _ _
    · split at ht <;> cases ht
      exact hgoto _ _
    · cases ht
      exact hgoto _ _
    · cases ht
      exact hgoto _ _
    · cases ht
      exact ⟨h.leave job _, le_rfl⟩

theorem fails (h : Ordered s installed) (ht : s.fails = some t) :
    Ordered t installed ∧ s.manager.nextSequence ≤ t.manager.nextSequence := by
  unfold State.fails at ht
  split at ht
  · cases ht
  · rename_i job hj
    split at ht <;> cases ht <;> exact ⟨h.goto hj _ _, le_rfl⟩

end Ordered

/-- The order checks never report a view as published. -/
theorem World.skipped?_published {w : World} {n : ℕ} {r : Result} (h : w.skipped? n = some r) :
    r.published = false := by
  simp only [World.skipped?] at h
  split_ifs at h <;> cases h <;> rfl

theorem captureFails_nextSequence {s t : State} (h : s.captureFails = some t) :
    t.manager.nextSequence = s.manager.nextSequence + 1 := by
  unfold State.captureFails at h
  dsimp only at h
  split at h <;> cases h
  rfl

/-- A write that has not come to its end has a number that was given out. -/
theorem Recorded.isOpen {restoredAt : Option String} {causes : List HaltCause} {w : World} {n : ℕ}
    (h : Recorded restoredAt causes w) (ho : Ordered w.files w.installed)
    (hn : w.isOpen n = true) : 0 < n ∧ n ≤ w.files.manager.nextSequence := by
  simp only [World.isOpen, Bool.or_eq_true, Option.isSome_iff_exists, Option.any_eq_true,
    decide_eq_true_eq] at hn
  rcases hn with (⟨v, hv⟩ | ⟨j, hj, rfl⟩) | ⟨r, hr⟩
  · have hseq : v.sequence = n := by simpa using List.find?_some hv
    exact hseq ▸ ho.view v (List.mem_of_find?_eq_some hv)
  · exact (ho.job j hj).1
  · exact (h.pending n r hr).1

/-- A capture gets the next number, which no result has. -/
theorem Recorded.capture {restoredAt : Option String} {causes : List HaltCause} {w : World}
    (h : Recorded restoredAt causes w) (payload savedAt : String) :
    Recorded restoredAt causes { w with
      files := w.files.capture payload
      savedAt := Function.update w.savedAt w.next savedAt } := by
  have hsaved {n : ℕ} (hn : n ≤ w.files.manager.nextSequence) :
      Function.update w.savedAt w.next savedAt n = w.savedAt n :=
    Function.update_of_ne (Nat.lt_succ_of_le hn).ne _ _
  have hfiles := h.files (s := w.files.capture payload) (Nat.le_succ _) w.writeErrorKind
  refine ⟨fun n r hn => ?_, hfiles.applied, ?_, hfiles.outcome⟩
  · obtain ⟨hle, hnone, heq⟩ := h.pending n r hn
    refine ⟨(hfiles.pending n r hn).1, hnone, fun h₁ h₂ => ?_⟩
    rw [heq h₁ h₂]
    exact (hsaved hle.2).symm
  · refine h.success.imp_right fun ⟨hgreatest, hat⟩ => ⟨hgreatest, ?_⟩
    obtain ⟨r, hr, -⟩ := hgreatest.1
    exact hat.trans (congrArg some (hsaved (h.applied _ r hr).2).symm)

/-- A failure is noted with the next number. -/
theorem Recorded.failsNext {restoredAt : Option String} {causes : List HaltCause} {w : World}
    (h : Recorded restoredAt causes w) {s : State} (hs : s.manager.nextSequence = w.next)
    (reason : String) :
    Recorded restoredAt causes ({ w with files := s }.deliver w.next (.failure reason)) :=
  (h.files (hs ▸ Nat.le_succ _) w.writeErrorKind).failure ⟨Nat.succ_pos _, hs.ge⟩ reason

@[simp]
theorem World.deliver_files (w : World) (n : ℕ) (r : Result) : (w.deliver n r).files = w.files := by
  unfold World.deliver
  split_ifs <;> rfl

@[simp]
theorem World.deliver_installed (w : World) (n : ℕ) (r : Result) :
    (w.deliver n r).installed = w.installed := by
  unfold World.deliver
  split_ifs <;> rfl

/-- **One event keeps the order and the records.** -/
theorem Recorded.step {restoredAt : Option String} {causes : List HaltCause} {w w' : World}
    {e : Event} (h : Recorded restoredAt causes w) (ho : Ordered w.files w.installed)
    (hs : w.step e = some w') : Recorded restoredAt causes w' ∧ Ordered w'.files w'.installed := by
  cases e with
  | capture payload savedAt =>
    cases hs
    exact ⟨h.capture payload savedAt, ho.capture payload⟩
  | captureFails reason =>
    obtain ⟨s, hc, rfl⟩ := Option.map_eq_some_iff.mp hs
    refine ⟨h.failsNext (captureFails_nextSequence hc) reason, ?_⟩
    simpa using ho.captureFails hc
  | pinFails reason =>
    cases reason with
    | none =>
      cases hs
      exact ⟨h.files (Nat.le_succ _) w.writeErrorKind, ho.pinFails false⟩
    | some reason =>
      cases hs
      exact ⟨h.failsNext rfl reason, by simpa using ho.pinFails true⟩
  | loopFails reason =>
    cases hs
    exact ⟨h.failsNext rfl reason, by simpa using ho.pinFails false⟩
  | prepareOpen sequence uuid =>
    obtain ⟨s, hc, rfl⟩ := Option.map_eq_some_iff.mp hs
    have ho' := ho.prepareOpen hc
    exact ⟨h.files ho'.2 w.writeErrorKind, ho'.1⟩
  | prepareWrite sequence =>
    obtain ⟨s, hc, rfl⟩ := Option.map_eq_some_iff.mp hs
    have ho' := ho.prepareWrite hc
    exact ⟨h.files ho'.2 w.writeErrorKind, ho'.1⟩
  | prepareFails sequence removed reason =>
    obtain ⟨s, hc, rfl⟩ := Option.map_eq_some_iff.mp hs
    obtain ⟨ho', hle, hn⟩ := ho.prepareFails hc
    exact ⟨(h.files hle w.writeErrorKind).failure hn reason, by simpa using ho'⟩
  | publish sequence removed =>
    obtain ⟨s, hc, rfl⟩ := Option.map_eq_some_iff.mp hs
    obtain ⟨ho', hle, hn⟩ := ho.publish hc
    split
    · rename_i r hr
      refine ⟨(h.files hle w.writeErrorKind).deliver hn fun _ hp => ?_, by simpa using ho'⟩
      rw [World.skipped?_published hr] at hp
      cases hp
    · exact ⟨h.files hle none, ho'⟩
  | advance linked =>
    obtain ⟨job, hj, hs⟩ := Option.bind_eq_some_iff.mp hs
    obtain ⟨s, hc, rfl⟩ := Option.map_eq_some_iff.mp hs
    obtain ⟨ho', hle⟩ := ho.advance hc
    have hf := h.files hle w.writeErrorKind
    unfold World.advanced
    split
    · exact ⟨hf.installs _, ((ho.install hj).advance hc).1⟩
    · have hn := (ho.job job hj).1
      refine ⟨hf.deliver ⟨hn.1, hn.2.trans hle⟩ fun _ _ => rfl, by simpa using ho'⟩
    · exact ⟨hf, ho'⟩
  | fails reason =>
    obtain ⟨job, -, hs⟩ := Option.bind_eq_some_iff.mp hs
    obtain ⟨s, hc, rfl⟩ := Option.map_eq_some_iff.mp hs
    obtain ⟨ho', hle⟩ := ho.fails hc
    split
    · exact ⟨h.files hle w.writeErrorKind, ho'⟩
    · exact ⟨h.files hle (some reason), ho'⟩
  | finishFails sequence reason =>
    simp only [World.step] at hs
    split at hs
    · rename_i hopen
      cases hs
      have hn := h.isOpen ho hopen.1
      have hnoted := h.files (s := (w.noteFailure sequence).files) le_rfl w.writeErrorKind
      refine ⟨hnoted.finish hn hopen.2 fun hs => (nomatch hs), ?_⟩
      obtain ⟨hfiles, -, -, -, hinstalled⟩ :=
        World.finish_frame (w.noteFailure sequence) sequence (.failure reason)
      rw [hfiles, hinstalled]
      exact ho.noteFailure _
    · cases hs
  | finish sequence =>
    obtain ⟨r, hr, rfl⟩ := Option.map_eq_some_iff.mp hs
    obtain ⟨hn, hnone, hsaved⟩ := h.pending sequence r hr
    obtain ⟨hfiles, -, -, -, hinstalled⟩ := World.finish_frame w sequence r
    refine ⟨h.finish hn hnone hsaved, ?_⟩
    rw [hfiles, hinstalled]
    exact ho
  | serverHalt =>
    cases hs
    refine ⟨h.halt ?_, ho⟩
    split_ifs <;> simp
  | serverResume =>
    cases hs
    exact ⟨h.halt (by simp), ho⟩

/-- Every reached state is in order. -/
theorem recorded_of_reachable {restoredAt : Option String} {causes : List HaltCause} {w : World}
    (h : (publication restoredAt causes).Reachable StepSystem.Free w) :
    Recorded restoredAt causes w ∧ Ordered w.files w.installed := by
  induction h with
  | init h =>
    obtain ⟨pid, rfl⟩ := h
    refine ⟨⟨?_, ?_, .inl ⟨rfl, ?_, rfl⟩, .inl ⟨rfl, ?_, Iff.rfl⟩⟩, ?_, ?_, .nil, ?_⟩
    · intro n r hn
      cases hn
    · intro n r hn
      cases hn
    · simp [World.succeeded, World.start]
    · simp [World.resolved, World.start]
    · intro v hv
      cases hv
    · intro j hj
      cases hj
    · intro n hn
      cases hn
  | step _ _ hs ih => exact ih.1.step ih.2 hs

/-- **Publication order.** Whatever the order of captures, publications, failures and callbacks: the
captures renamed to the Checkpoint_File never go back (the list has the last one first);
`last_checkpoint_at` is the instant of the newest capture whose success was applied; and the halt
cause is there exactly when the newest applied outcome that did not give way is a failure. Before
any such outcome both are what the restore left. -/
theorem publication_order {restoredAt : Option String} {causes : List HaltCause} {w : World}
    (h : (publication restoredAt causes).Reachable StepSystem.Free w) :
    w.installed.Pairwise (· ≥ ·) ∧
      (w.succeeded = ∅ ∧ w.lastCheckpointAt = restoredAt ∨
        ∃ n, IsGreatest w.succeeded n ∧ w.lastCheckpointAt = some (w.savedAt n)) ∧
      (w.resolved = ∅ ∧ (.checkpointFailure ∈ w.haltCauses ↔ .checkpointFailure ∈ causes) ∨
        ∃ n, IsGreatest w.resolved n ∧ (.checkpointFailure ∈ w.haltCauses ↔ n ∈ w.failed)) := by
  obtain ⟨hrecorded, hordered⟩ := recorded_of_reachable h
  exact ⟨hordered.sorted, hrecorded.success.imp And.right fun hn => ⟨_, hn⟩,
    hrecorded.outcome.imp And.right fun hn => ⟨_, hn⟩⟩

/-- The newer of two captures is published first, the older gives way to it, and a third capture
fails. -/
def overtaken : List Event :=
  [.capture "a" "10:00", .capture "b" "10:01", .publish 2 true] ++ List.replicate 7 (.advance false)
    ++ [.publish 1 true, .finish 1, .finish 2, .captureFails "storage full", .finish 3]

theorem overtaken_in_order : ∃ w : World,
    (publication none []).run StepSystem.Free (.start 7 none []) overtaken = some w ∧
      w.installed = [2] ∧ w.lastCheckpointAt = some "10:01" ∧
      .checkpointFailure ∈ w.haltCauses ∧ w.installed.Pairwise (· ≥ ·) ∧
      (w.resolved = ∅ ∧ (.checkpointFailure ∈ w.haltCauses ↔ HaltCause.checkpointFailure ∈ []) ∨
        ∃ n, IsGreatest w.resolved n ∧ (.checkpointFailure ∈ w.haltCauses ↔ n ∈ w.failed)) := by
  have hview : ((publication none []).run StepSystem.Free (.start 7 none []) overtaken).map
      (fun w => (w.installed, w.lastCheckpointAt, w.haltCauses)) =
        some ([2], some "10:01", [.checkpointFailure]) := by decide +kernel
  obtain ⟨w, hw, hv⟩ := Option.map_eq_some_iff.mp hview
  simp only [Prod.mk.injEq] at hv
  obtain ⟨hsorted, -, hcause⟩ := publication_order (StepSystem.reachable_of_run _ ⟨7, rfl⟩ hw)
  exact ⟨w, hw, hv.1, hv.2.1, by simp [hv.2.2], hsorted, hcause⟩

end Takler.Checkpoint
