import Takler.Lib.Directory
import Takler.Lib.StepSystem

/-!
# The files of a checkpoint and the steps that write them

`CheckpointManager` (`server/checkpoint.py`) keeps two files: the Checkpoint_File and the
Checkpoint_Backup_File. A snapshot is written to a temporary file, the old Checkpoint_File is
saved as the next backup through a second temporary file, and both are renamed into place. The
temporary file of the backup is a hard link of the Checkpoint_File when the manager may link,
and a copy of it otherwise.

The directory is `Directory FileName Content`: names that point to inodes. Every file operation
is one step of `fileSystem`, so that the process may stop between any two of them. A process
that stopped is followed by another one, whose process id is any number, also one used before;
the memory of the manager starts anew, the directory stays.

The place of a snapshot in the order of captures is `base + sequence`: `sequence` is the
manager's own counter and `base` the number of captures of the earlier processes.

## Main definitions

* `FileName`: the names of the files, with the process id in those of the temporary ones.
* `Manager`: the memory of one process; `Job`: the publication that holds the publish lock.
* `State`, `Action`, `step`, `fileSystem`.
* `Safe`: what a reader of the two files may rely on.
-/

namespace Takler.Checkpoint

/-- A captured view: its place in the order of captures and its JSON text. -/
structure Snapshot where
  order : ℕ
  payload : String
deriving DecidableEq

/-- The content of a file: nothing after the truncation, then a whole snapshot. -/
abbrev Content := Option Snapshot

/-- The names in the directory of the Checkpoint_File. -/
inductive FileName
  /-- `checkpoint_file`. -/
  | checkpointFile
  /-- `backup_file`: the Checkpoint_File's path and `.b`. -/
  | backupFile
  /-- `_temp_path(checkpoint_file)`: the path, `.tmp.` and the process id. -/
  | mainTemp (pid : ℕ)
  /-- `_temp_path(backup_file)`. -/
  | backupTemp (pid : ℕ)
  /-- `_prepared_path(sequence)`: `.tmp.`, process id, sequence and a random identifier. -/
  | prepared (pid sequence uuid : ℕ)
deriving DecidableEq

open FileName

/-- How far the temporary file of a captured view has come. -/
inductive Stage
  /-- Only in memory; `_publish_captured` may take it. -/
  | captured
  /-- `_prepare_fixed_version` has created the prepared file. -/
  | opened (uuid fd : ℕ)
  /-- The prepared file is written and synced; `_publish_prepared` may take it. -/
  | ready (uuid : ℕ)
deriving DecidableEq

/-- A captured view that waits for its publication. -/
structure View where
  sequence : ℕ
  snapshot : Snapshot
  stage : Stage
deriving DecidableEq

/-- The next file operation of a publication. -/
inductive Pc
  /-- `_write_temp_file`: open the temporary file with truncation. -/
  | openTemp
  /-- `_write_temp_file`: write the payload through the descriptor. -/
  | writeTemp (fd : ℕ)
  /-- `_copy_to_backup_temp`: nothing to save, a hard link, or the truncating open of a copy. -/
  | copyToBackupTemp
  /-- `_copy_to_backup_temp`: copy the bytes of `source` to `target`. -/
  | copyData (source target : ℕ)
  /-- `_replace_backup`. -/
  | replaceBackup
  /-- `_replace_checkpoint`. -/
  | replaceCheckpoint
  /-- The sync of the directory, or the hook after the last step. -/
  | finish
  /-- `_cleanup_temp_files`: the names still to remove, and the outcome to report. -/
  | cleanup (names : List FileName) (success : Bool)
deriving DecidableEq

/-- The publication that holds the publish lock. -/
structure Job where
  sequence : ℕ
  snapshot : Snapshot
  /-- The temporary file that becomes the Checkpoint_File. -/
  source : FileName
  /-- Whether `_publish_prepared` runs, rather than `_write_payload`. -/
  fixed : Bool
  pc : Pc
deriving DecidableEq

/-- The memory of one server process. -/
structure Manager where
  pid : ℕ
  /-- The number of captures made by the processes before this one. -/
  base : ℕ
  nextSequence : ℕ := 0
  lastAttemptedSequence : ℕ := 0
  lastAttemptSucceeded : Bool := false
  canLinkBackup : Bool := false
  newerFailedSequence : ℕ := 0
  views : List View := []
  job : Option Job := none

/-- The directory, the running process, and what was handed to and reported by publications. -/
structure State where
  dir : Directory FileName Content
  manager : Manager
  /-- The snapshots whose publication passed the order checks. -/
  published : List Snapshot
  /-- The snapshots whose publication reported success. -/
  reported : List Snapshot

/-- One step of the process, or its end. -/
inductive Action
  /-- A view is captured and gets the next sequence number. -/
  | capture (payload : String)
  /-- `_capture_for_write` fails: the failed view supersedes older ones. -/
  | captureFails
  /-- `_pin_fixed_for_write` gets no version: the failure is noted for the new sequence number,
  except when the state is changing. -/
  | pinFails (noted : Bool)
  /-- `_prepare_fixed_version` creates its file exclusively. -/
  | prepareOpen (sequence uuid : ℕ)
  /-- `_prepare_fixed_version` writes its file. -/
  | prepareWrite (sequence : ℕ)
  /-- The preparation fails: its file is removed if the file system lets it. -/
  | prepareFails (sequence : ℕ) (removed : Bool)
  /-- `_publish_captured` or `_publish_prepared` takes the publish lock. `removed` says whether
  the prepared file of a skipped publication could be removed. -/
  | publish (sequence : ℕ) (removed : Bool)
  /-- The next file operation of the publication. `linked` says whether `os.link` is tried and
  accepted by the file system when the manager may link. -/
  | advance (linked : Bool)
  /-- The next file operation of the publication raises. -/
  | fails
  /-- The process stops, and a process with the given id takes its place. -/
  | restart (pid : ℕ)
deriving DecidableEq

namespace Manager

/-- A manager as `__init__` leaves it. -/
def fresh (pid base : ℕ) : Manager := { pid, base }

/-- The view with a sequence number. -/
def view? (m : Manager) (sequence : ℕ) : Option View :=
  m.views.find? fun v => v.sequence = sequence

/-- The manager without the view of a sequence number. -/
def dropView (m : Manager) (sequence : ℕ) : Manager :=
  { m with views := m.views.filter fun v => v.sequence ≠ sequence }

/-- The manager with another stage for the view of a sequence number. -/
def setStage (m : Manager) (sequence : ℕ) (stage : Stage) : Manager :=
  { m with views := m.views.map fun v => if v.sequence = sequence then { v with stage } else v }

/-- The file a view was prepared in. -/
def viewFile? (m : Manager) (v : View) : Option FileName :=
  match v.stage with
  | .captured => none
  | .opened uuid _ => some (prepared m.pid v.sequence uuid)
  | .ready uuid => some (prepared m.pid v.sequence uuid)

end Manager

namespace State

variable (s : State)

/-- Remove the file of a view when there is one and the file system lets it. -/
def removeViewFile (v : View) (removed : Bool) : Directory FileName Content :=
  match s.manager.viewFile? v with
  | some n => if removed then s.dir.unlink n else s.dir
  | none => s.dir

/-- `_capture_for_write`, `_pin_fixed_for_write`. -/
def capture (payload : String) : State :=
  let m := s.manager
  let sequence := m.nextSequence + 1
  { s with manager := { m with
      nextSequence := sequence
      views := m.views ++ [⟨sequence, ⟨m.base + sequence, payload⟩, .captured⟩] } }

/-- The failing branch of `_capture_for_write`, which takes the publish lock. -/
def captureFails : Option State :=
  let m := s.manager
  let sequence := m.nextSequence + 1
  match m.job with
  | some _ => none
  | none => some { s with manager := { m with
      nextSequence := sequence
      lastAttemptedSequence := max m.lastAttemptedSequence sequence
      lastAttemptSucceeded := if sequence > m.lastAttemptedSequence then false
        else m.lastAttemptSucceeded } }

/-- `_pin_fixed_for_write` without a version. -/
def pinFails (noted : Bool) : State :=
  let m := s.manager
  let sequence := m.nextSequence + 1
  { s with manager := { m with
      nextSequence := sequence
      newerFailedSequence := if noted then max m.newerFailedSequence sequence
        else m.newerFailedSequence } }

/-- `_prepare_fixed_version` up to the exclusive creation of its file. -/
def prepareOpen (sequence uuid : ℕ) : Option State :=
  match s.manager.view? sequence with
  | some ⟨_, _, .captured⟩ =>
    let name := prepared s.manager.pid sequence uuid
    match s.dir.inode? name with
    | some _ => none
    | none =>
      let (dir, fd) := s.dir.openTruncate name none
      some { s with dir, manager := s.manager.setStage sequence (.opened uuid fd) }
  | _ => none

/-- `_prepare_fixed_version`: stream the snapshot and sync it. -/
def prepareWrite (sequence : ℕ) : Option State :=
  match s.manager.view? sequence with
  | some ⟨_, snapshot, .opened uuid fd⟩ =>
    some { s with
      dir := s.dir.write fd (some snapshot)
      manager := s.manager.setStage sequence (.ready uuid) }
  | _ => none

/-- A failed preparation: its file is removed and the failure noted. -/
def prepareFails (sequence : ℕ) (removed : Bool) : Option State :=
  match s.manager.view? sequence with
  | some v => some { s with
      dir := s.removeViewFile v removed
      manager := { s.manager.dropView sequence with
        newerFailedSequence := max s.manager.newerFailedSequence sequence } }
  | none => none

/-- The file a publication renames, its kind, and its first operation. -/
def start? (v : View) : Option Job :=
  match v.stage with
  | .captured => some ⟨v.sequence, v.snapshot, mainTemp s.manager.pid, false, .openTemp⟩
  | .opened _ _ => none
  | .ready uuid =>
    some ⟨v.sequence, v.snapshot, prepared s.manager.pid v.sequence uuid, true,
      .copyToBackupTemp⟩

/-- The order checks of `_publish_captured` and `_publish_prepared`. A view older than a newer
failed one, or older than the last attempt, is dropped; dropping the latter repeats the outcome
of the last attempt. -/
def publish (sequence : ℕ) (removed : Bool) : Option State :=
  let m := s.manager
  match m.job, m.view? sequence with
  | none, some v =>
    match s.start? v with
    | none => none
    | some job =>
      if sequence ≤ m.newerFailedSequence ∧ m.newerFailedSequence > m.lastAttemptedSequence then
        some { s with dir := s.removeViewFile v removed, manager := m.dropView sequence }
      else if sequence ≤ m.lastAttemptedSequence then
        some { s with
          dir := s.removeViewFile v removed
          manager := m.dropView sequence
          reported := if m.lastAttemptSucceeded then v.snapshot :: s.reported else s.reported }
      else
        some { s with
          manager := { m.dropView sequence with
            lastAttemptedSequence := sequence
            job := some job }
          published := v.snapshot :: s.published }
  | _, _ => none

/-- The publication goes on with `pc` over the directory `dir`. -/
def goto (job : Job) (pc : Pc) (dir : Directory FileName Content) : State :=
  { s with dir, manager := { s.manager with job := some { job with pc } } }

/-- Leave the publish lock and report the outcome. -/
def leave (job : Job) (success : Bool) : State :=
  { s with
    manager := { s.manager with
      job := none
      lastAttemptSucceeded := success
      canLinkBackup := s.manager.canLinkBackup || (job.fixed && success) }
    reported := if success then job.snapshot :: s.reported else s.reported }

/-- `_copy_to_backup_temp` up to its truncating open. -/
def copyToBackupTemp (job : Job) (linked : Bool) : Option State :=
  let backup := backupTemp s.manager.pid
  match s.dir.inode? checkpointFile with
  | none => some (s.goto job .replaceBackup s.dir)
  | some source =>
    match if linked && s.manager.canLinkBackup && s.dir.nlink source == 1 then
        s.dir.link checkpointFile backup else none with
    | some dir => some (s.goto job .replaceBackup dir)
    | none =>
      let (dir, target) := s.dir.openTruncate backup none
      some (s.goto job (.copyData source target) dir)

/-- The next file operation of the publication that holds the lock. -/
def advance (linked : Bool) : Option State :=
  match s.manager.job with
  | none => none
  | some job =>
    match job.pc with
    | .openTemp =>
      let (dir, fd) := s.dir.openTruncate job.source none
      some (s.goto job (.writeTemp fd) dir)
    | .writeTemp fd => some (s.goto job .copyToBackupTemp (s.dir.write fd (some job.snapshot)))
    | .copyToBackupTemp => s.copyToBackupTemp job linked
    | .copyData source target =>
      some (s.goto job .replaceBackup (s.dir.write target (s.dir.data source)))
    | .replaceBackup =>
      match s.dir.rename (backupTemp s.manager.pid) backupFile with
      | some dir => some (s.goto job .replaceCheckpoint dir)
      | none => some (s.goto job .replaceCheckpoint s.dir)
    | .replaceCheckpoint =>
      match s.dir.rename job.source checkpointFile with
      | some dir => some (s.goto job .finish dir)
      | none => none
    | .finish =>
      let names := if job.fixed then [backupTemp s.manager.pid] else []
      some (s.goto job (.cleanup names true) s.dir)
    | .cleanup (n :: names) success => some (s.goto job (.cleanup names success) (s.dir.unlink n))
    | .cleanup [] success => some (s.leave job success)

/-- The next file operation raises: the temporary files are to be removed, and one that cannot
be removed is left behind. -/
def fails : Option State :=
  match s.manager.job with
  | none => none
  | some job =>
    match job.pc with
    | .cleanup (_ :: names) success => some (s.goto job (.cleanup names success) s.dir)
    | .cleanup [] _ => none
    | _ =>
      some (s.goto job (.cleanup [job.source, backupTemp s.manager.pid] false) s.dir)

/-- The process stops and another one starts. -/
def restart (pid : ℕ) : State :=
  { s with manager := Manager.fresh pid (s.manager.base + s.manager.nextSequence) }

/-- One step of the process. -/
def step (s : State) : Action → Option State
  | .capture payload => some (s.capture payload)
  | .captureFails => s.captureFails
  | .pinFails noted => some (s.pinFails noted)
  | .prepareOpen sequence uuid => s.prepareOpen sequence uuid
  | .prepareWrite sequence => s.prepareWrite sequence
  | .prepareFails sequence removed => s.prepareFails sequence removed
  | .publish sequence removed => s.publish sequence removed
  | .advance linked => s.advance linked
  | .fails => s.fails
  | .restart pid => some (s.restart pid)

end State

/-- A process with the given id and a directory without files. -/
def State.start (pid : ℕ) : State := ⟨.empty none, .fresh pid 0, [], []⟩

/-- All runs of checkpoint managers over one directory. -/
def fileSystem : StepSystem State Action where
  init s := ∃ pid, s = State.start pid
  step := State.step

/-- A file that is present holds one complete published snapshot. -/
def State.Holds (s : State) (n : FileName) : Prop :=
  ∀ i, s.dir.inode? n = some i → ∃ snapshot ∈ s.published, s.dir.data i = some snapshot

/-- What a reader may rely on: the Checkpoint_File and the Checkpoint_Backup_File are each absent
or hold one complete published snapshot, and once a publication has reported success the
Checkpoint_File is present with a snapshot that is not older than any reported one. -/
structure Safe (s : State) : Prop where
  checkpoint : s.Holds checkpointFile
  backup : s.Holds backupFile
  recent : ∀ r ∈ s.reported, ∃ i snapshot,
    s.dir.inode? checkpointFile = some i ∧ s.dir.data i = some snapshot ∧ r.order ≤ snapshot.order

/-- The publication does not truncate a name of the Checkpoint_File: when it is about to save the
old Checkpoint_File, its temporary file of the backup is not a hard link of it. -/
def NoLeftoverLink (s : State) : Action → Prop
  | .advance _ => ∀ job ∈ s.manager.job, job.pc = .copyToBackupTemp →
      ∀ i ∈ s.dir.inode? checkpointFile, s.dir.inode? (backupTemp s.manager.pid) ≠ some i
  | _ => True

instance (s : State) : (a : Action) → Decidable (NoLeftoverLink s a)
  | .advance _ => inferInstanceAs (Decidable (∀ job ∈ s.manager.job, job.pc = .copyToBackupTemp →
      ∀ i ∈ s.dir.inode? checkpointFile, s.dir.inode? (backupTemp s.manager.pid) ≠ some i))
  | .capture _ | .captureFails | .pinFails _ | .prepareOpen _ _ | .prepareWrite _
  | .prepareFails _ _ | .publish _ _ | .fails | .restart _ => inferInstanceAs (Decidable True)

end Takler.Checkpoint
