import Takler.Checkpoint.CrashSafety

/-!
# Starting again from the checkpoint files

A server that starts looks for the Checkpoint_File and, when that one cannot be used, for the
Checkpoint_Backup_File (`CheckpointManager.restore`). With neither of them it is a new service; with
one it does not start unless it can use one. Which snapshots it can use is a parameter.

## Main results

* `restore_of_reachable`: the start after a stop at any file operation.
-/

namespace Takler.Checkpoint

open FileName

variable {β : Type}

/-- How `restore` ends: a new service, the tree of a snapshot, or the error that stops the start. -/
inductive Recovery (β : Type)
  | fresh
  | restored (source : FileName) (snapshot : Snapshot) (bunch : β)
  | refused
deriving DecidableEq

/-- `_load_snapshot` and `_restore_into_bunch` of one file; an empty file is no document. -/
def candidate? (load : Snapshot → Option β) (d : Directory FileName Content) (n : FileName) :
    Option (Snapshot × β) := do
  let i ← d.inode? n
  let snapshot ← d.data i
  let bunch ← load snapshot
  return (snapshot, bunch)

/-- `CheckpointManager.restore`. -/
def restore (load : Snapshot → Option β) (d : Directory FileName Content) : Recovery β :=
  match candidate? load d checkpointFile, candidate? load d backupFile with
  | some x, _ => .restored checkpointFile x.1 x.2
  | none, some x => .restored backupFile x.1 x.2
  | none, none =>
    if (d.inode? checkpointFile).isSome || (d.inode? backupFile).isSome then .refused else .fresh

variable {load : Snapshot → Option β} {s : State} {n : FileName}

theorem State.Holds.of_candidate? (hn : s.Holds n) {x : Snapshot × β}
    (h : candidate? load s.dir n = some x) :
    x.1 ∈ s.published ∧ load x.1 = some x.2 ∧ FileHolds s.dir n x.1 := by
  obtain ⟨i, hi, h⟩ := Option.bind_eq_some_iff.mp h
  obtain ⟨c, hc, h⟩ := Option.bind_eq_some_iff.mp h
  obtain ⟨b, hb, h⟩ := Option.bind_eq_some_iff.mp h
  cases h
  obtain ⟨c', hmem, hdata⟩ := hn i hi
  obtain rfl := Option.some.inj (hdata.symm.trans hc)
  exact ⟨hmem, hb, i, hi, hdata⟩

/-- A file that is present and no candidate holds a snapshot that cannot be loaded. -/
theorem State.Holds.unusable (hn : s.Holds n) (h : candidate? load s.dir n = none)
    (hi : (s.dir.inode? n).isSome = true) : ∃ c ∈ s.published, load c = none := by
  obtain ⟨i, hi⟩ := Option.isSome_iff_exists.mp hi
  obtain ⟨c, hmem, hdata⟩ := hn i hi
  refine ⟨c, hmem, ?_⟩
  cases hload : load c with
  | none => rfl
  | some b => simp [candidate?, hi, hdata, hload] at h

/-- **Recovery.** Wherever the processes before were stopped, a process that starts gets a whole
published snapshot, or a new service if no publication was ever reported as successful. It gets none
that is older than a reported one, and it is not kept from starting, unless it cannot load some
published snapshot. -/
theorem restore_of_reachable (h : fileSystem.Reachable NoLeftoverLink s)
    (load : Snapshot → Option β) :
    (restore load s.dir = .fresh → s.reported = []) ∧
      (restore load s.dir = .refused → ∃ c ∈ s.published, load c = none) ∧
      ∀ n c b, restore load s.dir = .restored n c b → c ∈ s.published ∧ load c = some b ∧
        ((∀ r ∈ s.reported, r.order ≤ c.order) ∨ ∃ c' ∈ s.published, load c' = none) := by
  have hsafe := (reachable_inv h).safe
  have hreported (hi : ¬ (s.dir.inode? checkpointFile).isSome = true) : s.reported = [] :=
    List.eq_nil_iff_forall_not_mem.mpr fun r hr => by
      obtain ⟨i, _, hi', -⟩ := hsafe.recent r hr
      exact hi (by rw [hi']; rfl)
  unfold restore
  cases hmain : candidate? load s.dir checkpointFile with
  | some x =>
    refine ⟨by simp, by simp, fun n c b heq => ?_⟩
    cases heq
    obtain ⟨hmem, hload, i, hi, hdata⟩ := hsafe.checkpoint.of_candidate? hmain
    refine ⟨hmem, hload, .inl fun r hr => ?_⟩
    obtain ⟨j, c', hj, hc', hle⟩ := hsafe.recent r hr
    obtain rfl := Option.some.inj (hi.symm.trans hj)
    exact Option.some.inj (hdata.symm.trans hc') ▸ hle
  | none =>
    have hunusable := hsafe.checkpoint.unusable hmain
    cases hbackup : candidate? load s.dir backupFile with
    | some x =>
      refine ⟨by simp, by simp, fun n c b heq => ?_⟩
      cases heq
      obtain ⟨hmem, hload, -⟩ := hsafe.backup.of_candidate? hbackup
      refine ⟨hmem, hload, ?_⟩
      by_cases hi : (s.dir.inode? checkpointFile).isSome = true
      · exact .inr (hunusable hi)
      · exact .inl fun r hr => absurd hr (hreported hi ▸ List.not_mem_nil)
    | none =>
      dsimp only
      split_ifs with hpresent
      · refine ⟨by simp, fun _ => ?_, by simp⟩
        rcases Bool.or_eq_true_iff.mp hpresent with hi | hj
        · exact hunusable hi
        · exact hsafe.backup.unusable hbackup hj
      · exact ⟨fun _ => hreported fun hi => hpresent (by rw [hi]; rfl), by simp, by simp⟩

/-- The process stops in the middle of its second publication. -/
theorem restore_between_publications : ∃ s, fileSystem.Reachable NoLeftoverLink s ∧
    restore some s.dir = .restored checkpointFile ⟨1, "first"⟩ ⟨1, "first"⟩ ∧
      ((∀ r ∈ s.reported, r.order ≤ 1) ∨ ∃ c ∈ s.published, some c = none) := by
  obtain ⟨s, hs, hr⟩ := StepSystem.exists_of_run (S := fileSystem) (G := NoLeftoverLink)
    (firstPublication ++ [.capture "second", .publish 2 true, .advance true, .restart 8])
    (fun s => restore some s.dir = .restored checkpointFile ⟨1, "first"⟩ ⟨1, "first"⟩) ⟨7, rfl⟩
    (by decide)
  exact ⟨s, hs, hr, ((restore_of_reachable hs some).2.2 _ _ _ hr).2.2⟩

end Takler.Checkpoint
