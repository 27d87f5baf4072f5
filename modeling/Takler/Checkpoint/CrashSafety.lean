import Takler.Checkpoint.Files

/-!
# Crash safety of the checkpoint files

The invariant says which names may share an inode, what the temporary file of each waiting view
holds, and how far the running publication has come. Every file operation keeps it, except one:
the truncating open of the backup's temporary file, when a stopped process with the same process
id has left that name behind as a hard link of the Checkpoint_File. That open empties the
Checkpoint_File, so the files are safe exactly in the runs without such a step.

## Main definitions

* `FilesOk`: the part of the invariant about the directory.
* `Inv`: the invariant of the runs without a leftover link.

## Main results

* `Inv.step`: one step keeps the invariant.
* `reachable_safe_iff_no_leftover_link`: the files are safe in every state of a guarded run, and
  the guard cannot be weakened at any step.
* `leftover_link_truncates_checkpoint`: a run that empties the Checkpoint_File.
-/

namespace Takler.Checkpoint

open FileName Directory

/-- The names that may be hard links of the Checkpoint_File. -/
def FileName.IsBackup : FileName → Prop
  | backupFile => True
  | backupTemp _ => True
  | _ => False

/-- The file `n` holds the complete snapshot `c`. -/
def FileHolds (d : Directory FileName Content) (n : FileName) (c : Snapshot) : Prop :=
  ∃ i, d.inode? n = some i ∧ d.data i = some c

/-- Two names of one file: only the Checkpoint_File has a second name, which is a backup name. -/
def FileName.Linked (n m : FileName) : Prop :=
  n = m ∨ (n = checkpointFile ∧ m.IsBackup) ∨ (m = checkpointFile ∧ n.IsBackup)

/-- What holds of the directory between any two file operations. -/
structure FilesOk (d : Directory FileName Content) (published : List Snapshot) (bound : ℕ) :
    Prop where
  shared : ∀ n m i, d.inode? n = some i → d.inode? m = some i → n.Linked m
  present : ∀ pid i, d.inode? (backupTemp pid) = some i → ∃ j, d.inode? checkpointFile = some j
  checkpoint : ∀ i, d.inode? checkpointFile = some i →
    ∃ c ∈ published, d.data i = some c ∧ c.order ≤ bound
  backup : ∀ i, d.inode? backupFile = some i → ∃ c ∈ published, d.data i = some c

/-- The temporary file of a view is as far as its stage says. -/
def StageOk (d : Directory FileName Content) (pid : ℕ) (v : View) : Prop :=
  match v.stage with
  | .captured => True
  | .opened uuid fd => d.inode? (prepared pid v.sequence uuid) = some fd
  | .ready uuid => FileHolds d (prepared pid v.sequence uuid) v.snapshot

/-- What the next operation of a publication relies on. -/
def PcOk (d : Directory FileName Content) (pid : ℕ) (published : List Snapshot) (job : Job) :
    Prop :=
  match job.pc with
  | .openTemp => True
  | .writeTemp fd => d.inode? job.source = some fd
  | .copyToBackupTemp => FileHolds d job.source job.snapshot
  | .copyData source target => FileHolds d job.source job.snapshot ∧
      d.inode? checkpointFile = some source ∧ d.inode? (backupTemp pid) = some target ∧
      source ≠ target
  | .replaceBackup => FileHolds d job.source job.snapshot ∧
      ∀ i, d.inode? (backupTemp pid) = some i → ∃ c ∈ published, d.data i = some c
  | .replaceCheckpoint => FileHolds d job.source job.snapshot
  | .finish => FileHolds d checkpointFile job.snapshot
  | .cleanup names success => (∀ n ∈ names, n = job.source ∨ n = backupTemp pid) ∧
      (success = true → FileHolds d checkpointFile job.snapshot)

/-- A waiting view of a manager with the given id, base and last sequence number. -/
structure ViewOk (d : Directory FileName Content) (pid base last : ℕ) (v : View) : Prop where
  order_eq : v.snapshot.order = base + v.sequence
  le_last : v.sequence ≤ last
  stage : StageOk d pid v

/-- The publication that holds the lock, its operation apart. -/
structure JobOk (m : Manager) (published : List Snapshot) (job : Job) : Prop where
  sequence_eq : job.sequence = m.lastAttemptedSequence
  order_eq : job.snapshot.order = m.base + job.sequence
  mem : job.snapshot ∈ published
  not_view : ∀ v ∈ m.views, v.sequence ≠ job.sequence
  source : job.source = mainTemp m.pid ∨ ∃ uuid, job.source = prepared m.pid job.sequence uuid

/-- The part of the invariant that does not speak of the publication. -/
structure Waiting (s : State) : Prop where
  files : FilesOk s.dir s.published (s.manager.base + s.manager.lastAttemptedSequence)
  views : ∀ v ∈ s.manager.views,
    ViewOk s.dir s.manager.pid s.manager.base s.manager.nextSequence v
  nodup : (s.manager.views.map View.sequence).Nodup
  attempted_le : s.manager.lastAttemptedSequence ≤ s.manager.nextSequence
  recent : ∀ r ∈ s.reported, ∃ c, FileHolds s.dir checkpointFile c ∧ r.order ≤ c.order

/-- The invariant of the runs without a leftover link. -/
structure Inv (s : State) : Prop extends Waiting s where
  job : ∀ job, s.manager.job = some job → JobOk s.manager s.published job
  pc : ∀ job, s.manager.job = some job → PcOk s.dir s.manager.pid s.published job
  succeeded : s.manager.job = none → s.manager.lastAttemptSucceeded = true →
    ∃ c, FileHolds s.dir checkpointFile c ∧
      s.manager.base + s.manager.lastAttemptedSequence ≤ c.order

/-! ### What the directory operations keep -/

section Frame

variable {d d' : Directory FileName Content} {published : List Snapshot} {bound : ℕ}

theorem FileHolds.of_sameAt {n : FileName} {c : Snapshot} (h : FileHolds d n c)
    (hs : d.SameAt d' n) : FileHolds d' n c := by
  obtain ⟨i, hi, hc⟩ := h
  exact ⟨i, hs.1.trans hi, (hs.2 i hi).trans hc⟩

theorem StageOk.of_sameAt {pid : ℕ} {v : View} (h : StageOk d pid v)
    (hs : ∀ uuid, d.SameAt d' (prepared pid v.sequence uuid)) : StageOk d' pid v := by
  obtain ⟨sequence, snapshot, stage⟩ := v
  cases stage with
  | captured => trivial
  | opened uuid fd => exact (hs uuid).1.trans h
  | ready uuid => exact FileHolds.of_sameAt h (hs uuid)

theorem FileName.Linked.symm {n m : FileName} (h : n.Linked m) : m.Linked n := by
  rcases h with rfl | h | h
  · exact .inl rfl
  · exact .inr (.inr h)
  · exact .inr (.inl h)

/-- A new name for a file, when every name that the file has may be linked with it. -/
theorem linked_bind {n : FileName} {i : ℕ}
    (hd : ∀ a b k, d.inode? a = some k → d.inode? b = some k → a.Linked b)
    (hn : ∀ a, d.inode? a = some i → a.Linked n) :
    ∀ a b k, (d.bind n i).inode? a = some k → (d.bind n i).inode? b = some k → a.Linked b := by
  intro a b k ha hb
  rw [inode?_bind] at ha hb
  split_ifs at ha hb with ha' hb' hb'
  · exact .inl (ha'.trans hb'.symm)
  · exact ha' ▸ (hn b (hb.trans ha.symm)).symm
  · exact hb' ▸ hn a (ha.trans hb.symm)
  · exact hd a b k ha hb

namespace FilesOk

/-- A name is taken away. -/
theorem shared_unlink (h : FilesOk d published bound) {n : FileName} : ∀ a b k,
    (d.unlink n).inode? a = some k → (d.unlink n).inode? b = some k → a.Linked b := by
  intro a b k ha hb
  rw [inode?_unlink] at ha hb
  split_ifs at ha hb
  exact h.shared a b k ha hb

theorem mono (h : FilesOk d published bound) {published' : List Snapshot} {bound' : ℕ}
    (hp : ∀ c ∈ published, c ∈ published') (hb : bound ≤ bound') :
    FilesOk d published' bound' where
  shared := h.shared
  present := h.present
  checkpoint i hi := by
    obtain ⟨c, hc, hd, hle⟩ := h.checkpoint i hi
    exact ⟨c, hp c hc, hd, hle.trans hb⟩
  backup i hi := by
    obtain ⟨c, hc, hd⟩ := h.backup i hi
    exact ⟨c, hp c hc, hd⟩

/-- A temporary file of the main kind has one name. -/
theorem alone_temp (h : FilesOk d published bound) {n : FileName} (hn : n ≠ checkpointFile)
    (hb : ¬ n.IsBackup) : d.Alone n := by
  intro m i hi hm
  rcases h.shared n m i hi hm with rfl | ⟨rfl, _⟩ | ⟨_, hbn⟩
  · rfl
  · exact absurd rfl hn
  · exact absurd hbn hb

/-- The backup's temporary file has one name unless it is a link of the Checkpoint_File. -/
theorem alone_backupTemp (h : FilesOk d published bound) {pid : ℕ}
    (hne : ∀ i, d.inode? checkpointFile = some i → d.inode? (backupTemp pid) ≠ some i) :
    d.Alone (backupTemp pid) := by
  intro m i hi hm
  rcases h.shared _ m i hi hm with rfl | ⟨h', _⟩ | ⟨rfl, _⟩
  · rfl
  · exact absurd h' (by simp)
  · exact absurd hi (hne i hm)

/-- Changing a temporary file keeps the directory in order. -/
theorem touch (h : FilesOk d published bound) {n : FileName} (ht : d.Touches d' n)
    (hn : n ≠ checkpointFile) (hb : n ≠ backupFile)
    (hp : ∀ pid i, n = backupTemp pid → d'.inode? n = some i →
      ∃ j, d.inode? checkpointFile = some j) :
    FilesOk d' published bound where
  shared a b i ha hb' := by
    -- a name other than `n` points where it did, and `n` joins no other name
    by_cases han : a = n <;> by_cases hbn : b = n
    · exact .inl (han.trans hbn.symm)
    · subst han
      have hb₀ : d.inode? b = some i := (ht.sameAt b hbn).1.symm.trans hb'
      exact h.shared a b i (ht.alone b hbn i hb₀ ha) hb₀
    · subst hbn
      have ha₀ : d.inode? a = some i := (ht.sameAt a han).1.symm.trans ha
      exact h.shared a b i ha₀ (ht.alone a han i ha₀ hb')
    · exact h.shared a b i ((ht.sameAt a han).1.symm.trans ha) ((ht.sameAt b hbn).1.symm.trans hb')
  present pid i hi := by
    rw [(ht.sameAt _ hn.symm).1]
    by_cases hpn : backupTemp pid = n
    · exact hp pid i hpn.symm (hpn ▸ hi)
    · exact h.present pid i ((ht.sameAt _ hpn).1.symm.trans hi)
  checkpoint i hi := by
    have hi₀ := (ht.sameAt _ hn.symm).1.symm.trans hi
    rw [(ht.sameAt _ hn.symm).2 i hi₀]
    exact h.checkpoint i hi₀
  backup i hi := by
    have hi₀ := (ht.sameAt _ hb.symm).1.symm.trans hi
    rw [(ht.sameAt _ hb.symm).2 i hi₀]
    exact h.backup i hi₀

/-- Linking the Checkpoint_File, when it has one name, to the backup's temporary file. -/
theorem link (h : FilesOk d published bound) {pid i : ℕ} (hi : d.inode? checkpointFile = some i)
    (hone : d.nlink i = 1) (hl : d.link checkpointFile (backupTemp pid) = some d') :
    FilesOk d' published bound := by
  obtain ⟨j, hj, hnone, rfl⟩ := d.link_eq_some.mp hl
  obtain rfl : i = j := Option.some.inj (hi.symm.trans hj)
  have hne (n : FileName) (hn : n ≠ backupTemp pid) :
      (d.bind (backupTemp pid) i).inode? n = d.inode? n := d.inode?_bind_of_ne hn i
  refine ⟨?_, ?_, ?_, ?_⟩
  · -- the new name joins the only name of the Checkpoint_File's inode
    exact linked_bind h.shared fun a ha => .inr (.inl ⟨d.eq_of_nlink_eq_one hone ha hi, trivial⟩)
  · intro _ _ _
    exact ⟨i, by rw [hne _ (by simp), hi]⟩
  · intro k hk
    rw [hne _ (by simp)] at hk
    exact h.checkpoint k hk
  · intro k hk
    rw [hne _ (by simp)] at hk
    exact h.backup k hk

/-- Moving a complete temporary file onto the backup. -/
theorem rename_backup (h : FilesOk d published bound) {pid : ℕ}
    (hc : ∀ i, d.inode? (backupTemp pid) = some i → ∃ c ∈ published, d.data i = some c)
    (hr : d.rename (backupTemp pid) backupFile = some d') : FilesOk d' published bound := by
  obtain ⟨i, hi, ⟨_, rfl⟩ | ⟨_, rfl⟩⟩ := d.rename_eq_some.mp hr
  · exact h
  have hmain : ((d.unlink (backupTemp pid)).bind backupFile i).inode? checkpointFile =
      d.inode? checkpointFile := by
    rw [inode?_bind_of_ne _ (by simp), inode?_unlink_of_ne _ (by simp)]
  -- a second name of the moved inode can only be the Checkpoint_File
  have hother (a : FileName) (ha : (d.unlink (backupTemp pid)).inode? a = some i) :
      a = checkpointFile := by
    rw [inode?_unlink] at ha
    split_ifs at ha with hat
    rcases h.shared a _ i ha hi with rfl | ⟨ha', _⟩ | ⟨h', _⟩
    · exact absurd rfl hat
    · exact ha'
    · exact absurd h' (by simp)
  refine ⟨linked_bind h.shared_unlink fun a ha => .inr (.inl ⟨hother a ha, trivial⟩), ?_, ?_, ?_⟩
  · intro _ _ _
    rw [hmain]
    exact h.present pid i hi
  · intro k hk
    rw [hmain] at hk
    exact h.checkpoint k hk
  · intro k hk
    rw [inode?_bind_self] at hk
    obtain rfl : i = k := Option.some.inj hk
    exact hc i hi

/-- Moving a complete temporary file, which has one name, onto the Checkpoint_File. -/
theorem rename_checkpoint (h : FilesOk d published bound) {n : FileName} {c : Snapshot}
    (hn : n ≠ checkpointFile) (hb : ¬ n.IsBackup) (hc : FileHolds d n c) (hmem : c ∈ published)
    (hle : c.order ≤ bound) (hr : d.rename n checkpointFile = some d') :
    FilesOk d' published bound := by
  obtain ⟨i, hi, ⟨hsame, _⟩ | ⟨_, rfl⟩⟩ := d.rename_eq_some.mp hr
  · exact absurd (h.alone_temp hn hb _ i hi hsame) hn.symm
  obtain ⟨j, hj, hdata⟩ := hc
  obtain rfl : i = j := Option.some.inj (hi.symm.trans hj)
  have hother (a : FileName) (ha : (d.unlink n).inode? a = some i) : False := by
    rw [inode?_unlink] at ha
    split_ifs at ha with han
    exact han (h.alone_temp hn hb a i hi ha)
  refine ⟨linked_bind h.shared_unlink fun a ha => (hother a ha).elim, ?_, ?_, ?_⟩
  · intro _ _ _
    exact ⟨i, inode?_bind_self _ _ _⟩
  · intro k hk
    rw [inode?_bind_self] at hk
    obtain rfl : i = k := Option.some.inj hk
    exact ⟨c, hmem, hdata, hle⟩
  · intro k hk
    rw [inode?_bind_of_ne _ (by simp), inode?_unlink] at hk
    split_ifs at hk
    exact h.backup k hk

end FilesOk

theorem PcOk.of_sameAt {pid : ℕ} {job : Job} (h : PcOk d pid published job)
    (hs : d.SameAt d' job.source) (hp : d.SameAt d' checkpointFile)
    (hb : d.SameAt d' (backupTemp pid)) : PcOk d' pid published job := by
  obtain ⟨sequence, snapshot, source, fixed, pc⟩ := job
  cases pc with
  | openTemp => trivial
  | writeTemp fd => exact hs.1.trans h
  | copyToBackupTemp => exact FileHolds.of_sameAt h hs
  | copyData i j => exact ⟨h.1.of_sameAt hs, hp.1.trans h.2.1, hb.1.trans h.2.2.1, h.2.2.2⟩
  | replaceBackup =>
    refine ⟨h.1.of_sameAt hs, fun i hi => ?_⟩
    have hi₀ := hb.1.symm.trans hi
    rw [hb.2 i hi₀]
    exact h.2 i hi₀
  | replaceCheckpoint => exact FileHolds.of_sameAt h hs
  | finish => exact FileHolds.of_sameAt h hp
  | cleanup names success => exact ⟨h.1, fun hsuc => (h.2 hsuc).of_sameAt hp⟩

end Frame

/-! ### Steps of a preparation -/

variable {s : State}

theorem JobOk.source_ne_view {m : Manager} {published : List Snapshot} {job : Job}
    (h : JobOk m published job) {v : View} (hv : v ∈ m.views) (uuid : ℕ) :
    job.source ≠ prepared m.pid v.sequence uuid := by
  rcases h.source with hs | ⟨u, hs⟩
  · simp [hs]
  · have := h.not_view v hv
    simp [hs, Ne.symm this]

theorem JobOk.source_main {m : Manager} {published : List Snapshot} {job : Job}
    (h : JobOk m published job) : job.source ≠ checkpointFile ∧ ¬ job.source.IsBackup := by
  rcases h.source with hs | ⟨u, hs⟩ <;> simp [hs, FileName.IsBackup]

/-- A step that changes the prepared file of one view and the stage of that view, or drops the
view, keeps the invariant. -/
theorem Inv.prepare (h : Inv s) {d' : Directory FileName Content} {v : View}
    (hv : v ∈ s.manager.views) {uuid : ℕ}
    (ht : s.dir.Touches d' (prepared s.manager.pid v.sequence uuid)) {vs : List View} {failed : ℕ}
    (hsub : (vs.map View.sequence).Sublist (s.manager.views.map View.sequence))
    (hvs : ∀ w ∈ vs, (w ∈ s.manager.views ∧ w.sequence ≠ v.sequence) ∨
      ViewOk d' s.manager.pid s.manager.base s.manager.nextSequence w) :
    Inv { s with
      dir := d', manager := { s.manager with views := vs, newerFailedSequence := failed } } where
  files := h.files.touch ht (by simp) (by simp) (by simp)
  views w hw := by
    rcases hvs w hw with ⟨hw', hne⟩ | hok
    · have := h.views w hw'
      refine ⟨this.order_eq, this.le_last, this.stage.of_sameAt fun u => ht.sameAt _ ?_⟩
      simp [hne]
    · exact hok
  nodup := h.nodup.sublist hsub
  attempted_le := h.attempted_le
  recent r hr := by
    obtain ⟨c, hc, hle⟩ := h.recent r hr
    exact ⟨c, hc.of_sameAt (ht.sameAt _ (by simp)), hle⟩
  job job hj := by
    have hok := h.job job hj
    refine ⟨hok.sequence_eq, hok.order_eq, hok.mem, fun w hw => ?_, hok.source⟩
    obtain ⟨w', hw', heq⟩ := List.mem_map.mp (hsub.subset (List.mem_map_of_mem hw))
    exact heq ▸ hok.not_view w' hw'
  pc job hj := by
    have hne := (h.job job hj).source_ne_view hv uuid
    exact (h.pc job hj).of_sameAt (ht.sameAt _ hne) (ht.sameAt _ (by simp)) (ht.sameAt _ (by simp))
  succeeded hj hl := by
    obtain ⟨c, hc, hle⟩ := h.succeeded hj hl
    exact ⟨c, hc.of_sameAt (ht.sameAt _ (by simp)), hle⟩

theorem Manager.view?_eq_some {m : Manager} {sequence : ℕ} {v : View}
    (h : m.view? sequence = some v) : v ∈ m.views ∧ v.sequence = sequence :=
  ⟨List.mem_of_find?_eq_some h, by simpa using List.find?_some h⟩

theorem Manager.map_sequence_setStage (m : Manager) (sequence : ℕ) (stage : Stage) :
    (m.setStage sequence stage).views.map View.sequence = m.views.map View.sequence := by
  simp only [setStage, List.map_map]
  refine List.map_congr_left fun v _ => ?_
  simp only [Function.comp_apply]
  split_ifs <;> rfl

/-- The views after a change of stage: the changed one, and the others as they were. -/
theorem Inv.mem_setStage (h : Inv s) {v w : View} (hv : v ∈ s.manager.views) {stage : Stage}
    (hw : w ∈ (s.manager.setStage v.sequence stage).views) :
    (w ∈ s.manager.views ∧ w.sequence ≠ v.sequence) ∨ w = { v with stage } := by
  obtain ⟨w', hw', rfl⟩ := List.mem_map.mp hw
  split_ifs with heq
  · obtain rfl := List.inj_on_of_nodup_map h.nodup hw' hv heq
    exact .inr rfl
  · exact .inl ⟨hw', heq⟩

theorem Manager.mem_dropView {m : Manager} {sequence : ℕ} {w : View}
    (hw : w ∈ (m.dropView sequence).views) : w ∈ m.views ∧ w.sequence ≠ sequence := by
  simpa [dropView] using hw

theorem State.removeViewFile_touches (s : State) (v : View) (removed : Bool) :
    ∃ uuid, s.dir.Touches (s.removeViewFile v removed)
      (prepared s.manager.pid v.sequence uuid) := by
  obtain ⟨sequence, snapshot, stage⟩ := v
  unfold State.removeViewFile
  cases stage with
  | captured => exact ⟨0, .refl _⟩
  | opened uuid fd =>
    refine ⟨uuid, ?_⟩
    cases removed
    · exact .refl _
    · exact touches_unlink _
  | ready uuid =>
    refine ⟨uuid, ?_⟩
    cases removed
    · exact .refl _
    · exact touches_unlink _

/-- Dropping a view, with or without its prepared file, keeps the invariant. -/
theorem Inv.drop (h : Inv s) {v : View} (hv : v ∈ s.manager.views) (removed : Bool) (failed : ℕ) :
    Inv { s with
      dir := s.removeViewFile v removed
      manager := { s.manager.dropView v.sequence with newerFailedSequence := failed } } := by
  obtain ⟨uuid, ht⟩ := s.removeViewFile_touches v removed
  exact h.prepare hv ht (List.filter_sublist.map _) fun w hw => .inl (Manager.mem_dropView hw)

theorem Inv.prepareOpen (h : Inv s) {t : State} {sequence uuid : ℕ}
    (ht : s.prepareOpen sequence uuid = some t) : Inv t := by
  unfold State.prepareOpen at ht
  split at ht
  · rename_i q snapshot hview
    obtain ⟨hv, rfl⟩ := Manager.view?_eq_some hview
    dsimp only at ht
    split at ht
    · cases ht
    · obtain rfl := Option.some.inj ht
      have halone := h.files.alone_temp (n := prepared s.manager.pid q uuid) (by simp)
        (by simp [FileName.IsBackup])
      refine h.prepare hv (halone.touches_openTruncate none)
        (s.manager.map_sequence_setStage q _ ▸ List.Sublist.refl _) fun w hw => ?_
      rcases h.mem_setStage hv hw with hw' | rfl
      · exact .inl hw'
      · exact .inr ⟨(h.views _ hv).order_eq, (h.views _ hv).le_last,
          s.dir.inode?_openTruncate_self _ none⟩
  · cases ht

theorem Inv.prepareWrite (h : Inv s) {t : State} {sequence : ℕ}
    (ht : s.prepareWrite sequence = some t) : Inv t := by
  unfold State.prepareWrite at ht
  split at ht
  · rename_i q snapshot uuid fd hview
    obtain ⟨hv, rfl⟩ := Manager.view?_eq_some hview
    obtain rfl := Option.some.inj ht
    have hfd : s.dir.inode? (prepared s.manager.pid q uuid) = some fd := (h.views _ hv).stage
    have halone := h.files.alone_temp (n := prepared s.manager.pid q uuid) (by simp)
      (by simp [FileName.IsBackup])
    refine h.prepare hv (halone.touches_write hfd (some snapshot))
      (s.manager.map_sequence_setStage q _ ▸ List.Sublist.refl _) fun w hw => ?_
    rcases h.mem_setStage hv hw with hw' | rfl
    · exact .inl hw'
    · exact .inr ⟨(h.views _ hv).order_eq, (h.views _ hv).le_last,
        fd, hfd, s.dir.data_write_self fd _⟩
  · cases ht

theorem Inv.prepareFails (h : Inv s) {t : State} {sequence : ℕ} {removed : Bool}
    (ht : s.prepareFails sequence removed = some t) : Inv t := by
  unfold State.prepareFails at ht
  split at ht
  · rename_i v hview
    obtain ⟨hv, rfl⟩ := Manager.view?_eq_some hview
    obtain rfl := Option.some.inj ht
    exact h.drop hv removed _
  · cases ht

/-! ### Steps that take a sequence number -/

theorem ViewOk.mono {d : Directory FileName Content} {pid base last last' : ℕ} {v : View}
    (h : ViewOk d pid base last v) (hle : last ≤ last') : ViewOk d pid base last' v :=
  ⟨h.order_eq, h.le_last.trans hle, h.stage⟩

theorem Inv.capture (h : Inv s) (payload : String) : Inv (s.capture payload) where
  files := h.files
  views v hv := by
    rcases List.mem_append.mp hv with hv | hv
    · exact (h.views v hv).mono (Nat.le_succ _)
    · obtain rfl := List.mem_singleton.mp hv
      exact ⟨rfl, le_rfl, trivial⟩
  nodup := by
    simp only [State.capture, List.map_append, List.map_cons, List.map_nil]
    refine h.nodup.append (List.nodup_singleton _) ?_
    rw [List.disjoint_singleton]
    intro hmem
    obtain ⟨v, hv, heq⟩ := List.mem_map.mp hmem
    have := (h.views v hv).le_last
    omega
  attempted_le := h.attempted_le.trans (Nat.le_succ _)
  recent := h.recent
  job job hj := by
    have hok := h.job job hj
    refine ⟨hok.sequence_eq, hok.order_eq, hok.mem, fun v hv => ?_, hok.source⟩
    rcases List.mem_append.mp hv with hv | hv
    · exact hok.not_view v hv
    · obtain rfl := List.mem_singleton.mp hv
      have h₁ := hok.sequence_eq
      have h₂ := h.attempted_le
      dsimp only
      omega
  pc := h.pc
  succeeded := h.succeeded

theorem Inv.captureFails (h : Inv s) {t : State} (ht : s.captureFails = some t) : Inv t := by
  unfold State.captureFails at ht
  dsimp only at ht
  split at ht
  · cases ht
  · rename_i hjob
    obtain rfl := Option.some.inj ht
    have hle := h.attempted_le
    refine ⟨⟨?_, fun v hv => (h.views v hv).mono (Nat.le_succ _), h.nodup, ?_, h.recent⟩,
      ?_, ?_, ?_⟩
    · exact h.files.mono (fun _ hc => hc) (Nat.add_le_add_left (le_max_left _ _) _)
    · exact max_le (hle.trans (Nat.le_succ _)) le_rfl
    · intro job hj
      simp [hjob] at hj
    · intro job hj
      simp [hjob] at hj
    · -- the failed view is newer than every attempt, so no success is remembered
      intro _ hl
      have hnewer : s.manager.nextSequence + 1 > s.manager.lastAttemptedSequence := by omega
      change (if _ then _ else _) = true at hl
      rw [if_pos hnewer] at hl
      cases hl

theorem Inv.pinFails (h : Inv s) (noted : Bool) : Inv (s.pinFails noted) where
  files := h.files
  views v hv := (h.views v hv).mono (Nat.le_succ _)
  nodup := h.nodup
  attempted_le := h.attempted_le.trans (Nat.le_succ _)
  recent := h.recent
  job job hj := by
    have hok := h.job job hj
    exact ⟨hok.sequence_eq, hok.order_eq, hok.mem, hok.not_view, hok.source⟩
  pc := h.pc
  succeeded := h.succeeded

/-! ### Taking the publish lock -/

/-- Reporting a snapshot that is not newer than the Checkpoint_File keeps the invariant. -/
theorem Inv.report (h : Inv s) {r : Snapshot}
    (hr : ∃ c, FileHolds s.dir checkpointFile c ∧ r.order ≤ c.order) :
    Inv { s with reported := r :: s.reported } where
  files := h.files
  views := h.views
  nodup := h.nodup
  attempted_le := h.attempted_le
  recent q hq := by
    rcases List.mem_cons.mp hq with rfl | hq
    · exact hr
    · exact h.recent q hq
  job := h.job
  pc := h.pc
  succeeded := h.succeeded

/-- The first operation of a publication finds the file of its view. -/
theorem State.start?_pcOk {v : View} {job : Job} (hs : s.start? v = some job)
    (hv : StageOk s.dir s.manager.pid v) :
    job.sequence = v.sequence ∧ job.snapshot = v.snapshot ∧
      (job.source = mainTemp s.manager.pid ∨
        ∃ uuid, job.source = prepared s.manager.pid v.sequence uuid) ∧
      ∀ published, PcOk s.dir s.manager.pid published job := by
  obtain ⟨sequence, snapshot, stage⟩ := v
  cases stage with
  | captured =>
    obtain rfl := Option.some.inj hs
    exact ⟨rfl, rfl, .inl rfl, fun _ => trivial⟩
  | opened uuid fd => cases hs
  | ready uuid =>
    obtain rfl := Option.some.inj hs
    exact ⟨rfl, rfl, .inr ⟨uuid, rfl⟩, fun _ => hv⟩

/-- A publication that passes the order checks starts. -/
theorem Inv.start (h : Inv s) {v : View} (hv : v ∈ s.manager.views) {job : Job}
    (hs : s.start? v = some job) (hlt : s.manager.lastAttemptedSequence < v.sequence) :
    Inv { s with
      manager := { s.manager.dropView v.sequence with
        lastAttemptedSequence := v.sequence
        job := some job }
      published := v.snapshot :: s.published } := by
  have hok := h.views v hv
  obtain ⟨hseq, hsnap, hsource, hpc⟩ := State.start?_pcOk hs hok.stage
  refine ⟨⟨?_, fun w hw => h.views w (Manager.mem_dropView hw).1, ?_, hok.le_last, h.recent⟩,
    ?_, ?_, ?_⟩
  · exact h.files.mono (fun _ hc => List.mem_cons_of_mem _ hc) (Nat.add_le_add_left hlt.le _)
  · exact h.nodup.sublist (List.filter_sublist.map _)
  · intro j hj
    obtain rfl := Option.some.inj hj
    refine ⟨hseq, ?_, ?_, fun w hw => ?_, hseq ▸ hsource⟩
    · rw [hsnap, hseq]
      exact hok.order_eq
    · rw [hsnap]
      exact List.mem_cons_self
    · rw [hseq]
      exact (Manager.mem_dropView hw).2
  · intro j hj
    obtain rfl := Option.some.inj hj
    exact hpc _
  · intro hj
    cases hj

theorem Inv.publish (h : Inv s) {t : State} {sequence : ℕ} {removed : Bool}
    (ht : s.publish sequence removed = some t) : Inv t := by
  unfold State.publish at ht
  dsimp only at ht
  split at ht
  · rename_i v hjob hview
    obtain ⟨hv, rfl⟩ := Manager.view?_eq_some hview
    split at ht
    · cases ht
    · rename_i job hs
      split_ifs at ht with hnewer hold hsuc
      · obtain rfl := Option.some.inj ht
        exact h.drop hv removed _
      · -- an older view repeats the success of the last attempt, which is in the file
        obtain rfl := Option.some.inj ht
        have hdrop := h.drop hv removed s.manager.newerFailedSequence
        refine hdrop.report ?_
        obtain ⟨c, hc, hle⟩ := hdrop.succeeded hjob hsuc
        refine ⟨c, hc, ?_⟩
        rw [(h.views v hv).order_eq]
        exact (Nat.add_le_add_left hold _).trans hle
      · obtain rfl := Option.some.inj ht
        exact h.drop hv removed _
      · obtain rfl := Option.some.inj ht
        exact h.start hv hs (Nat.lt_of_not_le hold)
  · cases ht

/-! ### The file operations of a publication -/

section Publication

variable {job : Job} {pc : Pc} {d' : Directory FileName Content}

/-- A file operation keeps the invariant when it keeps the directory in order, leaves the
prepared files alone, does not make the Checkpoint_File older, and establishes what the next
operation relies on. -/
theorem Inv.goto (h : Inv s) (hj : s.manager.job = some job)
    (hf : FilesOk d' s.published (s.manager.base + s.manager.lastAttemptedSequence))
    (hv : ∀ v ∈ s.manager.views, ∀ uuid,
      s.dir.SameAt d' (prepared s.manager.pid v.sequence uuid))
    (hc : ∀ c, FileHolds s.dir checkpointFile c →
      ∃ c', FileHolds d' checkpointFile c' ∧ c.order ≤ c'.order)
    (hpc : PcOk d' s.manager.pid s.published { job with pc }) : Inv (s.goto job pc d') where
  files := hf
  views v hmem := by
    have hok := h.views v hmem
    exact ⟨hok.order_eq, hok.le_last, hok.stage.of_sameAt (hv v hmem)⟩
  nodup := h.nodup
  attempted_le := h.attempted_le
  recent r hr := by
    obtain ⟨c, hold, hle⟩ := h.recent r hr
    obtain ⟨c', hnew, hle'⟩ := hc c hold
    exact ⟨c', hnew, hle.trans hle'⟩
  job j hj' := by
    obtain rfl := Option.some.inj hj'
    have hok := h.job job hj
    exact ⟨hok.sequence_eq, hok.order_eq, hok.mem, hok.not_view, hok.source⟩
  pc j hj' := by
    obtain rfl := Option.some.inj hj'
    exact hpc
  succeeded hj' := by cases hj'

/-- An operation on one of the publication's own temporary files. -/
theorem Inv.goto_touch (h : Inv s) (hj : s.manager.job = some job) {n : FileName}
    (hn : n = job.source ∨ n = backupTemp s.manager.pid) (ht : s.dir.Touches d' n)
    (hp : ∀ i, n = backupTemp s.manager.pid → d'.inode? n = some i →
      ∃ j, s.dir.inode? checkpointFile = some j)
    (hpc : PcOk d' s.manager.pid s.published { job with pc }) : Inv (s.goto job pc d') := by
  have hok := h.job job hj
  have hmain : n ≠ checkpointFile ∧ n ≠ backupFile := by
    rcases hn with rfl | rfl
    · refine ⟨hok.source_main.1, fun heq => hok.source_main.2 ?_⟩
      rw [heq]
      trivial
    · simp
  refine h.goto hj (h.files.touch ht hmain.1 hmain.2 ?_) (fun v hv uuid => ht.sameAt _ ?_)
    (fun c hc => ⟨c, hc.of_sameAt (ht.sameAt _ hmain.1.symm), le_rfl⟩) hpc
  · rintro pid i rfl hi
    rcases hn with hn | hn
    · rcases hok.source with hs | ⟨u, hs⟩ <;> simp [hs] at hn
    · exact hp i hn hi
  · rcases hn with rfl | rfl
    · exact (hok.source_ne_view hv uuid).symm
    · simp

/-- An operation that changes no file. -/
theorem Inv.goto_same (h : Inv s) (hj : s.manager.job = some job)
    (hpc : PcOk s.dir s.manager.pid s.published { job with pc }) : Inv (s.goto job pc s.dir) :=
  h.goto hj h.files (fun _ _ _ => .refl _) (fun c hc => ⟨c, hc, le_rfl⟩) hpc

theorem Inv.copyToBackupTemp (h : Inv s) (hj : s.manager.job = some job)
    (hsrc : FileHolds s.dir job.source job.snapshot)
    (hg : ∀ i, s.dir.inode? checkpointFile = some i →
      s.dir.inode? (backupTemp s.manager.pid) ≠ some i)
    {linked : Bool} {t : State} (ht : s.copyToBackupTemp job linked = some t) : Inv t := by
  have hok := h.job job hj
  have hbackup : job.source ≠ backupTemp s.manager.pid := by
    rcases hok.source with hs | ⟨u, hs⟩ <;> simp [hs]
  unfold State.copyToBackupTemp at ht
  dsimp only at ht
  split at ht
  · -- the first snapshot: there is nothing to save, and no temporary file of the backup
    rename_i hnone
    obtain rfl := Option.some.inj ht
    refine h.goto_same hj ⟨hsrc, fun i hi => ?_⟩
    obtain ⟨j, hj⟩ := h.files.present _ i hi
    exact absurd (hnone.symm.trans hj) (by simp)
  · rename_i source hprimary
    split at ht
    · rename_i d₁ hlink
      obtain rfl := Option.some.inj ht
      split_ifs at hlink with hcan
      have hone : s.dir.nlink source = 1 := by
        simp only [Bool.and_eq_true, beq_iff_eq] at hcan
        exact hcan.2
      have hsame {n : FileName} (hn : n ≠ backupTemp s.manager.pid) := link_sameAt hlink hn
      refine h.goto hj (h.files.link hprimary hone hlink) (fun v _ u => hsame (by simp))
        (fun c hc => ⟨c, hc.of_sameAt (hsame (by simp)), le_rfl⟩)
        ⟨hsrc.of_sameAt (hsame hbackup), fun i hi => ?_⟩
      obtain ⟨j, hj', _, rfl⟩ := s.dir.link_eq_some.mp hlink
      rw [inode?_bind_self] at hi
      obtain rfl := Option.some.inj hi
      obtain ⟨c, hc, hdata, _⟩ := h.files.checkpoint j hj'
      exact ⟨c, hc, hdata⟩
    · obtain rfl := Option.some.inj ht
      have htouch := (h.files.alone_backupTemp hg).touches_openTruncate none
      refine h.goto_touch hj (.inr rfl) htouch (fun _ _ _ => ⟨source, hprimary⟩)
        ⟨hsrc.of_sameAt (htouch.sameAt _ hbackup), ?_, s.dir.inode?_openTruncate_self _ none, ?_⟩
      · exact (htouch.sameAt _ (by simp)).1.trans hprimary
      · -- the opened file is not the one that is copied
        intro heq
        refine hg source hprimary (htouch.alone checkpointFile (by simp) source hprimary ?_)
        rw [heq]
        exact s.dir.inode?_openTruncate_self _ none

theorem Inv.copyData (h : Inv s) (hj : s.manager.job = some job) {source target : ℕ}
    (hsrc : FileHolds s.dir job.source job.snapshot)
    (hprimary : s.dir.inode? checkpointFile = some source)
    (htarget : s.dir.inode? (backupTemp s.manager.pid) = some target) (hne : source ≠ target) :
    Inv (s.goto job .replaceBackup (s.dir.write target (s.dir.data source))) := by
  have halone : s.dir.Alone (backupTemp s.manager.pid) := by
    refine h.files.alone_backupTemp fun i hi hi' => hne ?_
    exact Option.some.inj (hprimary.symm.trans (hi.trans (hi'.symm.trans htarget)))
  have htouch := halone.touches_write htarget (s.dir.data source)
  have hbackup : job.source ≠ backupTemp s.manager.pid := by
    rcases (h.job job hj).source with hs | ⟨u, hs⟩ <;> simp [hs]
  refine h.goto_touch hj (.inr rfl) htouch (fun _ _ _ => ⟨source, hprimary⟩)
    ⟨hsrc.of_sameAt (htouch.sameAt _ hbackup), fun i hi => ?_⟩
  obtain rfl : target = i := Option.some.inj (htarget.symm.trans hi)
  obtain ⟨c, hc, hdata, _⟩ := h.files.checkpoint source hprimary
  exact ⟨c, hc, by rw [data_write_self, hdata]⟩

theorem Inv.replaceBackup (h : Inv s) (hj : s.manager.job = some job)
    (hsrc : FileHolds s.dir job.source job.snapshot)
    (hc : ∀ i, s.dir.inode? (backupTemp s.manager.pid) = some i →
      ∃ c ∈ s.published, s.dir.data i = some c)
    (hr : s.dir.rename (backupTemp s.manager.pid) backupFile = some d') :
    Inv (s.goto job .replaceCheckpoint d') := by
  have hok := h.job job hj
  have hsame {n : FileName} (hn : n ≠ backupTemp s.manager.pid) (hn' : n ≠ backupFile) :=
    rename_sameAt hr hn hn'
  refine h.goto hj (h.files.rename_backup hc hr) (fun v _ u => hsame (by simp) (by simp))
    (fun c hc => ⟨c, hc.of_sameAt (hsame (by simp) (by simp)), le_rfl⟩) ?_
  refine hsrc.of_sameAt (hsame ?_ ?_) <;>
    rcases hok.source with hs | ⟨u, hs⟩ <;> simp [hs]

theorem Inv.replaceCheckpoint (h : Inv s) (hj : s.manager.job = some job)
    (hsrc : FileHolds s.dir job.source job.snapshot)
    (hr : s.dir.rename job.source checkpointFile = some d') : Inv (s.goto job .finish d') := by
  have hok := h.job job hj
  obtain ⟨hn, hb⟩ := hok.source_main
  have horder : job.snapshot.order = s.manager.base + s.manager.lastAttemptedSequence := by
    rw [hok.order_eq, hok.sequence_eq]
  -- the renamed file is the Checkpoint_File now
  have hnew : FileHolds d' checkpointFile job.snapshot := by
    obtain ⟨i, hi, hdata⟩ := hsrc
    obtain ⟨j, hj', hcase⟩ := s.dir.rename_eq_some.mp hr
    obtain rfl : i = j := Option.some.inj (hi.symm.trans hj')
    rcases hcase with ⟨hsame, rfl⟩ | ⟨_, rfl⟩
    · exact ⟨i, hsame, hdata⟩
    · exact ⟨i, inode?_bind_self _ _ _, hdata⟩
  refine h.goto hj (h.files.rename_checkpoint hn hb hsrc hok.mem horder.le hr)
    (fun v hv u => rename_sameAt hr (hok.source_ne_view hv u).symm (by simp)) ?_ hnew
  rintro c ⟨i, hi, hdata⟩
  obtain ⟨c', _, hdata', hle⟩ := h.files.checkpoint i hi
  obtain rfl : c = c' := Option.some.inj (hdata.symm.trans hdata')
  exact ⟨job.snapshot, hnew, hle.trans horder.ge⟩

/-- Leaving the lock reports a success only when the snapshot is in the Checkpoint_File. -/
theorem Inv.leave (h : Inv s) (hj : s.manager.job = some job) {success : Bool}
    (hs : success = true → FileHolds s.dir checkpointFile job.snapshot) :
    Inv (s.leave job success) := by
  have hok := h.job job hj
  have horder : job.snapshot.order = s.manager.base + s.manager.lastAttemptedSequence := by
    rw [hok.order_eq, hok.sequence_eq]
  refine ⟨⟨h.files, h.views, h.nodup, h.attempted_le, ?_⟩, ?_, ?_, ?_⟩
  · intro r hr
    cases success with
    | false => exact h.recent r hr
    | true =>
      rcases List.mem_cons.mp hr with rfl | hr
      · exact ⟨job.snapshot, hs rfl, le_rfl⟩
      · exact h.recent r hr
  · intro j hj'
    cases hj'
  · intro j hj'
    cases hj'
  · intro _ hl
    exact ⟨job.snapshot, hs hl, horder.ge⟩

theorem Inv.advance (h : Inv s) {linked : Bool} (hg : NoLeftoverLink s (.advance linked))
    {t : State} (ht : s.advance linked = some t) : Inv t := by
  unfold State.advance at ht
  split at ht
  · cases ht
  · rename_i job hj
    have hok := h.job job hj
    have hpc := h.pc job hj
    have halone : s.dir.Alone job.source :=
      h.files.alone_temp hok.source_main.1 hok.source_main.2
    have hbackup (i : ℕ) (hi : job.source = backupTemp s.manager.pid) :
        ∃ j, s.dir.inode? checkpointFile = some j := by
      rcases hok.source with hs | ⟨u, hs⟩ <;> simp [hs] at hi
    unfold PcOk at hpc
    split at ht <;> rename_i hcase <;> rw [hcase] at hpc
    · obtain rfl := Option.some.inj ht
      exact h.goto_touch hj (.inl rfl) (halone.touches_openTruncate none)
        (fun i hi _ => hbackup i hi) (s.dir.inode?_openTruncate_self _ none)
    · obtain rfl := Option.some.inj ht
      exact h.goto_touch hj (.inl rfl) (halone.touches_write hpc _) (fun i hi _ => hbackup i hi)
        ⟨_, hpc, s.dir.data_write_self _ _⟩
    · exact h.copyToBackupTemp hj hpc (hg job hj hcase) ht
    · obtain rfl := Option.some.inj ht
      exact h.copyData hj hpc.1 hpc.2.1 hpc.2.2.1 hpc.2.2.2
    · split at ht
      · rename_i hr
        obtain rfl := Option.some.inj ht
        exact h.replaceBackup hj hpc.1 hpc.2 hr
      · obtain rfl := Option.some.inj ht
        exact h.goto_same hj hpc.1
    · split at ht
      · rename_i hr
        obtain rfl := Option.some.inj ht
        exact h.replaceCheckpoint hj hpc hr
      · cases ht
    · obtain rfl := Option.some.inj ht
      refine h.goto_same hj ⟨fun n hn => ?_, fun _ => hpc⟩
      split_ifs at hn
      · exact .inr (List.mem_singleton.mp hn)
      · cases hn
    · rename_i n names success
      obtain rfl := Option.some.inj ht
      have hn := hpc.1 n List.mem_cons_self
      refine h.goto_touch hj hn (touches_unlink n) (fun i _ hi => by simp at hi)
        ⟨fun m hm => hpc.1 m (List.mem_cons_of_mem _ hm), fun hsuc => ?_⟩
      refine (hpc.2 hsuc).of_sameAt ((touches_unlink n).sameAt _ ?_)
      rcases hn with rfl | rfl
      · exact hok.source_main.1.symm
      · simp
    · obtain rfl := Option.some.inj ht
      exact h.leave hj hpc.2

theorem Inv.fails (h : Inv s) {t : State} (ht : s.fails = some t) : Inv t := by
  unfold State.fails at ht
  split at ht
  · cases ht
  · rename_i job hj
    have hpc := h.pc job hj
    split at ht
    · rename_i hcase
      obtain rfl := Option.some.inj ht
      simp only [PcOk, hcase] at hpc
      exact h.goto_same hj ⟨fun m hm => hpc.1 m (List.mem_cons_of_mem _ hm), hpc.2⟩
    · cases ht
    · obtain rfl := Option.some.inj ht
      exact h.goto_same hj ⟨fun n hn => by simpa using hn, fun hf => by cases hf⟩

end Publication

/-- A new process forgets the views and the publication; its captures are newer than all before. -/
theorem Inv.restart (h : Inv s) (pid : ℕ) : Inv (s.restart pid) where
  files := by
    refine h.files.mono (fun _ hc => hc) ?_
    have := h.attempted_le
    simp only [State.restart, Manager.fresh]
    omega
  views v hv := by cases hv
  nodup := List.nodup_nil
  attempted_le := le_rfl
  recent := h.recent
  job j hj := by cases hj
  pc j hj := by cases hj
  succeeded _ hl := by cases hl

/-! ### Runs -/

/-- **One step keeps the invariant**, unless it truncates a leftover link. -/
theorem Inv.step (h : Inv s) {a : Action} (hg : NoLeftoverLink s a) {t : State}
    (ht : s.step a = some t) : Inv t := by
  cases a with
  | capture payload => exact Option.some.inj ht ▸ h.capture payload
  | captureFails => exact h.captureFails ht
  | pinFails noted => exact Option.some.inj ht ▸ h.pinFails noted
  | prepareOpen sequence uuid => exact h.prepareOpen ht
  | prepareWrite sequence => exact h.prepareWrite ht
  | prepareFails sequence removed => exact h.prepareFails ht
  | publish sequence removed => exact h.publish ht
  | advance linked => exact h.advance hg ht
  | fails => exact h.fails ht
  | restart pid => exact Option.some.inj ht ▸ h.restart pid

theorem State.start_inv (pid : ℕ) : Inv (State.start pid) where
  files := by constructor <;> simp [State.start]
  views v hv := by cases hv
  nodup := List.nodup_nil
  attempted_le := le_rfl
  recent r hr := by cases hr
  job j hj := by cases hj
  pc j hj := by cases hj
  succeeded _ hl := by cases hl

theorem Inv.safe (h : Inv s) : Safe s where
  checkpoint i hi := by
    obtain ⟨c, hc, hdata, _⟩ := h.files.checkpoint i hi
    exact ⟨c, hc, hdata⟩
  backup := h.files.backup
  recent r hr := by
    obtain ⟨c, ⟨i, hi, hdata⟩, hle⟩ := h.recent r hr
    exact ⟨i, c, hi, hdata, hle⟩

/-- Every state of a guarded run satisfies the invariant. -/
theorem reachable_inv (h : fileSystem.Reachable NoLeftoverLink s) : Inv s :=
  h.invariant (by rintro _ ⟨pid, rfl⟩; exact State.start_inv pid)
    fun _ _ _ hi hg ht => hi.step hg ht

/-- The truncating open of a leftover link empties the Checkpoint_File. -/
theorem not_safe_of_leftover_link {a : Action} (hg : ¬ NoLeftoverLink s a) {t : State}
    (ht : s.step a = some t) : ¬ Safe t := by
  obtain ⟨linked, rfl⟩ : ∃ linked, a = .advance linked := by
    cases a <;> simp_all [NoLeftoverLink]
  simp only [NoLeftoverLink, not_forall, not_not] at hg
  obtain ⟨job, hj, hpc, i, hprimary, hbackup⟩ := hg
  rw [Option.mem_def] at hj hprimary
  have hopen : s.dir.openTruncate (backupTemp s.manager.pid) none = (s.dir.write i none, i) := by
    simp only [openTruncate, hbackup]
  have hlink : s.dir.link checkpointFile (backupTemp s.manager.pid) = none := by
    simp only [Directory.link, hprimary, hbackup]
  have ht' : t = s.goto job (.copyData i i) (s.dir.write i none) := by
    simp only [State.step, State.advance, hj, hpc, State.copyToBackupTemp, hprimary, hlink,
      ite_self, hopen, Option.some.injEq] at ht
    exact ht.symm
  intro hsafe
  obtain ⟨c, _, hdata⟩ := hsafe.checkpoint i (by rw [ht']; exact hprimary)
  rw [ht'] at hdata
  simp [State.goto] at hdata

/-- **Crash safety.** In every state of a run without a leftover link the two files are safe, and
there a step leaves them safe exactly when it does not truncate a leftover link. -/
theorem reachable_safe_iff_no_leftover_link {s : State}
    (h : fileSystem.Reachable NoLeftoverLink s) :
    Safe s ∧ ∀ a t, fileSystem.step s a = some t → (Safe t ↔ NoLeftoverLink s a) := by
  have hinv := reachable_inv h
  refine ⟨hinv.safe, fun a t ht => ⟨fun hsafe => ?_, fun hg => (hinv.step hg ht).safe⟩⟩
  by_contra hg
  exact not_safe_of_leftover_link hg ht hsafe

/-- A process with id 7 publishes a first snapshot. -/
def firstPublication : List Action :=
  [.capture "first", .prepareOpen 1 0, .prepareWrite 1, .publish 1 true] ++
    List.replicate 6 (.advance true)

theorem firstPublication_safe : ∃ s, fileSystem.run NoLeftoverLink (State.start 7)
      firstPublication = some s ∧ s.reported = [⟨1, "first"⟩] ∧ Safe s ∧
      ∀ a t, fileSystem.step s a = some t → (Safe t ↔ NoLeftoverLink s a) := by
  obtain ⟨s, hs⟩ := Option.isSome_iff_exists.mp
    (show (fileSystem.run NoLeftoverLink (State.start 7) firstPublication).isSome by decide)
  have hr : (fileSystem.run NoLeftoverLink (State.start 7) firstPublication).map State.reported =
      some [⟨1, "first"⟩] := by decide
  rw [hs] at hr
  exact ⟨s, hs, Option.some.inj hr, reachable_safe_iff_no_leftover_link
    (StepSystem.reachable_of_run _ ⟨7, rfl⟩ hs)⟩

/-- After its first publication the process links the Checkpoint_File to the backup's temporary
file and stops. A process with the same id publishes and truncates the leftover link. -/
def leftoverLinkRun : List Action :=
  firstPublication ++
    [.capture "second", .prepareOpen 2 0, .prepareWrite 2, .publish 2 true, .advance true,
      .restart 7, .capture "third", .prepareOpen 1 1, .prepareWrite 1, .publish 1 true,
      .advance true]

/-- **Failing run.** A successful publication was reported, and yet the Checkpoint_File is
present and empty. -/
theorem leftover_link_truncates_checkpoint : ∃ s,
    fileSystem.Reachable StepSystem.Free s ∧ s.reported = [⟨1, "first"⟩] ∧
      (s.dir.inode? checkpointFile).map s.dir.data = some none ∧ ¬ Safe s := by
  obtain ⟨s, hs⟩ := Option.isSome_iff_exists.mp
    (show (fileSystem.run StepSystem.Free (State.start 7) leftoverLinkRun).isSome by decide)
  have hr : (fileSystem.run StepSystem.Free (State.start 7) leftoverLinkRun).map State.reported =
      some [⟨1, "first"⟩] := by decide
  have hd : (fileSystem.run StepSystem.Free (State.start 7) leftoverLinkRun).map
      (fun s => (s.dir.inode? checkpointFile).map s.dir.data) = some (some none) := by decide
  rw [hs] at hr hd
  refine ⟨s, StepSystem.reachable_of_run _ ⟨7, rfl⟩ hs, Option.some.inj hr, Option.some.inj hd,
    fun hsafe => ?_⟩
  obtain ⟨i, hi, hdata⟩ := Option.map_eq_some_iff.mp (Option.some.inj hd)
  obtain ⟨c, _, hc⟩ := hsafe.checkpoint i hi
  exact absurd (hc.symm.trans hdata) (by simp)

end Takler.Checkpoint
