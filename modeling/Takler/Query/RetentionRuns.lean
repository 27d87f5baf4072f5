import Takler.Query.RetentionSafety

/-!
# The accounts of the query service in all runs

The captures that run are started by requests and end after their builds, whether anybody still
waits for them or not. This module shows that starting and ending one changes all the accounts of
reservations together, and puts the steps together.

## Main results

* `sound_startCapture`, `sound_releaseCapture`: a reservation is made, and returned.
* `sound_step`: every step keeps the invariants.
* `retention_accounted`: the accounts and limits in every reachable state.
-/

namespace Takler.Query

open Takler.Query.State

variable {s t : State} {a : Ambient} {extra : ℤ}

/-! ### Starting a capture -/

theorem buildReaders_of_buildFor {x : Selection} {version : VersionRef} {snapshotId : ℕ} {b : Build}
    (h : s.buildFor x version snapshotId = some b) : b.readers = s.buildReaders x := by
  unfold buildFor at h
  unfold State.buildReaders
  split at h
  case h_1 hb =>
    cases h
    rw [hb]
    rfl
  case h_2 hb =>
    dsimp only at h
    split_ifs at h
    cases h
    rw [hb]
    rfl

theorem ledger_startCapture (hs : Ledger s) (task : Task) {b : Build} {capture : Capture}
    {readers : List Reader} (hkey : s.captures.get? task.key = none)
    (hb : b.readers = s.buildReaders task.selection) :
    Ledger { s with
      contentCaptures := s.contentCaptures.set task.selection { b with readers := b.readers + 1 }
      reserved := s.reserved + 1
      ownerReserved := s.ownerReserved.set task.owner (s.ownerReserved.getInt task.owner + 1)
      captures := s.captures.set task.key capture
      tasks := s.tasks ++ [task]
      readers } := by
  constructor
  · simp [hs.reserved]
  · dsimp only
    rw [OrderedDict.keys_set_of_notMem (OrderedDict.get?_eq_none.mp hkey), hs.captures,
      List.map_append, List.map_singleton]
  · intro o
    dsimp only
    rw [OrderedDict.getInt_set, List.countP_append, List.countP_singleton, hs.owners, hs.owners]
    by_cases ho : o = task.owner
    · subst ho
      simp
    · simp [ho, Ne.symm ho]
  · dsimp only
    rw [OrderedDict.sum_set, hs.total, List.length_append, List.length_singleton]
    push_cast
    omega
  · intro y
    unfold State.buildReaders
    dsimp only
    rw [OrderedDict.get?_set, List.countP_append, List.countP_singleton]
    by_cases hy : y = task.selection
    · subst hy
      simp [hb, hs.builds]
    · have hy' := hs.builds y
      unfold State.buildReaders at hy'
      simp [hy, Ne.symm hy, hy']

/-- The build for a selection is there already, or it is new. -/
theorem old_or_new_of_buildFor {x : Selection} {version : VersionRef} {snapshotId : ℕ} {b : Build}
    (h : s.buildFor x version snapshotId = some b) : s.contentCaptures.get? x = some b ∨
      s.contentCaptures.get? x = none ∧ b.snapshotId = snapshotId ∧ b.reservedBytes = 0 ∧
        b.phase = .created := by
  unfold buildFor at h
  split at h
  case h_1 hb =>
    cases h
    exact .inl hb
  case h_2 hb =>
    dsimp only at h
    split_ifs at h
    cases h
    exact .inr ⟨hb, rfl, rfl, rfl⟩

/-- Another reader of a build. -/
theorem builds_setReaders (hs : Builds s) {x : Selection} {b : Build} {n : ℤ}
    (hb : s.contentCaptures.get? x = some b) :
    Builds { s with contentCaptures := s.contentCaptures.set x { b with readers := n } } := by
  have hmem := OrderedDict.get?_eq_some.mp hb
  -- but for the readers, every build is an old one
  have hold : ∀ y ∈ (s.contentCaptures.set x { b with readers := n }).entries,
      ∃ z ∈ s.contentCaptures.entries, z.1 = y.1 ∧ z.2.snapshotId = y.2.snapshotId ∧
        z.2.phase = y.2.phase ∧ (PhaseOk z.2 → PhaseOk y.2) := by
    intro y hy
    rcases OrderedDict.mem_set.mp hy with rfl | ⟨hy, -⟩
    · exact ⟨(x, b), hmem, rfl, rfl, rfl, id⟩
    · exact ⟨y, hy, rfl, rfl, rfl, id⟩
  refine ⟨fun y hy => ?_, hs.freshContent, fun y hy z hz hyz => ?_, fun y hy => ?_,
    fun y hy z hz hyz => ?_⟩
  · obtain ⟨y', hy', -, hid, -⟩ := hold y hy
    exact hid ▸ hs.fresh y' hy'
  · obtain ⟨y', hy', hkey, hid, -⟩ := hold y hy
    obtain ⟨z', hz', hkey', hid', -⟩ := hold z hz
    rw [← hkey, ← hkey']
    exact hs.distinct y' hy' z' hz' (hid.trans (hyz.trans hid'.symm))
  · obtain ⟨y', hy', -, -, -, hphase⟩ := hold y hy
    exact hphase (hs.phase y' hy')
  · obtain ⟨z', hz', -, hid, hphase, -⟩ := hold z hz
    exact hphase ▸ hs.published y hy z' hz' (hid.trans hyz)

/-- A new build with a token that nothing else has. -/
theorem builds_new (hs : Builds s) {x : Selection} {b : Build}
    (hfresh : b.snapshotId < s.nextToken)
    (hbuilds : ∀ y ∈ s.contentCaptures.entries, y.2.snapshotId ≠ b.snapshotId)
    (hviews : ∀ y ∈ s.snapshots.entries, y.2.content.originalSnapshotId ≠ b.snapshotId)
    (hphase : PhaseOk b) :
    Builds { s with contentCaptures := s.contentCaptures.set x b } := by
  refine ⟨fun y hy => ?_, hs.freshContent, fun y hy z hz hyz => ?_, fun y hy => ?_,
    fun y hy z hz hyz => ?_⟩
  · rcases OrderedDict.mem_set.mp hy with rfl | ⟨hy, -⟩
    · exact hfresh
    · exact hs.fresh y hy
  · rcases OrderedDict.mem_set.mp hy with rfl | ⟨hy, -⟩
    · rcases OrderedDict.mem_set.mp hz with rfl | ⟨hz, -⟩
      · rfl
      · exact absurd hyz.symm (hbuilds z hz)
    · rcases OrderedDict.mem_set.mp hz with rfl | ⟨hz, -⟩
      · exact absurd hyz (hbuilds y hy)
      · exact hs.distinct y hy z hz hyz
  · rcases OrderedDict.mem_set.mp hy with rfl | ⟨hy, -⟩
    · exact hphase
    · exact hs.phase y hy
  · rcases OrderedDict.mem_set.mp hz with rfl | ⟨hz, -⟩
    · exact absurd hyz.symm (hviews y hy)
    · exact hs.published y hy z hz hyz

/-- Readers count for nothing. -/
theorem sum_weight_set (C : Finset Content) {x : Selection} {b : Build}
    (h : (s.contentCaptures.get? x).elim 0 (weight C) = weight C b) (n : ℤ) :
    ((s.contentCaptures.set x { b with readers := n }).values.map (weight C)).sum
      = (s.contentCaptures.values.map (weight C)).sum := by
  have hsum := OrderedDict.sum_map_set (d := s.contentCaptures) (k := x)
    (v := { b with readers := n }) (weight C)
  rw [h] at hsum
  have hb : weight C { b with readers := n } = weight C b := rfl
  omega

/-- **A capture starts.** Its view is reserved, and it reads a build. -/
theorem sound_startCapture (hs : Sound 0 s) {r : PageRequest} {key : CaptureKey} {x : Selection}
    {version : VersionRef} {snapshotId : ℕ} (hkey : s.captures.get? key = none)
    (hfresh : snapshotId < s.nextToken)
    (hbuilds : ∀ y ∈ s.contentCaptures.entries, y.2.snapshotId ≠ snapshotId)
    (hviews : ∀ y ∈ s.snapshots.entries, y.2.content.originalSnapshotId ≠ snapshotId) :
    Sound 0 (s.startCapture a r key x version snapshotId).2 := by
  unfold startCapture
  split
  · exact hs
  split
  · exact hs
  case isFalse hroom =>
    split
    · exact hs
    case h_2 b hb =>
      have hweight : ∀ C, (s.contentCaptures.get? x).elim 0 (weight C) = weight C b := by
        intro C
        rcases old_or_new_of_buildFor hb with hold | ⟨hnew, -, hzero, -⟩
        · rw [hold, Option.elim_some]
        · rw [hnew, Option.elim_none, weight, hzero, ite_self]
      refine ⟨ledger_startCapture hs.ledger ⟨key, r.owner, r.queryId, snapshotId, x⟩ hkey
        (buildReaders_of_buildFor hb), ⟨hs.leases.1, hs.leases.2⟩, ⟨hs.views.1, hs.views.2⟩, ?_, ?_⟩
      · have hset : Builds { s with
            contentCaptures := s.contentCaptures.set x { b with readers := b.readers + 1 } } := by
          rcases old_or_new_of_buildFor hb with hold | ⟨-, hid, hzero, hcreated⟩
          · exact builds_setReaders hs.builds hold
          · refine builds_new hs.builds (hid ▸ hfresh) (hid ▸ hbuilds) (hid ▸ hviews) ?_
            unfold PhaseOk
            dsimp only
            rw [hcreated]
            exact hzero
        exact ⟨hset.1, hset.2, hset.3, hset.4, hset.5⟩
      · have hkept := keptSize_le_of_retainedSize_add (not_lt.mp hroom)
        rw [kept_eq, heldBytes_eq] at hkept ⊢
        change ((∑ c ∈ s.contents none none, c.size + ((s.contentCaptures.set x
          { b with readers := b.readers + 1 }).values.map (weight (s.contents none none))).sum : ℕ) :
          ℤ) + (s.snapshots.size + (s.reserved + 1)) * summaryViewBytes +
          (s.blobs.values.map Blob.data).sum + (s.deltaBatches.values.map DeltaBatch.size).sum ≤ _
        rw [sum_weight_set _ (hweight _)]
        generalize (s.blobs.values.map Blob.data).sum = blobs at hkept ⊢
        generalize (s.deltaBatches.values.map DeltaBatch.size).sum = batches at hkept ⊢
        unfold summaryViewBytes at hkept ⊢
        omega

/-! ### Ending a capture -/

theorem exists_build (hs : Ledger s) {task : Task} (ht : task ∈ s.tasks) :
    ∃ b, s.contentCaptures.get? task.selection = some b := by
  have hcount : 0 < s.tasks.countP fun t => t.selection = task.selection :=
    List.countP_pos_iff.mpr ⟨task, ht, by simp⟩
  have hreaders := hs.builds task.selection
  unfold State.buildReaders at hreaders
  cases hb : s.contentCaptures.get? task.selection with
  | none =>
    rw [hb, Option.map_none, Option.getD_none] at hreaders
    omega
  | some b => exact ⟨b, rfl⟩

theorem exists_owner (hs : Ledger s) {task : Task} (ht : task ∈ s.tasks) :
    ∃ n, s.ownerReserved.get? task.owner = some n := by
  have hcount : 0 < s.tasks.countP fun t => t.owner = task.owner :=
    List.countP_pos_iff.mpr ⟨task, ht, by simp⟩
  have hreserved := hs.owners task.owner
  unfold OrderedDict.getInt at hreserved
  cases hn : s.ownerReserved.get? task.owner with
  | none =>
    rw [hn, Option.getD_none] at hreserved
    omega
  | some n => exact ⟨n, rfl⟩

/-- The builds after a reader has left. -/
def State.buildsAfter (s : State) (x : Selection) (b : Build) : OrderedDict Selection Build :=
  if b.readers - 1 = 0 then s.contentCaptures.erase x
  else s.contentCaptures.set x { b with readers := b.readers - 1 }

/-- The reservations of the owners after one has been returned. -/
def State.ownersAfter (s : State) (owner : String) (n : ℤ) : OrderedDict String ℤ :=
  if n - 1 = 0 then s.ownerReserved.erase owner else s.ownerReserved.set owner (n - 1)

theorem getInt_ownersAfter (owner o : String) (n : ℤ) : (s.ownersAfter owner n).getInt o
    = if o = owner then n - 1 else s.ownerReserved.getInt o := by
  unfold State.ownersAfter
  by_cases hzero : n - 1 = 0
  · rw [if_pos hzero, OrderedDict.getInt_erase, hzero]
  · rw [if_neg hzero, OrderedDict.getInt_set]

theorem sum_ownersAfter (owner : String) (n : ℤ) : (s.ownersAfter owner n).values.sum
    = s.ownerReserved.values.sum - s.ownerReserved.getInt owner + (n - 1) := by
  unfold State.ownersAfter
  by_cases hzero : n - 1 = 0
  · rw [if_pos hzero, OrderedDict.sum_erase, hzero, Int.add_zero]
  · rw [if_neg hzero, OrderedDict.sum_set]

theorem readers_buildsAfter (x y : Selection) (b : Build) :
    (((s.buildsAfter x b).get? y).map Build.readers).getD 0
      = if y = x then b.readers - 1 else s.buildReaders y := by
  unfold State.buildsAfter State.buildReaders
  by_cases hzero : b.readers - 1 = 0
  · rw [if_pos hzero, OrderedDict.get?_erase, hzero]
    split_ifs <;> rfl
  · rw [if_neg hzero, OrderedDict.get?_set]
    split_ifs <;> rfl

/-- No exception keeps a part of a reservation. -/
theorem releaseCapture_eq {task : Task} {b : Build} {n : ℤ}
    (hb : s.contentCaptures.get? task.selection = some b)
    (hn : s.ownerReserved.get? task.owner = some n) :
    s.releaseCapture task =
      { s with
        tasks := s.tasks.erase task
        contentCaptures := s.buildsAfter task.selection b
        captures := s.captures.erase task.key
        reserved := s.reserved - 1
        ownerReserved := s.ownersAfter task.owner n } := by
  unfold releaseCapture releaseBuild releaseOwner
  dsimp only
  rw [hb, Option.map_some]
  dsimp only
  rw [hn]
  rfl

theorem countP_erase_task {task : Task} (ht : task ∈ s.tasks) (p : Task → Bool) :
    ((s.tasks.erase task).countP p : ℤ) = s.tasks.countP p - if p task = true then 1 else 0 := by
  have hperm := (List.perm_cons_erase ht).countP_eq p
  rw [List.countP_cons] at hperm
  split_ifs at hperm ⊢ <;> omega

theorem ledger_releaseCapture (hs : Ledger s) {task : Task} (ht : task ∈ s.tasks) :
    Ledger (s.releaseCapture task) := by
  obtain ⟨b, hb⟩ := exists_build hs ht
  obtain ⟨n, hn⟩ := exists_owner hs ht
  have hlength : ((s.tasks.erase task).length : ℤ) = s.tasks.length - 1 := by
    have hpos := List.length_pos_of_mem ht
    rw [List.length_erase_of_mem ht]
    omega
  have hgetn : s.ownerReserved.getInt task.owner = n := by
    rw [OrderedDict.getInt, hn, Option.getD_some]
  rw [releaseCapture_eq hb hn]
  refine ⟨?_, ?_, fun o => ?_, ?_, fun y => ?_⟩
  · dsimp only
    rw [hs.reserved, hlength]
  · dsimp only
    have hnodup : (s.tasks.map Task.key).Nodup := hs.captures ▸ s.captures.nodup
    rw [OrderedDict.keys_erase, hs.captures, hnodup.of_map.erase_eq_filter, List.filter_map]
    refine congrArg _ (List.filter_congr fun u hu => ?_)
    rw [Function.comp_apply, Bool.eq_iff_iff, decide_eq_true_eq, bne_iff_ne]
    refine not_congr ⟨fun h => List.inj_on_of_nodup_map hnodup hu ht h, fun h => h ▸ rfl⟩
  · dsimp only
    rw [countP_erase_task ht, ← hs.owners, getInt_ownersAfter]
    by_cases ho : o = task.owner
    · rw [ho, if_pos rfl, if_pos (decide_eq_true rfl), hgetn]
    · rw [if_neg ho, if_neg (by simpa using Ne.symm ho), Int.sub_zero]
  · dsimp only
    rw [hlength, ← hs.total, sum_ownersAfter, hgetn]
    omega
  · change (((s.buildsAfter task.selection b).get? y).map Build.readers).getD 0 = _
    dsimp only
    rw [countP_erase_task ht, ← hs.builds, readers_buildsAfter]
    by_cases hy : y = task.selection
    · have hreaders : s.buildReaders task.selection = b.readers := by
        rw [State.buildReaders, hb]
        rfl
      rw [hy, if_pos rfl, if_pos (decide_eq_true rfl), hreaders]
    · rw [if_neg hy, if_neg (by simpa using Ne.symm hy), Int.sub_zero]

theorem Builds.erase (hs : Builds s) (x : Selection) :
    Builds { s with contentCaptures := s.contentCaptures.erase x } := by
  have hsub : ∀ y ∈ (s.contentCaptures.erase x).entries, y ∈ s.contentCaptures.entries :=
    fun y hy => (OrderedDict.mem_erase.mp hy).1
  exact ⟨fun y hy => hs.fresh y (hsub y hy), hs.freshContent,
    fun y hy z hz => hs.distinct y (hsub y hy) z (hsub z hz), fun y hy => hs.phase y (hsub y hy),
    fun y hy z hz => hs.published y hy z (hsub z hz)⟩

/-- **A capture ends.** Its reservation is returned everywhere. -/
theorem sound_releaseCapture (hs : Sound extra s) {task : Task} (ht : task ∈ s.tasks) :
    Sound (extra - summaryViewBytes) (s.releaseCapture task) := by
  obtain ⟨b, hb⟩ := exists_build hs.ledger ht
  obtain ⟨n, hn⟩ := exists_owner hs.ledger ht
  have hledger := ledger_releaseCapture hs.ledger ht
  rw [releaseCapture_eq hb hn] at hledger ⊢
  have hbuilds : Builds { s with contentCaptures := s.buildsAfter task.selection b } := by
    unfold State.buildsAfter
    split_ifs
    · exact hs.builds.erase _
    · exact builds_setReaders hs.builds hb
  have hweight : ∀ C, ((s.buildsAfter task.selection b).values.map (weight C)).sum
      ≤ (s.contentCaptures.values.map (weight C)).sum := fun C => by
    unfold State.buildsAfter
    split_ifs
    · exact OrderedDict.sum_map_erase_le _
    · exact (sum_weight_set C (by rw [hb, Option.elim_some]) _).le
  refine ⟨hledger, ⟨hs.leases.1, hs.leases.2⟩, ⟨hs.views.1, hs.views.2⟩,
    ⟨hbuilds.1, hbuilds.2, hbuilds.3, hbuilds.4, hbuilds.5⟩, ?_⟩
  have hkept := hs.bytes
  have hw := hweight (s.contents none none)
  rw [kept_eq, heldBytes_eq] at hkept ⊢
  change ((∑ c ∈ s.contents none none, c.size + ((s.buildsAfter task.selection b).values.map
    (weight (s.contents none none))).sum : ℕ) : ℤ) +
    (s.snapshots.size + (s.reserved - 1)) * summaryViewBytes +
    (s.blobs.values.map Blob.data).sum + (s.deltaBatches.values.map DeltaBatch.size).sum ≤ _
  generalize (s.blobs.values.map Blob.data).sum = blobs at hkept ⊢
  generalize (s.deltaBatches.values.map DeltaBatch.size).sum = batches at hkept ⊢
  unfold summaryViewBytes at hkept ⊢
  omega

theorem tasks_publishSnapshot (a : Ambient) (owner queryId : String) (snapshotId : ℕ)
    (content : Content) (reservedView : Bool) :
    (s.publishSnapshot a owner queryId snapshotId content reservedView).2.tasks = s.tasks := by
  unfold publishSnapshot
  dsimp only
  split
  · rfl
  split
  · rfl
  split
  · split <;> rfl
  · split <;> rfl

/-- A step of a capture. -/
theorem sound_finishCapture (hs : Sound 0 s) {task : Task} {b : Build} (ht : task ∈ s.tasks)
    (hb : s.contentCaptures.get? task.selection = some b)
    (h : s.finishCapture a task b = some t) : Sound 0 t := by
  have hless : (0 : ℤ) - summaryViewBytes ≤ 0 := by decide
  have hpurge : Sound 0 s.purge := (trimmed_purge s).sound hs
  unfold finishCapture at h
  split at h
  · cases h
    exact (sound_releaseCapture hs ht).mono hless
  · cases h
    exact (sound_releaseCapture hpurge ht).mono hless
  case h_3 content hfinished =>
    dsimp only at h
    split_ifs at h
    · cases h
      exact (sound_releaseCapture hpurge ht).mono hless
    · cases h
      have hc : Publishable s.purge content :=
        .of_build hpurge.builds (OrderedDict.get?_eq_some.mp hb) hfinished
      have hpublished := sound_publishSnapshot hpurge hc a task.owner task.queryId
        task.snapshotId true
      refine (sound_releaseCapture hpublished ?_).mono (by decide)
      rw [tasks_publishSnapshot]
      exact ht
  · cases h

/-! ### Requests -/

theorem trimmed_cancelReader {i : ℕ} (h : s.cancelReader i = some t) : Trimmed s t := by
  unfold cancelReader at h
  split at h
  · cases h
  case h_2 reader hreader =>
    split_ifs at h
    dsimp only at h
    split at h
    case h_1 capture hcapture =>
      split_ifs at h
      · cases h
        refine .of_eq (Leases.sublist (.refl _)) rfl rfl rfl rfl rfl ?_ rfl rfl le_rfl
        exact OrderedDict.keys_set_of_mem
          (List.mem_map_of_mem (f := Prod.fst) (OrderedDict.get?_eq_some.mp hcapture))
      · cases h
        exact .of_eq (Leases.sublist (.refl _)) rfl rfl rfl rfl rfl rfl rfl rfl le_rfl
    case h_2 =>
      cases h
      exact .of_eq (Leases.sublist (.refl _)) rfl rfl rfl rfl rfl rfl rfl rfl le_rfl

theorem trimmed_leaveReader {i : ℕ} (h : s.leaveReader i = some t) : Trimmed s t := by
  unfold leaveReader at h
  split at h
  · cases h
  · dsimp only at h
    split_ifs at h
    all_goals
      cases h
      exact .of_eq (Leases.sublist (.refl _)) rfl rfl rfl rfl rfl rfl rfl rfl le_rfl

theorem sound_joinCapture (hs : Sound 0 s) {key : CaptureKey} {capture : Capture}
    (hkey : s.captures.get? key = some capture) : Sound 0 (s.joinCapture key capture).2 := by
  unfold joinCapture
  split
  · exact hs
  · refine Trimmed.sound (s := s) (.of_eq (Leases.sublist (.refl _)) rfl rfl rfl rfl rfl ?_ rfl rfl le_rfl) hs
    exact OrderedDict.keys_set_of_mem
      (List.mem_map_of_mem (f := Prod.fst) (OrderedDict.get?_eq_some.mp hkey))

theorem sound_firstPage (hs : Sound 0 s) (r : PageRequest) (version : VersionRef) :
    Sound 0 (s.firstPage a r version).2 := by
  unfold firstPage
  dsimp only
  split
  · exact (trimmed_renewLease _ _ _ _ _).sound hs
  split
  case h_1 capture hkey => exact sound_joinCapture hs hkey
  case h_2 hkey =>
    split
    · exact hs
    have hnext : Sound 0 { s with nextToken := s.nextToken + 1 } :=
      Trimmed.sound (s := s)
        (.of_eq (Leases.sublist (.refl _)) rfl rfl rfl rfl rfl rfl rfl rfl (Nat.le_succ _)) hs
    split
    case h_1 x hx =>
      have hmem : x ∈ s.snapshots.entries := List.mem_of_mem_filter (List.mem_of_getLast? hx)
      exact sound_publishSnapshot hnext (.of_view hnext.builds hmem) _ _ _ _ false
    case h_2 =>
      exact sound_startCapture hnext hkey (Nat.lt_succ_self _)
        (fun y hy => (hs.builds.fresh y hy).ne) fun y hy => (hs.builds.freshContent y hy).ne

theorem sound_page (hs : Sound 0 s) (a : Ambient) (r : PageRequest) :
    Sound 0 (s.page a r).2 := by
  have hpurge : Sound 0 s.purge := (trimmed_purge s).sound hs
  unfold State.page
  split
  · exact hs
  dsimp only
  split
  · exact hpurge
  split
  · exact hpurge
  split
  · exact hpurge
  · exact sound_firstPage hpurge r _

theorem sound_sinceCursor (hs : Sound 0 s) (owner queryId scope : String) (depth : Option ℕ)
    (sinceRevision batchId index : ℕ) :
    Sound 0 (s.sinceCursor owner queryId scope depth sinceRevision batchId index).2 := by
  have hpurge : Sound 0 s.purge := (trimmed_purge s).sound hs
  unfold sinceCursor
  dsimp only
  split
  · exact hpurge
  split
  · exact hpurge
  split
  · exact hpurge
  · exact (trimmed_renewLease _ _ _ _ _).sound hpurge

theorem sound_keepLease (hs : Sound 0 s) (queryId owner scope : String) (depth : Option ℕ) :
    Sound 0 (s.keepLease queryId owner scope depth).2 := by
  have hpurge : Sound 0 s.purge := (trimmed_purge s).sound hs
  unfold keepLease
  dsimp only
  split
  · exact hpurge
  · exact (trimmed_renewLease _ _ _ _ _).sound hpurge

/-- A batch more. -/
theorem sound_addBatch (hs : Sound 0 s) (k : ℕ) (batch : DeltaBatch)
    (hroom : s.kept + batch.size ≤ maxRetainedBytes) :
    Sound 0 { s with deltaBatches := s.deltaBatches.set k batch } := by
  refine ⟨⟨hs.ledger.1, hs.ledger.2, hs.ledger.3, hs.ledger.4, hs.ledger.5⟩,
    ⟨hs.leases.1, hs.leases.2⟩, ⟨hs.views.1, hs.views.2⟩,
    ⟨hs.builds.1, hs.builds.2, hs.builds.3, hs.builds.4, hs.builds.5⟩, ?_⟩
  have hsum := OrderedDict.sum_map_set (d := s.deltaBatches) (k := k) (v := batch) DeltaBatch.size
  rw [kept_eq] at hroom ⊢
  change (heldBytes (s.contents none none) s.contentCaptures.values : ℤ) +
    (s.snapshots.size + s.reserved) * summaryViewBytes + (s.blobs.values.map Blob.data).sum +
    ((s.deltaBatches.set k batch).values.map DeltaBatch.size).sum ≤ _
  omega

theorem sound_publishDelta (hs : Sound 0 s) (a : Ambient) (owner queryId scope : String)
    (depth : Option ℕ) (sinceRevision : ℕ) (pages : List ℕ) (expires : ℕ) :
    Sound 0 (s.publishDelta a owner queryId scope depth sinceRevision pages expires).2 := by
  have hpurge : Sound 0 s.purge := (trimmed_purge s).sound hs
  have hnext : Sound 0 { s.purge with nextToken := s.nextToken + 1 } :=
    Trimmed.sound (s := s.purge)
      (.of_eq (Leases.sublist (.refl _)) rfl rfl rfl rfl rfl rfl rfl rfl (Nat.le_succ _)) hpurge
  unfold publishDelta
  dsimp only
  split
  · exact hnext
  split
  · exact (trimmed_renewLease _ _ _ _ _).sound hnext
  split
  · exact hnext
  case isFalse hfull =>
    rw [not_or, not_or, not_lt, not_lt] at hfull
    refine (trimmed_renewLease _ _ _ _ _).sound (sound_addBatch hnext _ _ ?_)
    exact keptSize_le_of_retainedSize_add hfull.2.2

/-- A blob more, with a token of its own. -/
theorem sound_addBlob (hs : Sound 0 s) (blob : Blob)
    (hroom : s.kept + blob.data ≤ maxRetainedBytes) :
    Sound 0 { s with nextToken := s.nextToken + 1, blobs := s.blobs.set s.nextToken blob } ∧
      State.kept { s with nextToken := s.nextToken + 1, blobs := s.blobs.set s.nextToken blob }
        ≤ s.kept + blob.data := by
  have hkept : State.kept
      { s with nextToken := s.nextToken + 1, blobs := s.blobs.set s.nextToken blob }
        ≤ s.kept + blob.data := by
    have hsum := OrderedDict.sum_map_set (d := s.blobs) (k := s.nextToken) (v := blob) Blob.data
    rw [kept_eq, kept_eq]
    change (heldBytes (s.contents none none) s.contentCaptures.values : ℤ) +
      (s.snapshots.size + s.reserved) * summaryViewBytes +
      ((s.blobs.set s.nextToken blob).values.map Blob.data).sum +
      (s.deltaBatches.values.map DeltaBatch.size).sum ≤ _
    omega
  have hnext : Sound 0 { s with nextToken := s.nextToken + 1 } :=
    Trimmed.sound (s := s)
      (.of_eq (Leases.sublist (.refl _)) rfl rfl rfl rfl rfl rfl rfl rfl (Nat.le_succ _)) hs
  refine ⟨⟨⟨hs.ledger.1, hs.ledger.2, hs.ledger.3, hs.ledger.4, hs.ledger.5⟩,
    ⟨hs.leases.1, hs.leases.2⟩, ⟨hs.views.1, hs.views.2⟩,
    ⟨hnext.builds.1, hnext.builds.2, hs.builds.3, hs.builds.4, hs.builds.5⟩, ?_⟩, hkept⟩
  rw [Int.add_zero]
  exact hkept.trans hroom

theorem sound_addBlobs : ∀ (blobs : List Blob) {s : State}, Sound 0 s →
    s.kept + (blobs.map Blob.data).sum ≤ maxRetainedBytes → Sound 0 (s.addBlobs blobs)
  | [], _, hs, _ => hs
  | blob :: blobs, s, hs, hroom => by
    rw [List.map_cons, List.sum_cons] at hroom
    obtain ⟨hblob, hkept⟩ := sound_addBlob hs blob (by omega)
    have htail := sound_addBlobs blobs hblob (by omega)
    exact htail

theorem sound_publishBlobs (hs : Sound 0 s) (a : Ambient) (blobs : List Blob) :
    Sound 0 (s.publishBlobs a blobs).2 := by
  have hpurge : Sound 0 s.purge := (trimmed_purge s).sound hs
  unfold publishBlobs
  dsimp only
  split
  · exact hpurge
  case isFalse hfull =>
    rw [not_or, not_lt, not_lt] at hfull
    refine sound_addBlobs _ hpurge ?_
    have hdata : ((blobs.map fun b => { b with expires := s.purge.now + 60 * second }).map
        Blob.data) = blobs.map Blob.data := by
      rw [List.map_map]
      rfl
    rw [hdata]
    exact keptSize_le_of_retainedSize_add hfull.2

/-! ### Runs -/

/-- **One step.** -/
theorem sound_step {e : Event} (hs : Sound 0 s) (h : s.step e = some t) : Sound 0 t := by
  cases e with
  | tick elapsed =>
    cases h
    exact Trimmed.sound (s := s)
      (.of_eq (Leases.sublist (.refl _)) rfl rfl rfl rfl rfl rfl rfl rfl le_rfl) hs
  | page a r =>
    cases h
    exact sound_page hs a r
  | startBuild x =>
    obtain ⟨b, hb, h⟩ := Option.bind_eq_some_iff.mp h
    exact sound_startBuild hs hb h
  | admitBuild a x =>
    obtain ⟨b, hb, h⟩ := Option.bind_eq_some_iff.mp h
    exact sound_admitBuild hs hb h
  | reservePage a x size =>
    obtain ⟨b, hb, h⟩ := Option.bind_eq_some_iff.mp h
    exact sound_reservePage hs hb h
  | failBuild x f =>
    obtain ⟨b, hb, h⟩ := Option.bind_eq_some_iff.mp h
    exact sound_failBuild hs hb h
  | completeBuild x =>
    obtain ⟨b, hb, h⟩ := Option.bind_eq_some_iff.mp h
    exact sound_completeBuild hs hb h
  | finishCapture a task =>
    rw [State.step] at h
    split_ifs at h with ht
    obtain ⟨b, hb, h⟩ := Option.bind_eq_some_iff.mp h
    exact sound_finishCapture hs ht hb h
  | cancelReader i => exact (trimmed_cancelReader h).sound hs
  | leaveReader i => exact (trimmed_leaveReader h).sound hs
  | sinceCursor owner queryId scope depth sinceRevision batchId index =>
    cases h
    exact sound_sinceCursor hs _ _ _ _ _ _ _
  | publishDelta a owner queryId scope depth sinceRevision pages expires =>
    cases h
    exact sound_publishDelta hs _ _ _ _ _ _ _ _
  | keepLease queryId owner scope depth =>
    cases h
    exact sound_keepLease hs _ _ _ _
  | publishBlobs a blobs =>
    cases h
    exact sound_publishBlobs hs a blobs
  | purge =>
    cases h
    exact (trimmed_purge s).sound hs
  | close =>
    cases h
    exact (trimmed_close s).sound hs

theorem sound_init (now : ℕ) : Sound 0 { now } := by
  refine ⟨⟨rfl, rfl, fun _ => rfl, rfl, fun _ => rfl⟩, ⟨Nat.zero_le _, fun _ => Nat.zero_le _⟩,
    ⟨Nat.zero_le _, fun _ => Nat.zero_le _⟩, ⟨nofun, nofun, nofun, nofun, nofun⟩, ?_⟩
  have hcontents : ({ now } : State).contents none none = ∅ := rfl
  rw [kept_eq, heldBytes_eq, hcontents, Finset.sum_empty]
  change ((0 + 0 : ℕ) : ℤ) + (0 + 0) * summaryViewBytes + 0 + 0 ≤ _
  decide

theorem sound_of_reachable (h : service.Reachable StepSystem.Free s) : Sound 0 s := by
  refine h.invariant (I := Sound 0) ?_ fun _ _ _ hs _ hstep => sound_step hs hstep
  rintro _ ⟨now, rfl⟩
  exact sound_init now

/-- **The accounts and limits.** In every reachable state the reservations are those of the running
captures, and views, leases and bytes are within their limits. -/
theorem retention_accounted (h : service.Reachable StepSystem.Free s) :
    (s.reserved = s.captures.size ∧ s.reserved = s.ownerReserved.values.sum) ∧
    (s.tasks = [] → s.reserved = 0 ∧ s.captures.size = 0 ∧ s.ownerReserved.values.sum = 0) ∧
    (s.snapshots.size ≤ maxSnapshots ∧
      ∀ o, (s.snapshots.count fun x => x.2.owner = o) ≤ maxOwnerSnapshots) ∧
    (s.queryLeases.size ≤ maxQueryLeases ∧
      ∀ o, (s.queryLeases.count fun x => x.2.owner = o) ≤ maxOwnerQueryLeases) ∧
    s.keptSize none none false ≤ maxRetainedBytes := by
  have hs := sound_of_reachable h
  have hcaptures : s.captures.size = s.tasks.length := by
    rw [← List.length_map Task.key, ← hs.ledger.captures, OrderedDict.keys, List.length_map]
    rfl
  refine ⟨⟨?_, ?_⟩, fun htasks => ?_, ⟨?_, hs.views.owned⟩, ⟨?_, hs.leases.owned⟩, ?_⟩
  · rw [hs.ledger.reserved, hcaptures]
  · rw [hs.ledger.reserved, hs.ledger.total]
  · rw [hs.ledger.reserved, hcaptures, hs.ledger.total, htasks]
    exact ⟨rfl, rfl, rfl⟩
  · rw [OrderedDict.size_eq_count]
    exact hs.views.all
  · rw [OrderedDict.size_eq_count]
    exact hs.leases.all
  · simpa [State.kept] using hs.bytes

/-- The scheduler at rest. -/
def quietAmbient : Ambient := ⟨0, 0, fun _ => true, []⟩

/-- A client asks for the first page, which is built and published. -/
def firstPageRun : List Event :=
  let request : PageRequest := ⟨"owner", "query", "/", none, true, none, .ok ⟨7, 7⟩⟩
  let selection : Selection := ⟨7, 0, "/", none, []⟩
  [.page quietAmbient request, .startBuild selection, .admitBuild quietAmbient selection,
    .reservePage quietAmbient selection 1000, .completeBuild selection,
    .finishCapture quietAmbient ⟨⟨"query", 7, 0⟩, "owner", "query", 0, selection⟩]

/-- After the run the reservation has become a view, and the bytes are those of its page. -/
theorem firstPageRun_accounted : ∃ s, service.run StepSystem.Free { now := 0 } firstPageRun = some s ∧
    s.snapshots.size = 1 ∧ s.keptSize none none false = 1512 ∧ s.reserved = s.captures.size ∧
    s.keptSize none none false ≤ maxRetainedBytes := by
  obtain ⟨s, hs⟩ := Option.isSome_iff_exists.mp
    (show (service.run StepSystem.Free { now := 0 } firstPageRun).isSome by decide +kernel)
  have hview : (service.run StepSystem.Free { now := 0 } firstPageRun).map (fun s =>
      (s.snapshots.size, s.keptSize none none false)) = some (1, 1512) := by decide +kernel
  rw [hs, Option.map_some, Option.some_inj, Prod.mk.injEq] at hview
  have haccounts := retention_accounted (StepSystem.reachable_of_run firstPageRun ⟨0, rfl⟩ hs)
  exact ⟨s, hs, hview.1, hview.2, haccounts.1.1, haccounts.2.2.2.2⟩

end Takler.Query
