import Takler.Query.Retention

/-!
# What the query service keeps stays within its limits

The bytes of a summary are reserved page by page while they are built, belong to the content when
the build is complete, and are counted once however many views share it. What is counted before and
after the transfer is the same because a complete build has reserved exactly the size of its
content (`PhaseOk`), and because a content is told from others by the token of its build.

The reservations of captures are kept in four places: a number, the captures by key, the numbers of
the owners, and the readers of the builds. All of them follow the running tasks (`Ledger`).

## Main definitions

* `Ledger`, `Leases`, `Views`, `Builds`, `Sound`: the invariants of the state.
* `State.kept`: the bytes that are kept.
* `Trimmed`: what expiry and closing do.

## Main results

* `heldBytes_mono`: without a content its bytes may become those of a build again, and no more.
* `sound_publishSnapshot`: views are published within the limits.
* `sound_updateBuild`: so do builds go on.
-/

namespace Takler.Query

open Takler.Query.State

/-! ### Bytes -/

/-- The reserved bytes of a build that no content accounts for. -/
def weight (C : Finset Content) (b : Build) : ℕ :=
  if b.snapshotId ∈ C.image Content.originalSnapshotId then 0 else b.reservedBytes

theorem heldBytes_eq (C : Finset Content) (B : List Build) :
    heldBytes C B = ∑ c ∈ C, c.size + (B.map (weight C)).sum := by
  unfold heldBytes
  congr 1
  induction B with
  | nil => rfl
  | cons b B ih =>
    rw [List.map_cons, List.sum_cons, ← ih, weight]
    by_cases h : b.snapshotId ∈ C.image Content.originalSnapshotId
    · rw [List.filter_cons_of_neg (by simpa using h), if_pos h, Nat.zero_add]
    · rw [List.filter_cons_of_pos (by simpa using h), if_neg h, List.map_cons, List.sum_cons]

/-- The builds of contents have reserved no more than the contents take. -/
def Covers (C : Finset Content) (B : List Build) : Prop :=
  ∀ c ∈ C, ∀ b ∈ B, b.snapshotId = c.originalSnapshotId → b.reservedBytes ≤ c.size

theorem Covers.subset {C C' : Finset Content} {B : List Build} (h : Covers C B) (hC : C' ⊆ C) :
    Covers C' B := fun c hc => h c (hC hc)

/-- Only one build can be that of a content. -/
theorem sum_weight_erase_le {C : Finset Content} {c : Content} : ∀ {B : List Build},
    (B.map Build.snapshotId).Nodup →
    (∀ b ∈ B, b.snapshotId = c.originalSnapshotId → b.reservedBytes ≤ c.size) →
    (B.map (weight (C.erase c))).sum ≤ (B.map (weight C)).sum + c.size
  | [], _, _ => Nat.zero_le _
  | b :: B, hnodup, hcover => by
    rw [List.map_cons, List.nodup_cons] at hnodup
    have htail := fun x hx => hcover x (List.mem_cons_of_mem b hx)
    simp only [List.map_cons, List.sum_cons]
    by_cases hb : b.snapshotId = c.originalSnapshotId
    · have hsame : B.map (weight (C.erase c)) = B.map (weight C) := by
        refine List.map_congr_left fun x hx => ?_
        have hne : x.snapshotId ≠ c.originalSnapshotId := fun hxc =>
          hnodup.1 (hb ▸ hxc ▸ List.mem_map_of_mem hx)
        unfold weight
        refine if_congr ?_ rfl rfl
        simp only [Finset.mem_image, Finset.mem_erase]
        refine ⟨fun ⟨d, hd, hdx⟩ => ⟨d, hd.2, hdx⟩, fun ⟨d, hd, hdx⟩ => ⟨d, ⟨?_, hd⟩, hdx⟩⟩
        rintro rfl
        exact hne hdx.symm
      have hle : weight (C.erase c) b ≤ c.size := by
        unfold weight
        split_ifs
        · exact Nat.zero_le _
        · exact hcover b List.mem_cons_self hb
      rw [hsame]
      omega
    · have hsame : weight (C.erase c) b = weight C b := by
        unfold weight
        refine if_congr ?_ rfl rfl
        simp only [Finset.mem_image, Finset.mem_erase]
        refine ⟨fun ⟨d, hd, hdx⟩ => ⟨d, hd.2, hdx⟩, fun ⟨d, hd, hdx⟩ => ⟨d, ⟨?_, hd⟩, hdx⟩⟩
        rintro rfl
        exact hb hdx.symm
      have hB := sum_weight_erase_le (C := C) hnodup.2 htail
      rw [hsame]
      omega

/-- Without a content its bytes may become those of a build again, and no more. -/
theorem heldBytes_mono {C C' : Finset Content} {B : List Build}
    (hnodup : (B.map Build.snapshotId).Nodup) (hcover : Covers C B) (hC : C' ⊆ C) :
    heldBytes C' B ≤ heldBytes C B := by
  induction h : (C \ C').card generalizing C with
  | zero =>
    rw [Finset.card_eq_zero, Finset.sdiff_eq_empty_iff_subset] at h
    rw [hC.antisymm h]
  | succ n ih =>
    obtain ⟨c, hc⟩ := Finset.card_pos.mp (show 0 < (C \ C').card by omega)
    obtain ⟨hcC, hcC'⟩ := Finset.mem_sdiff.mp hc
    have hsub : C' ⊆ C.erase c := fun d hd =>
      Finset.mem_erase.mpr ⟨fun hdc => hcC' (hdc ▸ hd), hC hd⟩
    have hcard : (C.erase c \ C').card = n := by
      rw [Finset.erase_sdiff_comm, Finset.card_erase_of_mem hc, h, Nat.add_sub_cancel]
    refine (ih (hcover.subset (Finset.erase_subset c C)) hsub hcard).trans ?_
    have hsize := Finset.sum_erase_add C Content.size hcC
    have hweight := sum_weight_erase_le (C := C) (c := c) hnodup (hcover c hcC)
    rw [heldBytes_eq, heldBytes_eq]
    omega

/-! ### The parts of the state -/

/-- The readers of the build of a selection. -/
def State.buildReaders (s : State) (selection : Selection) : ℤ :=
  ((s.contentCaptures.get? selection).map Build.readers).getD 0

/-- The reservations are those of the running tasks. -/
structure Ledger (s : State) : Prop where
  reserved : s.reserved = s.tasks.length
  captures : s.captures.keys = s.tasks.map Task.key
  owners : ∀ o, s.ownerReserved.getInt o = s.tasks.countP fun t => t.owner = o
  total : s.ownerReserved.values.sum = s.tasks.length
  builds : ∀ x, s.buildReaders x = s.tasks.countP fun t => t.selection = x

/-- The leases are within their limits. -/
structure Leases (s : State) : Prop where
  all : (s.queryLeases.count fun _ => true) ≤ maxQueryLeases
  owned : ∀ o, (s.queryLeases.count fun x => x.2.owner = o) ≤ maxOwnerQueryLeases

/-- The views are within their limits. -/
structure Views (s : State) : Prop where
  all : (s.snapshots.count fun _ => true) ≤ maxSnapshots
  owned : ∀ o, (s.snapshots.count fun x => x.2.owner = o) ≤ maxOwnerSnapshots

/-- What a build has reserved is what its pages take. -/
def PhaseOk (b : Build) : Prop :=
  match b.phase with
  | .created => b.reservedBytes = 0
  | .waiting _ => b.reservedBytes = 0
  | .capturing _ _ pages => b.reservedBytes = pages.sum
  | .finished (.content c) => c.originalSnapshotId = b.snapshotId ∧ c.size = b.reservedBytes
  | .finished (.failure _) => True
  | .finished .raised => True

/-- Builds and contents belong together by tokens. -/
structure Builds (s : State) : Prop where
  fresh : ∀ x ∈ s.contentCaptures.entries, x.2.snapshotId < s.nextToken
  freshContent : ∀ x ∈ s.snapshots.entries, x.2.content.originalSnapshotId < s.nextToken
  distinct : ∀ x ∈ s.contentCaptures.entries, ∀ y ∈ s.contentCaptures.entries,
    x.2.snapshotId = y.2.snapshotId → x.1 = y.1
  phase : ∀ x ∈ s.contentCaptures.entries, PhaseOk x.2
  published : ∀ x ∈ s.snapshots.entries, ∀ y ∈ s.contentCaptures.entries,
    y.2.snapshotId = x.2.content.originalSnapshotId → y.2.phase = .finished (.content x.2.content)

/-- The bytes that are kept. -/
def State.kept (s : State) : ℤ := s.keptSize none none false

/-- All of it, with some bytes to spare or to be returned. -/
structure Sound (extra : ℤ) (s : State) : Prop where
  ledger : Ledger s
  leases : Leases s
  views : Views s
  builds : Builds s
  bytes : s.kept ≤ maxRetainedBytes + extra

/-! ### Contents -/

theorem mem_contents {s : State} {replacing : Option ℕ} {adding : Option Content} {c : Content} :
    c ∈ s.contents replacing adding ↔
      (∃ x ∈ s.snapshots.entries, some x.1 ≠ replacing ∧ x.2.content = c) ∨ adding = some c := by
  simp only [contents, List.mem_toFinset, List.mem_append, List.mem_map, OrderedDict.values,
    OrderedDict.filter, List.mem_filter, decide_eq_true_eq, Option.mem_toList]
  refine or_congr ⟨?_, ?_⟩ Iff.rfl
  · rintro ⟨v, ⟨x, ⟨hx, hne⟩, rfl⟩, rfl⟩
    exact ⟨x, hx, hne, rfl⟩
  · rintro ⟨x, hx, hne, rfl⟩
    exact ⟨x.2, ⟨x, ⟨hx, hne⟩, rfl⟩, rfl⟩

theorem kept_eq (s : State) : s.kept =
    heldBytes (s.contents none none) s.contentCaptures.values +
      (s.snapshots.size + s.reserved) * summaryViewBytes + (s.blobs.values.map Blob.data).sum +
      (s.deltaBatches.values.map DeltaBatch.size).sum := by
  simp [State.kept, keptSize]

namespace Builds

variable {s : State}

/-- A content that a build has made is covered by it. -/
theorem reserved_le {x : ℕ × View} {y : Selection × Build} (h : Builds s)
    (hx : x ∈ s.snapshots.entries) (hy : y ∈ s.contentCaptures.entries)
    (hxy : y.2.snapshotId = x.2.content.originalSnapshotId) :
    y.2.reservedBytes ≤ x.2.content.size := by
  have hphase := h.phase y hy
  rw [PhaseOk, h.published x hx y hy hxy] at hphase
  exact hphase.2.ge

theorem nodup (h : Builds s) : (s.contentCaptures.values.map Build.snapshotId).Nodup := by
  rw [OrderedDict.values, List.map_map]
  refine (List.Nodup.of_map Prod.fst s.contentCaptures.nodup).map_on fun x hx y hy hxy => ?_
  exact List.inj_on_of_nodup_map s.contentCaptures.nodup hx hy (h.distinct x hx y hy hxy)

theorem covers (h : Builds s) : Covers (s.contents none none) s.contentCaptures.values := by
  intro c hc b hb hbc
  obtain ⟨y, hy, rfl⟩ := List.mem_map.mp hb
  rcases mem_contents.mp hc with ⟨x, hx, -, rfl⟩ | hnone
  · exact h.reserved_le hx hy hbc
  · cases hnone

end Builds

/-! ### Expiry and closing -/

/-- Entries are removed from what is kept for clients, and leases stay within their limits. -/
structure Trimmed (s s' : State) : Prop where
  leases : Leases s → Leases s'
  snapshots : s'.snapshots.entries.Sublist s.snapshots.entries
  blobs : s'.blobs.entries.Sublist s.blobs.entries
  deltaBatches : s'.deltaBatches.entries.Sublist s.deltaBatches.entries
  reserved : s'.reserved = s.reserved
  ownerReserved : s'.ownerReserved = s.ownerReserved
  captures : s'.captures.keys = s.captures.keys
  contentCaptures : s'.contentCaptures = s.contentCaptures
  tasks : s'.tasks = s.tasks
  nextToken : s.nextToken ≤ s'.nextToken

theorem Leases.sublist {s s' : State}
    (h : s'.queryLeases.entries.Sublist s.queryLeases.entries) (hs : Leases s) : Leases s' :=
  ⟨h.countP_le.trans hs.all, fun o => h.countP_le.trans (hs.owned o)⟩

theorem trimmed_purge (s : State) : Trimmed s s.purge :=
  ⟨Leases.sublist List.filter_sublist, List.filter_sublist, List.filter_sublist, List.filter_sublist, rfl, rfl,
    rfl, rfl, rfl, le_rfl⟩

theorem trimmed_close (s : State) : Trimmed s s.close :=
  ⟨Leases.sublist (List.nil_sublist _), List.nil_sublist _, List.nil_sublist _,
    List.nil_sublist _, rfl, rfl,
    rfl, rfl, rfl, le_rfl⟩

/-- Nothing of what is kept changes but leases. -/
theorem Trimmed.of_eq {s s' : State} (hleases : Leases s → Leases s')
    (hsnapshots : s'.snapshots = s.snapshots) (hblobs : s'.blobs = s.blobs)
    (hbatches : s'.deltaBatches = s.deltaBatches) (hreserved : s'.reserved = s.reserved)
    (howners : s'.ownerReserved = s.ownerReserved) (hkeys : s'.captures.keys = s.captures.keys)
    (hbuilds : s'.contentCaptures = s.contentCaptures) (htasks : s'.tasks = s.tasks)
    (htoken : s.nextToken ≤ s'.nextToken) : Trimmed s s' :=
  ⟨hleases, hsnapshots ▸ .refl _, hblobs ▸ .refl _, hbatches ▸ .refl _, hreserved, howners, hkeys,
    hbuilds, htasks, htoken⟩

namespace Trimmed

variable {s s' : State} {extra : ℤ}

theorem ledger (h : Trimmed s s') (hs : Ledger s) : Ledger s' := by
  obtain ⟨-, -, -, -, hreserved, howners, hkeys, hbuilds, htasks, -⟩ := h
  refine ⟨?_, ?_, ?_, ?_, ?_⟩
  · rw [hreserved, htasks, hs.reserved]
  · rw [hkeys, htasks, hs.captures]
  · rw [howners, htasks]
    exact hs.owners
  · rw [howners, htasks, hs.total]
  · unfold State.buildReaders
    rw [hbuilds, htasks]
    exact hs.builds

theorem views (h : Trimmed s s') (hs : Views s) : Views s' :=
  ⟨h.snapshots.countP_le.trans hs.all, fun o => h.snapshots.countP_le.trans (hs.owned o)⟩

theorem builds (h : Trimmed s s') (hs : Builds s) : Builds s' := by
  have hsub := h.snapshots.subset
  constructor
  · rw [h.contentCaptures]
    exact fun x hx => (hs.fresh x hx).trans_le h.nextToken
  · exact fun x hx => (hs.freshContent x (hsub hx)).trans_le h.nextToken
  · rw [h.contentCaptures]
    exact hs.distinct
  · rw [h.contentCaptures]
    exact hs.phase
  · rw [h.contentCaptures]
    exact fun x hx => hs.published x (hsub hx)

theorem kept_le (h : Trimmed s s') (hs : Builds s) : s'.kept ≤ s.kept := by
  have hcontents : s'.contents none none ⊆ s.contents none none := fun c hc => by
    rcases mem_contents.mp hc with ⟨x, hx, hne, hc⟩ | hnone
    · exact mem_contents.mpr (.inl ⟨x, h.snapshots.subset hx, hne, hc⟩)
    · cases hnone
  have hheld := heldBytes_mono hs.nodup hs.covers hcontents
  have hsize : s'.snapshots.size ≤ s.snapshots.size := h.snapshots.length_le
  have hblobs : (s'.blobs.values.map Blob.data).sum ≤ (s.blobs.values.map Blob.data).sum :=
    ((h.blobs.map _).map _).sum_le_sum fun _ _ => Nat.zero_le _
  have hbatches : (s'.deltaBatches.values.map DeltaBatch.size).sum
      ≤ (s.deltaBatches.values.map DeltaBatch.size).sum :=
    ((h.deltaBatches.map _).map _).sum_le_sum fun _ _ => Nat.zero_le _
  rw [kept_eq, kept_eq, h.reserved, h.contentCaptures]
  unfold summaryViewBytes
  omega

/-- What is removed is not missed. -/
theorem sound (h : Trimmed s s') (hs : Sound extra s) : Sound extra s' :=
  ⟨h.ledger hs.ledger, h.leases hs.leases, h.views hs.views, h.builds hs.builds,
    (h.kept_le hs.builds).trans hs.bytes⟩

end Trimmed

/-! ### Making room -/

section Room

variable {κ α : Type} [DecidableEq κ] {d : OrderedDict κ α} {n : ℕ} {p q : κ × α → Bool}

theorem count_dropFirst_le (keys : List κ) : (dropFirst d n keys).count q ≤ d.count q := by
  unfold dropFirst
  split_ifs
  · cases keys with
    | nil => exact le_rfl
    | cons k ks => exact OrderedDict.count_erase_le
  · exact le_rfl

omit [DecidableEq κ] in
theorem length_keys_filter : (d.filter p).keys.length = d.count p := by
  rw [OrderedDict.keys, List.length_map, OrderedDict.filter, OrderedDict.count,
    List.countP_eq_length_filter]

omit [DecidableEq κ] in
theorem exists_entry_of_keys_filter {k : κ} {ks : List κ} (h : (d.filter p).keys = k :: ks) :
    ∃ v, (k, v) ∈ d.entries ∧ p (k, v) = true := by
  have hk : k ∈ (d.filter p).keys := h ▸ List.mem_cons_self
  obtain ⟨x, hx, rfl⟩ := List.mem_map.mp hk
  obtain ⟨hx, hp⟩ := List.mem_filter.mp hx
  exact ⟨x.2, hx, hp⟩

/-- There is room for one more entry. -/
theorem count_dropFirst_lt (hbound : 0 < n) (h : d.count p ≤ n) :
    (dropFirst d n (d.filter p).keys).count p < n := by
  have hlength := length_keys_filter (d := d) (p := p)
  unfold dropFirst
  split_ifs with hfull
  · cases hkeys : (d.filter p).keys with
    | nil =>
      rw [hkeys] at hlength hfull
      exact absurd hfull (by simp; omega)
    | cons k ks =>
      obtain ⟨v, hv, hp⟩ := exists_entry_of_keys_filter hkeys
      have herase := OrderedDict.count_erase (p := p) hv
      rw [if_pos hp] at herase
      dsimp only
      omega
  · omega

end Room

theorem keys_eq_filter_true {κ α : Type} (d : OrderedDict κ α) :
    d.keys = (d.filter fun _ => true).keys := by
  change d.entries.map _ = (d.entries.filter _).map _
  rw [List.filter_true]

variable {s : State} {a : Ambient} {extra : ℤ}

/-- A lease more, and the oldest ones less. -/
theorem leases_renewLease (hs : Leases s) (queryId owner scope : String) (depth : Option ℕ) :
    Leases (s.renewLease queryId owner scope depth) := by
  have herase : ∀ p, (s.queryLeases.erase queryId).count p ≤ s.queryLeases.count p := fun p =>
    OrderedDict.count_erase_le
  unfold renewLease
  dsimp only
  generalize s.queryLeases.erase queryId = d₀ at herase ⊢
  have howner := count_dropFirst_lt (d := d₀) (p := fun x => x.2.owner = owner)
    (n := maxOwnerQueryLeases) (by decide) ((herase _).trans (hs.owned owner))
  have hle := fun q => count_dropFirst_le (d := d₀) (n := maxOwnerQueryLeases) (q := q)
    (d₀.filter fun x => x.2.owner = owner).keys
  generalize dropFirst d₀ maxOwnerQueryLeases (d₀.filter fun x => x.2.owner = owner).keys = d₁
    at howner hle ⊢
  have hall := count_dropFirst_lt (d := d₁) (p := fun _ => true) (n := maxQueryLeases)
    (by decide) ((hle _).trans ((herase _).trans hs.all))
  rw [← keys_eq_filter_true] at hall
  have hle' := fun q => count_dropFirst_le (d := d₁) (n := maxQueryLeases) (q := q) d₁.keys
  generalize dropFirst d₁ maxQueryLeases d₁.keys = d₂ at hall hle' ⊢
  constructor
  · refine (OrderedDict.count_set_le).trans ?_
    rw [if_pos rfl]
    exact hall
  · intro o
    refine (OrderedDict.count_set_le).trans ?_
    split_ifs with ho
    · obtain rfl : owner = o := of_decide_eq_true ho
      exact (hle' _).trans_lt howner
    · exact (hle' _).trans ((hle _).trans ((herase _).trans (hs.owned o)))

theorem trimmed_renewLease (s : State) (queryId owner scope : String) (depth : Option ℕ) :
    Trimmed s (s.renewLease queryId owner scope depth) := by
  have hleases := fun hs => leases_renewLease (s := s) hs queryId owner scope depth
  unfold renewLease at hleases ⊢
  exact .of_eq hleases rfl rfl rfl rfl rfl rfl rfl rfl le_rfl

/-! ### Publishing -/

/-- The views that stay when a new one of an owner comes. -/
def State.staying (s : State) (owner : String) : OrderedDict ℕ View :=
  (s.replaceableSnapshot owner).elim s.snapshots s.snapshots.erase

theorem staying_eq_dropFirst (owner : String) : s.staying owner = dropFirst s.snapshots
    maxOwnerSnapshots (s.snapshots.filter fun x => x.2.owner = owner).keys := by
  unfold State.staying replaceableSnapshot dropFirst
  dsimp only
  generalize (s.snapshots.filter fun x => x.2.owner = owner).keys = keys
  by_cases hfull : maxOwnerSnapshots ≤ keys.length
  · rw [if_pos hfull, if_pos hfull]
    cases keys with
    | nil => rfl
    | cons k ks => rfl
  · rw [if_neg hfull, if_neg hfull]
    rfl

/-- A view that gives way is there. -/
theorem exists_of_replaceableSnapshot {owner : String} {k : ℕ}
    (h : s.replaceableSnapshot owner = some k) : ∃ v, (k, v) ∈ s.snapshots.entries := by
  unfold replaceableSnapshot at h
  dsimp only at h
  split_ifs at h
  obtain ⟨ks, hks⟩ := List.head?_eq_some_iff.mp h
  obtain ⟨v, hv, -⟩ := exists_entry_of_keys_filter hks
  exact ⟨v, hv⟩

theorem size_staying (owner : String) : (s.staying owner).count (fun _ => true) +
    (if (s.replaceableSnapshot owner).isSome then 1 else 0) = s.snapshots.count fun _ => true := by
  unfold State.staying
  cases h : s.replaceableSnapshot owner with
  | none => rfl
  | some k =>
    obtain ⟨v, hv⟩ := exists_of_replaceableSnapshot h
    exact OrderedDict.count_erase hv

theorem mem_staying {owner : String} {x : ℕ × View} : x ∈ (s.staying owner).entries ↔
    x ∈ s.snapshots.entries ∧ some x.1 ≠ s.replaceableSnapshot owner := by
  unfold State.staying
  cases s.replaceableSnapshot owner with
  | none => simp
  | some k =>
    rw [Option.elim_some, OrderedDict.mem_erase]
    simp

/-- The state with a new view. -/
def State.withView (s : State) (snapshotId : ℕ) (view : View) : State :=
  { s with snapshots := (s.staying view.owner).set snapshotId view }

variable {snapshotId : ℕ} {view : View}

theorem mem_withView {x : ℕ × View} (h : x ∈ (s.withView snapshotId view).snapshots.entries) :
    x = (snapshotId, view) ∨
      x ∈ s.snapshots.entries ∧ some x.1 ≠ s.replaceableSnapshot view.owner := by
  rcases OrderedDict.mem_set.mp h with h | h
  · exact .inl h
  · exact .inr (mem_staying.mp h.1)

theorem views_withView (hs : Views s)
    (hroom : s.snapshots.size - (if (s.replaceableSnapshot view.owner).isSome then 1 else 0)
      < maxSnapshots) : Views (s.withView snapshotId view) := by
  constructor
  · refine (OrderedDict.count_set_le).trans ?_
    have hsize := size_staying (s := s) view.owner
    rw [OrderedDict.size_eq_count] at hroom
    rw [if_pos rfl]
    omega
  · intro o
    refine (OrderedDict.count_set_le).trans ?_
    rw [staying_eq_dropFirst]
    split_ifs with ho
    · obtain rfl : view.owner = o := of_decide_eq_true ho
      exact count_dropFirst_lt (by decide) (hs.owned view.owner)
    · exact (count_dropFirst_le _).trans (hs.owned o)

/-- A content may be published when its build has made it, or when a view has it. -/
def Publishable (s : State) (c : Content) : Prop :=
  c.originalSnapshotId < s.nextToken ∧ ∀ y ∈ s.contentCaptures.entries,
    y.2.snapshotId = c.originalSnapshotId → y.2.phase = .finished (.content c)

theorem Publishable.of_view (hs : Builds s) {x : ℕ × View} (hx : x ∈ s.snapshots.entries) :
    Publishable s x.2.content :=
  ⟨hs.freshContent x hx, hs.published x hx⟩

theorem Publishable.of_build (hs : Builds s) {y : Selection × Build} {c : Content}
    (hy : y ∈ s.contentCaptures.entries) (hc : y.2.phase = .finished (.content c)) :
    Publishable s c := by
  have hphase := hs.phase y hy
  rw [PhaseOk, hc] at hphase
  refine ⟨hphase.1 ▸ hs.fresh y hy, fun z hz hzc => ?_⟩
  rw [hphase.1] at hzc
  have hyz : y = z := List.inj_on_of_nodup_map s.contentCaptures.nodup hy hz
    (hs.distinct y hy z hz hzc.symm)
  exact hyz ▸ hc

theorem builds_withView (hs : Builds s) (hc : Publishable s view.content) :
    Builds (s.withView snapshotId view) := by
  refine ⟨hs.fresh, fun x hx => ?_, hs.distinct, hs.phase, fun x hx => ?_⟩
  · rcases mem_withView hx with rfl | hx
    · exact hc.1
    · exact hs.freshContent x hx.1
  · rcases mem_withView hx with rfl | hx
    · exact hc.2
    · exact hs.published x hx.1

/-- The bytes of a view that takes the place of a reservation which is still to be returned. -/
def pending (reservedView : Bool) : ℤ := if reservedView then summaryViewBytes else 0

theorem pending_nonneg (reservedView : Bool) : 0 ≤ pending reservedView := by
  unfold pending
  split_ifs
  · exact Int.natCast_nonneg _
  · exact le_rfl

/-- What is kept with a new view is what was computed for it. -/
theorem kept_withView_le (hs : Builds s) (hc : Publishable s view.content) (reservedView : Bool) :
    (s.withView snapshotId view).kept ≤
      s.keptSize (s.replaceableSnapshot view.owner) (some view.content) reservedView +
        pending reservedView := by
  have hcontents : (s.withView snapshotId view).contents none none
      ⊆ s.contents (s.replaceableSnapshot view.owner) (some view.content) := fun c hc => by
    rcases mem_contents.mp hc with ⟨x, hx, -, rfl⟩ | hnone
    · rcases mem_withView hx with rfl | ⟨hx, hne⟩
      · exact mem_contents.mpr (.inr rfl)
      · exact mem_contents.mpr (.inl ⟨x, hx, hne, rfl⟩)
    · cases hnone
  have hcovers : Covers (s.contents (s.replaceableSnapshot view.owner) (some view.content))
      s.contentCaptures.values := by
    intro c hcmem b hb hbc
    obtain ⟨y, hy, rfl⟩ := List.mem_map.mp hb
    rcases mem_contents.mp hcmem with ⟨x, hx, -, rfl⟩ | hsome
    · exact hs.reserved_le hx hy hbc
    · cases hsome
      have hphase := hs.phase y hy
      rw [PhaseOk, hc.2 y hy hbc] at hphase
      exact hphase.2.ge
  have hheld := heldBytes_mono hs.nodup hcovers hcontents
  have hsize : (s.withView snapshotId view).snapshots.size ≤
      (s.staying view.owner).count (fun _ => true) + 1 := by
    rw [OrderedDict.size_eq_count]
    exact OrderedDict.count_set_le
  have hstaying := size_staying (s := s) view.owner
  have hcount : s.snapshots.size = s.snapshots.count fun _ => true := OrderedDict.size_eq_count
  rw [kept_eq]
  unfold keptSize
  change (heldBytes _ s.contentCaptures.values : ℤ) + (_ + s.reserved) * _ +
    (s.blobs.values.map Blob.data).sum + (s.deltaBatches.values.map DeltaBatch.size).sum ≤ _
  generalize (s.blobs.values.map Blob.data).sum = blobs
  generalize (s.deltaBatches.values.map DeltaBatch.size).sum = batches
  rw [Option.isSome_some, Bool.true_and]
  unfold pending summaryViewBytes
  cases reservedView with
  | false =>
    rw [Bool.not_false, if_pos rfl, if_neg Bool.false_ne_true]
    split_ifs at hstaying ⊢
    · omega
    · omega
  | true =>
    rw [Bool.not_true, if_neg Bool.false_ne_true, if_pos rfl]
    split_ifs at hstaying ⊢
    · omega
    · omega

theorem Sound.mono {extra' : ℤ} (hs : Sound extra s) (h : extra ≤ extra') : Sound extra' s :=
  { hs with bytes := hs.bytes.trans (Int.add_le_add_left h _) }

/-- What is kept is within a limit that the journal is within as well. -/
theorem keptSize_le_of_retainedSize {replacing : Option ℕ} {adding : Option Content}
    {reservedView : Bool} {n : ℤ} (h : s.retainedSize a replacing adding reservedView ≤ n) :
    s.keptSize replacing adding reservedView ≤ n := by
  unfold retainedSize at h
  omega

theorem keptSize_le_of_retainedSize_add {size : ℕ} {n : ℤ} (h : s.retainedSize a + size ≤ n) :
    s.kept + size ≤ n := by
  unfold retainedSize at h
  unfold State.kept
  omega

/-- A view is published within the limits, on a reservation that is still to be returned. -/
theorem sound_publishSnapshot (hs : Sound 0 s) {content : Content} (hc : Publishable s content)
    (a : Ambient) (owner queryId : String) (snapshotId : ℕ) (reservedView : Bool) :
    Sound (pending reservedView)
      (s.publishSnapshot a owner queryId snapshotId content reservedView).2 := by
  have hrefused : Sound (pending reservedView) s := hs.mono (pending_nonneg reservedView)
  unfold publishSnapshot
  dsimp only
  split
  · exact hrefused
  split
  · exact hrefused
  by_cases hfull : maxSnapshots ≤ s.snapshots.size -
      (if (s.replaceableSnapshot owner).isSome then 1 else 0) ∨
      (maxRetainedBytes : ℤ)
        < s.retainedSize a (s.replaceableSnapshot owner) (some content) reservedView
  · rw [if_pos hfull]
    exact hrefused
  rw [if_neg hfull]
  rw [not_or, not_le, not_lt] at hfull
  have hview : Sound (pending reservedView)
      (s.withView snapshotId ⟨owner, queryId, content, content.expires⟩) :=
    ⟨⟨hs.ledger.1, hs.ledger.2, hs.ledger.3, hs.ledger.4, hs.ledger.5⟩,
      ⟨hs.leases.1, hs.leases.2⟩, views_withView hs.views hfull.1, builds_withView hs.builds hc,
      (kept_withView_le hs.builds hc reservedView).trans
        (Int.add_le_add_right (keptSize_le_of_retainedSize hfull.2) _)⟩
  exact (trimmed_renewLease _ _ _ _ _).sound hview

/-! ### Builds -/

/-- A build that has no content yet goes on. -/
theorem sound_updateBuild (hs : Sound 0 s) {x : Selection} {b b' : Build} {m : ℕ}
    (hb : s.contentCaptures.get? x = some b) (hopen : ∀ c, b.phase ≠ .finished (.content c))
    (hid : b'.snapshotId = b.snapshotId) (hreaders : b'.readers = b.readers)
    (hbytes : b'.reservedBytes = b.reservedBytes + m) (hphase : PhaseOk b')
    (hroom : s.kept + m ≤ maxRetainedBytes) : Sound 0 (s.updateBuild x b') := by
  have hmem := OrderedDict.get?_eq_some.mp hb
  refine ⟨⟨hs.ledger.1, hs.ledger.2, hs.ledger.3, hs.ledger.4, fun y => ?_⟩,
    ⟨hs.leases.1, hs.leases.2⟩, ⟨hs.views.1, hs.views.2⟩, ⟨?_, hs.builds.freshContent, ?_, ?_, ?_⟩, ?_⟩
  · refine Eq.trans ?_ (hs.ledger.builds y)
    unfold State.buildReaders updateBuild
    dsimp only
    rw [OrderedDict.get?_set]
    split_ifs with hy
    · rw [hy, hb, Option.map_some, Option.map_some, hreaders]
    · rfl
  · intro y hy
    rcases OrderedDict.mem_set.mp hy with rfl | ⟨hy, -⟩
    · exact hid ▸ hs.builds.fresh _ hmem
    · exact hs.builds.fresh y hy
  · intro y hy z hz hyz
    rcases OrderedDict.mem_set.mp hy with rfl | ⟨hy, hyx⟩
    · rcases OrderedDict.mem_set.mp hz with rfl | ⟨hz, hzx⟩
      · rfl
      · exact hs.builds.distinct (x, b) hmem z hz (hid ▸ hyz)
    · rcases OrderedDict.mem_set.mp hz with rfl | ⟨hz, hzx⟩
      · exact hs.builds.distinct y hy (x, b) hmem (hyz.trans hid)
      · exact hs.builds.distinct y hy z hz hyz
  · intro y hy
    rcases OrderedDict.mem_set.mp hy with rfl | ⟨hy, -⟩
    · exact hphase
    · exact hs.builds.phase y hy
  · intro y hy z hz hyz
    rcases OrderedDict.mem_set.mp hz with rfl | ⟨hz, -⟩
    · exact absurd (hs.builds.published y hy (x, b) hmem (hid.symm.trans hyz)) (hopen _)
    · exact hs.builds.published y hy z hz hyz
  · have hsum := OrderedDict.sum_map_set (d := s.contentCaptures) (k := x) (v := b')
      (weight (s.contents none none))
    have hweight : weight (s.contents none none) b' ≤ weight (s.contents none none) b + m := by
      unfold weight
      rw [hid]
      split_ifs
      · exact Nat.zero_le _
      · exact hbytes.le
    rw [hb, Option.elim_some] at hsum
    rw [kept_eq, heldBytes_eq] at hroom ⊢
    change ((∑ c ∈ s.contents none none, c.size + ((s.contentCaptures.set x b').values.map
      (weight (s.contents none none))).sum : ℕ) : ℤ) + (s.snapshots.size + s.reserved) * _ +
      (s.blobs.values.map Blob.data).sum + (s.deltaBatches.values.map DeltaBatch.size).sum ≤ _
    generalize (s.blobs.values.map Blob.data).sum = blobs at hroom ⊢
    generalize (s.deltaBatches.values.map DeltaBatch.size).sum = batches at hroom ⊢
    generalize ((s.snapshots.size : ℤ) + s.reserved) * summaryViewBytes = views at hroom ⊢
    omega

/-- The bytes are within the limit when nothing is added. -/
theorem Sound.kept_le (hs : Sound 0 s) : s.kept + (0 : ℕ) ≤ maxRetainedBytes := by
  simpa using hs.bytes

/-- A step of a build that reserves nothing. -/
theorem sound_changePhase (hs : Sound 0 s) {x : Selection} {b : Build} {phase : Phase}
    (hb : s.contentCaptures.get? x = some b) (hopen : ∀ c, b.phase ≠ .finished (.content c))
    (hphase : PhaseOk { b with phase }) : Sound 0 (s.updateBuild x { b with phase }) :=
  sound_updateBuild hs hb hopen rfl rfl rfl hphase hs.kept_le

variable {x : Selection} {b : Build} {t : State}

theorem sound_startBuild (hs : Sound 0 s) (hb : s.contentCaptures.get? x = some b)
    (h : s.startBuild x b = some t) : Sound 0 t := by
  have hphase := hs.builds.phase (x, b) (OrderedDict.get?_eq_some.mp hb)
  unfold startBuild at h
  split at h
  case h_1 hcreated =>
    cases h
    rw [PhaseOk, hcreated] at hphase
    exact sound_changePhase hs hb (by rw [hcreated]; exact nofun) hphase
  case h_2 => cases h

theorem sound_admitBuild (hs : Sound 0 s) (hb : s.contentCaptures.get? x = some b)
    (h : s.admitBuild a x b = some t) : Sound 0 t := by
  have hphase := hs.builds.phase (x, b) (OrderedDict.get?_eq_some.mp hb)
  unfold admitBuild at h
  split at h
  case h_1 hwaiting =>
    cases h
    rw [PhaseOk, hwaiting] at hphase
    refine sound_changePhase hs hb (by rw [hwaiting]; exact nofun) ?_
    unfold PhaseOk
    dsimp only
    split_ifs
    · trivial
    · trivial
    · exact hphase
  case h_2 => cases h

theorem sound_reservePage (hs : Sound 0 s) {size : ℕ} (hb : s.contentCaptures.get? x = some b)
    (h : s.reservePage a x b size = some t) : Sound 0 t := by
  have hphase := hs.builds.phase (x, b) (OrderedDict.get?_eq_some.mp hb)
  unfold reservePage at h
  split at h
  case h_1 capturedAt budget pages hcapturing =>
    cases h
    rw [PhaseOk, hcapturing] at hphase
    have hopen : ∀ c, b.phase ≠ .finished (.content c) := by
      rw [hcapturing]
      exact nofun
    split_ifs with hbudget hclosed hfull
    · exact sound_changePhase hs hb hopen trivial
    · exact sound_changePhase hs hb hopen trivial
    · exact sound_changePhase hs hb hopen trivial
    · refine sound_updateBuild (m := size) hs hb hopen rfl rfl rfl ?_ ?_
      · change b.reservedBytes + size = (pages ++ [size]).sum
        rw [hphase, List.sum_append, List.sum_singleton]
      · exact keptSize_le_of_retainedSize_add (not_lt.mp hfull)
  case h_2 f hfailed =>
    split_ifs at h with hfull
    · cases h
      exact hs
    · cases h
      rw [not_or, not_lt] at hfull
      refine sound_updateBuild (m := size) hs hb (by rw [hfailed]; exact nofun) rfl rfl rfl ?_ ?_
      · unfold PhaseOk
        dsimp only
        rw [hfailed]
        trivial
      · exact keptSize_le_of_retainedSize_add hfull.2
  case h_3 => cases h

theorem sound_failBuild (hs : Sound 0 s) {f : Option FailureReply}
    (hb : s.contentCaptures.get? x = some b) (h : s.failBuild x b f = some t) : Sound 0 t := by
  unfold failBuild at h
  split at h
  case h_1 hcapturing =>
    cases h
    exact sound_changePhase hs hb (by rw [hcapturing]; exact nofun) trivial
  case h_2 hcapturing =>
    split_ifs at h
    cases h
    exact sound_changePhase hs hb (by rw [hcapturing]; exact nofun) trivial
  case h_3 => cases h

theorem sound_completeBuild (hs : Sound 0 s) (hb : s.contentCaptures.get? x = some b)
    (h : s.completeBuild x b = some t) : Sound 0 t := by
  have hphase := hs.builds.phase (x, b) (OrderedDict.get?_eq_some.mp hb)
  unfold completeBuild at h
  split at h
  case h_1 hcapturing =>
    split_ifs at h
    cases h
    rw [PhaseOk, hcapturing] at hphase
    exact sound_changePhase hs hb (by rw [hcapturing]; exact nofun) ⟨rfl, hphase.symm⟩
  case h_2 => cases h

end Takler.Query
