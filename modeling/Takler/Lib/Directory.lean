import Mathlib

/-!
# A directory of names that point to inodes

Names are entries of a directory; each entry points to an inode, and inodes hold the data. Two
names may point to the same inode (hard links), so writing through one of them changes what the
other one shows. The operations are the file operations a program performs in one directory:
opening with truncation, writing through an open descriptor, hard linking, renaming and
unlinking. Renaming onto another link of the same inode does nothing, as POSIX asks.

All lemmas are about `Directory.inode?`, the inode of a name; `Directory.inode?_eq_some` turns
it into membership of the entry list.

## Main definitions

* `Directory`: entries with distinct names, the data of the inodes, the next fresh inode.
* `Directory.openTruncate`, `Directory.write`, `Directory.link`, `Directory.rename`,
  `Directory.unlink`.
* `Directory.nlink`: the number of names of an inode.
* `Directory.Alone`: a name without a second link.
* `Directory.SameAt`: two directories agree at a name; `Directory.Touches`: only one name changes.

## Main results

* `Directory.inode?_openTruncate_of_ne`, `Directory.data_openTruncate_of_ne`: opening one name
  neither moves another name nor changes the data of another inode.
* `Directory.eq_of_nlink_eq_one`: an inode with one link has one name.
* `Directory.Alone.touches_openTruncate`, `Directory.Alone.touches_write`: opening and writing
  a file that has one name concerns that name only.
-/

/-- A directory whose names are `ν` and whose files hold values of `κ`. -/
structure Directory (ν κ : Type*) where
  /-- The names present and their inodes. -/
  entries : List (ν × ℕ)
  /-- The data of every inode. -/
  data : ℕ → κ
  /-- The first inode number that was never used. -/
  next : ℕ
  nodup : (entries.map Prod.fst).Nodup
  lt_next : ∀ e ∈ entries, e.2 < next

namespace Directory

variable {ν κ : Type*} [DecidableEq ν] (d : Directory ν κ)

/-- The directory without any file. -/
def empty (c : κ) : Directory ν κ where
  entries := []
  data := fun _ => c
  next := 0
  nodup := List.nodup_nil
  lt_next := by simp

/-- The inode a name points to. -/
def inode? (n : ν) : Option ℕ := (d.entries.find? fun e => e.1 = n).map Prod.snd

/-- The number of names of an inode. -/
def nlink (i : ℕ) : ℕ := (d.entries.filter fun e => e.2 = i).length

/-- Change the data of an inode through an open descriptor. -/
def write (i : ℕ) (c : κ) : Directory ν κ := { d with data := Function.update d.data i c }

/-- Remove a name; nothing happens when it is missing. -/
def unlink (n : ν) : Directory ν κ where
  entries := d.entries.filter fun e => e.1 ≠ n
  data := d.data
  next := d.next
  nodup := d.nodup.sublist (List.filter_sublist.map _)
  lt_next e he := d.lt_next e (List.mem_of_mem_filter he)

/-- Let a name point to an inode, whatever it pointed to before. -/
def bind (n : ν) (i : ℕ) : Directory ν κ where
  entries := (n, i) :: (d.unlink n).entries
  data := d.data
  next := max d.next (i + 1)
  nodup := by
    refine List.nodup_cons.mpr ⟨?_, (d.unlink n).nodup⟩
    simp [unlink]
  lt_next e he := by
    rcases List.mem_cons.mp he with rfl | he
    · exact lt_max_of_lt_right (Nat.lt_succ_self _)
    · exact lt_max_of_lt_left ((d.unlink n).lt_next e he)

/-- Open a name for writing: an existing file is truncated, a missing one is created. The result
is the directory and the inode of the open descriptor. -/
def openTruncate (n : ν) (c : κ) : Directory ν κ × ℕ :=
  match d.inode? n with
  | some i => (d.write i c, i)
  | none => ((d.bind n d.next).write d.next c, d.next)

/-- Give a second name to the file of `src`; fails when `dst` exists or `src` is missing. -/
def link (src dst : ν) : Option (Directory ν κ) :=
  match d.inode? src, d.inode? dst with
  | some i, none => some (d.bind dst i)
  | _, _ => none

/-- Move the name `src` onto `dst`; fails when `src` is missing. -/
def rename (src dst : ν) : Option (Directory ν κ) :=
  match d.inode? src with
  | none => none
  | some i => if d.inode? dst = some i then some d else some ((d.unlink src).bind dst i)

/-! ### Names and inodes -/

theorem inode?_eq_some {n : ν} {i : ℕ} : d.inode? n = some i ↔ (n, i) ∈ d.entries := by
  unfold inode?
  constructor
  · intro h
    obtain ⟨⟨m, j⟩, hf, rfl⟩ := Option.map_eq_some_iff.mp h
    obtain rfl : m = n := by simpa using List.find?_some hf
    exact List.mem_of_find?_eq_some hf
  · intro h
    cases hf : d.entries.find? fun e => e.1 = n with
    | none => simpa using List.find?_eq_none.mp hf _ h
    | some e =>
      have he : e.1 = n := by simpa using List.find?_some hf
      have hmem := List.mem_of_find?_eq_some hf
      rw [List.inj_on_of_nodup_map d.nodup hmem h he]
      rfl

theorem inode?_eq_none {n : ν} : d.inode? n = none ↔ ∀ i, (n, i) ∉ d.entries := by
  rw [Option.eq_none_iff_forall_ne_some]
  exact forall_congr' fun i => not_congr d.inode?_eq_some

theorem inode?_lt_next {n : ν} {i : ℕ} (h : d.inode? n = some i) : i < d.next :=
  d.lt_next _ (d.inode?_eq_some.mp h)

@[simp] theorem inode?_empty (c : κ) (n : ν) : (empty c : Directory ν κ).inode? n = none := rfl

@[simp] theorem inode?_write (i : ℕ) (c : κ) (n : ν) : (d.write i c).inode? n = d.inode? n := rfl

omit [DecidableEq ν] in
@[simp] theorem data_write_self (i : ℕ) (c : κ) : (d.write i c).data i = c :=
  Function.update_self ..

omit [DecidableEq ν] in
theorem data_write_of_ne {i j : ℕ} (h : j ≠ i) (c : κ) : (d.write i c).data j = d.data j :=
  Function.update_of_ne h ..

@[simp] theorem data_unlink (n : ν) : (d.unlink n).data = d.data := rfl

@[simp] theorem data_bind (n : ν) (i : ℕ) : (d.bind n i).data = d.data := rfl

@[simp] theorem inode?_unlink_self (n : ν) : (d.unlink n).inode? n = none := by
  rw [inode?_eq_none]
  simp [unlink]

theorem inode?_unlink_of_ne {n m : ν} (h : m ≠ n) : (d.unlink n).inode? m = d.inode? m := by
  ext i
  simp [inode?_eq_some, unlink, h]

@[simp] theorem inode?_bind_self (n : ν) (i : ℕ) : (d.bind n i).inode? n = some i := by
  rw [inode?_eq_some]
  exact List.mem_cons_self

theorem inode?_bind_of_ne {n m : ν} (h : m ≠ n) (i : ℕ) :
    (d.bind n i).inode? m = d.inode? m := by
  ext j
  simp [inode?_eq_some, bind, unlink, h]

theorem inode?_unlink (n m : ν) :
    (d.unlink n).inode? m = if m = n then none else d.inode? m := by
  split_ifs with h
  · rw [h, inode?_unlink_self]
  · exact d.inode?_unlink_of_ne h

theorem inode?_bind (n m : ν) (i : ℕ) :
    (d.bind n i).inode? m = if m = n then some i else d.inode? m := by
  split_ifs with h
  · rw [h, inode?_bind_self]
  · exact d.inode?_bind_of_ne h i

/-- An inode with one link has one name. -/
theorem eq_of_nlink_eq_one {i : ℕ} (h : d.nlink i = 1) {n m : ν} (hn : d.inode? n = some i)
    (hm : d.inode? m = some i) : n = m := by
  obtain ⟨e, he⟩ := List.length_eq_one_iff.mp h
  have key (k : ν) (hk : d.inode? k = some i) : (k, i) = e := by
    have : (k, i) ∈ d.entries.filter fun e => e.2 = i := by
      simpa using d.inode?_eq_some.mp hk
    rwa [he, List.mem_singleton] at this
  exact (Prod.ext_iff.mp ((key n hn).trans (key m hm).symm)).1

/-! ### Opening, linking and renaming -/

/-- Opening a name for writing leaves the name pointing to the open descriptor's inode. -/
@[simp] theorem inode?_openTruncate_self (n : ν) (c : κ) :
    (d.openTruncate n c).1.inode? n = some (d.openTruncate n c).2 := by
  unfold openTruncate
  split <;> simp [*]

/-- Opening one name moves no other name. -/
theorem inode?_openTruncate_of_ne {n m : ν} (h : m ≠ n) (c : κ) :
    (d.openTruncate n c).1.inode? m = d.inode? m := by
  unfold openTruncate
  split <;> simp [inode?_bind_of_ne _ h]

/-- Opening a name changes the data of no other inode. -/
theorem data_openTruncate_of_ne {n : ν} {c : κ} {i : ℕ} (h : i ≠ (d.openTruncate n c).2) :
    (d.openTruncate n c).1.data i = d.data i := by
  unfold openTruncate at h ⊢
  split at h <;> exact data_write_of_ne _ h c

/-- The inode of an opened name is the one it had, or an inode that no name had. -/
theorem openTruncate_snd (n : ν) (c : κ) :
    d.inode? n = some (d.openTruncate n c).2 ∨
      (d.inode? n = none ∧ ∀ m i, d.inode? m = some i → i ≠ (d.openTruncate n c).2) := by
  unfold openTruncate
  split
  · exact Or.inl (by assumption)
  · exact Or.inr ⟨by assumption, fun m i hm => Nat.ne_of_lt (d.inode?_lt_next hm)⟩

theorem link_eq_some {src dst : ν} {d' : Directory ν κ} :
    d.link src dst = some d' ↔
      ∃ i, d.inode? src = some i ∧ d.inode? dst = none ∧ d' = d.bind dst i := by
  unfold link
  cases hs : d.inode? src <;> cases hd : d.inode? dst <;> simp [eq_comm]

theorem rename_eq_some {src dst : ν} {d' : Directory ν κ} :
    d.rename src dst = some d' ↔ ∃ i, d.inode? src = some i ∧
      ((d.inode? dst = some i ∧ d' = d) ∨
        (d.inode? dst ≠ some i ∧ d' = (d.unlink src).bind dst i)) := by
  unfold rename
  cases hs : d.inode? src with
  | none => simp
  | some i =>
    by_cases hd : d.inode? dst = some i
    · simp [hd, eq_comm]
    · simp [hd, eq_comm]

/-! ### Operations that concern one name -/

/-- The name `n` shows the same file in both directories. -/
def SameAt (d d' : Directory ν κ) (n : ν) : Prop :=
  d'.inode? n = d.inode? n ∧ ∀ i, d.inode? n = some i → d'.data i = d.data i

/-- No other name points to the inode of `n`. -/
def Alone (n : ν) : Prop := ∀ m i, d.inode? n = some i → d.inode? m = some i → m = n

/-- Between `d` and `d'` only the name `n` and its data have changed, and `n` did not become a
second name of another file. -/
structure Touches (d d' : Directory ν κ) (n : ν) : Prop where
  sameAt : ∀ m, m ≠ n → d.SameAt d' m
  alone : ∀ m, m ≠ n → ∀ i, d.inode? m = some i → d'.inode? n = some i → d.inode? n = some i

variable {d}

theorem SameAt.refl (n : ν) : d.SameAt d n := ⟨rfl, fun _ _ => rfl⟩

theorem link_sameAt {src dst m : ν} {d' : Directory ν κ} (h : d.link src dst = some d')
    (hm : m ≠ dst) : d.SameAt d' m := by
  obtain ⟨i, _, _, rfl⟩ := d.link_eq_some.mp h
  exact ⟨d.inode?_bind_of_ne hm i, fun _ _ => rfl⟩

theorem rename_sameAt {src dst m : ν} {d' : Directory ν κ} (h : d.rename src dst = some d')
    (hs : m ≠ src) (hd : m ≠ dst) : d.SameAt d' m := by
  obtain ⟨i, _, ⟨_, rfl⟩ | ⟨_, rfl⟩⟩ := d.rename_eq_some.mp h
  · exact .refl m
  · refine ⟨?_, fun _ _ => rfl⟩
    rw [inode?_bind_of_ne _ hd, inode?_unlink_of_ne _ hs]

theorem Alone.ne {n m : ν} (h : d.Alone n) (hm : m ≠ n) {i j : ℕ} (hi : d.inode? m = some i)
    (hj : d.inode? n = some j) : i ≠ j := by
  rintro rfl
  exact hm (h m i hj hi)

theorem Touches.refl (n : ν) : d.Touches d n where
  sameAt m _ := .refl m
  alone _ _ _ _ h := h

theorem touches_unlink (n : ν) : d.Touches (d.unlink n) n where
  sameAt _ hm := ⟨d.inode?_unlink_of_ne hm, fun _ _ => rfl⟩
  alone _ _ _ _ h := by simp at h

theorem Alone.touches_write {n : ν} (h : d.Alone n) {i : ℕ} (hi : d.inode? n = some i) (c : κ) :
    d.Touches (d.write i c) n where
  sameAt _ hm := ⟨rfl, fun _ hj => d.data_write_of_ne (h.ne hm hj hi) c⟩
  alone _ _ _ _ h := h

theorem Alone.touches_openTruncate {n : ν} (h : d.Alone n) (c : κ) :
    d.Touches (d.openTruncate n c).1 n where
  sameAt m hm := by
    refine ⟨d.inode?_openTruncate_of_ne hm c, fun i hi => d.data_openTruncate_of_ne ?_⟩
    rcases d.openTruncate_snd n c with hs | ⟨_, hs⟩
    · exact h.ne hm hi hs
    · exact hs m i hi
  alone m _ i hi hn := by
    have hs : (d.openTruncate n c).2 = i := by simpa using hn
    rcases d.openTruncate_snd n c with h' | ⟨_, h'⟩
    · rw [h', hs]
    · exact absurd hs.symm (h' m i hi)

end Directory
