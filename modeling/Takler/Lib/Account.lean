import Mathlib

/-!
# Accounts with holders

An account counts units taken by holders. A holder takes its units at most once and gives them
back at most once, so both operations may be repeated. Giving back more than the account counts
empties it.

An account is *balanced* for a weight of holders when it counts the weights of its holders and
nothing else. A balanced account stays balanced when holders take and give back their weights.

## Main definitions

* `Account`, `Account.acquire`, `Account.release`, `Account.Balanced`.

## Main results

* `Account.Balanced.acquire`, `Account.Balanced.release`: the operations keep the balance.
* `Account.Balanced.holders_release`: in a balanced account releasing removes one holder.
-/

/-- Units taken from a capacity, and who holds them. -/
structure Account (η : Type*) where
  limit : ℕ
  value : ℕ
  holders : Finset η

namespace Account

variable {η : Type*} [DecidableEq η] (a : Account η)

/-- An account of which nothing is taken. -/
def empty (limit : ℕ) : Account η := ⟨limit, 0, ∅⟩

/-- A holder takes units, unless it holds some already. -/
def acquire (units : ℕ) (h : η) : Account η :=
  if h ∈ a.holders then a
  else { a with value := a.value + units, holders := insert h a.holders }

/-- A holder gives units back, if it holds some. -/
def release (units : ℕ) (h : η) : Account η :=
  if h ∈ a.holders then
    if a.value < units then { a with value := 0, holders := ∅ }
    else { a with value := a.value - units, holders := a.holders.erase h }
  else a

/-- The account counts exactly the weights of its holders. -/
def Balanced (w : η → ℕ) : Prop := a.value = ∑ h ∈ a.holders, w h

variable {a} {w : η → ℕ}

omit [DecidableEq η] in
theorem Balanced.congr {w' : η → ℕ} (h : a.Balanced w) (hw : ∀ x ∈ a.holders, w x = w' x) :
    a.Balanced w' :=
  h.trans (Finset.sum_congr rfl hw)

omit [DecidableEq η] in
theorem Balanced.weight_le (h : a.Balanced w) {x : η} (hx : x ∈ a.holders) : w x ≤ a.value :=
  (Finset.single_le_sum (fun _ _ => Nat.zero_le _) hx).trans_eq h.symm

@[simp] theorem limit_acquire (units : ℕ) (x : η) : (a.acquire units x).limit = a.limit := by
  unfold acquire
  split_ifs <;> rfl

@[simp] theorem limit_release (units : ℕ) (x : η) : (a.release units x).limit = a.limit := by
  unfold release
  split_ifs <;> rfl

@[simp] theorem holders_acquire (units : ℕ) (x : η) :
    (a.acquire units x).holders = insert x a.holders := by
  unfold acquire
  split_ifs with hx
  · exact (Finset.insert_eq_of_mem hx).symm
  · rfl

theorem acquire_of_mem {x : η} (hx : x ∈ a.holders) (units : ℕ) : a.acquire units x = a :=
  if_pos hx

theorem release_of_notMem {x : η} (hx : x ∉ a.holders) (units : ℕ) : a.release units x = a :=
  if_neg hx

@[simp] theorem notMem_holders_release (units : ℕ) (x : η) : x ∉ (a.release units x).holders := by
  unfold release
  split_ifs with hx hlt
  · exact Finset.notMem_empty x
  · exact Finset.notMem_erase x _
  · exact hx

/-- A holder is entered once. -/
theorem acquire_acquire (k l : ℕ) (x : η) : (a.acquire l x).acquire k x = a.acquire l x :=
  acquire_of_mem (by simp) k

/-- A holder is removed once. -/
theorem release_release (k l : ℕ) (x : η) : (a.release l x).release k x = a.release l x :=
  release_of_notMem (by simp) k

theorem Balanced.holders_release (h : a.Balanced w) (x : η) :
    (a.release (w x) x).holders = a.holders.erase x := by
  unfold release
  split_ifs with hx hlt
  · exact absurd (h.weight_le hx) (Nat.not_le.mpr hlt)
  · rfl
  · exact (Finset.erase_eq_of_notMem hx).symm

theorem Balanced.value_release (h : a.Balanced w) {x : η} (hx : x ∈ a.holders) :
    (a.release (w x) x).value = a.value - w x := by
  unfold release
  rw [if_pos hx, if_neg (Nat.not_lt.mpr (h.weight_le hx))]

/-- Taking a holder's weight keeps the balance. -/
theorem Balanced.acquire (h : a.Balanced w) (x : η) : (a.acquire (w x) x).Balanced w := by
  unfold Account.acquire
  split_ifs with hx
  · exact h
  · rw [Balanced, Finset.sum_insert hx, ← h]
    exact Nat.add_comm _ _

/-- Giving a holder's weight back keeps the balance. -/
theorem Balanced.release (h : a.Balanced w) (x : η) : (a.release (w x) x).Balanced w := by
  unfold Account.release
  split_ifs with hx hlt
  · exact absurd (h.weight_le hx) (Nat.not_le.mpr hlt)
  · change a.value - w x = ∑ y ∈ a.holders.erase x, w y
    have := Finset.add_sum_erase a.holders w hx
    rw [h]
    omega
  · exact h

theorem value_release_le (units : ℕ) (x : η) : (a.release units x).value ≤ a.value := by
  unfold release
  split_ifs
  · exact Nat.zero_le _
  · exact Nat.sub_le _ _
  · exact le_rfl

end Account
