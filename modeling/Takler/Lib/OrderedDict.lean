import Mathlib

/-!
# Dictionaries in the order of insertion

A dictionary is the list of its entries, oldest first, with one entry for each key. Setting a key
that is there keeps its place. What is counted over the entries changes by at most one entry when a
key is set or erased.

## Main definitions

* `OrderedDict`, `OrderedDict.get?`, `OrderedDict.set`, `OrderedDict.erase`, `OrderedDict.filter`.
* `OrderedDict.addMissing`: what another dictionary has besides.
* `OrderedDict.count`: the number of entries with a property.

## Main results

* `OrderedDict.count_set`, `OrderedDict.count_erase`: how the numbers change.
* `OrderedDict.sum_map_set`, `OrderedDict.sum_set`, `OrderedDict.sum_erase`: how a sum of values
  changes.
-/

/-- A dictionary. -/
structure OrderedDict (κ α : Type*) where
  entries : List (κ × α)
  nodup : (entries.map Prod.fst).Nodup

namespace OrderedDict

variable {κ α : Type*}

/-- The dictionary without entries. -/
def empty : OrderedDict κ α := ⟨[], List.nodup_nil⟩

instance : EmptyCollection (OrderedDict κ α) := ⟨empty⟩

def keys (d : OrderedDict κ α) : List κ := d.entries.map Prod.fst

def values (d : OrderedDict κ α) : List α := d.entries.map Prod.snd

/-- `len`. -/
def size (d : OrderedDict κ α) : ℕ := d.entries.length

/-- The number of entries with a property. -/
def count (d : OrderedDict κ α) (p : κ × α → Bool) : ℕ := d.entries.countP p

/-- The entries with a property. -/
def filter (d : OrderedDict κ α) (p : κ × α → Bool) : OrderedDict κ α :=
  ⟨d.entries.filter p, (d.nodup.sublist (List.filter_sublist.map _))⟩

/-- Change every value. -/
def map {β : Type*} (d : OrderedDict κ α) (f : α → β) : OrderedDict κ β :=
  ⟨d.entries.map fun x => (x.1, f x.2), by
    rw [List.map_map]
    exact d.nodup⟩

variable [DecidableEq κ]

/-- `get`. -/
def get? (d : OrderedDict κ α) (k : κ) : Option α := (d.entries.find? fun x => x.1 = k).map Prod.snd

/-- `pop`. -/
def erase (d : OrderedDict κ α) (k : κ) : OrderedDict κ α := d.filter fun x => x.1 ≠ k

/-- Change the value of a key that is there. -/
def modify (d : OrderedDict κ α) (k : κ) (f : α → α) : OrderedDict κ α :=
  ⟨d.entries.map fun x => if x.1 = k then (k, f x.2) else x, by
    have hkeys : (d.entries.map fun x => if x.1 = k then (k, f x.2) else x).map Prod.fst
        = d.entries.map Prod.fst := by
      rw [List.map_map]
      refine List.map_congr_left fun x _ => ?_
      rw [Function.comp_apply]
      split_ifs with h
      · exact h.symm
      · rfl
    rw [hkeys]
    exact d.nodup⟩

/-- Add an entry at the end, for a key that is not there. -/
def push (d : OrderedDict κ α) (k : κ) (v : α) (h : k ∉ d.keys) : OrderedDict κ α :=
  ⟨d.entries ++ [(k, v)], by
    rw [List.map_append, List.map_singleton]
    exact d.nodup.append (List.nodup_singleton k) (List.disjoint_singleton.mpr h)⟩

/-- `d[k] = v`. -/
def set (d : OrderedDict κ α) (k : κ) (v : α) : OrderedDict κ α :=
  if h : k ∈ d.keys then d.modify k fun _ => v else d.push k v h

/-- Take the entries of a dictionary whose keys are not there. -/
def addMissing (d e : OrderedDict κ α) : OrderedDict κ α :=
  e.entries.foldl (fun d x => if x.1 ∈ d.keys then d else d.set x.1 x.2) d

variable {d : OrderedDict κ α} {k : κ} {v : α} {p : κ × α → Bool}

theorem get?_eq_some : d.get? k = some v ↔ (k, v) ∈ d.entries := by
  unfold get?
  rw [Option.map_eq_some_iff]
  constructor
  · rintro ⟨⟨j, u⟩, hx, rfl⟩
    have hj : j = k := by simpa using List.find?_some hx
    exact hj ▸ List.mem_of_find?_eq_some hx
  · intro h
    obtain ⟨x, hx⟩ := Option.isSome_iff_exists.mp
      (List.find?_isSome (p := fun x : κ × α => decide (x.1 = k)).mpr ⟨(k, v), h, by simp⟩)
    have hxk : x.1 = k := by simpa using List.find?_some hx
    exact ⟨x, hx, by rw [List.inj_on_of_nodup_map d.nodup (List.mem_of_find?_eq_some hx) h hxk]⟩

theorem get?_eq_none : d.get? k = none ↔ k ∉ d.keys := by
  rw [Option.eq_none_iff_forall_ne_some]
  constructor
  · intro h hk
    obtain ⟨x, hx, rfl⟩ := List.mem_map.mp hk
    exact h x.2 (get?_eq_some.mpr hx)
  · exact fun h v hv => h (List.mem_map_of_mem (f := Prod.fst) (get?_eq_some.mp hv))

theorem entries_set_of_notMem (h : k ∉ d.keys) : (d.set k v).entries = d.entries ++ [(k, v)] := by
  rw [set, dif_neg h]
  rfl

theorem mem_erase {x : κ × α} : x ∈ (d.erase k).entries ↔ x ∈ d.entries ∧ x.1 ≠ k := by
  rw [erase, filter, List.mem_filter, decide_eq_true_eq]

theorem notMem_keys_erase : k ∉ (d.erase k).keys := fun h => by
  obtain ⟨x, hx, hxk⟩ := List.mem_map.mp h
  exact (mem_erase.mp hx).2 hxk

theorem mem_set {x : κ × α} :
    x ∈ (d.set k v).entries ↔ x = (k, v) ∨ x ∈ d.entries ∧ x.1 ≠ k := by
  unfold set
  split_ifs with hk
  · obtain ⟨u, hu⟩ := List.mem_map.mp hk
    simp only [modify, List.mem_map]
    constructor
    · rintro ⟨y, hy, rfl⟩
      split_ifs with hyk
      · exact .inl rfl
      · exact .inr ⟨hy, hyk⟩
    · rintro (rfl | ⟨hx, hxk⟩)
      · exact ⟨u, hu.1, if_pos hu.2⟩
      · exact ⟨x, hx, if_neg hxk⟩
  · simp only [push, List.mem_append, List.mem_singleton]
    constructor
    · rintro (hx | hx)
      · exact .inr ⟨hx, fun hxk => hk (List.mem_map.mpr ⟨x, hx, hxk⟩)⟩
      · exact .inl hx
    · rintro (hx | hx)
      · exact .inr hx
      · exact .inl hx.1

theorem get?_map {β : Type*} (f : α → β) (j : κ) : (d.map f).get? j = (d.get? j).map f := by
  rw [get?, get?, map, List.find?_map, Option.map_map, Option.map_map]
  rfl

omit [DecidableEq κ] in
theorem size_map {β : Type*} (f : α → β) : (d.map f).size = d.size := List.length_map _

theorem get?_set (j : κ) : (d.set k v).get? j = if j = k then some v else d.get? j := by
  refine Option.ext fun u => ?_
  rw [get?_eq_some, mem_set]
  split_ifs with hj
  · subst hj
    simp [eq_comm]
  · rw [get?_eq_some]
    simp [hj]

private theorem get?_foldl_missing (l : List (κ × α)) (j : κ) : ∀ d : OrderedDict κ α,
    (l.foldl (fun d x => if x.1 ∈ d.keys then d else d.set x.1 x.2) d).get? j =
      (d.get? j).or ((l.find? fun x => x.1 = j).map Prod.snd) := by
  induction l with
  | nil => exact fun d => (Option.or_none).symm
  | cons x l ih =>
    intro d
    rw [List.foldl_cons, ih, List.find?_cons]
    by_cases hj : x.1 = j
    · subst hj
      rw [decide_eq_true rfl]
      split_ifs with hx
      · obtain ⟨u, hu⟩ := Option.isSome_iff_exists.mp
          (Option.ne_none_iff_isSome.mp fun h => get?_eq_none.mp h hx)
        rw [hu, Option.some_or, Option.some_or]
      · rw [get?_set, if_pos rfl, get?_eq_none.mpr hx]
        rfl
    · rw [decide_eq_false hj]
      split_ifs with hx
      · rfl
      · rw [get?_set, if_neg (Ne.symm hj)]

/-- What is there goes before what is missing. -/
theorem get?_addMissing (d e : OrderedDict κ α) (j : κ) :
    (d.addMissing e).get? j = (d.get? j).or (e.get? j) :=
  get?_foldl_missing e.entries j d

theorem get?_erase (j : κ) : (d.erase k).get? j = if j = k then none else d.get? j := by
  refine Option.ext fun u => ?_
  rw [get?_eq_some, mem_erase]
  split_ifs with hj
  · simp [hj]
  · rw [get?_eq_some]
    simp [hj]

/-- The entry of a key, with what stands before and after it. -/
theorem exists_split (h : (k, v) ∈ d.entries) : ∃ as bs, d.entries = as ++ (k, v) :: bs ∧
    (d.erase k).entries = as ++ bs ∧
      ∀ f, (d.modify k f).entries = as ++ (k, f v) :: bs := by
  obtain ⟨as, bs, hd⟩ := List.append_of_mem h
  have hnodup := d.nodup
  rw [hd, List.map_append, List.map_cons, List.nodup_append, List.nodup_cons] at hnodup
  have has : ∀ x ∈ as, x.1 ≠ k := fun x hx hxk =>
    hnodup.2.2 x.1 (List.mem_map_of_mem hx) k List.mem_cons_self hxk
  have hbs : ∀ x ∈ bs, x.1 ≠ k := fun x hx hxk => hnodup.2.1.1 (List.mem_map.mpr ⟨x, hx, hxk⟩)
  refine ⟨as, bs, hd, ?_, fun f => ?_⟩
  · change d.entries.filter _ = _
    rw [hd, List.filter_append, List.filter_cons_of_neg (by simp),
      List.filter_eq_self.mpr fun x hx => decide_eq_true (has x hx),
      List.filter_eq_self.mpr fun x hx => decide_eq_true (hbs x hx)]
  · change d.entries.map _ = _
    rw [hd, List.map_append, List.map_cons, if_pos rfl,
      List.map_congr_left fun x hx => if_neg (has x hx),
      List.map_congr_left fun x hx => if_neg (hbs x hx), List.map_id', List.map_id']

/-! ### Numbers of entries -/

omit [DecidableEq κ] in
theorem count_filter_le (q : κ × α → Bool) : (d.filter q).count p ≤ d.count p :=
  List.filter_sublist.countP_le

theorem count_erase_le : (d.erase k).count p ≤ d.count p := count_filter_le _

/-- A new entry counts for itself. -/
theorem count_set (h : k ∉ d.keys) :
    (d.set k v).count p = d.count p + if p (k, v) = true then 1 else 0 := by
  rw [count, entries_set_of_notMem h, List.countP_append, List.countP_singleton]
  rfl

/-- An entry that is erased counted for itself. -/
theorem count_erase (h : (k, v) ∈ d.entries) :
    (d.erase k).count p + (if p (k, v) = true then 1 else 0) = d.count p := by
  obtain ⟨as, bs, hd, herase, -⟩ := exists_split h
  rw [count, count, hd, herase, List.countP_append, List.countP_append, List.countP_cons]
  omega

theorem count_set_le :
    (d.set k v).count p ≤ d.count p + if p (k, v) = true then 1 else 0 := by
  cases hk : d.get? k with
  | none => exact (count_set (get?_eq_none.mp hk)).le
  | some u =>
    obtain ⟨as, bs, hd, -, hmodify⟩ := exists_split (get?_eq_some.mp hk)
    have hmem : k ∈ d.keys := List.mem_map_of_mem (f := Prod.fst) (get?_eq_some.mp hk)
    rw [set, dif_pos hmem, count, count, hmodify, hd]
    simp only [List.countP_append, List.countP_cons]
    omega

theorem keys_set_of_mem (h : k ∈ d.keys) : (d.set k v).keys = d.keys := by
  obtain ⟨x, hx, rfl⟩ := List.mem_map.mp h
  obtain ⟨as, bs, hd, -, hmodify⟩ := exists_split (k := x.1) (v := x.2) hx
  rw [set, dif_pos h, keys, keys, hmodify, hd]
  simp only [List.map_append, List.map_cons]

theorem keys_set_of_notMem (h : k ∉ d.keys) : (d.set k v).keys = d.keys ++ [k] := by
  rw [keys, entries_set_of_notMem h, List.map_append, List.map_singleton]
  rfl

theorem keys_erase : (d.erase k).keys = d.keys.filter fun j => j ≠ k := by
  rw [keys, keys, erase, filter, List.filter_map]
  rfl

omit [DecidableEq κ] in
theorem size_eq_count : d.size = d.count fun _ => true := by
  rw [size, count, List.countP_true]

theorem size_set_of_mem (h : k ∈ d.keys) : (d.set k v).size = d.size := by
  have hlen := congrArg List.length (keys_set_of_mem (v := v) h)
  rwa [keys, keys, List.length_map, List.length_map] at hlen

theorem size_set_of_notMem (h : k ∉ d.keys) : (d.set k v).size = d.size + 1 := by
  rw [size, entries_set_of_notMem h, List.length_append, List.length_singleton, size]

theorem size_erase_of_mem (h : (k, v) ∈ d.entries) : (d.erase k).size + 1 = d.size := by
  rw [size_eq_count, size_eq_count, ← count_erase h]
  rfl

theorem size_erase_of_notMem (h : k ∉ d.keys) : (d.erase k).size = d.size :=
  congrArg List.length (List.filter_eq_self.mpr fun x hx =>
    decide_eq_true fun hxk => h (List.mem_map.mpr ⟨x, hx, hxk⟩))

/-! ### Sums of values -/

/-- Setting a key replaces its part of a sum. -/
theorem sum_map_set (f : α → ℕ) : ((d.set k v).values.map f).sum + (d.get? k).elim 0 f
    = (d.values.map f).sum + f v := by
  cases hk : d.get? k with
  | none =>
    rw [values, entries_set_of_notMem (get?_eq_none.mp hk), values]
    simp only [List.map_append, List.sum_append, List.map_cons, List.map_nil, List.sum_cons,
      List.sum_nil, Option.elim_none]
    omega
  | some u =>
    obtain ⟨as, bs, hd, -, hmodify⟩ := exists_split (get?_eq_some.mp hk)
    have hmem : k ∈ d.keys := List.mem_map_of_mem (f := Prod.fst) (get?_eq_some.mp hk)
    rw [set, dif_pos hmem, values, values, hmodify, hd]
    simp only [List.map_append, List.sum_append, List.map_cons, List.sum_cons, Option.elim_some]
    omega

theorem sum_map_erase_le (f : α → ℕ) : ((d.erase k).values.map f).sum ≤ (d.values.map f).sum :=
  ((List.filter_sublist.map _).map f).sum_le_sum fun _ _ => Nat.zero_le _

section Sum

variable {d : OrderedDict κ ℤ} {v : ℤ}

/-- The value of a key, zero without an entry. -/
def getInt (d : OrderedDict κ ℤ) (k : κ) : ℤ := (d.get? k).getD 0

theorem sum_erase : (d.erase k).values.sum = d.values.sum - d.getInt k := by
  unfold getInt
  cases hk : d.get? k with
  | none =>
    have herase : (d.erase k).entries = d.entries := List.filter_eq_self.mpr fun x hx =>
      decide_eq_true fun hxk => get?_eq_none.mp hk (List.mem_map.mpr ⟨x, hx, hxk⟩)
    rw [values, herase, Option.getD_none, Int.sub_zero]
    rfl
  | some u =>
    obtain ⟨as, bs, hd, herase, -⟩ := exists_split (get?_eq_some.mp hk)
    rw [values, values, hd, herase]
    simp only [List.map_append, List.sum_append, List.map_cons, List.sum_cons, Option.getD_some]
    omega

theorem sum_set : (d.set k v).values.sum = d.values.sum - d.getInt k + v := by
  unfold getInt
  cases hk : d.get? k with
  | none =>
    rw [values, entries_set_of_notMem (get?_eq_none.mp hk), values]
    simp only [List.map_append, List.sum_append, List.map_cons, List.map_nil, List.sum_cons,
      List.sum_nil, Option.getD_none]
    omega
  | some u =>
    obtain ⟨as, bs, hd, -, hmodify⟩ := exists_split (get?_eq_some.mp hk)
    have hmem : k ∈ d.keys := List.mem_map_of_mem (f := Prod.fst) (get?_eq_some.mp hk)
    rw [set, dif_pos hmem, values, values, hmodify, hd]
    simp only [List.map_append, List.sum_append, List.map_cons, List.sum_cons, Option.getD_some]
    omega

theorem getInt_set (j : κ) : (d.set k v).getInt j = if j = k then v else d.getInt j := by
  rw [getInt, get?_set]
  split_ifs <;> rfl

theorem getInt_erase (j : κ) : (d.erase k).getInt j = if j = k then 0 else d.getInt j := by
  rw [getInt, get?_erase]
  split_ifs <;> rfl

end Sum

end OrderedDict
