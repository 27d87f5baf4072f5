import Mathlib

/-!
# Prefixes in a sorted list

Paths are lists over a linear order with a separator. A path is *below* another one if it continues
it after a separator. A common way to keep only the topmost of some paths is to sort them and to
keep a path unless it is below the path that was kept last; to find out whether a path is covered,
one looks for the last kept path up to it with a binary search. Both rest on the descendants of a
path following it without a gap. They do so in the order of the sequences of parts, but not in the
lexicographic order of the characters, where a character smaller than the separator puts other
paths in between.

## Main definitions

* `Below`: the descendants of a path.
* `reduce`: the paths that are kept.
* `bisectRight`, `coveredBy`: the binary search and the test that rests on it.
* `Separated`: nothing stands between a topmost path and its descendants.

## Main results

* `mem_reduce_iff`: a path is kept unless it is below the last path kept before it.
* `coveredBy_iff`: what the test looks at.
* `reduce_correct_iff`: the kept paths are an antichain and the test is exact, if and only if the
  paths are separated.
-/

namespace PrefixReduction

/-! ### Binary search -/

section Bisect

variable {β : Type*} [LinearOrder β]

/-- The loop of the search for the first position from `lo` on whose element is larger. -/
def bisectRightFrom (a : List β) (x : β) : ℕ → ℕ → ℕ → ℕ
  | 0, lo, _ => lo
  | fuel + 1, lo, hi =>
    if lo < hi then
      if a[(lo + hi) / 2]?.any (x < ·) then bisectRightFrom a x fuel lo ((lo + hi) / 2)
      else bisectRightFrom a x fuel ((lo + hi) / 2 + 1) hi
    else lo

/-- The position after the last element that is not larger; the interval shrinks in every round. -/
def bisectRight (a : List β) (x : β) : ℕ := bisectRightFrom a x a.length 0 a.length

/-- The elements before `lo` are not larger, those from `hi` on are. -/
structure Brackets (a : List β) (x : β) (lo hi : ℕ) : Prop where
  le : lo ≤ hi
  bounded : hi ≤ a.length
  before : ∀ i y, i < lo → a[i]? = some y → y ≤ x
  after : ∀ i y, hi ≤ i → a[i]? = some y → x < y

theorem getElem?_le {a : List β} (ha : a.SortedLT) {i j : ℕ} {y z : β} (hij : i ≤ j)
    (hi : a[i]? = some y) (hj : a[j]? = some z) : y ≤ z := by
  rcases hij.eq_or_lt with rfl | hlt
  · rw [hi] at hj
    exact (Option.some.inj hj).le
  · obtain ⟨hi', rfl⟩ := List.getElem?_eq_some_iff.mp hi
    obtain ⟨hj', rfl⟩ := List.getElem?_eq_some_iff.mp hj
    exact (List.pairwise_iff_getElem.mp ha.pairwise i j hi' hj' hlt).le

theorem sortedLT_insertionSort {l : List β} (h : l.Nodup) :
    (l.insertionSort (· ≤ ·)).SortedLT := by
  have hle := List.pairwise_insertionSort (· ≤ ·) l
  have hne : (l.insertionSort (· ≤ ·)).Nodup := (List.perm_insertionSort _ l).nodup_iff.mpr h
  exact ((hle.and hne).imp fun h => lt_of_le_of_ne h.1 h.2).sortedLT

theorem brackets_bisectRightFrom {a : List β} (ha : a.SortedLT) (x : β) (fuel lo hi : ℕ)
    (h : Brackets a x lo hi) (hfuel : hi - lo ≤ fuel) :
    Brackets a x (bisectRightFrom a x fuel lo hi) (bisectRightFrom a x fuel lo hi) := by
  induction fuel generalizing lo hi with
  | zero =>
    obtain rfl : lo = hi := le_antisymm h.le (by omega)
    exact h
  | succ fuel ih =>
    rw [bisectRightFrom]
    by_cases hlt : lo < hi
    · have hbound := h.bounded
      have hmid : (lo + hi) / 2 < a.length := by omega
      have hz := List.getElem?_eq_getElem hmid
      rw [if_pos hlt, hz, Option.any_some]
      split_ifs with hx
      · refine ih _ _ ⟨by omega, by omega, h.before, fun i y hi hy => ?_⟩ (by omega)
        exact (of_decide_eq_true hx).trans_le (getElem?_le ha hi hz hy)
      · refine ih _ _ ⟨by omega, h.bounded, fun i y hi hy => ?_, h.after⟩ (by omega)
        have hle := getElem?_le ha (Nat.lt_succ_iff.mp hi) hy hz
        exact hle.trans (not_lt.mp fun hlt => hx (decide_eq_true hlt))
    · obtain rfl : lo = hi := le_antisymm h.le (by omega)
      rw [if_neg hlt]
      exact h

theorem brackets_bisectRight {a : List β} (ha : a.SortedLT) (x : β) :
    Brackets a x (bisectRight a x) (bisectRight a x) := by
  refine brackets_bisectRightFrom ha x _ _ _ ⟨Nat.zero_le _, le_rfl, ?_, ?_⟩ (Nat.sub_le _ _)
  · intro i y hi
    exact absurd hi (Nat.not_lt_zero i)
  · intro i y hi hy
    rw [List.getElem?_eq_none hi] at hy
    cases hy

/-- The element before the position is the largest one that is not larger than `x`. -/
theorem isGreatest_of_bisectRight {a : List β} (ha : a.SortedLT) {x y : β} {k : ℕ}
    (hk : bisectRight a x = k + 1) (hy : a[k]? = some y) :
    IsGreatest {z | z ∈ a ∧ z ≤ x} y := by
  have hb := brackets_bisectRight ha x
  rw [hk] at hb
  refine ⟨⟨List.mem_of_getElem? hy, hb.before k y (Nat.lt_succ_self k) hy⟩, ?_⟩
  rintro z ⟨hz, hzx⟩
  obtain ⟨i, hi⟩ := List.mem_iff_getElem?.mp hz
  rcases Nat.lt_or_ge k i with hki | hik
  · exact absurd (hb.after i z hki hi) hzx.not_gt
  · exact getElem?_le ha hik hi hy

theorem not_le_of_bisectRight_eq_zero {a : List β} (ha : a.SortedLT) {x : β}
    (hk : bisectRight a x = 0) {z : β} (hz : z ∈ a) : ¬ z ≤ x := by
  have hb := brackets_bisectRight ha x
  rw [hk] at hb
  obtain ⟨i, hi⟩ := List.mem_iff_getElem?.mp hz
  exact (hb.after i z (Nat.zero_le i) hi).not_ge

end Bisect

/-! ### Paths and prefixes -/

variable {α : Type*}

/-- The second path continues the first one after a separator. -/
def Below (sep : α) (p q : List α) : Prop := p ++ [sep] <+: q

instance [DecidableEq α] (sep : α) (p q : List α) : Decidable (Below sep p q) :=
  inferInstanceAs (Decidable (_ <+: _))

variable {sep : α} {p q r : List α}

theorem Below.isPrefix (h : Below sep p q) : p <+: q := (List.prefix_append p _).trans h

theorem Below.length_lt (h : Below sep p q) : p.length < q.length := by
  have hle := List.IsPrefix.length_le h
  rw [List.length_append, List.length_singleton] at hle
  omega

theorem Below.trans (hpq : Below sep p q) (hqr : Below sep q r) : Below sep p r :=
  List.IsPrefix.trans hpq hqr.isPrefix

variable [LinearOrder α]

theorem le_of_isPrefix (h : p <+: q) : p ≤ q := by
  induction p generalizing q with
  | nil =>
    cases q with
    | nil => exact le_rfl
    | cons b q => exact le_of_lt (List.Lex.nil : List.Lex (· < ·) [] (b :: q))
  | cons a p ih =>
    obtain ⟨t, rfl⟩ := h
    exact List.cons_le_cons a (ih (List.prefix_append p t))

theorem Below.lt (h : Below sep p q) : p < q := by
  refine lt_of_le_of_ne (le_of_isPrefix h.isPrefix) fun he => ?_
  exact absurd h.length_lt (by rw [he]; exact lt_irrefl _)

/-- The extensions of a list form an interval. -/
theorem isPrefix_of_between {w a x b : List α} (ha : w <+: a) (hb : w <+: b) (hax : a ≤ x)
    (hxb : x ≤ b) : w <+: x := by
  induction w generalizing a x b with
  | nil => exact List.nil_prefix
  | cons c w ih =>
    obtain ⟨s, rfl⟩ := ha
    obtain ⟨t, rfl⟩ := hb
    cases x with
    | nil => exact absurd (List.Lex.nil : List.Lex (· < ·) [] (c :: (w ++ s))) (not_lt.mpr hax)
    | cons d x =>
      rw [List.cons_append] at hax hxb
      have hcd : c ≤ d := by
        rcases hax.lt_or_eq with hlt | heq
        · exact List.head_le_of_lt hlt
        · exact (List.cons.inj heq).1.le
      have hdc : d ≤ c := by
        rcases hxb.lt_or_eq with hlt | heq
        · exact List.head_le_of_lt hlt
        · exact (List.cons.inj heq).1.le
      obtain rfl := le_antisymm hcd hdc
      have hcancel : ∀ {u v : List α}, c :: u ≤ c :: v → u ≤ v := by
        intro u v huv
        by_contra hvu
        exact absurd (List.Lex.cons (not_le.mp hvu)) (not_lt.mpr huv)
      exact List.cons_prefix_cons.mpr ⟨rfl, ih (List.prefix_append w s) (List.prefix_append w t)
        (hcancel hax) (hcancel hxb)⟩

/-- Two ancestors of one path are on one line. -/
theorem Below.comparable (hp : Below sep p r) (hq : Below sep q r) (hlt : p < q) :
    Below sep p q := by
  rcases Nat.lt_or_ge p.length q.length with hlen | hlen
  · refine List.prefix_of_prefix_length_le hp hq.isPrefix ?_
    rw [List.length_append, List.length_singleton]
    exact hlen
  · exact absurd (le_of_isPrefix (List.prefix_of_prefix_length_le hq.isPrefix hp.isPrefix hlen))
      (not_le.mpr hlt)

/-! ### The kept paths -/

variable (sep) in
/-- Keep a path unless it is below the path that was kept last. -/
def keep (reduced : List (List α)) (p : List α) : List (List α) :=
  if reduced.getLast?.any fun r => Below sep r p then reduced else reduced ++ [p]

variable (sep) in
/-- The kept ones of some sorted paths. -/
def reduce (paths : List (List α)) : List (List α) := paths.foldl (keep sep) []

variable {paths : List (List α)}

theorem reduce_concat (paths : List (List α)) (p : List α) :
    reduce sep (paths ++ [p]) = keep sep (reduce sep paths) p := by
  rw [reduce, List.foldl_append]
  rfl

theorem keep_sublist (reduced : List (List α)) (p : List α) :
    (keep sep reduced p).Sublist (reduced ++ [p]) := by
  unfold keep
  split_ifs
  · exact List.sublist_append_left reduced [p]
  · exact List.Sublist.refl _

theorem reduce_sublist (paths : List (List α)) : (reduce sep paths).Sublist paths := by
  induction paths using List.reverseRecOn with
  | nil => exact List.Sublist.refl _
  | append_singleton paths p ih =>
    rw [reduce_concat]
    exact (keep_sublist _ p).trans (ih.append (List.Sublist.refl [p]))

theorem mem_of_mem_reduce (h : p ∈ reduce sep paths) : p ∈ paths := (reduce_sublist paths).subset h

theorem sortedLT_reduce (hs : paths.SortedLT) : (reduce sep paths).SortedLT :=
  (hs.pairwise.sublist (reduce_sublist paths)).sortedLT

theorem getLast?_eq_some_iff_isGreatest {l : List (List α)} (hl : l.SortedLT) {r : List α} :
    l.getLast? = some r ↔ IsGreatest {z | z ∈ l} r := by
  induction l using List.reverseRecOn with
  | nil => simp [IsGreatest]
  | append_singleton l x ih =>
    have hx : IsGreatest {z | z ∈ l ++ [x]} x := by
      refine ⟨List.mem_append_right _ (List.mem_singleton.mpr rfl), fun z hz => ?_⟩
      rcases List.mem_append.mp hz with hz | hz
      · exact ((List.pairwise_append.mp hl.pairwise).2.2 z hz x (List.mem_singleton.mpr rfl)).le
      · exact (List.mem_singleton.mp hz).le
    rw [List.getLast?_concat, Option.some.injEq]
    exact ⟨fun h => h ▸ hx, fun h => hx.unique h⟩

/-- A path is kept unless it is below the last path that was kept before it. -/
theorem mem_reduce_iff (hs : paths.SortedLT) : q ∈ reduce sep paths ↔ q ∈ paths ∧
    ∀ r, IsGreatest {z | z ∈ reduce sep paths ∧ z < q} r → ¬ Below sep r q := by
  induction paths using List.reverseRecOn with
  | nil => simp [reduce]
  | append_singleton paths p ih =>
    have happ := List.pairwise_append.mp hs.pairwise
    have hlt : ∀ z ∈ paths, z < p := fun z hz => happ.2.2 z hz p (List.mem_singleton.mpr rfl)
    have hs' : paths.SortedLT := happ.1.sortedLT
    have hmem : ∀ {z x}, x ≤ p → (z ∈ reduce sep (paths ++ [p]) ∧ z < x ↔
        z ∈ reduce sep paths ∧ z < x) := by
      intro z x hx
      rw [reduce_concat]
      refine and_congr_left fun hzx => ?_
      unfold keep
      split_ifs
      · rfl
      · rw [List.mem_append, List.mem_singleton]
        exact or_iff_left (ne_of_lt (hzx.trans_le hx))
    rcases eq_or_ne q p with rfl | hqp
    · have hnot : q ∉ reduce sep paths := fun h => lt_irrefl q (hlt q (mem_of_mem_reduce h))
      have hset : {z | z ∈ reduce sep (paths ++ [q]) ∧ z < q} = {z | z ∈ reduce sep paths} := by
        ext z
        refine (hmem le_rfl).trans (and_iff_left_of_imp fun hz => hlt z (mem_of_mem_reduce hz))
      rw [hset, and_iff_right (List.mem_append_right _ (List.mem_singleton.mpr rfl))]
      rw [reduce_concat, keep]
      cases hlast : (reduce sep paths).getLast? with
      | none =>
        rw [if_neg (by simp), List.getLast?_eq_none_iff.mp hlast]
        simp [IsGreatest]
      | some r =>
        have hr := (getLast?_eq_some_iff_isGreatest (sortedLT_reduce hs')).mp hlast
        by_cases hb : Below sep r q
        · rw [if_pos (by simpa using hb)]
          exact iff_of_false hnot fun h => h r hr hb
        · rw [if_neg (by simpa using hb)]
          refine iff_of_true (List.mem_append_right _ (List.mem_singleton.mpr rfl)) ?_
          intro r' hr'
          rwa [hr'.unique hr]
    · have hq : q ∈ reduce sep (paths ++ [p]) ↔ q ∈ reduce sep paths := by
        rw [reduce_concat]
        unfold keep
        split_ifs
        · rfl
        · rw [List.mem_append, List.mem_singleton]
          exact or_iff_left hqp
      rw [hq, List.mem_append, List.mem_singleton, or_iff_left hqp, ih hs']
      refine and_congr_right fun hqm => ?_
      have hset : {z | z ∈ reduce sep (paths ++ [p]) ∧ z < q} =
          {z | z ∈ reduce sep paths ∧ z < q} := by
        ext z
        exact hmem (hlt q hqm).le
      rw [hset]

variable (sep) in
/-- The test with the binary search: the last kept path up to `q` is `q` or above it. -/
def coveredBy (reduced : List (List α)) (q : List α) : Bool :=
  match bisectRight reduced q with
  | 0 => false
  | k + 1 => reduced[k]?.any fun r => q = r ∨ Below sep r q

theorem coveredBy_iff {reduced : List (List α)} (hs : reduced.SortedLT) :
    coveredBy sep reduced q ↔
      ∃ r, IsGreatest {z | z ∈ reduced ∧ z ≤ q} r ∧ (q = r ∨ Below sep r q) := by
  unfold coveredBy
  cases hk : bisectRight reduced q with
  | zero =>
    refine iff_of_false Bool.false_ne_true ?_
    rintro ⟨r, hr, -⟩
    exact not_le_of_bisectRight_eq_zero hs hk hr.1.1 hr.1.2
  | succ k =>
    have hlen : k < reduced.length := by
      have := (brackets_bisectRight hs q).bounded
      omega
    have hget := List.getElem?_eq_getElem hlen
    have hgr := isGreatest_of_bisectRight hs hk hget
    simp only [hget, Option.any_some, decide_eq_true_eq]
    constructor
    · exact fun h => ⟨_, hgr, h⟩
    · rintro ⟨r, hr, h⟩
      rwa [hgr.unique hr]

/-! ### When the reduction is correct -/

variable (sep) in
/-- A path of the set with no ancestor in it. -/
def Topmost (I : Set (List α)) (p : List α) : Prop := p ∈ I ∧ ∀ a ∈ I, ¬ Below sep a p

variable (sep) in
/-- Between a topmost path and its descendants in `I` or `U` there are only descendants. -/
def Separated (I U : Set (List α)) : Prop :=
  ∀ p, Topmost sep I p → ∀ q ∈ I ∪ U, Below sep p q → ∀ r ∈ I, p < r → r < q → Below sep p r

omit [LinearOrder α] in
theorem exists_topmost {I : Set (List α)} (hq : q ∈ I) :
    ∃ p, Topmost sep I p ∧ (q = p ∨ Below sep p q) := by
  induction hn : q.length using Nat.strong_induction_on generalizing q with
  | _ n ih =>
    by_cases h : ∃ a ∈ I, Below sep a q
    · obtain ⟨a, ha, haq⟩ := h
      obtain ⟨p, hp, hpa⟩ := ih a.length (hn ▸ haq.length_lt) ha rfl
      refine ⟨p, hp, .inr ?_⟩
      rcases hpa with rfl | hpa
      · exact haq
      · exact hpa.trans haq
    · exact ⟨q, ⟨hq, fun a ha haq => h ⟨a, ha, haq⟩⟩, .inl rfl⟩

/-- A topmost path is not between another one and a descendant of that, unless the whole subtree
of the path is. -/
theorem Topmost.between {I : Set (List α)} {r₀ : List α} (hp : Topmost sep I p)
    (hr₀ : Topmost sep I r₀) (hrr : r = r₀ ∨ Below sep r₀ r) (hpq : Below sep p q) (hpr : p < r)
    (hrq : r < q) (hn : ¬ Below sep p r) : p < r₀ ∧ r₀ < q ∧ ¬ Below sep p r₀ := by
  refine ⟨?_, ?_, hr₀.2 p hp.1⟩
  · rcases hrr with rfl | hrr
    · exact hpr
    · by_contra hle
      rcases (not_lt.mp hle).lt_or_eq with hlt | rfl
      · -- The path `p` is between `r₀` and `r`, and `r` is between `p` and `q`.
        have h₁ : r₀ <+: p := isPrefix_of_between (List.prefix_refl r₀) hrr.isPrefix hlt.le hpr.le
        have h₂ : p <+: r := isPrefix_of_between (List.prefix_refl p) hpq.isPrefix hpr.le hrq.le
        have hlen : r₀.length < p.length := by
          refine lt_of_le_of_ne h₁.length_le fun heq => ?_
          exact absurd (h₁.eq_of_length heq) hlt.ne
        refine hp.2 r₀ hr₀.1 (List.prefix_of_prefix_length_le hrr h₂ ?_)
        rw [List.length_append, List.length_singleton]
        exact hlen
      · exact hn hrr
  · rcases hrr with rfl | hrr
    · exact hrq
    · exact hrr.lt.trans hrq

theorem exists_isGreatest {β : Type*} [LinearOrder β] {l : List β} {P : β → Prop} {z : β}
    (hz : z ∈ l) (hP : P z) : ∃ r, IsGreatest {z | z ∈ l ∧ P z} r := by
  have hfin : {z | z ∈ l ∧ P z}.Finite := l.finite_toSet.subset fun _ h => h.1
  obtain ⟨r, hr, hmax⟩ := Set.exists_max_image _ id hfin ⟨z, hz, hP⟩
  exact ⟨r, hr, hmax⟩

section Correct

variable {U : Set (List α)} (hs : paths.SortedLT)
include hs

theorem mem_reduce_of_topmost (hp : Topmost sep {z | z ∈ paths} p) : p ∈ reduce sep paths :=
  (mem_reduce_iff hs).mpr ⟨hp.1, fun r hr => hp.2 r (mem_of_mem_reduce hr.1.1)⟩

/-- Separated paths are reduced to the topmost ones. -/
theorem topmost_of_mem_reduce (hsep : Separated sep {z | z ∈ paths} U)
    (hq : q ∈ reduce sep paths) : Topmost sep {z | z ∈ paths} q := by
  obtain ⟨p, hp, rfl | hpq⟩ := @exists_topmost _ sep q {z | z ∈ paths}
    (mem_of_mem_reduce hq)
  · exact hp
  exfalso
  have hpm := mem_reduce_of_topmost hs hp
  -- Take the first kept descendant of `p`; the path kept last before it can only be `p`.
  have hfin : {z | z ∈ reduce sep paths ∧ Below sep p z}.Finite :=
    (reduce sep paths).finite_toSet.subset fun _ h => h.1
  obtain ⟨q₀, ⟨hq₀, hpq₀⟩, hmin⟩ := Set.exists_min_image _ id hfin ⟨q, hq, hpq⟩
  obtain ⟨l, hl⟩ := exists_isGreatest (P := (· < q₀)) hpm hpq₀.lt
  rcases (hl.2 ⟨hpm, hpq₀.lt⟩).lt_or_eq with hlt | rfl
  · have hpl := hsep p hp q₀ (.inl (mem_of_mem_reduce hq₀)) hpq₀ l (mem_of_mem_reduce hl.1.1) hlt
      hl.1.2
    exact absurd (hmin l ⟨hl.1.1, hpl⟩) (not_le.mpr hl.1.2)
  · exact ((mem_reduce_iff hs).mp hq₀).2 p hl hpq₀

/-- The kept paths are an antichain and the test on `U` is exact, if and only if nothing stands
between a topmost path and its descendants. -/
theorem reduce_correct_iff :
    ((∀ a ∈ reduce sep paths, ∀ b ∈ reduce sep paths, ¬ Below sep a b) ∧
      ∀ u ∈ U, (coveredBy sep (reduce sep paths) u ↔
        ∃ a ∈ reduce sep paths, u = a ∨ Below sep a u)) ↔
    Separated sep {z | z ∈ paths} U := by
  have hred : (reduce sep paths).SortedLT := sortedLT_reduce hs
  constructor
  · rintro ⟨hanti, hexact⟩ p hp q hq hpq r hr hpr hrq
    by_contra hn
    obtain ⟨r₀, hr₀, hrr⟩ := @exists_topmost _ sep r {z | z ∈ paths} hr
    obtain ⟨hpr₀, hr₀q, -⟩ := hp.between hr₀ hrr hpq hpr hrq hn
    have hpm := mem_reduce_of_topmost hs hp
    have hr₀m := mem_reduce_of_topmost hs hr₀
    have hno : ∀ l ∈ reduce sep paths, r₀ ≤ l → ¬ (q = l ∨ Below sep l q) := by
      intro l hl hrl hlq
      refine hanti p hpm l hl ?_
      rcases hlq with rfl | hlq
      · exact hpq
      · exact hpq.comparable hlq (hpr₀.trans_le hrl)
    rcases hq with hq | hq
    · -- A descendant in the list would be kept itself.
      refine hno q ((mem_reduce_iff hs).mpr ⟨hq, fun l hl hlq => ?_⟩) hr₀q.le (.inl rfl)
      exact hno l hl.1.1 (hl.2 ⟨hr₀m, hr₀q⟩) (.inr hlq)
    · obtain ⟨l, hl, hlq⟩ := (coveredBy_iff hred).mp ((hexact q hq).mpr ⟨p, hpm, .inr hpq⟩)
      exact hno l hl.1.1 (hl.2 ⟨hr₀m, hr₀q.le⟩) hlq
  · intro hsep
    refine ⟨fun a ha b hb => ?_, fun u hu => ?_⟩
    · exact (topmost_of_mem_reduce hs hsep hb).2 a (mem_of_mem_reduce ha)
    rw [coveredBy_iff hred]
    constructor
    · rintro ⟨r, hr, hru⟩
      exact ⟨r, hr.1.1, hru⟩
    · rintro ⟨a, ha, hau⟩
      have hle : a ≤ u := by
        rcases hau with rfl | hau
        · exact le_rfl
        · exact hau.lt.le
      obtain ⟨r, hr⟩ := exists_isGreatest (P := (· ≤ u)) ha hle
      refine ⟨r, hr, ?_⟩
      rcases (hr.2 ⟨ha, hle⟩).lt_or_eq with hlt | rfl
      · rcases hr.1.2.lt_or_eq with hru | rfl
        · rcases hau with rfl | hau
          · exact absurd hlt hru.not_gt
          have hbelow := hsep a (topmost_of_mem_reduce hs hsep ha) u (.inr hu) hau r
            (mem_of_mem_reduce hr.1.1) hlt hru
          exact absurd hbelow ((topmost_of_mem_reduce hs hsep hr.1.1).2 a (mem_of_mem_reduce ha))
        · exact .inl rfl
      · exact hau

end Correct

end PrefixReduction
