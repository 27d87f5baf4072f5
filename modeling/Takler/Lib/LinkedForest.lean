import Mathlib

/-!
# Forests of linked objects

Objects are numbered, and each one has a pointer to its parent and a list of its children. The
two are separate fields of mutable objects, so nothing but the discipline of the program that
edits them keeps them together. `WellLinked` says what that discipline achieves: the child lists
and the parent pointers agree and climbing ends. The objects in `O` are those taken out of a
child list whose pointer is still to be cleared, so that the statement also holds in the middle
of an edit.

The two ways through a forest, up by the pointers (`root`) and down by the lists (`subtree`),
are functions with a bound on the number of levels; in a well linked forest the number of
objects is bound enough.

## Main definitions

* `LinkedForest`, `LinkedForest.root`, `LinkedForest.subtree`.
* `LinkedForest.Under`, `LinkedForest.Below`: reached by the pointers, reached by the lists.
* `LinkedForest.WellLinked`.

## Main results

* `WellLinked.root_eq`, `WellLinked.mem_subtree`: the functions follow the relations to the end.
* `WellLinked.attach`, `WellLinked.take`, `WellLinked.clear`, `WellLinked.replace`: the
  edits.
-/

/-- Objects with a pointer to the parent and a list of children. -/
structure LinkedForest where
  size : ℕ
  parent : ℕ → Option ℕ
  children : ℕ → List ℕ

namespace LinkedForest

open Relation

variable (F : LinkedForest)

/-- Climb at most so many levels. -/
def climb : ℕ → ℕ → ℕ
  | 0, n => n
  | k + 1, n =>
    match F.parent n with
    | none => n
    | some p => climb k p

/-- The object at which the way up ends. -/
def root (n : ℕ) : ℕ := F.climb F.size n

/-- An object and what is below it, at most so many levels; the children are visited from the
last to the first, the order in which a stack of pending objects is taken. -/
def walk : ℕ → ℕ → List ℕ
  | 0, _ => []
  | k + 1, n => n :: (F.children n).reverse.flatMap (walk k)

/-- An object and all that is below it. -/
def subtree (n : ℕ) : List ℕ := F.walk F.size n

/-- The second object is the parent of the first. -/
def Up (a b : ℕ) : Prop := F.parent a = some b

/-- The first object reaches the second by parent pointers. -/
abbrev Under : ℕ → ℕ → Prop := ReflTransGen F.Up

/-- The first object is reached from the second by child lists. -/
abbrev Below : ℕ → ℕ → Prop := ReflTransGen fun a b => a ∈ F.children b

/-- An object becomes the last child of another. -/
def attach (p c : ℕ) : LinkedForest where
  size := F.size
  parent := Function.update F.parent c (some p)
  children := Function.update F.children p (F.children p ++ [c])

/-- An object is taken out of a child list. -/
def take (p c : ℕ) : LinkedForest where
  size := F.size
  parent := F.parent
  children := Function.update F.children p ((F.children p).erase c)

/-- The pointer of an object is cleared. -/
def clear (c : ℕ) : LinkedForest where
  size := F.size
  parent := Function.update F.parent c none
  children := F.children

/-- An object takes the place of a child. -/
def replace (p old c : ℕ) : LinkedForest where
  size := F.size
  parent := Function.update (Function.update F.parent c (some p)) old none
  children := Function.update F.children p ((F.children p).set ((F.children p).idxOf old) c)

/-- The child lists and the parent pointers agree, except that the objects in `O` have been taken
out of their lists, and every way up ends. -/
structure WellLinked (O : Set ℕ) : Prop where
  parent_of_mem : ∀ {c p}, c ∈ F.children p → F.parent c = some p
  mem_of_parent : ∀ {c p}, F.parent c = some p → c ∉ O → c ∈ F.children p
  nodup : ∀ p, (F.children p).Nodup
  bounded : ∀ {c p}, F.parent c = some p → c < F.size ∧ p < F.size
  climbs : WellFounded fun p c => F.parent c = some p

variable {F} {O : Set ℕ} {a b c n p r : ℕ}

/-! ### The way up -/

theorem climb_none (h : F.parent n = none) : ∀ k, F.climb k n = n
  | 0 => rfl
  | k + 1 => by rw [climb, h]

theorem climb_some (h : F.parent n = some p) (k : ℕ) : F.climb (k + 1) n = F.climb k p := by
  rw [climb, h]

theorem up_climb : ∀ {k n : ℕ}, F.parent (F.climb k n) ≠ none →
    F.Up (F.climb k n) (F.climb (k + 1) n)
  | 0, n, h => by
    obtain ⟨p, hp⟩ := Option.ne_none_iff_exists'.mp h
    have hn : F.parent n = some p := hp
    rw [climb_some hn]
    exact hn
  | k + 1, n, h => by
    cases hn : F.parent n with
    | none => exact absurd (by rw [climb_none hn, hn]) h
    | some p =>
      rw [climb_some hn] at h ⊢
      rw [climb_some hn]
      exact up_climb h

theorem under_climb (k n : ℕ) : F.Under n (F.climb k n) := by
  induction k generalizing n with
  | zero => exact .refl
  | succ k ih =>
    cases hn : F.parent n with
    | none =>
      rw [climb_none hn]
    | some p =>
      rw [climb_some hn]
      exact .head hn (ih p)

/-- At an object without a parent the climb stays. -/
theorem climb_succ_of_none {k n : ℕ} (h : F.parent (F.climb k n) = none) :
    F.climb (k + 1) n = F.climb k n := by
  induction k generalizing n with
  | zero => exact climb_none h 1
  | succ k ih =>
    cases hn : F.parent n with
    | none => rw [climb_none hn, climb_none hn]
    | some q =>
      rw [climb_some hn] at h
      rw [climb_some hn, climb_some hn, ih h]

theorem parent_climb_of_le {i j n : ℕ} (hij : i ≤ j) (h : F.parent (F.climb i n) = none) :
    F.parent (F.climb j n) = none := by
  induction j, hij using Nat.le_induction with
  | base => exact h
  | succ j _ ih => rw [climb_succ_of_none ih, ih]

theorem under_root (n : ℕ) : F.Under n (F.root n) := under_climb _ n

/-- Where a way up ends does not depend on where it is joined. -/
theorem eq_of_under (h : F.Under n r) (h' : F.Under n p) (hr : F.parent r = none)
    (hp : F.parent p = none) : r = p := by
  induction h using ReflTransGen.head_induction_on with
  | refl =>
    rcases h'.cases_head with h | ⟨x, hx, _⟩
    · exact h
    · exact absurd (hr.symm.trans hx) nofun
  | head hab _ ih =>
    rcases h'.cases_head with h | ⟨x, hx, h⟩
    · subst h
      exact absurd (hp.symm.trans hab) nofun
    · obtain rfl := Option.some.inj (hab.symm.trans hx)
      exact ih h

theorem mem_walk_succ_of_mem_children {k : ℕ} (h : c ∈ F.children n) (hc : n ∈ F.walk k r) :
    c ∈ F.walk (k + 1) r := by
  induction k generalizing r with
  | zero => exact absurd hc List.not_mem_nil
  | succ k ih =>
    rw [walk] at hc ⊢
    rcases List.mem_cons.mp hc with rfl | hc
    · refine List.mem_cons_of_mem _ (List.mem_flatMap.mpr ⟨c, List.mem_reverse.mpr h, ?_⟩)
      exact List.mem_cons_self
    · obtain ⟨x, hx, hc⟩ := List.mem_flatMap.mp hc
      exact List.mem_cons_of_mem _ (List.mem_flatMap.mpr ⟨x, hx, ih hc⟩)

theorem walk_mono {k : ℕ} (hc : c ∈ F.walk k n) : c ∈ F.walk (k + 1) n := by
  induction k generalizing n with
  | zero => exact absurd hc List.not_mem_nil
  | succ k ih =>
    rw [walk] at hc ⊢
    rcases List.mem_cons.mp hc with rfl | hc
    · exact List.mem_cons_self
    · obtain ⟨x, hx, hc⟩ := List.mem_flatMap.mp hc
      exact List.mem_cons_of_mem _ (List.mem_flatMap.mpr ⟨x, hx, ih hc⟩)

theorem below_of_mem_walk {k : ℕ} (hc : c ∈ F.walk k n) : F.Below c n := by
  induction k generalizing n with
  | zero => exact absurd hc List.not_mem_nil
  | succ k ih =>
    rw [walk] at hc
    rcases List.mem_cons.mp hc with rfl | hc
    · exact .refl
    · obtain ⟨x, hx, hc⟩ := List.mem_flatMap.mp hc
      exact (ih hc).tail (List.mem_reverse.mp hx)

/-- When only one object has gained children, what is below an object was there before or came
with that one. -/
theorem below_or_below {G : LinkedForest} (h : ∀ {x y}, x ∈ G.children y → x ∈ F.children y ∨ y = p)
    (hb : G.Below a r) : F.Below a r ∨ F.Below p r := by
  induction hb using ReflTransGen.head_induction_on with
  | refl => exact .inl .refl
  | head hxy _ ih =>
    rcases h hxy with hxy | rfl
    · exact ih.imp_left fun hy => .head hxy hy
    · exact .inr (ih.elim id id)

/-- When only one object has been given a parent, what is below an object was there before or came
with that one. -/
theorem below_or_below_child {G : LinkedForest}
    (h : ∀ {x y}, x ∈ G.children y → x ∈ F.children y ∨ x = c) (hb : G.Below a r) :
    F.Below a r ∨ F.Below a c := by
  induction hb using ReflTransGen.head_induction_on with
  | refl => exact .inl .refl
  | head hxy _ ih =>
    rcases h hxy with hxy | rfl
    · exact ih.imp (fun hy => .head hxy hy) fun hy => .head hxy hy
    · exact .inr .refl

theorem below_attach (hb : F.Below a b) (p c : ℕ) : (F.attach p c).Below a b := by
  refine ReflTransGen.mono (fun x y hxy => ?_) _ _ hb
  by_cases hyp : y = p
  · subst hyp
    simp [attach, hxy]
  · simpa [attach, hyp] using hxy

theorem below_of_mem_subtree (hc : c ∈ F.subtree n) : F.Below c n := below_of_mem_walk hc

namespace WellLinked

theorem under_of_below (h : F.WellLinked O) (hb : F.Below a b) : F.Under a b :=
  ReflTransGen.mono (fun _ _ => h.parent_of_mem) _ _ hb

theorem below_of_under (h : F.WellLinked ∅) (hu : F.Under a b) : F.Below a b :=
  ReflTransGen.mono (fun _ _ hp => h.mem_of_parent hp (Set.notMem_empty _)) _ _ hu

theorem not_transGen_self (h : F.WellLinked O) (a : ℕ) : ¬ TransGen F.Up a a := by
  have hwf : WellFounded (TransGen fun p c => F.parent c = some p) := h.climbs.transGen
  intro ha
  exact hwf.asymmetric _ _ (transGen_swap.mp ha) (transGen_swap.mp ha)

/-- A way up passes each object once, so it has fewer steps than there are objects. -/
theorem length_lt (h : F.WellLinked O) {x : ℕ → ℕ} {d : ℕ}
    (hx : ∀ i < d, F.Up (x i) (x (i + 1))) (hd : x d < F.size) : d < F.size := by
  have hpath : ∀ i j, i < j → j ≤ d → TransGen F.Up (x i) (x j) := by
    intro i j hij hj
    induction j with
    | zero => omega
    | succ j ih =>
      rcases Nat.lt_succ_iff_lt_or_eq.mp hij with hlt | rfl
      · exact (ih hlt (by omega)).tail (hx j (by omega))
      · exact .single (hx i (by omega))
  have hlt : ∀ i ≤ d, x i < F.size := by
    intro i hi
    rcases hi.lt_or_eq with hi | rfl
    · exact (h.bounded (hx i hi)).1
    · exact hd
  let f : Fin (d + 1) → Fin F.size := fun i => ⟨x i, hlt i (by omega)⟩
  have hf : Function.Injective f := by
    intro i j hij
    simp only [f, Fin.mk.injEq] at hij
    by_contra hne
    rcases Nat.lt_or_gt_of_ne (Fin.val_ne_of_ne hne) with hl | hl
    · exact h.not_transGen_self _ (hij ▸ hpath i j hl (by omega))
    · exact h.not_transGen_self _ (hij ▸ hpath j i hl (by omega))
  have := Fintype.card_le_of_injective f hf
  simp only [Fintype.card_fin] at this
  omega

theorem parent_root (h : F.WellLinked O) (n : ℕ) : F.parent (F.root n) = none := by
  by_contra hne
  have hup : ∀ i < F.size, F.Up (F.climb i n) (F.climb (i + 1) n) :=
    fun i hi => up_climb fun hi' => hne (parent_climb_of_le hi.le hi')
  obtain ⟨p, hp⟩ := Option.ne_none_iff_exists'.mp hne
  exact absurd (h.length_lt hup (h.bounded hp).1) (lt_irrefl _)

/-- The way up ends at the only object without a parent that it reaches. -/
theorem root_eq (h : F.WellLinked O) (hn : F.Under n r) (hr : F.parent r = none) :
    F.root n = r :=
  eq_of_under (under_root n) hn (h.parent_root n) hr

/-! ### The way down -/

theorem exists_chain (hb : F.Below a b) : ∃ d, ∃ x : ℕ → ℕ, x 0 = a ∧ x d = b ∧
    (∀ i < d, x i ∈ F.children (x (i + 1))) ∧ a ∈ F.walk (d + 1) b := by
  induction hb using ReflTransGen.head_induction_on with
  | refl => exact ⟨0, fun _ => b, rfl, rfl, fun _ h => absurd h (Nat.not_lt_zero _),
      List.mem_cons_self⟩
  | @head a c hac _ ih =>
    obtain ⟨d, x, hx, hd, hchain, hw⟩ := ih
    refine ⟨d + 1, fun i => i.casesOn a x, rfl, hd, ?_, mem_walk_succ_of_mem_children hac hw⟩
    rintro (_ | i) hi
    · show a ∈ F.children (x 0)
      rw [hx]
      exact hac
    · exact hchain i (by omega)

/-- The walk visits all that is below. -/
theorem mem_subtree (h : F.WellLinked O) (hb : F.Below a b) (hlt : b < F.size) :
    a ∈ F.subtree b := by
  obtain ⟨d, x, rfl, rfl, hchain, hw⟩ := exists_chain hb
  have hd : d < F.size := h.length_lt (fun i hi => h.parent_of_mem (hchain i hi)) hlt
  obtain ⟨m, hm⟩ := Nat.exists_eq_add_of_le (show d + 1 ≤ F.size from hd)
  rw [subtree, hm]
  clear hm
  induction m with
  | zero => exact hw
  | succ m ih => exact walk_mono ih

/-! ### Edits -/

/-- Only the members of the child lists matter, not their order. -/
theorem perm (h : F.WellLinked O) {l : ℕ → List ℕ} (hl : ∀ p, (l p).Perm (F.children p)) :
    ({ F with children := l } : LinkedForest).WellLinked O where
  parent_of_mem hc := h.parent_of_mem ((hl _).mem_iff.mp hc)
  mem_of_parent hp hO := (hl _).mem_iff.mpr (h.mem_of_parent hp hO)
  nodup p := (hl p).nodup_iff.mpr (h.nodup p)
  bounded := h.bounded
  climbs := h.climbs

theorem grow (h : F.WellLinked O) {m : ℕ} (hm : F.size ≤ m) :
    ({ F with size := m } : LinkedForest).WellLinked O where
  parent_of_mem := h.parent_of_mem
  mem_of_parent := h.mem_of_parent
  nodup := h.nodup
  bounded hp := ⟨(h.bounded hp).1.trans_le hm, (h.bounded hp).2.trans_le hm⟩
  climbs := h.climbs

/-- An object without a parent becomes the last child of one that is not under it. -/
theorem attach (h : F.WellLinked O) (hc : F.parent c = none) (hlc : c < F.size)
    (hlp : p < F.size) (hpc : ¬ F.Under p c) : (F.attach p c).WellLinked O := by
  have hfree : ∀ q, c ∉ F.children q := fun q hq =>
    absurd (hc.symm.trans (h.parent_of_mem hq)) nofun
  have hlist : ∀ {d q}, d ∈ (F.attach p c).children q ↔
      d ∈ F.children q ∨ d = c ∧ q = p := by
    intro d q
    by_cases hqp : q = p
    · subst hqp
      simp [LinkedForest.attach]
    · simp [LinkedForest.attach, hqp]
  have hptr : ∀ {d q}, (F.attach p c).parent d = some q ↔
      F.parent d = some q ∨ d = c ∧ q = p := by
    intro d q
    by_cases hdc : d = c
    · subst hdc
      simp [LinkedForest.attach, hc, eq_comm]
    · simp [LinkedForest.attach, hdc]
  refine ⟨fun hd => ?_, fun hd hO => ?_, fun q => ?_, fun hd => ?_, ?_⟩
  · exact hptr.mpr ((hlist.mp hd).imp_left h.parent_of_mem)
  · exact hlist.mpr ((hptr.mp hd).imp_left fun hd => h.mem_of_parent hd hO)
  · by_cases hqp : q = p
    · subst hqp
      simpa [LinkedForest.attach] using (h.nodup q).concat (hfree q)
    · simpa only [LinkedForest.attach, Function.update_of_ne hqp] using h.nodup q
  · rcases hptr.mp hd with hd | ⟨rfl, rfl⟩
    · exact h.bounded hd
    · exact ⟨hlc, hlp⟩
  · -- What is not under the new child climbs as before, its new parent among it; the child and
    -- what is under it climb to that parent.
    have hout : ∀ n, ¬ F.Under n c →
        Acc (fun q d => (F.attach p c).parent d = some q) n := by
      intro n
      induction n using h.climbs.induction with
      | _ n ih =>
        intro hn
        refine ⟨n, fun q hq => ?_⟩
        rcases hptr.mp hq with hq | ⟨rfl, _⟩
        · exact ih q hq fun hqc => hn (.head hq hqc)
        · exact absurd .refl hn
    refine ⟨fun n => ?_⟩
    induction n using h.climbs.induction with
    | _ n ih =>
      refine ⟨n, fun q hq => ?_⟩
      rcases hptr.mp hq with hq | ⟨_, rfl⟩
      · exact ih q hq
      · exact hout q hpc

theorem root_attach (h : F.WellLinked O) (hc : F.parent c = none) (hlc : c < F.size)
    (hlp : p < F.size) (hpc : ¬ F.Under p c) : (F.attach p c).root p = F.root p := by
  refine (h.attach hc hlc hlp hpc).root_eq ?_ ?_
  · refine ReflTransGen.mono (fun a b hab => ?_) _ _ (under_root p)
    have hac : a ≠ c := by
      rintro rfl
      exact absurd (hc.symm.trans hab) nofun
    exact (Function.update_of_ne hac ..).trans hab
  · have hrc : F.root p ≠ c := fun heq => hpc (heq ▸ under_root p)
    exact (Function.update_of_ne hrc ..).trans (h.parent_root p)

/-- A child is taken out of the list; its pointer is still to be cleared. -/
theorem take (h : F.WellLinked O) (p c : ℕ) : (F.take p c).WellLinked (insert c O) := by
  have hlist : ∀ {d q}, d ∈ (F.take p c).children q → d ∈ F.children q := by
    intro d q hd
    by_cases hqp : q = p
    · subst hqp
      simp only [LinkedForest.take, Function.update_self] at hd
      exact List.mem_of_mem_erase hd
    · simpa only [LinkedForest.take, Function.update_of_ne hqp] using hd
  refine ⟨fun hd => h.parent_of_mem (hlist hd), fun {d q} hd hO => ?_, fun q => ?_, h.bounded,
    h.climbs⟩
  · have hdc : d ≠ c := fun heq => hO (heq ▸ Set.mem_insert _ _)
    have := h.mem_of_parent hd fun hm => hO (Set.mem_insert_of_mem _ hm)
    by_cases hqp : q = p
    · subst hqp
      simpa only [LinkedForest.take, Function.update_self] using
        (List.mem_erase_of_ne hdc).mpr this
    · simpa only [LinkedForest.take, Function.update_of_ne hqp] using this
  · by_cases hqp : q = p
    · subst hqp
      simpa only [LinkedForest.take, Function.update_self] using (h.nodup q).erase c
    · simpa only [LinkedForest.take, Function.update_of_ne hqp] using h.nodup q

/-- The pointer of an object in no child list is cleared. -/
theorem clear (h : F.WellLinked (insert c O)) (hc : ∀ q, c ∉ F.children q) :
    (F.clear c).WellLinked O := by
  have hsub : ∀ {d q}, (F.clear c).parent d = some q → d ≠ c ∧ F.parent d = some q := by
    intro d q hd
    by_cases hdc : d = c
    · subst hdc
      simp [LinkedForest.clear] at hd
    · exact ⟨hdc, by simpa only [LinkedForest.clear, Function.update_of_ne hdc] using hd⟩
  refine ⟨fun {d q} hd => ?_, fun {d q} hd hO => ?_, h.nodup, fun hd => h.bounded (hsub hd).2, ?_⟩
  · have hdc : d ≠ c := fun heq => hc q (heq ▸ hd)
    simpa only [LinkedForest.clear, Function.update_of_ne hdc] using h.parent_of_mem hd
  · refine h.mem_of_parent (hsub hd).2 fun hm => ?_
    rcases Set.mem_insert_iff.mp hm with rfl | hm
    · exact (hsub hd).1 rfl
    · exact hO hm
  · exact Subrelation.wf (fun hd => (hsub hd).2) h.climbs

theorem not_mem_take (h : F.WellLinked O) (hc : c ∈ F.children p) (q : ℕ) :
    c ∉ (F.take p c).children q := by
  intro hq
  by_cases hqp : q = p
  · subst hqp
    simp only [LinkedForest.take, Function.update_self] at hq
    exact (h.nodup q).not_mem_erase hq
  · simp only [LinkedForest.take, Function.update_of_ne hqp] at hq
    exact hqp (Option.some.inj ((h.parent_of_mem hq).symm.trans (h.parent_of_mem hc)))

/-- An object without a parent takes the place of a child of one that is not under it. -/
theorem replace (h : F.WellLinked O) {old : ℕ} (hold : old ∈ F.children p)
    (hc : F.parent c = none) (hlc : c < F.size) (hlp : p < F.size) (hpc : ¬ F.Under p c) :
    (F.replace p old c).WellLinked O := by
  have hne : c ≠ old := by
    rintro rfl
    exact absurd (hc.symm.trans (h.parent_of_mem hold)) nofun
  have hG : (((F.take p old).clear old).attach p c).WellLinked O := by
    refine ((h.take p old).clear (h.not_mem_take hold)).attach ?_ hlc hlp fun hu => hpc ?_
    · exact (Function.update_of_ne hne ..).trans hc
    · refine ReflTransGen.mono (fun a b hab => ?_) _ _ hu
      have hao : a ≠ old := by
        rintro rfl
        simp [Up, LinkedForest.clear] at hab
      exact (Function.update_of_ne hao ..).symm.trans hab
  have hperm : ∀ q, ((F.replace p old c).children q).Perm
      ((((F.take p old).clear old).attach p c).children q) := by
    intro q
    by_cases hqp : q = p
    · subst hqp
      simp only [LinkedForest.replace, LinkedForest.attach, LinkedForest.clear,
        LinkedForest.take, Function.update_self]
      refine (List.set_perm_cons_eraseIdx (List.idxOf_lt_length_of_mem hold) c).trans ?_
      rw [List.eraseIdx_idxOf_eq_erase]
      exact (List.perm_append_singleton c _).symm
    · simp only [LinkedForest.replace, LinkedForest.attach, LinkedForest.clear,
        LinkedForest.take, Function.update_of_ne hqp, List.Perm.refl]
  have hF : F.replace p old c =
      { ((F.take p old).clear old).attach p c with children := (F.replace p old c).children } := by
    simp only [LinkedForest.replace, LinkedForest.attach, LinkedForest.clear, LinkedForest.take]
    rw [Function.update_comm hne]
  rw [hF]
  exact hG.perm hperm

end WellLinked

end LinkedForest
