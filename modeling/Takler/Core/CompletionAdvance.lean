import Takler.Core.Swim

/-!
# How often a completion advances a repeat

`Task.complete` lets the completion swim up twice: once when the status is set, and once more
afterwards. A repeat that advances the first time requeues its tree, and where the default statuses
complete the way from the task to the repeat at once, the second swim finds the tree complete and
the repeat advances again. `AdvancesTwice` says when this happens, in terms of the state before the
report.

## Main definitions

* `Bunch.RestartsComplete`: after a requeue of the node, the way up from the task is complete.
* `Bunch.OpensAgain`: the second swim gets past a node.
* `Bunch.AdvancesTwice`: the repeat of the node advances twice.

## Main results

* `Passed.advances_again_iff`: what the second swim advances.
* `complete_stepped`: the repeats after `Task.complete`, whether it returns or raises. That a report
  advances each repeat at most once exactly when no repeat advances twice in the sense above is read
  off it in `Takler.Server.StatusOutcome`.
-/

namespace Takler

open Program

/-- Among suffixes of one list, a shortest one is a suffix of the others. -/
private theorem exists_shortest_suffix {α : Type} {P : List α → Prop} {p q : List α}
    (hP : ∀ a, P a → a <:+ p) (hq : P q) : ∃ m, P m ∧ ∀ a, P a → m <:+ a := by
  obtain ⟨m, hm, hmin⟩ := WellFounded.has_min (measure (List.length (α := α))).wf {a | P a} ⟨q, hq⟩
  refine ⟨m, hm, fun a ha => List.suffix_of_suffix_length_le (hP m hm) (hP a ha) ?_⟩
  exact Nat.le_of_not_lt (hmin a ha)

namespace Bunch

/-! ### The way up, node by node -/

section Way

variable {b : Bunch} {φ : NodePath → Glance} {looks : NodePath → Prop}

/-- A completion reaches a node exactly when every node below it on the way opens. -/
theorem climbs_iff_forall {q : NodePath} : ∀ {p : NodePath}, b.Climbs φ looks p q ↔
    q <:+ p ∧ ∀ n l, n :: l <:+ p → q <:+ l → b.Opens φ looks (n :: l)
  | [] => by
    refine ⟨fun h => ⟨h.suffix, fun n l hs => by simp at hs⟩, fun h => ?_⟩
    rw [List.suffix_nil.mp h.1]
    exact .start
  | m :: up => by
    rw [climbs_cons, climbs_iff_forall]
    constructor
    · rintro (rfl | ⟨hopen, hq, hall⟩)
      · refine ⟨List.suffix_rfl, fun n l hs hq => ?_⟩
        have := hs.length_le.trans hq.length_le
        simp at this
      · refine ⟨hq.trans (List.suffix_cons m up), fun n l hs hl => ?_⟩
        rcases List.suffix_cons_iff.mp hs with heq | hs
        · rwa [heq]
        · exact hall n l hs hl
    · rintro ⟨hq, hall⟩
      rcases List.suffix_cons_iff.mp hq with rfl | hq
      · exact .inl rfl
      · exact .inr ⟨hall m up List.suffix_rfl hq, hq,
          fun n l hs hl => hall n l (hs.trans (List.suffix_cons m up)) hl⟩

theorem Climbs.lower {p q a : NodePath} (h : b.Climbs φ looks p q) (ha : a <:+ p) (hq : q <:+ a) :
    b.Climbs φ looks p a :=
  climbs_iff_forall.mpr ⟨ha, fun n l hs hl => (climbs_iff_forall.mp h).2 n l hs (hq.trans hl)⟩

theorem siblingsComplete_iff {n : String} {l : NodePath} {v : Tree} (hv : b.node? l = some v) :
    b.SiblingsComplete φ (n :: l) ↔
      ∀ c ∈ v.children, c.name ≠ n → (φ (c.name :: l)).status ≤ .complete := by
  cases l with
  | nil => cases hv
  | cons m up => simp [SiblingsComplete, hv]

/-- The ancestors of a node are nodes. -/
theorem exists_node?_of_suffix {a : NodePath} (ha : a ≠ []) : ∀ {p : NodePath} {t : Tree},
    b.node? p = some t → a <:+ p → ∃ v, b.node? a = some v
  | [], _, hp, _ => by cases hp
  | [n], t, hp, hs => by
    rcases List.suffix_cons_iff.mp hs with rfl | hs
    · exact ⟨t, hp⟩
    · exact absurd (List.suffix_nil.mp hs) ha
  | n :: m :: up, t, hp, hs => by
    rcases List.suffix_cons_iff.mp hs with rfl | hs
    · exact ⟨t, hp⟩
    · obtain ⟨v, hv, -⟩ := parent_of_node? hp
      exact exists_node?_of_suffix ha hv hs

end Way

/-! ### A requeued tree that is complete at once -/

variable (b : Bunch) (φ : NodePath → Glance) (p : NodePath)

/-- After a requeue of the node, the nodes on the way up from `p` to it are complete: a node of the
way is complete by default, and so are the siblings of the way above that node. -/
inductive RestartsComplete : NodePath → Prop
  | byDefault {q : NodePath} {t : Tree} : q <:+ p → b.node? q = some t →
      t.defn.defaultNodeStatus = .complete → RestartsComplete q
  | byChild {n : String} {q : NodePath} {t : Tree} : RestartsComplete (n :: q) →
      b.node? q = some t →
      (∀ c ∈ t.children, c.name ≠ n → c.defn.defaultNodeStatus = .complete) → RestartsComplete q

/-- The task at `p` and the siblings of the way up from it to the node are complete. -/
def WayComplete (q : NodePath) : Prop :=
  (φ p).status ≤ .complete ∧ ∀ n l, n :: l <:+ p → q <:+ l → b.SiblingsComplete φ (n :: l)

variable {b φ p}

theorem RestartsComplete.suffix {q : NodePath} (h : b.RestartsComplete p q) : q <:+ p := by
  induction h with
  | byDefault hs => exact hs
  | byChild _ _ _ ih => exact (List.suffix_cons _ _).trans ih

/-- A requeue of a tree around the node completes the way. -/
theorem RestartsComplete.completedByDefault {q m : NodePath} {v : Tree}
    (h : b.RestartsComplete p q) (hm : b.node? m = some v) (hmq : m <:+ q) :
    v.CompletedByDefault m p ∧ ∀ n l u, n :: l <:+ p → q <:+ l → b.node? l = some u →
      ∀ c ∈ u.children, c.name ≠ n → v.CompletedByDefault m (c.name :: l) := by
  induction h with
  | @byDefault q t hs hb hdefault =>
    have hmem := Bunch.mem_walk_of_suffix hm hb hmq
    exact ⟨⟨_, hmem, hs, hdefault⟩, fun n l u _ hl _ c _ _ =>
      ⟨_, hmem, hl.trans (List.suffix_cons _ _), hdefault⟩⟩
  | @byChild n₀ q t h hb hsiblings ih =>
    obtain ⟨hself, hway⟩ := ih (hmq.trans (List.suffix_cons n₀ q))
    refine ⟨hself, fun n l u hs hl hu c hc hcn => ?_⟩
    have hlp : l <:+ p := (List.suffix_cons n l).trans hs
    by_cases hlen : (n₀ :: q).length ≤ l.length
    · exact hway n l u hs (List.suffix_of_suffix_length_le h.suffix hlp hlen) hu c hc hcn
    · -- the sibling is a child of the node itself
      have hlq : q = l := hl.eq_of_length_le (by simp only [List.length_cons] at hlen; omega)
      subst hlq
      rw [hb, Option.some_inj] at hu
      subst hu
      have hn : n₀ :: q = n :: q :=
        (List.suffix_of_suffix_length_le h.suffix hs le_rfl).eq_of_length rfl
      have hdefault := hsiblings c hc (by rwa [(List.cons.inj hn).1])
      exact ⟨_, Bunch.mem_walk_of_suffix hm (Bunch.node?_child hb hc)
        (hmq.trans (List.suffix_cons _ _)), List.suffix_rfl, hdefault⟩

/-- Conversely for the requeue of the node itself. -/
theorem restartsComplete_of_completedByDefault {q : NodePath} {t v : Tree}
    (hp : b.node? p = some t) (hq : b.node? q = some v) (hself : v.CompletedByDefault q p)
    (hway : ∀ n l u, n :: l <:+ p → q <:+ l → b.node? l = some u →
      ∀ c ∈ u.children, c.name ≠ n → v.CompletedByDefault q (c.name :: l)) :
    b.RestartsComplete p q := by
  -- the node of the way that is complete by default and closest to `q`
  obtain ⟨y, hy, hyp, hdefault⟩ := hself
  obtain ⟨m, ⟨w, hw, hmp, hwdefault⟩, hmin⟩ := exists_shortest_suffix
    (P := fun a => ∃ w, (a, w) ∈ v.walk q ∧ a <:+ p ∧ w.defn.defaultNodeStatus = .complete)
    (p := p) (fun a ha => ha.choose_spec.2.1) ⟨y.2, hy, hyp, hdefault⟩
  have hup : ∀ e, e <:+ m → b.RestartsComplete p e → q <:+ e → b.RestartsComplete p q := by
    intro e
    induction e with
    | nil =>
      intro _ he hqe
      rwa [List.suffix_nil.mp hqe]
    | cons n l ih =>
      intro hem he hqe
      rcases List.suffix_cons_iff.mp hqe with rfl | hql
      · exact he
      have hne : l ≠ [] := by
        rintro rfl
        exact ne_nil_of_node? hq (List.suffix_nil.mp hql)
      obtain ⟨u, hu⟩ := exists_node?_of_suffix hne hp ((List.suffix_cons n l).trans he.suffix)
      refine ih ((List.suffix_cons n l).trans hem) (.byChild he hu fun c hc hcn => ?_) hql
      obtain ⟨z, hz, hzc, hzdefault⟩ := hway n l u he.suffix hql hu c hc hcn
      rcases List.suffix_cons_iff.mp hzc with heq | hzl
      · have hnode := Bunch.node?_of_mem_walk hq hz
        rw [heq, Bunch.node?_child hu hc, Option.some_inj] at hnode
        exact hnode ▸ hzdefault
      · have hmz := hmin z.1 ⟨z.2, hz, hzl.trans ((List.suffix_cons n l).trans he.suffix),
          hzdefault⟩
        have := hem.length_le.trans (hmz.length_le.trans hzl.length_le)
        simp at this
  exact hup m List.suffix_rfl
    (.byDefault hmp (Bunch.node?_of_mem_walk hq hw) hwdefault) (Tree.suffix_of_mem_walk hw)

/-- A node that completes again completes the way from a task below it. -/
theorem CompletesAgain.restartsComplete {q : NodePath} {t : Tree} (h : b.CompletesAgain q)
    (hp : b.node? p = some t) (ht : t.isTask = true) (hqp : q <:+ p) :
    b.RestartsComplete p q := by
  obtain ⟨v, hv, hdefault | ⟨hne, hall⟩⟩ := h
  · exact .byDefault hqp hv hdefault
  have hchild : ∃ n, n :: q <:+ p := by
    obtain ⟨l, rfl⟩ := hqp
    rcases List.eq_nil_or_concat l with rfl | ⟨l, n, rfl⟩
    · rw [List.nil_append, hv, Option.some_inj] at hp
      exact absurd ((Bunch.wf_of_node? hv).children_of_isTask (hp ▸ ht)) hne
    · exact ⟨n, l, by simp⟩
  obtain ⟨n, hn⟩ := hchild
  obtain ⟨c, hc⟩ := exists_node?_of_suffix (by simp) hp hn
  have hmem : c ∈ v.children := by
    cases q with
    | nil => cases hv
    | cons m up =>
      obtain ⟨w, hw, hmem, -⟩ := Bunch.parent_of_node? hc
      rw [hv, Option.some_inj] at hw
      exact hw ▸ hmem
  exact .byChild (.byDefault hn hc (hall c hmem)) hv fun d hd _ => hall d hd

/-- The tree at the node is as its requeue left it. -/
def Fresh (b : Bunch) (ψ : NodePath → Glance) (m : NodePath) : Prop :=
  ∀ t, b.node? m = some t → ∀ x ∈ t.walk m, (x.1 = m → x.2.isTask = true) →
    t.Restarts m x.1 (ψ x.1).status ∧ (x.2.isTask = true → (ψ x.1).stuck = false)

/-- In a requeued tree the way is complete when the default statuses make it so. -/
theorem Fresh.wayComplete_iff {q m : NodePath} {t v : Tree} (h : b.Fresh φ m)
    (hp : b.node? p = some t) (ht : t.isTask = true) (hm : b.node? m = some v) (hmq : m <:+ q)
    (hqp : q <:+ p) (hq : m = q ∨ b.CompletesAgain q) :
    b.WayComplete φ p q ↔ b.RestartsComplete p q := by
  have hne : q ≠ [] := by
    rintro rfl
    exact ne_nil_of_node? hm (List.suffix_nil.mp hmq)
  have htask := (h v hm _ (mem_walk_of_suffix hm hp (hmq.trans hqp)) fun _ => ht).1.le_complete_iff
  have hway {l : NodePath} {u c : Tree} (hl : q <:+ l) (hu : b.node? l = some u)
      (hc : c ∈ u.children) :
      (φ (c.name :: l)).status ≤ .complete ↔ v.CompletedByDefault m (c.name :: l) := by
    have hml := hmq.trans hl
    refine (h v hm _ (mem_walk_of_suffix hm (node?_child hu hc)
      (hml.trans (List.suffix_cons _ _))) fun heq => ?_).1.le_complete_iff
    have heq : c.name :: l = m := heq
    rw [← heq] at hml
    simpa using hml.length_le
  have hiff : b.WayComplete φ p q ↔ v.CompletedByDefault m p ∧ ∀ n l u, n :: l <:+ p → q <:+ l →
      b.node? l = some u → ∀ c ∈ u.children, c.name ≠ n → v.CompletedByDefault m (c.name :: l) := by
    refine and_congr htask ⟨fun hall n l u hs hl hu c hc hcn => ?_, fun hall n l hs hl => ?_⟩
    · exact (hway hl hu hc).mp ((siblingsComplete_iff hu).mp (hall n l hs hl) c hc hcn)
    · have hlne : l ≠ [] := by
        rintro rfl
        exact hne (List.suffix_nil.mp hl)
      obtain ⟨u, hu⟩ := exists_node?_of_suffix hlne hp ((List.suffix_cons n l).trans hs)
      exact (siblingsComplete_iff hu).mpr fun c hc hcn =>
        (hway hl hu hc).mpr (hall n l u hs hl hu c hc hcn)
  rw [hiff]
  refine ⟨fun hall => ?_, fun hr => hr.completedByDefault hm hmq⟩
  rcases hq with rfl | hagain
  · exact restartsComplete_of_completedByDefault hp hm hall.1 hall.2
  · exact hagain.restartsComplete hp ht hqp

/-- A requeued tree has no unknown submission, and no path that the index cannot forget. -/
theorem Fresh.not_unsettled {m a : NodePath} {v : Tree} (h : b.Fresh φ m)
    (hm : b.node? m = some v) (hma : m <:+ a) : ¬ b.Unsettled φ a := by
  rintro ⟨t, ha, x, hx, hxt, hstuck⟩
  have hmem := mem_walk_of_suffix hm (node?_of_mem_walk ha hx)
    (hma.trans (Tree.suffix_of_mem_walk hx))
  rw [(h v hm x hmem fun _ => hxt).2 hxt] at hstuck
  cases hstuck

/-! ### The second swim -/

/-- The second swim gets past a node that the first swim got past: the value that a repeat has then
is followed by a date, and the parent of the task, when it was passed over the first time and is
looked at now, completes again. -/
def OpensAgain (b : Bunch) (φ : NodePath → Glance) (p a : NodePath) : Prop :=
  (b.Advances φ (b.LooksFrom φ p) p a → ¬ b.Overruns φ 2 a) ∧
    (¬ b.LooksFrom φ p a → ¬ b.HasNext φ 2 p →
      ¬ b.Overruns φ 1 a ∧ (b.HasNext φ 1 a → b.CompletesAgain a))

end Bunch

variable {b : Bunch} {φ ψ χ : NodePath → Glance} {looks : NodePath → Prop} {p q : NodePath}

namespace Moved

theorem hasNext_of_advances (h : Moved b looks p φ ψ) (ha : b.Advances φ looks p q) (k : ℕ) :
    b.HasNext ψ k q ↔ b.HasNext φ (k + 1) q := by
  refine exists_congr fun r => and_congr_right fun hr => ?_
  rw [h.next q r ha hr, Nat.succ_mul]
  constructor <;> intro <;> omega

theorem overruns_of_advances (h : Moved b looks p φ ψ) (ha : b.Advances φ looks p q) (k : ℕ) :
    b.Overruns ψ k q ↔ b.Overruns φ (k + 1) q := by
  refine exists_congr fun r => and_congr_right fun hr => ?_
  rw [h.next q r ha hr, Nat.succ_mul]
  constructor <;> intro <;> omega

theorem hasNext_of_not (h : Moved b looks p φ ψ) (ha : ¬ b.Advances φ looks p q) (k : ℕ) :
    b.HasNext ψ k q ↔ b.HasNext φ k q := by
  unfold Bunch.HasNext
  rw [h.same q ha]

theorem overruns_of_not (h : Moved b looks p φ ψ) (ha : ¬ b.Advances φ looks p q) (k : ℕ) :
    b.Overruns ψ k q ↔ b.Overruns φ k q := by
  unfold Bunch.Overruns
  rw [h.same q ha]

end Moved

theorem Bunch.looksFrom_self {t : Tree} (hp : b.node? p = some t) : b.LooksFrom φ p p := by
  intro heq
  cases p with
  | nil => cases hp
  | cons n up => simp at heq

namespace Passed

variable {t : Tree}

/-- The highest repeat that advances leaves its tree requeued. -/
theorem exists_fresh (h : Passed b looks p φ ψ) (hq : b.Advances φ looks p q) :
    ∃ m v, b.node? m = some v ∧ b.Fresh ψ m ∧ m <:+ q ∧ (m = q ∨ b.CompletesAgain q) := by
  obtain ⟨m, hm, htop⟩ := exists_shortest_suffix (fun a ha => ha.1.suffix) hq
  have hnode : ∃ v, b.node? m = some v := by
    obtain ⟨r, hr, -⟩ := hm.2.2
    obtain ⟨v, hv, -⟩ := Option.bind_eq_some_iff.mp hr
    exact ⟨v, hv⟩
  obtain ⟨v, hv⟩ := hnode
  refine ⟨m, v, hv, fun v hv => h.fresh m v hm htop hv, htop q hq, ?_⟩
  cases q with
  | nil => exact .inl (List.suffix_nil.mp (htop [] hq))
  | cons n l =>
    rcases List.suffix_cons_iff.mp (htop _ hq) with heq | hml
    · exact .inl heq
    · have hopen := (Bunch.climbs_iff_forall.mp hm.1).2 n l hq.1.suffix hml
      exact .inr ((hopen.2 hq.2.1).2 hq.2.2).1

/-- What the second swim finds at a node below a repeat that has advanced. -/
theorem opens_again_iff (h : Passed b (b.LooksFrom φ p) p φ ψ) (hp : b.node? p = some t)
    {n : String} {l : NodePath} (hopen : b.Opens φ (b.LooksFrom φ p) (n :: l))
    (hclimbs : b.Climbs φ (b.LooksFrom φ p) p (n :: l)) (hsettled : ¬ b.Unsettled ψ (n :: l)) :
    b.Opens ψ (b.LooksFrom ψ p) (n :: l) ↔
      b.SiblingsComplete ψ (n :: l) ∧ b.OpensAgain φ p (n :: l) := by
  refine and_congr_right fun _ => ?_
  by_cases hadv : b.Advances φ (b.LooksFrom φ p) p (n :: l)
  · -- the repeat has advanced, and its node completed again
    have hagain := ((hopen.2 hadv.2.1).2 hadv.2.2).1
    have hlooks : b.LooksFrom ψ p (n :: l) := fun heq hnext => by
      have hlast := hadv.2.1 heq
      have hself : ¬ b.Advances φ (b.LooksFrom φ p) p p := fun ha => hlast ha.2.2
      exact hlast ((h.hasNext_of_not hself 1).mp hnext)
    rw [h.overruns_of_advances hadv, Bunch.OpensAgain]
    constructor
    · exact fun ho => ⟨fun _ => (ho hlooks).1, fun hl => absurd hadv.2.1 hl⟩
    · exact fun ho _ => ⟨ho.1 hadv, fun _ => ⟨hagain, hsettled⟩⟩
  · rw [h.overruns_of_not hadv, h.hasNext_of_not hadv, Bunch.OpensAgain]
    by_cases hl : b.LooksFrom φ p (n :: l)
    · -- the repeat was at its last value
      have hlast : ¬ b.HasNext φ 1 (n :: l) := fun hn => hadv ⟨hclimbs, hl, hn⟩
      exact iff_of_true (fun _ => ⟨(hopen.2 hl).1, fun hn => absurd hn hlast⟩)
        ⟨fun ha => absurd ha hadv, fun hn => absurd hl hn⟩
    · -- the parent of the task was passed over
      obtain ⟨heq, hnext⟩ := Classical.not_imp.mp hl
      rw [not_not] at hnext
      have hself : b.Advances φ (b.LooksFrom φ p) p p := ⟨.start, Bunch.looksFrom_self hp, hnext⟩
      have hlooks : b.LooksFrom ψ p (n :: l) ↔ ¬ b.HasNext φ 2 p := by
        rw [Bunch.LooksFrom, h.hasNext_of_advances hself]
        exact ⟨fun himp => himp heq, fun himp _ => himp⟩
      rw [hlooks]
      constructor
      · exact fun ho => ⟨fun ha => absurd ha hadv, fun _ hn =>
          ⟨(ho hn).1, fun hnx => ((ho hn).2 hnx).1⟩⟩
      · exact fun ho hn => ⟨(ho.2 hl hn).1, fun hnx => ⟨(ho.2 hl hn).2 hnx, hsettled⟩⟩

/-- **What the second swim advances** among the repeats that have advanced. -/
theorem advances_again_iff (h : Passed b (b.LooksFrom φ p) p φ ψ) (hp : b.node? p = some t)
    (ht : t.isTask = true) (hq : b.Advances φ (b.LooksFrom φ p) p q) :
    ((ψ p).status ≤ .complete ∧ b.Advances ψ (b.LooksFrom ψ p) p q) ↔
      b.HasNext φ 2 q ∧ b.RestartsComplete p q ∧
        ∀ n l, n :: l <:+ p → q <:+ l → b.OpensAgain φ p (n :: l) := by
  obtain ⟨m, v, hm, hfresh, hmq, hagain⟩ := h.exists_fresh hq
  have hlooks : b.LooksFrom ψ p q := fun heq hnext => by
    have hlast := hq.2.1 heq
    have hself : ¬ b.Advances φ (b.LooksFrom φ p) p p := fun ha => hlast ha.2.2
    exact hlast ((h.hasNext_of_not hself 1).mp hnext)
  have hopens (n : String) (l : NodePath) (hs : n :: l <:+ p) (hl : q <:+ l) :
      b.Opens ψ (b.LooksFrom ψ p) (n :: l) ↔
        b.SiblingsComplete ψ (n :: l) ∧ b.OpensAgain φ p (n :: l) := by
    have hqa : q <:+ n :: l := hl.trans (List.suffix_cons n l)
    exact h.opens_again_iff hp ((Bunch.climbs_iff_forall.mp hq.1).2 n l hs hl)
      (hq.1.lower hs hqa) (hfresh.not_unsettled hm (hmq.trans hqa))
  rw [← hfresh.wayComplete_iff hp ht hm hmq hq.1.suffix hagain, Bunch.Advances,
    h.hasNext_of_advances hq, Bunch.climbs_iff_forall, Bunch.WayComplete]
  constructor
  · rintro ⟨hstatus, ⟨-, hall⟩, -, hnext⟩
    refine ⟨hnext, ⟨hstatus, fun n l hs hl => ?_⟩, fun n l hs hl => ?_⟩
    · exact ((hopens n l hs hl).mp (hall n l hs hl)).1
    · exact ((hopens n l hs hl).mp (hall n l hs hl)).2
  · rintro ⟨hnext, ⟨hstatus, hway⟩, hall⟩
    exact ⟨hstatus, ⟨hq.1.suffix, fun n l hs hl => (hopens n l hs hl).mpr
      ⟨hway n l hs hl, hall n l hs hl⟩⟩, hlooks, hnext⟩

end Passed

/-! ### The report of a completion -/

namespace Bunch

/-- What the completion of the task at `p` shows when it starts to swim up. -/
def reported (φ : NodePath → Glance) (p : NodePath) : NodePath → Glance :=
  Function.update φ p { φ p with status := .complete, unknown := false }

/-- The repeat advances in both swims, from a state that shows `φ`. -/
structure AdvancesTwice (b : Bunch) (φ : NodePath → Glance) (p q : NodePath) : Prop where
  /-- The completion reaches the repeat. -/
  advances : b.Advances (reported φ p) (b.LooksFrom (reported φ p) p) p q
  /-- Nothing on the way raises. -/
  quiet : ∀ a, b.Climbs (reported φ p) (b.LooksFrom (reported φ p) p) p a →
    b.LooksFrom (reported φ p) p a → ¬ b.Overruns (reported φ p) 1 a ∧
      (b.HasNext (reported φ p) 1 a → ¬ b.Unsettled (reported φ p) a)
  /-- The repeat has two more values. -/
  next : b.HasNext (reported φ p) 2 q
  /-- The requeued tree is complete at once. -/
  restarts : b.RestartsComplete p q
  /-- The second swim gets up to the repeat. -/
  opens : ∀ n l, n :: l <:+ p → q <:+ l → b.OpensAgain (reported φ p) p (n :: l)

end Bunch

/-- The repeats after the report. -/
def Stepped (b : Bunch) (φ : NodePath → Glance) (p : NodePath) (χ : NodePath → Glance) : Prop :=
  ∀ q r, b.repeatDate? q = some r →
    (b.AdvancesTwice φ p q → (χ q).repeatValue = (φ q).repeatValue + 2 * r.step) ∧
    (¬ b.AdvancesTwice φ p q → (χ q).repeatValue = (φ q).repeatValue ∨
      (χ q).repeatValue = (φ q).repeatValue + r.step)

theorem Bunch.reported_repeatValue (φ : NodePath → Glance) (p q : NodePath) :
    (Bunch.reported φ p q).repeatValue = (φ q).repeatValue := by
  by_cases hq : q = p
  · subst hq
    simp [Bunch.reported]
  · simp [Bunch.reported, hq]

/-- One step of a repeat. -/
theorem Moved.step (h : Moved b looks p φ ψ) {r : RepeatDate} (hr : b.repeatDate? q = some r) :
    (ψ q).repeatValue = (φ q).repeatValue ∨ (ψ q).repeatValue = (φ q).repeatValue + r.step := by
  by_cases ha : b.Advances φ looks p q
  · exact .inr (h.next q r ha hr)
  · exact .inl (h.same q ha)

/-- The first swim raises: no repeat advances twice. -/
theorem Stepped.of_failed
    (h : Failed b (b.LooksFrom (Bunch.reported φ p) p) p (Bunch.reported φ p) χ) :
    Stepped b φ p χ := by
  intro q r hr
  refine ⟨fun htwice => ?_, fun _ => ?_⟩
  · obtain ⟨a, hc, hl, hloud⟩ := h.loud
    obtain ⟨hdate, hsettled⟩ := htwice.quiet a hc hl
    rcases hloud with hover | ⟨hnext, hunsettled⟩
    · exact absurd hover hdate
    · exact absurd hunsettled (hsettled hnext)
  · rw [← Bunch.reported_repeatValue φ p q]
    exact h.step hr

/-- The first swim returns, and the second one moves the repeats that it advances. -/
theorem Stepped.of_moved {t : Tree} (hp : b.node? p = some t) (ht : t.isTask = true)
    (h : Passed b (b.LooksFrom (Bunch.reported φ p) p) p (Bunch.reported φ p) ψ)
    (hstatus : (ψ p).status ≤ .complete) (hm : Moved b (b.LooksFrom ψ p) p ψ χ) :
    Stepped b φ p χ := by
  intro q r hr
  rw [← Bunch.reported_repeatValue φ p q]
  refine ⟨fun htwice => ?_, fun hnot => ?_⟩
  · have hagain := (h.advances_again_iff hp ht htwice.advances).mpr
      ⟨htwice.next, htwice.restarts, htwice.opens⟩
    rw [hm.next q r hagain.2 hr, h.next q r htwice.advances hr]
    omega
  · by_cases hq : b.Advances (Bunch.reported φ p) (b.LooksFrom (Bunch.reported φ p) p) p q
    · have hlast : ¬ b.Advances ψ (b.LooksFrom ψ p) p q := fun ha => by
        obtain ⟨hnext, hrestarts, hopens⟩ := (h.advances_again_iff hp ht hq).mp ⟨hstatus, ha⟩
        exact hnot ⟨hq, h.quiet, hnext, hrestarts, hopens⟩
      rw [hm.same q hlast]
      exact h.step hr
    · rw [← h.same q hq]
      exact hm.step hr

/-- The first swim returns, and the second one finds the task queued. -/
theorem Stepped.of_unmoved {t : Tree} (hp : b.node? p = some t) (ht : t.isTask = true)
    (h : Passed b (b.LooksFrom (Bunch.reported φ p) p) p (Bunch.reported φ p) ψ)
    (hstatus : .complete < (ψ p).status) (hu : ∀ q, (χ q).repeatValue = (ψ q).repeatValue) :
    Stepped b φ p χ := by
  intro q r hr
  rw [← Bunch.reported_repeatValue φ p q, hu]
  refine ⟨fun htwice => ?_, fun _ => h.step hr⟩
  have hagain := (h.advances_again_iff hp ht htwice.advances).mpr
    ⟨htwice.next, htwice.restarts, htwice.opens⟩
  exact absurd hagain.1 hstatus.not_ge

section Report

variable {E : Err → State → Prop} {t : Tree}

/-- What shows of a node that was written. -/
private theorem glance_update (s : State) (p : NodePath) (n : NodeState) :
    State.glance { s with node := Function.update s.node p n } = Function.update s.glance p
      ⟨n.status, n.repeatValue, n.task.submissionUnknownReason.isSome,
        n.task.paths.any (s.moved p)⟩ := by
  funext q
  by_cases hq : q = p
  · subst hq
    simp [State.glance]
  · simp [State.glance, hq]

/-- A write of the run identity that does not show. -/
private theorem glance_modifyTask {f : TaskState → TaskState}
    (hf : ∀ k, (f k).submissionUnknownReason = k.submissionUnknownReason ∧ (f k).paths = k.paths) :
    Triple (fun u => u.glance = φ) (modifyTask p f) (fun _ u => u.glance = φ) E := by
  refine Triple.modify ?_
  rintro u rfl
  rw [glance_update, (hf _).1, (hf _).2]
  exact Function.update_eq_self p u.glance

private theorem glance_recordEnd :
    Triple (fun u => u.glance = φ) (recordEnd p) (fun _ u => u.glance = φ) E := by
  refine Triple.bind (Q := fun _ u => u.glance = φ) ?_ fun d => glance_modifyTask fun k => ?_
  · intro u hu
    exact hu
  · split_ifs <;> exact ⟨rfl, rfl⟩

private theorem glance_updateLimits :
    Triple (fun u => u.glance = φ) (updateLimits p) (fun _ u => u.glance = φ) E := by
  refine (effect_updateLimits p).triple ?_
  rintro s _ ⟨marks, rfl⟩ hs
  exact hs

/-- The status of a task whose submission is settled is set to complete. -/
private theorem glance_setNodeStatusOnly (hsettled : (φ p).unknown = false)
    (hstatus : (φ p).status ≠ .complete) :
    Triple (fun u => u.glance = φ) (setNodeStatusOnly p t .complete)
      (fun _ u => u.glance = Function.update φ p { φ p with status := .complete }) E := by
  have hforget : Triple (fun u => u.glance = φ) (forgetSubmission p t.kind)
      (fun _ u => u.glance = φ) E := by
    have htoken : Triple (fun u => u.glance = φ)
        (modifyTask p fun k => { k with submissionToken := none }) (fun _ u => u.glance = φ) E :=
      glance_modifyTask fun _ => ⟨rfl, rfl⟩
    refine Triple.bind (Q := fun _ u => u.glance = φ) (Triple.when (fun _ => htoken)
      fun _ _ hu => hu) fun _ => Triple.get_bind fun u hu => ?_
    refine Triple.when (fun hsome => ?_) fun _ v hv => hv ▸ hu
    have : (u.glance p).unknown = true := hsome
    rw [hu, hsettled] at this
    cases this
  refine Triple.bind (Q := fun _ u => u.glance = φ) (Triple.when (fun _ => hforget)
    fun _ _ hu => hu) fun _ => Triple.get_bind fun u hu => ?_
  refine Triple.ite (fun heq => absurd (hu ▸ heq) hstatus) fun _ => Triple.bind
    (Q := fun _ v => v.glance = Function.update φ p { φ p with status := .complete })
      (Triple.modify ?_) fun _ => Triple.modify fun v hv => hv
  rintro v rfl
  rw [glance_update, ← hu]
  rfl

/-- Setting the status of the reporting task lets the completion swim up for the first time. -/
private theorem setNodeStatus_reported {φ : NodePath → Glance} (hp : b.node? p = some t)
    (ht : t.isTask = true) (hsettled : (φ p).unknown = false)
    (hstatus : (φ p).status.inFlight = true) :
    Triple (fun u => u.glance = φ) (setNodeStatus b p t .complete)
      (fun _ u => Passed b (b.LooksFrom (Bunch.reported φ p) p) p (Bunch.reported φ p) u.glance)
      (fun _ u => Failed b (b.LooksFrom (Bunch.reported φ p) p) p (Bunch.reported φ p)
        u.glance) := by
  have hne : (φ p).status ≠ .complete := fun heq => by
    rw [heq] at hstatus
    cases hstatus
  have hreported : Function.update φ p { φ p with status := .complete } = Bunch.reported φ p := by
    rw [Bunch.reported, ← hsettled]
  refine Triple.get_bind fun u hu => Triple.ite (fun heq => absurd (hu ▸ heq) hne) fun _ => ?_
  refine Triple.bind (Q := fun _ v => v.glance = Bunch.reported φ p) ?_ fun _ =>
    Triple.bind (Q := fun _ v => v.glance = Bunch.reported φ p)
      (Triple.when (fun _ => glance_updateLimits) fun _ _ hv => hv) fun _ =>
        Triple.of_forall fun v hv => ?_
  · rw [← hreported]
    exact (glance_setNodeStatusOnly hsettled hne).pre fun v hv => hv ▸ hu
  · cases p with
    | nil => cases hp
    | cons n up =>
      rw [← hv]
      refine (climber_task hp ht v).1 ?_
      rw [hv, Bunch.reported, Function.update_self]

/-- The completion swims up for the second time. -/
private theorem handleStatusChange_stepped {φ : NodePath → Glance} (hp : b.node? p = some t)
    (ht : t.isTask = true) :
    Triple (fun u => Passed b (b.LooksFrom (Bunch.reported φ p) p) p (Bunch.reported φ p) u.glance)
      (handleStatusChange b p t) (fun _ u => Stepped b φ p u.glance)
      (fun _ u => Stepped b φ p u.glance) := by
  refine Triple.of_forall fun u hu => Triple.bind (Q := fun _ v => v.glance = u.glance)
    (Triple.when (fun _ => glance_updateLimits.pre fun v hv => by rw [hv]) fun _ v hv => by rw [hv])
      fun _ => Triple.of_forall fun v hv => ?_
  rw [← hv] at hu
  have hge : .complete ≤ (v.glance p).status :=
    hu.rise p t hp (by rw [Bunch.reported, Function.update_self])
  cases p with
  | nil => cases hp
  | cons n up =>
    obtain ⟨hcomplete, hqueued⟩ := climber_task hp ht v
    rcases hge.eq_or_lt with heq | hlt
    · exact (hcomplete heq.symm).conseq (fun _ h => h)
        (fun _ w hw => .of_moved hp ht hu heq.ge hw.toMoved)
        fun _ w hw => .of_moved hp ht hu heq.ge hw.toMoved
    · exact (hqueued hlt).conseq (fun _ h => h) (fun _ w hw => .of_unmoved hp ht hu hlt hw.same)
        fun _ _ hf => hf.elim

theorem Bunch.reported_settled (φ : NodePath → Glance) (p : NodePath) :
    Bunch.reported (Function.update φ p { φ p with unknown := false }) p = Bunch.reported φ p := by
  simp [Bunch.reported]

/-- **The repeats after a report of a task in flight**, whether the report returns or raises. -/
theorem complete_stepped {s : State} (hp : b.node? p = some t) (ht : t.isTask = true)
    (hflight : (s.node p).status.inFlight = true) :
    Triple (· = s) (Task.complete b p t) (fun _ u => Stepped b s.glance p u.glance)
      (fun _ u => Stepped b s.glance p u.glance) := by
  let φ := Function.update s.glance p { s.glance p with unknown := false }
  have hself : φ p = { s.glance p with unknown := false } := Function.update_self ..
  have hreported : Bunch.reported φ p = Bunch.reported s.glance p :=
    Bunch.reported_settled s.glance p
  refine Triple.bind (Q := fun _ u => u.glance = φ) (Triple.modify ?_) fun _ =>
    Triple.bind (Q := fun _ u => u.glance = φ) (Triple.modify fun _ hu => hu) fun _ =>
    Triple.bind (Q := fun _ u => u.glance = φ) glance_recordEnd fun _ =>
    Triple.bind (Q := fun _ u => Passed b (b.LooksFrom (Bunch.reported s.glance p) p) p
      (Bunch.reported s.glance p) u.glance) ?_ fun _ => handleStatusChange_stepped hp ht
  · rintro s rfl
    rw [glance_update]
    rfl
  · have hset := setNodeStatus_reported (φ := φ) hp ht (by rw [hself]) (by rwa [hself])
    rw [hreported] at hset
    exact hset.conseq (fun _ h => h) (fun _ _ h => h) fun _ _ hf => .of_failed hf

end Report

end Takler
