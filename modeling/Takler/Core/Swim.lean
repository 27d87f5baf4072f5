import Takler.Core.Climb

/-!
# Swimming up

A status change swims up from a node: the node takes its computed status, and when that is
complete its repeat is looked at. What this does to the repeats and to the statuses of the tree is
the way up of `Climbs`.

## Main definitions

* `Advanced`: a repeat has advanced and its tree was requeued.
* `Bunch.LooksFrom`: the nodes that the completion of a task looks at.

## Main results

* `advanceRepeat_glance`: what becomes of a repeat that is looked at.
* `climber_swim`, `climber_only`: a swim from a container.
* `climber_task`: a swim from a task.
-/

namespace Takler

open Program

variable {b : Bunch} {looks : NodePath → Prop} {φ ψ χ : NodePath → Glance}

/-! ### Visiting a node -/

/-- A repeat has advanced and its tree was requeued. -/
structure Advanced (b : Bunch) (q : NodePath) (t : Tree) (φ ψ : NodePath → Glance) : Prop where
  next : ∀ r, b.repeatDate? q = some r → (ψ q).repeatValue = (φ q).repeatValue + r.step
  value : ∀ a, a ≠ q → (ψ a).repeatValue = (φ a).repeatValue
  outside : ∀ x, ¬ q <:+ x → ψ x = φ x
  restarts : ∀ x ∈ t.walk q, t.Restarts q x.1 (ψ x.1).status
  settled : ∀ x ∈ t.walk q, x.2.isTask = true → (ψ x.1).stuck = false

theorem State.stuck_iff (s : State) (x : NodePath × Tree) :
    s.Stuck x ↔ x.2.isTask = true ∧ (s.glance x.1).stuck = true := by
  simp [State.Stuck, State.IsMoved, State.glance, Glance.stuck, Option.isSome_iff_ne_none]

variable {q : NodePath} {t : Tree}

theorem Bunch.not_unsettled_iff {s : State} (hb : b.node? q = some t) :
    ¬ b.Unsettled s.glance q ↔ ∀ x ∈ t.walk q, ¬ s.Stuck x := by
  simp only [Bunch.Unsettled, hb, Option.some_inj, exists_eq_left', State.stuck_iff, not_exists,
    not_and]

/-- The requeue of a tree whose repeat has just advanced. -/
private theorem requeue_advanced (hb : b.node? q = some t) {r : RepeatDate}
    (hr : b.repeatDate? q = some r) {s u : State}
    (hu : ∀ a, u.glance a = if a = q then { s.glance q with
      repeatValue := (s.glance q).repeatValue + r.step } else s.glance a) :
    Triple (· = u) (requeue q t false)
      (fun _ w => ¬ b.Unsettled s.glance q ∧ Advanced b q t s.glance w.glance)
      (fun _ w => b.Unsettled s.glance q ∧ ∀ a, (w.glance a).repeatValue = (u.glance a).repeatValue) := by
  have hstuck (x : NodePath × Tree) : u.Stuck x ↔ s.Stuck x := by
    rw [State.stuck_iff, State.stuck_iff, hu]
    split_ifs with hx
    · rw [hx]
      rfl
    · rfl
  by_cases hsettled : b.Unsettled s.glance q
  · -- the requeue does not return, and leaves the repeats alone
    refine ((requeue_returns false hb u).and ((below_requeue q t false).triple u)).conseq
      (fun _ h => ⟨h, h⟩) (fun _ w hw => absurd hsettled ?_) fun _ w hw =>
        ⟨hsettled, fun a => hw.2.repeatValue a rfl⟩
    exact (Bunch.not_unsettled_iff hb).mpr fun x hx hs => hw.1 x hx ((hstuck x).mpr hs)
  · have hnone : ∀ x ∈ t.walk q, ¬ u.Stuck x := fun x hx hs =>
      (Bunch.not_unsettled_iff hb).mp hsettled x hx ((hstuck x).mp hs)
    refine ((requeue_spec hb false hnone).and ((below_requeue q t false).triple u)).conseq
      (fun _ h => ⟨h, h⟩) ?_ fun _ _ hf => hf.1.elim
    rintro _ w ⟨hrequeued, hbelow⟩
    have hvalue (a : NodePath) : (w.glance a).repeatValue = (u.glance a).repeatValue :=
      hbelow.repeatValue a rfl
    refine ⟨hsettled, fun r' hr' => ?_, fun a ha => ?_, fun x hx => ?_, hrequeued.restarts,
      fun x hx hxt => ?_⟩
    · rw [hr, Option.some_inj] at hr'
      rw [hvalue, hu, if_pos rfl, ← hr']
    · rw [hvalue, hu, if_neg ha]
    · have hxq : x ≠ q := by
        rintro rfl
        exact hx List.suffix_rfl
      have hout : (Scope.below q false).touched x = false := by simpa [Scope.below] using hx
      have hwu : w.glance x = u.glance x := by
        simp only [State.glance, hbelow.status hout, hbelow.task hout, hbelow.moved x hout,
          hbelow.repeatValue x rfl]
      rw [hwu, hu, if_neg hxq]
    · have := hrequeued.toChangedAt.not_stuck (hnone x hx)
      rw [State.stuck_iff, not_and, Bool.not_eq_true] at this
      exact this hxt

/-- What becomes of a repeat that is looked at. -/
theorem advanceRepeat_glance (hb : b.node? q = some t) (s : State) :
    Triple (· = s) (advanceRepeat q t)
      (fun advanced u => if advanced = true
        then b.HasNext s.glance 1 q ∧ ¬ b.Unsettled s.glance q ∧ Advanced b q t s.glance u.glance
        else ¬ b.HasNext s.glance 1 q ∧ ¬ b.Overruns s.glance 1 q ∧ u.glance = s.glance)
      (fun _ u => (∀ a, a ≠ q → (u.glance a).repeatValue = (s.glance a).repeatValue) ∧
        ((b.Overruns s.glance 1 q ∧ (u.glance q).repeatValue = (s.glance q).repeatValue) ∨
          (b.HasNext s.glance 1 q ∧ b.Unsettled s.glance q ∧ ∀ r, b.repeatDate? q = some r →
            (u.glance q).repeatValue = (s.glance q).repeatValue + r.step))) := by
  have hrepeat := Bunch.repeatDate?_eq hb
  unfold advanceRepeat
  split
  · rename_i hnone
    rw [hnone] at hrepeat
    refine Triple.pure ?_
    rintro _ rfl
    rw [if_neg Bool.false_ne_true]
    exact ⟨by simp [Bunch.HasNext, hrepeat], by simp [Bunch.Overruns, hrepeat], rfl⟩
  rename_i r hr
  rw [hr] at hrepeat
  have hadvance : Triple (· = s) (r.advance q)
      (fun advanced u => if advanced = true
        then b.HasNext s.glance 1 q ∧ ∀ a, u.glance a = if a = q then { s.glance q with
          repeatValue := (s.glance q).repeatValue + r.step } else s.glance a
        else ¬ b.HasNext s.glance 1 q ∧ ¬ b.Overruns s.glance 1 q ∧ u.glance = s.glance)
      (fun _ u => b.Overruns s.glance 1 q ∧ u.glance = s.glance) := by
    refine Triple.get_bind ?_
    rintro s rfl
    refine Triple.ite (fun hover => Triple.throw ?_) fun hover => Triple.ite (fun hle => ?_)
      fun hgt => Triple.pure ?_
    · rintro _ rfl
      exact ⟨⟨r, hrepeat, by rw [one_mul]; exact hover⟩, rfl⟩
    · refine Triple.bind (Q := fun _ u => ∀ a, u.glance a = if a = q then { s.glance q with
        repeatValue := (s.glance q).repeatValue + r.step } else s.glance a) (Triple.modify ?_)
          fun _ => Triple.pure fun u hu => ?_
      · rintro s rfl a
        by_cases ha : a = q
        · subst ha
          simp [State.glance]
        · simp [State.glance, ha]
      · rw [if_pos rfl]
        exact ⟨⟨r, hrepeat, by rw [one_mul]; exact hle⟩, hu⟩
    · rintro _ rfl
      rw [if_neg Bool.false_ne_true]
      refine ⟨?_, ?_, rfl⟩
      · rintro ⟨r', hr', hle⟩
        rw [hrepeat, Option.some_inj] at hr'
        rw [← hr', one_mul] at hle
        exact hgt hle
      · rintro ⟨r', hr', hlt⟩
        rw [hrepeat, Option.some_inj] at hr'
        rw [← hr', one_mul] at hlt
        exact hover hlt
  refine (hadvance.conseq (fun _ h => h) (fun _ _ h => h) fun _ u hu => ?_).bind fun advanced => ?_
  · rw [hu.2]
    exact ⟨fun _ _ => rfl, .inl ⟨hu.1, rfl⟩⟩
  cases advanced with
  | false =>
    refine Triple.pure fun u hu => ?_
    rwa [if_neg Bool.false_ne_true] at hu ⊢
  | true =>
    refine Triple.of_forall fun u hu => ?_
    rw [if_pos rfl] at hu
    obtain ⟨hnext, hu⟩ := hu
    refine Triple.bind (Q := fun _ w => w.glance = u.glance) (Triple.modify ?_) fun _ =>
      Triple.of_forall fun w hw => ?_
    · rintro _ rfl
      rfl
    refine ((requeue_advanced hb hrepeat (s := s) fun a => by rw [hw, hu]).conseq (fun _ h => h)
      (fun _ _ h => h) ?_).bind fun _ => Triple.pure fun v hv => ?_
    · rintro _ v ⟨hunsettled, hvalue⟩
      refine ⟨fun a ha => ?_, .inr ⟨hnext, hunsettled, fun r' hr' => ?_⟩⟩
      · rw [hvalue, hw, hu, if_neg ha]
      · rw [hrepeat, Option.some_inj] at hr'
        rw [hvalue, hw, hu, if_pos rfl, ← hr']
    · rw [if_pos rfl]
      exact ⟨hnext, hv.1, hv.2⟩

namespace Visited

/-- A node whose repeat did not advance. -/
theorem of_still (hquiet : looks q → ¬ b.Overruns φ 1 q ∧ ¬ b.HasNext φ 1 q)
    (hψ : ∀ a, ψ a = if a = q then { φ q with status := .complete } else φ a) :
    Visited b looks q φ ψ where
  quiet hl := ⟨(hquiet hl).1, fun hn => absurd hn (hquiet hl).2⟩
  value a ha := by rw [hψ, if_neg ha]
  next hl hn := absurd hn (hquiet hl).2
  same _ := by rw [hψ, if_pos rfl]
  outside x hx := by
    rw [hψ, if_neg]
    rintro rfl
    exact hx List.suffix_rfl
  stuck x _ _ _ := by
    rw [hψ]
    split_ifs with hx
    · rw [hx]
      rfl
    · rfl
  rise x _ _ hx := by
    rw [hψ]
    split_ifs
    · exact le_rfl
    · exact hx
  complete_le := by rw [hψ, if_pos rfl]
  le_complete_iff := by
    rw [hψ, if_pos rfl]
    exact iff_of_true le_rfl fun hl hn => absurd hn (hquiet hl).2
  still _ x hx := by rw [hψ, if_neg hx]
  fresh hl hn := absurd hn (hquiet hl).2

/-- A node whose repeat advanced and that then took its computed status. -/
theorem of_advanced (hb : b.node? q = some t) (hl : looks q) (hnext : b.HasNext φ 1 q)
    (hsettled : ¬ b.Unsettled φ q) (h : Advanced b q t φ χ) {st : NodeStatus}
    (hψ : ∀ a, ψ a = if a = q then { χ q with status := st } else χ a)
    (hge : .complete ≤ st) (hle : st ≤ .complete ↔ b.CompletesAgain q)
    (htask : t.isTask = true → st = (χ q).status) : Visited b looks q φ ψ where
  quiet _ := ⟨hnext.not_overruns, fun _ => hsettled⟩
  value a ha := by
    rw [hψ, if_neg ha]
    exact h.value a ha
  next _ _ r hr := by
    rw [hψ, if_pos rfl]
    exact h.next r hr
  same hn := absurd ⟨hl, hnext⟩ hn
  outside x hx := by
    rw [hψ, if_neg]
    · exact h.outside x hx
    · rintro rfl
      exact hx List.suffix_rfl
  stuck x v hv ht := by
    have hχ : (ψ x).stuck = (χ x).stuck := by
      rw [hψ]
      split_ifs with hx
      · rw [hx]
        rfl
      · rfl
    rw [hχ]
    by_cases hx : q <:+ x
    · have hmem := Bunch.mem_walk_of_suffix hb hv hx
      rw [h.settled _ hmem ht]
      exact (Bool.eq_false_of_not_eq_true fun hu => hsettled ⟨t, hb, _, hmem, ht, hu⟩).symm
    · rw [h.outside x hx]
  rise x v hv hx := by
    rw [hψ]
    split_ifs
    · exact hge
    · by_cases hqx : q <:+ x
      · exact (h.restarts _ (Bunch.mem_walk_of_suffix hb hv hqx)).complete_le
      · rwa [h.outside x hqx]
  complete_le := by rwa [hψ, if_pos rfl]
  le_complete_iff := by
    rw [hψ, if_pos rfl]
    exact hle.trans ⟨fun ha _ _ => ha, fun ha => ha hl hnext⟩
  still hn := absurd ⟨hl, hnext⟩ hn
  fresh _ _ v hv x hx hself := by
    rw [hb, Option.some_inj] at hv
    subst hv
    by_cases hxq : x.1 = q
    · have hxt : x.2.isTask = true := hself hxq
      have htree : b.node? x.1 = some x.2 := Bunch.node?_of_mem_walk hb hx
      rw [hxq, hb, Option.some_inj] at htree
      have hst := h.restarts x hx
      have hun := h.settled x hx hxt
      rw [hxq] at hst hun ⊢
      rw [hψ, if_pos rfl, htask (htree ▸ hxt)]
      exact ⟨hst, fun _ => hun⟩
    · rw [hψ, if_neg hxq]
      exact ⟨h.restarts x hx, h.settled x hx⟩

end Visited

/-- A child of a requeued node is complete by the default status of one of the two. -/
theorem Tree.completedByDefault_of_child (hb : b.node? q = some t) {c : Tree}
    (hc : c ∈ t.children) : t.CompletedByDefault q (c.name :: q) ↔
      t.defn.defaultNodeStatus = .complete ∨ c.defn.defaultNodeStatus = .complete := by
  by_cases hd : t.defn.defaultNodeStatus = .complete
  · exact iff_of_true ⟨(q, t), Tree.self_mem_walk q t, List.suffix_cons _ _, hd⟩ (.inl hd)
  · rw [Tree.completedByDefault_child (Bunch.wf_of_node? hb) hd hc (Tree.self_mem_walk _ _),
      Tree.completedByDefault_self]
    exact (or_iff_right hd).symm

/-- The computed status after the requeue of an advancing repeat. -/
theorem Advanced.computedStatus (hb : b.node? q = some t) {u : State}
    (h : Advanced b q t φ u.glance) :
    .complete ≤ u.computedStatus q t ∧
      (u.computedStatus q t ≤ .complete ↔ b.CompletesAgain q) := by
  have hself := h.restarts (q, t) (Tree.self_mem_walk q t)
  have hagain : b.CompletesAgain q ↔ t.defn.defaultNodeStatus = .complete ∨
      t.children ≠ [] ∧ ∀ c ∈ t.children, c.defn.defaultNodeStatus = .complete := by
    simp [Bunch.CompletesAgain, hb]
  by_cases hcs : t.children = []
  · have hown : u.computedStatus q t = (u.glance q).status :=
      State.computedStatus_of_forall_eq (by simp [hcs])
    rw [hown, hagain]
    refine ⟨hself.complete_le, ?_⟩
    rw [hself.le_complete_iff, Tree.completedByDefault_self]
    simp [hcs]
  · have ht : t.isTask = false := by
      by_contra hn
      exact hcs ((Bunch.wf_of_node? hb).children_of_isTask (Bool.eq_true_of_not_eq_false hn))
    have hchild (c : Tree) (hc : c ∈ t.children) :
        t.Restarts q (c.name :: q) (u.node (c.name :: q)).status :=
      h.restarts _ (Bunch.mem_walk_child (Tree.self_mem_walk q t) hc)
    rw [State.computedStatus_eq ht hcs, hagain]
    constructor
    · obtain ⟨c, hc, heq⟩ := List.mem_map.mp (mostSignificant_mem
        (l := t.children.map fun c => (u.node (c.name :: q)).status) (by simpa using hcs))
      rw [← heq]
      exact (hchild c hc).complete_le
    · have hle : mostSignificant (t.children.map fun c => (u.node (c.name :: q)).status) ≤
          .complete ↔ ∀ c ∈ t.children, t.CompletedByDefault q (c.name :: q) := by
        refine ⟨fun hle c hc => (hchild c hc).le_complete_iff.mp
          ((le_mostSignificant (List.mem_map_of_mem hc)).trans hle), fun hall => ?_⟩
        refine mostSignificant_le fun st hst => ?_
        obtain ⟨c, hc, rfl⟩ := List.mem_map.mp hst
        exact (hchild c hc).le_complete_iff.mpr (hall c hc)
      rw [hle]
      constructor
      · intro hall
        by_cases hd : t.defn.defaultNodeStatus = .complete
        · exact .inl hd
        · exact .inr ⟨hcs, fun c hc =>
            ((Tree.completedByDefault_of_child hb hc).mp (hall c hc)).resolve_left hd⟩
      · rintro (hd | ⟨-, hall⟩) c hc
        · exact (Tree.completedByDefault_of_child hb hc).mpr (.inl hd)
        · exact (Tree.completedByDefault_of_child hb hc).mpr (.inr (hall c hc))

/-! ### Swimming up -/

theorem adoptComputed_glance (ht : t.isTask = false) (s : State) :
    Triple (· = s) (adoptComputed q t) (fun st u => st = s.computedStatus q t ∧
      ∀ a, u.glance a = if a = q then { s.glance q with status := st } else s.glance a)
      (fun _ _ => False) := by
  refine Triple.get_bind ?_
  rintro s rfl
  refine Triple.bind (Q := fun _ u => ∀ a, u.glance a = if a = q then
    { s.glance q with status := s.computedStatus q t } else s.glance a) (Triple.get_bind ?_)
      fun _ => Triple.pure fun u hu => ⟨rfl, hu⟩
  rintro s rfl
  have hsame : s.computedStatus q t = (s.node q).status → ∀ a, s.glance a = if a = q then
      { s.glance q with status := s.computedStatus q t } else s.glance a := by
    intro heq a
    split_ifs with ha
    · rw [ha, heq]
      rfl
    · rfl
  refine Triple.when (fun hne => ?_) fun heq u hu => ?_
  · rw [setNodeStatusOnly, Program.when, if_neg (by simp [ht])]
    refine Triple.bind (Q := fun _ => (· = s)) (Triple.pure fun _ hu => hu) fun _ =>
      Triple.get_bind ?_
    rintro s rfl
    refine Triple.ite (fun heq => absurd heq.symm hne) fun _ => Triple.bind
      (Q := fun _ u => ∀ a, u.glance a = if a = q then
        { s.glance q with status := s.computedStatus q t } else s.glance a) (Triple.modify ?_)
          fun _ => Triple.modify fun u hu => hu
    rintro s rfl a
    by_cases ha : a = q
    · subst ha
      simp [State.glance]
    · simp [State.glance, ha]
  · subst hu
    exact hsame (not_not.mp heq)

/-- The swim raises at the node it has reached. -/
private theorem failed_here (hl : looks q)
    (hvalue : ∀ a, a ≠ q → (ψ a).repeatValue = (φ a).repeatValue)
    (h : (b.Overruns φ 1 q ∧ (ψ q).repeatValue = (φ q).repeatValue) ∨
      (b.HasNext φ 1 q ∧ b.Unsettled φ q ∧ ∀ r, b.repeatDate? q = some r →
        (ψ q).repeatValue = (φ q).repeatValue + r.step)) : Failed b looks q φ ψ := by
  have hclosed : ¬ b.Opens φ looks q := by
    intro ho
    rcases h with ⟨hover, -⟩ | ⟨hnext, hunsettled, -⟩
    · exact ((ho.2 hl).1) hover
    · exact ((ho.2 hl).2 hnext).2 hunsettled
  have hclimbs (a : NodePath) : b.Climbs φ looks q a → a = q := by
    intro hc
    cases q with
    | nil => exact List.suffix_nil.mp hc.suffix
    | cons n up => exact (Bunch.climbs_cons.mp hc).resolve_right fun ho => hclosed ho.1
  refine ⟨⟨fun a r ha hr => ?_, fun a ha => ?_⟩, q, .start, hl, ?_⟩
  · obtain rfl := hclimbs a ha.1
    rcases h with ⟨hover, -⟩ | ⟨-, -, hnext⟩
    · exact absurd hover ha.2.2.not_overruns
    · exact hnext r hr
  · by_cases haq : a = q
    · subst haq
      rcases h with ⟨-, hsame⟩ | ⟨hnext, -⟩
      · exact hsame
      · exact absurd ⟨.start, hl, hnext⟩ ha
    · exact hvalue a haq
  · rcases h with ⟨hover, -⟩ | ⟨hnext, hunsettled, -⟩
    · exact .inl hover
    · exact .inr ⟨hnext, hunsettled⟩

/-- A node that has only taken another status. -/
private theorem Adopted.hasNext_iff {st : NodeStatus}
    (h : ∀ a, ψ a = if a = q then { φ q with status := st } else φ a) (k : ℕ) :
    b.HasNext ψ k q ↔ b.HasNext φ k q := by
  unfold Bunch.HasNext
  rw [h, if_pos rfl]

private theorem Adopted.overruns_iff {st : NodeStatus}
    (h : ∀ a, ψ a = if a = q then { φ q with status := st } else φ a) (k : ℕ) :
    b.Overruns ψ k q ↔ b.Overruns φ k q := by
  unfold Bunch.Overruns
  rw [h, if_pos rfl]

private theorem Adopted.unsettled_iff {st : NodeStatus}
    (h : ∀ a, ψ a = if a = q then { φ q with status := st } else φ a) (a : NodePath) :
    b.Unsettled ψ a ↔ b.Unsettled φ a := by
  unfold Bunch.Unsettled
  refine exists_congr fun _ => and_congr_right fun _ => exists_congr fun x =>
    and_congr_right fun _ => and_congr_right fun _ => ?_
  rw [h]
  split_ifs with hx
  · rw [hx]
    rfl
  · rfl

private theorem Adopted.advanced {st : NodeStatus}
    (h : ∀ a, ψ a = if a = q then { φ q with status := st } else φ a)
    (ha : Advanced b q t ψ χ) : Advanced b q t φ χ where
  next r hr := by
    rw [ha.next r hr, h, if_pos rfl]
  value a haq := by
    rw [ha.value a haq, h, if_neg haq]
  outside x hx := by
    rw [ha.outside x hx, h, if_neg]
    rintro rfl
    exact hx List.suffix_rfl
  restarts := ha.restarts
  settled := ha.settled

/-- A swim that starts with a status above complete. -/
private theorem unmoved_swim {n : String} {up : NodePath} {k : M Unit}
    (hb : b.node? (n :: up) = some t) (hnil : up = [] → k = pure ())
    (hk : up ≠ [] → Climber b looks up k) {s u : State} {st : NodeStatus} (hst : .complete < st)
    (hu : ∀ a, u.glance a = if a = n :: up then { s.glance (n :: up) with status := st }
      else s.glance a) :
    Triple (· = u) k (fun _ w => Unmoved b (n :: up) s.glance w.glance) (fun _ _ => False) := by
  have hvalue (a : NodePath) : (u.glance a).repeatValue = (s.glance a).repeatValue := by
    rw [hu]
    split_ifs with ha
    · rw [ha]
    · rfl
  have hrise (x : NodePath) (hx : .complete ≤ (s.glance x).status) :
      .complete ≤ (u.glance x).status := by
    rw [hu]
    split_ifs
    · exact hst.le
    · exact hx
  have hframe (x : NodePath) (hx : ¬ x <:+ n :: up) : u.glance x = s.glance x := by
    rw [hu, if_neg]
    rintro rfl
    exact hx List.suffix_rfl
  cases up with
  | nil =>
    rw [hnil rfl]
    refine Triple.pure ?_
    rintro _ rfl
    exact ⟨hvalue, fun x _ _ hx => hrise x hx, hframe⟩
  | cons m up =>
    obtain ⟨v, hv, hmem, hname⟩ := Bunch.parent_of_node? hb
    have hvt : v.isTask = false := by
      by_contra hn
      have := (Bunch.wf_of_node? hv).children_of_isTask (Bool.eq_true_of_not_eq_false hn)
      simp [this] at hmem
    have hmore : .complete < u.computedStatus (m :: up) v := by
      rw [(State.computedStatus_parent hb hv u).2]
      refine hst.trans_le (le_mostSignificant (List.mem_map.mpr ⟨t, hmem, ?_⟩))
      have hself : (u.glance (n :: m :: up)).status = st := by rw [hu, if_pos rfl]
      rw [hname]
      exact hself
    refine ((hk (by simp) u v hv hvt).2 hmore).conseq (fun _ h => h) (fun _ w hw => ?_)
      fun _ _ hf => hf
    exact ⟨fun a => (hw.same a).trans (hvalue a), fun x v hv hx => hw.rise x v hv (hrise x hx),
      fun x hx =>
      (hw.frame x fun hs => hx (hs.trans (List.suffix_cons n _))).trans (hframe x hx)⟩

/-- **A swim from a container** whose ancestors are all looked at. -/
theorem climber_swim : ∀ q : NodePath, (∀ a, a <:+ q → looks a) →
    Climber b looks q (swimStatusChange b q)
  | [], _ => fun s t hb => by cases hb
  | n :: up, hl => by
    intro s t hb ht
    have hself : looks (n :: up) := hl _ List.suffix_rfl
    have hnil : up = [] → swimStatusChange b up = pure () := by
      rintro rfl
      rw [swimStatusChange]
    have hrest : up ≠ [] → Climber b looks up (swimStatusChange b up) := fun _ =>
      climber_swim up fun a ha => hl a (ha.trans (List.suffix_cons n up))
    rw [swimStatusChange, hb]
    refine ⟨fun hc => ?_, fun hc => ?_⟩
    · refine ((adoptComputed_glance ht s).conseq (fun _ h => h) (fun _ _ h => h)
        fun _ _ hf => hf.elim).bind fun st => Triple.of_forall ?_
      rintro u ⟨rfl, hu⟩
      rw [hc] at hu
      refine Triple.ite (fun _ => ?_) fun hne => absurd hc hne
      refine ((advanceRepeat_glance hb u).conseq (fun _ h => h) (fun _ _ h => h)
        fun _ w hw => ?_).bind fun advanced => Triple.of_forall fun w hw => ?_
      · rw [Adopted.overruns_iff hu, Adopted.hasNext_iff hu, Adopted.unsettled_iff hu] at hw
        have hvalue : (u.glance (n :: up)).repeatValue = (s.glance (n :: up)).repeatValue := by
          rw [hu, if_pos rfl]
        rw [hvalue] at hw
        refine failed_here hself (fun a ha => ?_) hw.2
        rw [hw.1 a ha, hu, if_neg ha]
      · rw [Adopted.overruns_iff hu, Adopted.hasNext_iff hu, Adopted.unsettled_iff hu] at hw
        cases advanced with
        | false =>
          rw [if_neg Bool.false_ne_true] at hw ⊢
          have hvisited : Visited b looks (n :: up) s.glance w.glance :=
            .of_still (fun _ => ⟨hw.2.1, hw.1⟩) fun a => by rw [hw.2.2, hu]
          exact hvisited.climb hb hnil hrest
        | true =>
          rw [if_pos rfl] at hw ⊢
          obtain ⟨hnext, hsettled, hadvanced⟩ := hw
          rw [if_neg (by simp [ht])]
          obtain ⟨hge, hle⟩ := hadvanced.computedStatus hb
          refine ((adoptComputed_glance ht w).conseq (fun _ h => h) (fun _ _ h => h)
            fun _ _ hf => hf.elim).bind fun st => Triple.of_forall ?_
          rintro v ⟨rfl, hv⟩
          have hvisited : Visited b looks (n :: up) s.glance v.glance :=
            .of_advanced hb hself hnext hsettled (Adopted.advanced hu hadvanced) hv hge hle
              (by simp [ht])
          exact hvisited.climb hb hnil hrest
    · refine ((adoptComputed_glance ht s).conseq (fun _ h => h) (fun _ _ h => h)
        fun _ _ hf => hf.elim).bind fun st => Triple.of_forall ?_
      rintro u ⟨rfl, hu⟩
      exact Triple.ite (fun heq => absurd heq hc.ne') fun _ => unmoved_swim hb hnil hrest hc hu

/-- **A swim from a container that is passed over.** -/
theorem climber_only {q : NodePath} (hq : ¬ looks q) (hl : ∀ a, a <:+ q.tail → looks a) :
    Climber b looks q (swimStatusChangeOnly b q) := by
  intro s t hb ht
  cases q with
  | nil => cases hb
  | cons n up =>
    have hnil : up = [] → swimStatusChange b up = pure () := by
      rintro rfl
      rw [swimStatusChange]
    have hrest : up ≠ [] → Climber b looks up (swimStatusChange b up) := fun _ =>
      climber_swim up hl
    rw [swimStatusChangeOnly, hb]
    simp only [ht, Bool.false_eq_true, if_false]
    refine ⟨fun hc => ?_, fun hc => ?_⟩
    all_goals
      refine ((adoptComputed_glance ht s).conseq (fun _ h => h) (fun _ _ h => h)
        fun _ _ hf => hf.elim).bind fun st => Triple.of_forall ?_
      rintro u ⟨rfl, hu⟩
    · have hvisited : Visited b looks (n :: up) s.glance u.glance :=
        .of_still (fun h => absurd h hq) (by rwa [hc] at hu)
      exact hvisited.climb hb hnil hrest
    · exact unmoved_swim hb hnil hrest hc hu

/-! ### Swimming up from a task -/

/-- The nodes that a completion of the task at `p` looks at: when the repeat of the task advances,
its parent is passed over. -/
def Bunch.LooksFrom (b : Bunch) (φ : NodePath → Glance) (p a : NodePath) : Prop :=
  a = p.tail → ¬ b.HasNext φ 1 p

theorem adoptComputed_task (ht : t.isTask = true) (s : State) :
    Triple (· = s) (adoptComputed q t) (fun st u => st = (s.glance q).status ∧ u = s)
      (fun _ _ => False) := by
  have hown : s.computedStatus q t = (s.node q).status := by rw [State.computedStatus, if_pos ht]
  refine Triple.get_bind ?_
  rintro s rfl
  rw [hown]
  refine Triple.bind (Q := fun _ => (· = s)) (Triple.get_bind ?_) fun _ =>
    Triple.pure fun u hu => ⟨rfl, hu⟩
  rintro s rfl
  exact Triple.when (fun hne => absurd rfl hne) fun _ _ hu => hu

/-- **A swim from a task.** -/
theorem climber_task {n : String} {up : NodePath} (hb : b.node? (n :: up) = some t)
    (ht : t.isTask = true) (s : State) :
    ((s.glance (n :: up)).status = .complete → Triple (· = s) (swimStatusChange b (n :: up))
      (fun _ u => Passed b (b.LooksFrom s.glance (n :: up)) (n :: up) s.glance u.glance)
      (fun _ u => Failed b (b.LooksFrom s.glance (n :: up)) (n :: up) s.glance u.glance)) ∧
    (.complete < (s.glance (n :: up)).status → Triple (· = s) (swimStatusChange b (n :: up))
      (fun _ u => Unmoved b (n :: up) s.glance u.glance) (fun _ _ => False)) := by
  have hnil : up = [] → swimStatusChange b up = pure () := by
    rintro rfl
    rw [swimStatusChange]
  have hself : b.LooksFrom s.glance (n :: up) (n :: up) := fun heq => absurd heq (by simp)
  rw [swimStatusChange, hb]
  refine ⟨fun hc => ?_, fun hc => ?_⟩
  all_goals
    refine ((adoptComputed_task ht s).conseq (fun _ h => h) (fun _ _ h => h)
      fun _ _ hf => hf.elim).bind fun st => Triple.of_forall ?_
    rintro u ⟨rfl, rfl⟩
  · refine Triple.ite (fun _ => ?_) fun hne => absurd hc hne
    refine ((advanceRepeat_glance hb u).conseq (fun _ h => h) (fun _ _ h => h)
      fun _ w hw => failed_here hself hw.1 hw.2).bind fun advanced => Triple.of_forall fun w hw => ?_
    cases advanced with
    | false =>
      rw [if_neg Bool.false_ne_true] at hw ⊢
      obtain ⟨hlast, hdate, hsame⟩ := hw
      have hvisited : Visited b (b.LooksFrom u.glance (n :: up)) (n :: up) u.glance w.glance := by
        refine .of_still (fun _ => ⟨hdate, hlast⟩) fun a => ?_
        rw [hsame]
        split_ifs with ha
        · rw [ha, ← hc]
        · rfl
      exact hvisited.climb hb hnil fun _ => climber_swim up fun _ _ _ => hlast
    | true =>
      rw [if_pos rfl] at hw ⊢
      obtain ⟨hnext, hsettled, hadvanced⟩ := hw
      rw [if_pos ht]
      have hown : w.computedStatus (n :: up) t = (w.glance (n :: up)).status := by
        rw [State.computedStatus, if_pos ht]
        rfl
      obtain ⟨hge, hle⟩ := hadvanced.computedStatus hb
      rw [hown] at hge hle
      have hvisited : Visited b (b.LooksFrom u.glance (n :: up)) (n :: up) u.glance w.glance := by
        refine .of_advanced hb hself hnext hsettled hadvanced (fun a => ?_) hge hle fun _ => rfl
        split_ifs with ha
        · rw [ha]
        · rfl
      refine hvisited.climb hb (by rintro rfl; rw [swimStatusChangeOnly]) fun hup =>
        climber_only (fun hl => hl rfl hnext) fun a ha heq => ?_
      -- above the parent no node is the parent
      have := ha.length_le
      rw [heq, List.tail_cons, List.length_tail] at this
      have := List.length_pos_of_ne_nil hup
      omega
  · have hrest : up ≠ [] → Climber b (fun _ => True) up (swimStatusChange b up) := fun _ =>
      climber_swim up fun _ _ => trivial
    refine Triple.ite (fun heq => absurd heq hc.ne') fun _ => unmoved_swim hb hnil hrest hc
      fun a => ?_
    split_ifs with ha
    · rw [ha]
    · rfl

end Takler
