import Takler.Core.RequeueReturns

/-!
# How far a completion climbs

A status change that swims up from a complete node goes on to the parent; the parent completes as
well when its other children are complete, and then its repeat is looked at. A repeat that
advances requeues the tree, and the change climbs on as a completion only if that tree is complete
again by its default statuses. `Climbs` says which ancestors a completion reaches in this way, in
terms of what the nodes show before (`Glance`).

One ancestor is passed over: the parent of a task whose repeat has just advanced takes its
computed status, and its own repeat is not looked at. The predicate `looks` says which nodes are
looked at.

## Main definitions

* `Glance`, `State.glance`: what a status change sees of a node.
* `Bunch.HasNext`, `Bunch.Overruns`, `Bunch.Unsettled`, `Bunch.CompletesAgain`: the fate of a
  repeat that is looked at.
* `Bunch.Opens`, `Bunch.Climbs`, `Bunch.Advances`: the way up, and the repeats that advance on it.
* `Passed`, `Failed`, `Unmoved`: what one swim does.
* `Visited`: what the visit of one node on the way up does.

## Main results

* `Visited.climb`: what a swim does from a node is what the visit does, and then what the swim does
  from the parent.
-/

namespace Takler

open Program

/-! ### The way up -/

/-- What a status change on its way up sees of a node. -/
@[ext]
structure Glance where
  status : NodeStatus
  repeatValue : ℕ
  /-- Whether the outcome of the submission is unknown. -/
  unknown : Bool
  /-- Whether the index cannot forget a path of the task. -/
  moved : Bool

/-- A requeue raises at the task. -/
def Glance.stuck (g : Glance) : Bool := g.unknown || g.moved

/-- What a status change sees of the nodes. -/
def State.glance (s : State) (q : NodePath) : Glance where
  status := (s.node q).status
  repeatValue := (s.node q).repeatValue
  unknown := (s.node q).task.submissionUnknownReason.isSome
  moved := (s.node q).task.paths.any (s.moved q)

namespace Bunch

variable (b : Bunch) (φ : NodePath → Glance) (looks : NodePath → Prop)

/-- The repeat of the node at a path. -/
def repeatDate? (q : NodePath) : Option RepeatDate := (b.node? q).bind fun t => t.defn.repeatDate

/-- The repeat has `k` further values. -/
def HasNext (k : ℕ) (q : NodePath) : Prop :=
  ∃ r, b.repeatDate? q = some r ∧ (φ q).repeatValue + k * r.step ≤ r.endDate

/-- The calendar has no date `k` steps after the value of the repeat. -/
def Overruns (k : ℕ) (q : NodePath) : Prop :=
  ∃ r, b.repeatDate? q = some r ∧ maxOrdinal < (φ q).repeatValue + k * r.step

/-- A submission at or below the node is unknown, or the index cannot forget a path there, so that a
requeue of the node raises. -/
def Unsettled (q : NodePath) : Prop :=
  ∃ t, b.node? q = some t ∧ ∃ x ∈ t.walk q, x.2.isTask = true ∧ (φ x.1).stuck = true

/-- The node is complete again after its requeue: by its default status, or because a container
computes so from the default statuses of its children. -/
def CompletesAgain (q : NodePath) : Prop :=
  ∃ t, b.node? q = some t ∧ (t.defn.defaultNodeStatus = .complete ∨
    t.children ≠ [] ∧ ∀ c ∈ t.children, c.defn.defaultNodeStatus = .complete)

/-- The other children of the parent are complete, or not known. -/
def SiblingsComplete : NodePath → Prop
  | n :: m :: up => ∃ t, b.node? (m :: up) = some t ∧
      ∀ c ∈ t.children, c.name ≠ n → (φ (c.name :: m :: up)).status ≤ .complete
  | _ => False

/-- A completion of the node completes the parent. -/
def Opens (q : NodePath) : Prop :=
  b.SiblingsComplete φ q ∧ (looks q → ¬ b.Overruns φ 1 q ∧
    (b.HasNext φ 1 q → b.CompletesAgain q ∧ ¬ b.Unsettled φ q))

/-- A completion of the node at `start` reaches the node. -/
inductive Climbs (start : NodePath) : NodePath → Prop
  | start : Climbs start start
  | up {n : String} {up : NodePath} : Climbs start (n :: up) → b.Opens φ looks (n :: up) →
      Climbs start up

/-- The repeat of the node advances. -/
def Advances (start q : NodePath) : Prop :=
  b.Climbs φ looks start q ∧ looks q ∧ b.HasNext φ 1 q

variable {b φ looks}

theorem Climbs.suffix {start q : NodePath} (h : b.Climbs φ looks start q) : q <:+ start := by
  induction h with
  | start => exact List.suffix_rfl
  | up _ _ ih => exact (List.suffix_cons _ _).trans ih

theorem Climbs.of_up {n : String} {up q : NodePath} (hopen : b.Opens φ looks (n :: up))
    (h : b.Climbs φ looks up q) : b.Climbs φ looks (n :: up) q := by
  induction h with
  | start => exact .up .start hopen
  | up _ ho ih => exact .up ih ho

/-- A climb ends at its start or goes over the parent. -/
theorem climbs_cons {n : String} {up q : NodePath} : b.Climbs φ looks (n :: up) q ↔
    q = n :: up ∨ (b.Opens φ looks (n :: up) ∧ b.Climbs φ looks up q) := by
  constructor
  · intro h
    induction h with
    | start => exact .inl rfl
    | up _ ho ih =>
      rcases ih with heq | ⟨hopen, h⟩
      · obtain ⟨rfl, rfl⟩ := List.cons.inj heq
        exact .inr ⟨ho, .start⟩
      · exact .inr ⟨hopen, .up h ho⟩
  · rintro (rfl | ⟨hopen, h⟩)
    · exact .start
    · exact .of_up hopen h

theorem Climbs.congr {ψ : NodePath → Glance} {start q : NodePath}
    (h : ∀ a, a <:+ start → (b.Opens φ looks a ↔ b.Opens ψ looks a)) :
    b.Climbs φ looks start q ↔ b.Climbs ψ looks start q := by
  constructor
  · intro hc
    induction hc with
    | start => exact .start
    | up hc ho ih => exact .up ih ((h _ hc.suffix).mp ho)
  · intro hc
    induction hc with
    | start => exact .start
    | up hc ho ih => exact .up ih ((h _ hc.suffix).mpr ho)

theorem repeatDate?_eq {q : NodePath} {t : Tree} (h : b.node? q = some t) :
    b.repeatDate? q = t.defn.repeatDate := by
  rw [repeatDate?, h, Option.bind_some]

/-- A next value is a date. -/
theorem HasNext.not_overruns {q : NodePath} (h : b.HasNext φ 1 q) : ¬ b.Overruns φ 1 q := by
  obtain ⟨r, hr, hle⟩ := h
  rintro ⟨r', hr', hgt⟩
  rw [hr, Option.some_inj] at hr'
  subst hr'
  have := r.end_le
  omega

end Bunch

variable {b : Bunch} {looks : NodePath → Prop} {φ ψ χ : NodePath → Glance}

/-! ### What a swim does -/

/-- The repeats after a swim from `start`. -/
structure Moved (b : Bunch) (looks : NodePath → Prop) (start : NodePath)
    (φ ψ : NodePath → Glance) : Prop where
  next : ∀ q r, b.Advances φ looks start q → b.repeatDate? q = some r →
    (ψ q).repeatValue = (φ q).repeatValue + r.step
  same : ∀ q, ¬ b.Advances φ looks start q → (ψ q).repeatValue = (φ q).repeatValue

/-- A swim from a complete node that returns: nothing on the way made it raise, and the highest
tree whose repeat advanced is as its requeue left it. -/
structure Passed (b : Bunch) (looks : NodePath → Prop) (start : NodePath)
    (φ ψ : NodePath → Glance) : Prop extends Moved b looks start φ ψ where
  quiet : ∀ q, b.Climbs φ looks start q → looks q →
    ¬ b.Overruns φ 1 q ∧ (b.HasNext φ 1 q → ¬ b.Unsettled φ q)
  rise : ∀ x t, b.node? x = some t → .complete ≤ (φ x).status → .complete ≤ (ψ x).status
  frame : (∀ q, ¬ b.Advances φ looks start q) → ∀ x, ¬ x <:+ start → ψ x = φ x
  fresh : ∀ q t, b.Advances φ looks start q → (∀ a, b.Advances φ looks start a → q <:+ a) →
    b.node? q = some t → ∀ x ∈ t.walk q, (x.1 = q → x.2.isTask = true) →
      t.Restarts q x.1 (ψ x.1).status ∧ (x.2.isTask = true → (ψ x.1).stuck = false)

/-- A swim from a complete node that raises. -/
structure Failed (b : Bunch) (looks : NodePath → Prop) (start : NodePath)
    (φ ψ : NodePath → Glance) : Prop extends Moved b looks start φ ψ where
  loud : ∃ q, b.Climbs φ looks start q ∧ looks q ∧
    (b.Overruns φ 1 q ∨ (b.HasNext φ 1 q ∧ b.Unsettled φ q))

/-- A swim from a node that is more than complete moves no repeat. -/
structure Unmoved (b : Bunch) (start : NodePath) (φ ψ : NodePath → Glance) : Prop where
  same : ∀ q, (ψ q).repeatValue = (φ q).repeatValue
  rise : ∀ x t, b.node? x = some t → .complete ≤ (φ x).status → .complete ≤ (ψ x).status
  frame : ∀ x, ¬ x <:+ start → ψ x = φ x

/-- The program swims up from a container that was not visited yet. -/
def Climber (b : Bunch) (looks : NodePath → Prop) (q : NodePath) (m : M Unit) : Prop :=
  ∀ s t, b.node? q = some t → t.isTask = false →
    (s.computedStatus q t = .complete → Triple (· = s) m
      (fun _ u => Passed b looks q s.glance u.glance)
      (fun _ u => Failed b looks q s.glance u.glance)) ∧
    (.complete < s.computedStatus q t → Triple (· = s) m
      (fun _ u => Unmoved b q s.glance u.glance) (fun _ _ => False))

/-- A complete node was visited on the way up: its repeat was looked at, and it has taken its
computed status. -/
structure Visited (b : Bunch) (looks : NodePath → Prop) (q : NodePath)
    (φ ψ : NodePath → Glance) : Prop where
  quiet : looks q → ¬ b.Overruns φ 1 q ∧ (b.HasNext φ 1 q → ¬ b.Unsettled φ q)
  value : ∀ a, a ≠ q → (ψ a).repeatValue = (φ a).repeatValue
  next : looks q → b.HasNext φ 1 q → ∀ r, b.repeatDate? q = some r →
    (ψ q).repeatValue = (φ q).repeatValue + r.step
  same : ¬ (looks q ∧ b.HasNext φ 1 q) → (ψ q).repeatValue = (φ q).repeatValue
  outside : ∀ x, ¬ q <:+ x → ψ x = φ x
  stuck : ∀ x t, b.node? x = some t → t.isTask = true → (ψ x).stuck = (φ x).stuck
  rise : ∀ x t, b.node? x = some t → .complete ≤ (φ x).status → .complete ≤ (ψ x).status
  complete_le : .complete ≤ (ψ q).status
  le_complete_iff : (ψ q).status ≤ .complete ↔ (looks q → b.HasNext φ 1 q → b.CompletesAgain q)
  still : ¬ (looks q ∧ b.HasNext φ 1 q) → ∀ x, x ≠ q → ψ x = φ x
  fresh : looks q → b.HasNext φ 1 q → ∀ t, b.node? q = some t → ∀ x ∈ t.walk q,
    (x.1 = q → x.2.isTask = true) →
      t.Restarts q x.1 (ψ x.1).status ∧ (x.2.isTask = true → (ψ x.1).stuck = false)

namespace Visited

variable {n : String} {up : NodePath}

theorem hasNext_iff {q a : NodePath} (h : Visited b looks q φ ψ) (ha : a ≠ q) (k : ℕ) :
    b.HasNext ψ k a ↔ b.HasNext φ k a := by
  unfold Bunch.HasNext
  rw [h.value a ha]

theorem overruns_iff {q a : NodePath} (h : Visited b looks q φ ψ) (ha : a ≠ q) (k : ℕ) :
    b.Overruns ψ k a ↔ b.Overruns φ k a := by
  unfold Bunch.Overruns
  rw [h.value a ha]

theorem unsettled_iff {q : NodePath} (h : Visited b looks q φ ψ) (a : NodePath) :
    b.Unsettled ψ a ↔ b.Unsettled φ a := by
  unfold Bunch.Unsettled
  refine exists_congr fun t => and_congr_right fun ht => exists_congr fun x =>
    and_congr_right fun hx => and_congr_right fun hxt => ?_
  rw [h.stuck x.1 x.2 (Bunch.node?_of_mem_walk ht hx) hxt]

private theorem notMem_of_suffix {a x : NodePath} (ha : a <:+ up) (hx : x.length ≤ a.length) :
    ¬ n :: up <:+ x := by
  intro hs
  have h₁ := hs.length_le
  have h₂ := ha.length_le
  simp only [List.length_cons] at h₁
  omega

/-- Above the visited node the way up is as before. -/
theorem opens_iff (h : Visited b looks (n :: up) φ ψ) {a : NodePath} (ha : a <:+ up) :
    b.Opens ψ looks a ↔ b.Opens φ looks a := by
  have hne : a ≠ n :: up := by
    rintro rfl
    simpa using ha.length_le
  have hsiblings : b.SiblingsComplete ψ a ↔ b.SiblingsComplete φ a := by
    match a, ha with
    | [], _ => exact Iff.rfl
    | [_], _ => exact Iff.rfl
    | _ :: m :: a', ha =>
      unfold Bunch.SiblingsComplete
      refine exists_congr fun t => and_congr_right fun _ => forall_congr' fun c =>
        imp_congr_right fun _ => imp_congr_right fun _ => ?_
      rw [h.outside _ (notMem_of_suffix ha (by simp))]
  unfold Bunch.Opens
  rw [hsiblings, h.overruns_iff hne, h.hasNext_iff hne, h.unsettled_iff]

theorem climbs_iff (h : Visited b looks (n :: up) φ ψ) {a : NodePath} :
    b.Climbs ψ looks up a ↔ b.Climbs φ looks up a :=
  Bunch.Climbs.congr fun _ ha => h.opens_iff ha

theorem advances_iff (h : Visited b looks (n :: up) φ ψ) {a : NodePath} :
    b.Advances ψ looks up a ↔ b.Advances φ looks up a := by
  unfold Bunch.Advances
  rw [h.climbs_iff]
  refine and_congr_right fun hc => and_congr_right fun _ => h.hasNext_iff ?_ 1
  rintro rfl
  simpa using hc.suffix.length_le

/-- What advances from a node: the node itself, or, when it opens, what advances from the
parent. -/
theorem advances_cons (h : Visited b looks (n :: up) φ ψ) {a : NodePath} :
    b.Advances φ looks (n :: up) a ↔
      (a = n :: up ∧ looks (n :: up) ∧ b.HasNext φ 1 (n :: up)) ∨
      (b.Opens φ looks (n :: up) ∧ b.Advances ψ looks up a) := by
  rw [h.advances_iff]
  unfold Bunch.Advances
  rw [Bunch.climbs_cons]
  constructor
  · rintro ⟨rfl | ⟨ho, hc⟩, hl, hn⟩
    · exact .inl ⟨rfl, hl, hn⟩
    · exact .inr ⟨ho, hc, hl, hn⟩
  · rintro (⟨rfl, hl, hn⟩ | ⟨ho, hc, hl, hn⟩)
    · exact ⟨.inl rfl, hl, hn⟩
    · exact ⟨.inr ⟨ho, hc⟩, hl, hn⟩

theorem ne_of_advances {a : NodePath} (h : b.Advances ψ looks up a) : a ≠ n :: up := by
  rintro rfl
  simpa using h.1.suffix.length_le

/-- The repeats, when the swim goes on as a completion. -/
theorem moved (h : Visited b looks (n :: up) φ ψ) (ho : b.Opens φ looks (n :: up))
    (hm : Moved b looks up ψ χ) : Moved b looks (n :: up) φ χ where
  next a r ha hr := by
    rcases h.advances_cons.mp ha with ⟨rfl, hl, hn⟩ | ⟨-, ha⟩
    · rw [hm.same _ fun hadv => ne_of_advances hadv rfl]
      exact h.next hl hn r hr
    · rw [hm.next a r ha hr, h.value a (ne_of_advances ha)]
  same a ha := by
    have hup : ¬ b.Advances ψ looks up a := fun hadv => ha (h.advances_cons.mpr (.inr ⟨ho, hadv⟩))
    rw [hm.same a hup]
    by_cases haq : a = n :: up
    · subst haq
      exact h.same fun hl => ha (h.advances_cons.mpr (.inl ⟨rfl, hl⟩))
    · exact h.value a haq

/-- The repeats, when the swim goes on as something else. -/
theorem moved_of_unmoved (h : Visited b looks (n :: up) φ ψ)
    (ho : ¬ b.Opens φ looks (n :: up)) (hu : ∀ q, (χ q).repeatValue = (ψ q).repeatValue) :
    Moved b looks (n :: up) φ χ where
  next a r ha hr := by
    rcases h.advances_cons.mp ha with ⟨rfl, hl, hn⟩ | ⟨hopen, -⟩
    · rw [hu]
      exact h.next hl hn r hr
    · exact absurd hopen ho
  same a ha := by
    rw [hu]
    by_cases haq : a = n :: up
    · subst haq
      exact h.same fun hl => ha (h.advances_cons.mpr (.inl ⟨rfl, hl⟩))
    · exact h.value a haq

/-- A swim that goes on as a completion and returns. -/
theorem passed (h : Visited b looks (n :: up) φ ψ) (ho : b.Opens φ looks (n :: up))
    (hp : Passed b looks up ψ χ) : Passed b looks (n :: up) φ χ where
  toMoved := h.moved ho hp.toMoved
  quiet a ha hl := by
    rcases Bunch.climbs_cons.mp ha with rfl | ⟨-, hc⟩
    · exact h.quiet hl
    · have hne : a ≠ n :: up := by
        rintro rfl
        simpa using hc.suffix.length_le
      have := hp.quiet a (h.climbs_iff.mpr hc) hl
      rwa [h.overruns_iff hne, h.hasNext_iff hne, h.unsettled_iff] at this
  rise x t hb hx := hp.rise x t hb (h.rise x t hb hx)
  frame hno x hx := by
    have hself : ¬ (looks (n :: up) ∧ b.HasNext φ 1 (n :: up)) := fun hl =>
      hno _ (h.advances_cons.mpr (.inl ⟨rfl, hl⟩))
    rw [hp.frame (fun a ha => hno a (h.advances_cons.mpr (.inr ⟨ho, ha⟩))) x fun hs =>
      hx (hs.trans (List.suffix_cons n up))]
    exact h.still hself x fun hxq => hx (hxq ▸ List.suffix_rfl)
  fresh a t ha htop hb x hx hself := by
    by_cases hup : ∃ a', b.Advances ψ looks up a'
    · -- the highest tree is above the visited node
      obtain ⟨a', ha'⟩ := hup
      rcases h.advances_cons.mp ha with ⟨rfl, -⟩ | ⟨-, ha⟩
      · have := htop a' (h.advances_cons.mpr (.inr ⟨ho, ha'⟩))
        have := this.length_le.trans ha'.1.suffix.length_le
        simp at this
      · exact hp.fresh a t ha (fun a' ha' => htop a' (h.advances_cons.mpr (.inr ⟨ho, ha'⟩))) hb x hx
          hself
    · rcases h.advances_cons.mp ha with ⟨rfl, hl, hn⟩ | ⟨-, ha⟩
      · rw [hp.frame (fun a' ha' => hup ⟨a', ha'⟩) x.1 fun hs => ?_]
        · exact h.fresh hl hn t hb x hx hself
        · have := (Tree.suffix_of_mem_walk hx).length_le.trans hs.length_le
          simp at this
      · exact absurd ⟨a, ha⟩ hup

/-- A swim that goes on as something else. -/
theorem passed_of_unmoved (h : Visited b looks (n :: up) φ ψ)
    (ho : ¬ b.Opens φ looks (n :: up)) (hu : Unmoved b up ψ χ) :
    Passed b looks (n :: up) φ χ where
  toMoved := h.moved_of_unmoved ho hu.same
  quiet a ha hl := by
    rcases Bunch.climbs_cons.mp ha with rfl | ⟨hopen, -⟩
    · exact h.quiet hl
    · exact absurd hopen ho
  rise x t hb hx := hu.rise x t hb (h.rise x t hb hx)
  frame hno x hx := by
    have hself : ¬ (looks (n :: up) ∧ b.HasNext φ 1 (n :: up)) := fun hl =>
      hno _ (h.advances_cons.mpr (.inl ⟨rfl, hl⟩))
    rw [hu.frame x fun hs => hx (hs.trans (List.suffix_cons n up))]
    exact h.still hself x fun hxq => hx (hxq ▸ List.suffix_rfl)
  fresh a t ha _ hb x hx hself := by
    rcases h.advances_cons.mp ha with ⟨rfl, hl, hn⟩ | ⟨hopen, -⟩
    · rw [hu.frame x.1 fun hs => ?_]
      · exact h.fresh hl hn t hb x hx hself
      · have := (Tree.suffix_of_mem_walk hx).length_le.trans hs.length_le
        simp at this
    · exact absurd hopen ho

/-- A swim that goes on as a completion and raises. -/
theorem failed (h : Visited b looks (n :: up) φ ψ) (ho : b.Opens φ looks (n :: up))
    (hf : Failed b looks up ψ χ) : Failed b looks (n :: up) φ χ where
  toMoved := h.moved ho hf.toMoved
  loud := by
    obtain ⟨a, hc, hl, hloud⟩ := hf.loud
    have hne : a ≠ n :: up := by
      rintro rfl
      simpa using hc.suffix.length_le
    rw [h.overruns_iff hne, h.hasNext_iff hne, h.unsettled_iff] at hloud
    exact ⟨a, .of_up ho (h.climbs_iff.mp hc), hl, hloud⟩

/-- The parent completes exactly when the visited node opens. -/
theorem computedStatus_parent {m : String} {t v : Tree} {s : State}
    (h : Visited b looks (n :: m :: up) φ s.glance) (hb : b.node? (n :: m :: up) = some t)
    (hv : b.node? (m :: up) = some v) :
    (b.Opens φ looks (n :: m :: up) → s.computedStatus (m :: up) v = .complete) ∧
      (¬ b.Opens φ looks (n :: m :: up) → .complete < s.computedStatus (m :: up) v) := by
  obtain ⟨w, hw, hmem, hname⟩ := Bunch.parent_of_node? hb
  rw [hv, Option.some_inj] at hw
  subst hw
  obtain ⟨-, hcomputed⟩ := State.computedStatus_parent hb hv s
  have hge : .complete ≤ s.computedStatus (m :: up) v := by
    rw [hcomputed]
    refine le_trans h.complete_le (le_mostSignificant (List.mem_map.mpr ⟨t, hmem, ?_⟩))
    rw [hname]
    rfl
  have hle : s.computedStatus (m :: up) v ≤ .complete ↔ b.Opens φ looks (n :: m :: up) := by
    have hother {c : Tree} (hc : c.name ≠ n) :
        (s.node (c.name :: m :: up)).status = (φ (c.name :: m :: up)).status := by
      refine congrArg Glance.status (h.outside (c.name :: m :: up) fun hs => hc ?_)
      exact (List.cons.inj (hs.eq_of_length (by simp))).1.symm
    have hopen : b.Opens φ looks (n :: m :: up) ↔ b.SiblingsComplete φ (n :: m :: up) ∧
        (s.glance (n :: m :: up)).status ≤ .complete := by
      rw [h.le_complete_iff]
      refine and_congr_right fun _ => ⟨fun ho hl hn => ((ho hl).2 hn).1, fun ha hl => ?_⟩
      exact ⟨(h.quiet hl).1, fun hn => ⟨ha hl hn, (h.quiet hl).2 hn⟩⟩
    rw [hopen, hcomputed]
    constructor
    · intro hle
      have hall (c : Tree) (hc : c ∈ v.children) :
          (s.node (c.name :: m :: up)).status ≤ .complete :=
        (le_mostSignificant (List.mem_map_of_mem hc)).trans hle
      refine ⟨⟨v, hv, fun c hc hcn => ?_⟩, ?_⟩
      · rw [← hother hcn]
        exact hall c hc
      · have := hall t hmem
        rwa [hname] at this
    · rintro ⟨⟨w, hw, hsiblings⟩, hself⟩
      rw [hv, Option.some_inj] at hw
      subst hw
      refine mostSignificant_le fun st hst => ?_
      obtain ⟨c, hc, rfl⟩ := List.mem_map.mp hst
      by_cases hcn : c.name = n
      · rw [hcn]
        exact hself
      · rw [hother hcn]
        exact hsiblings c hc hcn
  exact ⟨fun ho => le_antisymm (hle.mpr ho) hge,
    fun ho => lt_of_le_of_ne hge fun heq => ho (hle.mp heq.ge)⟩

/-- After the visit the rest of the way follows. -/
theorem climb {t : Tree} {s : State} {k : M Unit} (h : Visited b looks (n :: up) φ s.glance)
    (hb : b.node? (n :: up) = some t) (hnil : up = [] → k = pure ())
    (hk : up ≠ [] → Climber b looks up k) :
    Triple (· = s) k (fun _ u => Passed b looks (n :: up) φ u.glance)
      (fun _ u => Failed b looks (n :: up) φ u.glance) := by
  cases up with
  | nil =>
    have hclosed : ¬ b.Opens φ looks [n] := fun ho => ho.1
    rw [hnil rfl]
    refine Triple.pure ?_
    rintro _ rfl
    exact h.passed_of_unmoved hclosed ⟨fun _ => rfl, fun _ _ _ hx => hx, fun _ _ => rfl⟩
  | cons m up =>
    obtain ⟨v, hv, hmem, -⟩ := Bunch.parent_of_node? hb
    have hvt : v.isTask = false := by
      by_contra hn
      have := (Bunch.wf_of_node? hv).children_of_isTask (Bool.eq_true_of_not_eq_false hn)
      simp [this] at hmem
    obtain ⟨hcomplete, hmore⟩ := h.computedStatus_parent hb hv
    obtain ⟨hpass, hstill⟩ := hk (by simp) s v hv hvt
    by_cases ho : b.Opens φ looks (n :: m :: up)
    · exact (hpass (hcomplete ho)).conseq (fun _ hu => hu) (fun _ _ hp => h.passed ho hp)
        fun _ _ hf => h.failed ho hf
    · exact (hstill (hmore ho)).conseq (fun _ hu => hu)
        (fun _ _ hu => h.passed_of_unmoved ho hu) fun _ _ hf => hf.elim

end Visited

end Takler
