import Takler.Core.Requeue

/-!
# The status a node ends up with

A status that is set on a node starts to swim up at the node itself: a container with children
takes what it computes from them, whatever was set. So a status is kept by tasks, by containers
without children and by containers whose children agree with it; a container otherwise shows the
status of its children again. Where no repeat is met on the way, nothing else happens to the node.

## Main definitions

* `Bunch.Unrepeated`: no repeat on a node and its ancestors.
* `Tree.KeepsStatus`: the nodes on which a status that is set stays.

## Main results

* `exec_swimStatusChange`: swimming without repeats.
* `exec_setNodeStatus`, `exec_sinkStatusChange`: the status after it was set.
-/

namespace Takler

open Program

/-- Neither the node at a path nor an ancestor of it has a repeat. -/
def Bunch.Unrepeated (b : Bunch) (p : NodePath) : Prop :=
  ∀ q t, q <:+ p → b.node? q = some t → t.defn.repeatDate = none

theorem Bunch.Unrepeated.parent {b : Bunch} {n : String} {up : NodePath}
    (h : b.Unrepeated (n :: up)) : b.Unrepeated up :=
  fun q t hq => h q t (hq.trans (List.suffix_cons n up))

/-- A status stays on a node that computes its status from itself, and on a container whose
children show that status. -/
def Tree.KeepsStatus (p : NodePath) (t : Tree) (status : NodeStatus) (s : State) : Prop :=
  t.isTask = true ∨ t.children = [] ∨
    mostSignificant (t.children.map fun c => (s.node (c.name :: p)).status) = status

variable {b : Bunch} {p : NodePath} {t : Tree}

/-- A node that has the status computes it exactly when it keeps it. -/
theorem Tree.keepsStatus_iff {status : NodeStatus} {s : State}
    (hs : (s.node p).status = status) :
    t.KeepsStatus p status s ↔ s.computedStatus p t = status := by
  unfold Tree.KeepsStatus
  by_cases ht : t.isTask = true
  · simp [State.computedStatus, ht, hs]
  by_cases hc : t.children = []
  · simp [State.computedStatus, hc, hs]
  · rw [State.computedStatus_eq (Bool.eq_false_of_not_eq_true ht) hc]
    simp [ht, hc]

/-- Only the statuses of the children matter. -/
theorem Tree.KeepsStatus.congr {status : NodeStatus} {s s' : State}
    (h : ∀ q, q ≠ p → (s'.node q).status = (s.node q).status) :
    t.KeepsStatus p status s' ↔ t.KeepsStatus p status s := by
  have hmap : (t.children.map fun c => (s'.node (c.name :: p)).status) =
      t.children.map fun c => (s.node (c.name :: p)).status :=
    List.map_congr_left fun c _ => h _ (by simp)
  unfold Tree.KeepsStatus
  rw [hmap]

/-! ### Swimming up -/

theorem exec_adoptComputed (p : NodePath) (t : Tree) (s : State) :
    ∃ u, exec (adoptComputed p t) s = (.ok (s.computedStatus p t), u) ∧ ∀ q,
      (u.node q).status = if q = p then s.computedStatus p t else (s.node q).status := by
  by_cases h : s.computedStatus p t = (s.node p).status
  · refine ⟨s, by simp [adoptComputed, adoptStatus, exec_bind, Program.when, h], fun q => ?_⟩
    split_ifs with hq
    · rw [hq, h]
    · rfl
  · obtain ⟨u, hu, hset⟩ := effect_setNodeStatusOnly p t (s.computedStatus p t) s
    refine ⟨u, ?_, hset.status⟩
    simp only [adoptComputed, adoptStatus, exec_bind, exec_get, Program.when, ne_eq, h,
      not_false_eq_true, if_true, hu, exec_pure]

/-- **Swimming without repeats** gives the node its computed status and leaves every status alone
that is not on the way up. -/
theorem exec_swimStatusChange : ∀ {p : NodePath}, b.Unrepeated p → ∀ s : State,
    ∃ u, exec (swimStatusChange b p) s = (.ok (), u) ∧
      (∀ q, ¬ q <:+ p → (u.node q).status = (s.node q).status) ∧
      ∀ t, b.node? p = some t → (u.node p).status = s.computedStatus p t
  | [], _, s => ⟨s, by rw [swimStatusChange]; rfl, fun _ _ => rfl, fun _ ht => by cases ht⟩
  | n :: up, h, s => by
    cases hb : b.node? (n :: up) with
    | none => exact ⟨s, by rw [swimStatusChange, hb]; rfl, fun _ _ => rfl, by simp⟩
    | some t =>
      obtain ⟨v, hv, hadopt⟩ := exec_adoptComputed (n :: up) t s
      obtain ⟨u, hu, hkeep, -⟩ := exec_swimStatusChange h.parent v
      have hnone : t.defn.repeatDate = none := h (n :: up) t List.suffix_rfl hb
      refine ⟨u, ?_, fun q hq => ?_, ?_⟩
      · by_cases hc : s.computedStatus (n :: up) t = .complete
        · simp only [swimStatusChange, hb, exec_bind, hv, hc, if_true, advanceRepeat, hnone, exec_pure,
            Bool.false_eq_true, if_false, hu]
        · simp only [swimStatusChange, hb, exec_bind, hv, hc, if_false, hu]
      · rw [hkeep q fun hup => hq (hup.trans (List.suffix_cons n up)), hadopt q, if_neg]
        exact fun heq => hq (heq ▸ List.suffix_rfl)
      · rintro _ ⟨⟩
        rw [hkeep (n :: up) fun hs => by simpa using hs.length_le, hadopt, if_pos rfl]

theorem exec_handleStatusChange (hb : b.node? p = some t) (h : b.Unrepeated p) (s : State) :
    ∃ u, exec (handleStatusChange b p t) s = (.ok (), u) ∧
      (∀ q, ¬ q <:+ p → (u.node q).status = (s.node q).status) ∧
      (u.node p).status = s.computedStatus p t := by
  obtain ⟨v, hv, hnode⟩ : ∃ v, exec (when t.isTask (updateLimits p)) s = (.ok (), v) ∧
      v.node = s.node := by
    unfold Program.when
    split_ifs
    · obtain ⟨v, hv, marks, rfl⟩ := effect_updateLimits p s
      exact ⟨_, hv, rfl⟩
    · exact ⟨s, rfl, rfl⟩
  obtain ⟨u, hu, hkeep, hroot⟩ := exec_swimStatusChange h v
  refine ⟨u, by simp [handleStatusChange, exec_bind, hv, hu], fun q hq => ?_, ?_⟩
  · rw [hkeep q hq, hnode]
  · rw [hroot t hb]
    exact State.computedStatus_congr (by rw [hnode]) fun c _ => by rw [hnode]

/-! ### Setting a status -/

/-- **A status that is set on a node** stays there when the node had it already or keeps it. -/
theorem exec_setNodeStatus (hb : b.node? p = some t) (h : b.Unrepeated p) (status : NodeStatus)
    (s : State) : ∃ u, exec (setNodeStatus b p t status) s = (.ok (), u) ∧
      ((u.node p).status = status ↔ (s.node p).status = status ∨ t.KeepsStatus p status s) := by
  by_cases hs : (s.node p).status = status
  · exact ⟨s, by simp [setNodeStatus, exec_bind, hs], by simp [hs]⟩
  obtain ⟨v, hv, hset⟩ := effect_setNodeStatusOnly p t status s
  obtain ⟨u, hu, -, hroot⟩ := exec_handleStatusChange hb h v
  refine ⟨u, by simp [setNodeStatus, exec_bind, hs, hv, hu], ?_⟩
  have hown : (v.node p).status = status := by rw [hset.status, if_pos rfl]
  have hothers (q : NodePath) (hq : q ≠ p) : (v.node q).status = (s.node q).status := by
    rw [hset.status, if_neg hq]
  rw [hroot, ← Tree.keepsStatus_iff hown, Tree.KeepsStatus.congr hothers]
  simp [hs]

private theorem effect_updateAllLimits (l : List (NodePath × Tree)) :
    Effect (fun s s' => s'.node = s.node) (l.forM fun x => updateLimits x.1) :=
  Effect.forM (S := fun _ (s s' : State) => s'.node = s.node) (R := fun _ s s' => s'.node = s.node)
    (fun x => (effect_updateLimits x.1).mono fun s s' ⟨_, hs⟩ => by rw [hs])
    (fun _ => rfl) (fun _ _ _ _ _ h₁ h₂ => h₂.trans h₁) l

/-- **A status that sinks** stays on every node of the tree. -/
theorem exec_sinkStatusChange (hb : b.node? p = some t) (h : b.Unrepeated p) (status : NodeStatus)
    (s : State) : ∃ u, exec (sinkStatusChange b p t status) s = (.ok (), u) ∧
      ∀ x ∈ t.walk p, (u.node x.1).status = status := by
  by_cases ht : t.isTask = true
  · obtain ⟨u, hu, hiff⟩ := exec_setNodeStatus hb h status s
    refine ⟨u, by rw [sinkStatusChange, if_pos ht, hu], fun x hx => ?_⟩
    rcases Tree.mem_walk.mp hx with rfl | ⟨c, hc, -⟩
    · exact hiff.mpr (.inr (.inl ht))
    · simp [(Bunch.wf_of_node? hb).children_of_isTask ht] at hc
  obtain ⟨v, hv, -, hsunk⟩ := effect_sinkStatusChangeOnly p t status s
  obtain ⟨w, hw, hnode⟩ := effect_updateAllLimits
    (((t.descendants p).filter fun x => x.2.isTask).reverse) v
  obtain ⟨u, hu, hkeep, hroot⟩ := exec_handleStatusChange hb h w
  have hstatus (x : NodePath × Tree) (hx : x ∈ t.walk p) : (w.node x.1).status = status := by
    rw [hnode]
    exact (hsunk x hx).1
  have hself := hstatus (p, t) (Tree.self_mem_walk p t)
  refine ⟨u, by simp only [sinkStatusChange, ht, exec_bind, hv, hw, hu, Bool.false_eq_true,
    if_false], fun x hx => ?_⟩
  by_cases hxp : x.1 = p
  · rw [hxp, hroot, State.computedStatus_of_forall_eq fun c hc => ?_, hself]
    rw [hself]
    exact hstatus _ (Bunch.mem_walk_child (Tree.self_mem_walk p t) hc)
  · rw [hkeep x.1 fun hs => hxp (hs.eq_of_length_le (Tree.suffix_of_mem_walk hx).length_le)]
    exact hstatus x hx

end Takler
