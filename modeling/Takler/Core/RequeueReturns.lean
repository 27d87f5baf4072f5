import Takler.Core.Aggregate
import Takler.Core.Scope

/-!
# When a requeue returns

A requeue raises at a task whose submission has an unknown outcome, or of which the index cannot
forget a path (`State.Stuck`). So when it returns, there was no such task in its tree.

## Main results

* `requeue_returns`: a requeue returns only when no task of the tree is stuck.
-/

namespace Takler

open Program

variable {b : Bunch}

/-- Whether a task is stuck depends on its identity and on the files. -/
theorem State.stuck_congr {s s' : State} {x : NodePath × Tree}
    (ht : (s'.node x.1).task = (s.node x.1).task) (hm : s'.moved x.1 = s.moved x.1) :
    s'.Stuck x ↔ s.Stuck x := by
  rw [State.Stuck, State.Stuck, State.IsMoved, State.IsMoved, ht, hm]

private theorem taskRequeue_returns {p : NodePath} {t : Tree} (hb : b.node? p = some t)
    (ht : t.isTask = true) (resetRepeat : Bool) (s : State) :
    Triple (· = s) (Task.requeue p t resetRepeat) (fun _ _ => ∀ x ∈ t.walk p, ¬ s.Stuck x)
      (fun _ _ => True) := by
  have hwalk {x : NodePath × Tree} := (Bunch.wf_of_node? hb).eq_of_mem_walk (p := p) (x := x) ht
  have htoken : Triple (· = s) (when (t.kind = .shell)
      (modifyTask p fun k => { k with submissionToken := none }))
      (fun _ u => u.Stuck (p, t) ↔ s.Stuck (p, t)) (fun _ _ => True) := by
    refine Triple.when (fun _ => Triple.modify ?_) fun _ => ?_
    · rintro s rfl
      simp [State.Stuck, State.IsMoved, TaskState.paths]
    · rintro s rfl
      exact Iff.rfl
  refine htoken.bind fun _ => Triple.get_bind fun u hu =>
    Triple.ite (fun _ => Triple.throw fun _ _ => trivial) fun hsome => ?_
  refine (requeueTask_spec p t resetRepeat _ u).conseq (fun _ hv => hv) ?_ fun _ _ _ => trivial
  rintro _ w ⟨hm, -⟩ x hx
  rw [hwalk hx, ← hu]
  rintro ⟨-, hr | hr⟩
  · exact hsome (Option.isSome_iff_ne_none.mpr hr)
  · exact hm hr

/-- **When a requeue returns, no task of its tree was stuck.** By induction over the tree: a sibling
that was requeued before has left the nodes outside it alone. -/
theorem requeue_returns (resetRepeat : Bool) {t : Tree} : ∀ {p : NodePath}, b.node? p = some t →
    ∀ s : State, Triple (· = s) (requeue p t resetRepeat)
      (fun _ _ => ∀ x ∈ t.walk p, ¬ s.Stuck x) (fun _ _ => True) := by
  induction t using Tree.induction with
  | h d cs ih =>
    intro p hb s
    have hnodup : (cs.map Tree.name).Nodup := (Bunch.wf_of_node? hb).nodup
    have hchildren : ∀ l : List Tree, (∀ c ∈ l, c ∈ cs) → (l.map Tree.name).Nodup → ∀ s : State,
        Triple (· = s) (requeueChildren p l resetRepeat)
          (fun _ _ => ∀ x ∈ Tree.walkList p l, ¬ s.Stuck x) (fun _ _ => True) := by
      intro l hl hnodup
      induction l with
      | nil =>
        intro s
        rw [requeueChildren]
        exact Triple.pure fun _ _ => by simp [Tree.walkList]
      | cons c l ihl =>
        intro s
        rw [requeueChildren]
        have hc := (ih c (hl c List.mem_cons_self) (Bunch.node?_child hb (hl c List.mem_cons_self))
          s).and ((below_requeue (c.name :: p) c resetRepeat).triple s)
        refine (hc.conseq (fun _ hu => ⟨hu, hu⟩) (fun _ _ hu => hu) fun _ _ _ => trivial).bind
          fun _ => Triple.of_forall fun u hu => ?_
        refine (ihl (fun e he => hl e (List.mem_cons_of_mem c he)) (List.nodup_cons.mp hnodup).2
          u).post fun _ _ hv x hx => ?_
        rw [Tree.walkList, List.mem_append] at hx
        rcases hx with hx | hx
        · exact hu.1 x hx
        · obtain ⟨e, he, hxe⟩ := Tree.mem_walkList.mp hx
          -- two siblings of different names have no node in common
          have hout : ¬ c.name :: p <:+ x.1 := fun hs =>
            (List.nodup_cons.mp hnodup).1 (List.mem_map.mpr ⟨e, he, (List.cons.inj
              ((List.suffix_of_suffix_length_le (Tree.suffix_of_mem_walk hxe) hs
                (by simp)).eq_of_length (by simp))).1⟩)
          have hout : (Scope.below (c.name :: p) resetRepeat).touched x.1 = false := by
            simpa [Scope.below] using hout
          rw [← State.stuck_congr (hu.2.task hout) (hu.2.moved _ hout)]
          exact hv x hx
    rw [requeue]
    refine Triple.ite (fun hk => taskRequeue_returns hb hk resetRepeat s) fun hk =>
      Triple.get_bind ?_
    rintro s rfl
    refine Triple.ite (fun _ => Triple.throw fun _ _ => trivial) fun _ => ?_
    have hnode : Within
        (Beyond { touched := (· = p), reset := fun _ => true, restarted := fun _ => true })
        (Node.requeue p (.node d cs) resetRepeat) :=
      beyond_nodeRequeue ⟨by simp, rfl, fun _ => rfl⟩ _
    refine ((hnode.triple s).conseq (fun _ hu => hu)
      (fun _ _ hu => hu) fun _ _ _ => trivial).bind fun _ => Triple.of_forall fun u hu =>
        (hchildren cs (fun _ hc => hc) hnodup u).bind fun _ => ?_
    have hdone (hv : ∀ x ∈ Tree.walkList p cs, ¬ u.Stuck x) :
        ∀ x ∈ (Tree.node d cs).walk p, ¬ s.Stuck x := by
      intro x hx
      rw [Tree.walk, List.mem_cons] at hx
      rcases hx with rfl | hx
      · exact fun hs => hk hs.1
      · have hne : decide (x.1 = p) = false := by simpa using Tree.ne_of_mem_walkList hx
        rw [← State.stuck_congr (hu.task hne) (hu.moved _ hne)]
        exact hv x hx
    exact Triple.when (fun _ => (effect_sinkStatusChangeOnly p (.node d cs) .complete).triple
      fun _ _ _ hv => hdone hv) fun _ _ hv => hdone hv

end Takler
