import Takler.Linked.Edits

/-!
# The status calls leave the tree alone

Setting, sinking, swimming and requeueing write statuses, counts, free flags, repeats and
unknown submissions, whatever way they go through the tree and wherever they raise. `SameTree` is
the rest, and every status call is within it.

## Main definitions

* `SameTree`.
* `StatusClosed`: a relation that the single writes of the status calls keep to.

## Main results

* `StatusClosed.program`: then every status call keeps to it.
* `sameTree_program`: a status call leaves the tree alone.
* `linked_perform`: an action that attaches only detached nodes keeps the heap well linked.
-/

namespace Takler.Linked

open Program

/-- The links, the classes, the generations and the listed nodes with times are as before, and the
same nodes have times. -/
structure SameTree (h h' : Heap) : Prop where
  size : h'.size = h.size
  kind : ∀ n, (h'.obj n).kind = (h.obj n).kind
  parent : ∀ n, (h'.obj n).parent = (h.obj n).parent
  children : ∀ n, (h'.obj n).children = (h.obj n).children
  bunch : ∀ n, (h'.obj n).bunch = (h.obj n).bunch
  generation : ∀ n, (h'.obj n).definitionGeneration = (h.obj n).definitionGeneration
  calendarNodes : ∀ n, (h'.obj n).calendarNodes = (h.obj n).calendarNodes
  times : ∀ n, (h'.obj n).times = [] ↔ (h.obj n).times = []

namespace SameTree

variable {h h' : Heap}

theorem refl (h : Heap) : SameTree h h :=
  ⟨rfl, fun _ => rfl, fun _ => rfl, fun _ => rfl, fun _ => rfl, fun _ => rfl, fun _ => rfl,
    fun _ => .rfl⟩

theorem trans {h'' : Heap} (h₁ : SameTree h h') (h₂ : SameTree h' h'') : SameTree h h'' where
  size := h₂.size.trans h₁.size
  kind n := (h₂.kind n).trans (h₁.kind n)
  parent n := (h₂.parent n).trans (h₁.parent n)
  children n := (h₂.children n).trans (h₁.children n)
  bunch n := (h₂.bunch n).trans (h₁.bunch n)
  generation n := (h₂.generation n).trans (h₁.generation n)
  calendarNodes n := (h₂.calendarNodes n).trans (h₁.calendarNodes n)
  times n := (h₂.times n).trans (h₁.times n)

instance : Std.Refl SameTree := ⟨refl⟩

instance : IsTrans Heap SameTree := ⟨fun _ _ _ => trans⟩

theorem forest (hs : SameTree h h') : h'.forest = h.forest :=
  Heap.forest_eq hs.size hs.parent hs.children

/-- A write to the other fields. -/
theorem write {n : Ref} {f : Obj → Obj} (hk : (f (h.obj n)).kind = (h.obj n).kind)
    (hp : (f (h.obj n)).parent = (h.obj n).parent)
    (hc : (f (h.obj n)).children = (h.obj n).children)
    (hb : (f (h.obj n)).bunch = (h.obj n).bunch)
    (hg : (f (h.obj n)).definitionGeneration = (h.obj n).definitionGeneration)
    (hl : (f (h.obj n)).calendarNodes = (h.obj n).calendarNodes)
    (ht : (f (h.obj n)).times = [] ↔ (h.obj n).times = []) : SameTree h (h.modify n f) where
  size := rfl
  kind := Heap.field_modify Obj.kind hk
  parent := Heap.field_modify Obj.parent hp
  children := Heap.field_modify Obj.children hc
  bunch := Heap.field_modify Obj.bunch hb
  generation := Heap.field_modify Obj.definitionGeneration hg
  calendarNodes := Heap.field_modify Obj.calendarNodes hl
  times m := by
    by_cases hm : m = n
    · rw [hm, Heap.obj_modify_self, ht]
    · rw [Heap.obj_modify_of_ne f hm]

end SameTree

/-! ### The calls -/

theorem sameTree_forgetUnknown (h : Heap) (n : Ref) (status : NodeStatus) :
    SameTree h (h.forgetUnknown n status) := by
  unfold Heap.forgetUnknown
  split_ifs
  · exact .write rfl rfl rfl rfl rfl rfl .rfl
  · exact .refl h

theorem sameTree_changeStatus (h : Heap) (n : Ref) (status : NodeStatus) :
    SameTree h (h.changeStatus n status) := by
  have hset : SameTree h (h.modify n fun o => { o with status }) :=
    .write rfl rfl rfl rfl rfl rfl .rfl
  unfold Heap.changeStatus
  dsimp only
  split
  · exact .refl h
  · split
    · exact hset
    · split_ifs
      · exact hset.trans (.write rfl rfl rfl rfl rfl rfl .rfl)
      · exact hset

theorem sameTree_setNodeStatusOnly (h : Heap) (n : Ref) (status : NodeStatus) :
    SameTree h (h.setNodeStatusOnly n status) :=
  (sameTree_forgetUnknown h n status).trans (sameTree_changeStatus _ n status)

theorem sameTree_computedStatus (n : Ref) : Within SameTree (computedStatus n) := by
  refine .bind .get fun h => ?_
  split
  · exact .throw _
  · exact .pure _
  all_goals
    refine .ite (.pure _) (.bind ?_ fun _ => .pure _)
    exact .modify fun _ => .write rfl rfl rfl rfl rfl rfl .rfl

/-- A relation that the writes of the status calls keep to. -/
structure StatusClosed (R : Heap → Heap → Prop) : Prop where
  setStatus : ∀ h n status, R h (Heap.setNodeStatusOnly h n status)
  computed : ∀ n, Within R (computedStatus n)
  reset : ∀ (h : Heap) n times nodeRepeat, (times = [] ↔ (h.obj n).times = []) →
    R h (h.modify n fun o => { o with times, nodeRepeat })

theorem statusClosed_sameTree : StatusClosed SameTree where
  setStatus := sameTree_setNodeStatusOnly
  computed := sameTree_computedStatus
  reset _ _ _ _ ht := .write rfl rfl rfl rfl rfl rfl ht

namespace StatusClosed

theorem setNodeStatusOnly {R : Heap → Heap → Prop} (hR : StatusClosed R) (n : Ref)
    (status : NodeStatus) : Within R (setNodeStatusOnly n status) :=
  .modify fun h => hR.setStatus h n status

variable {R : Heap → Heap → Prop} [Std.Refl R] [IsTrans Heap R] (hR : StatusClosed R)

include hR

theorem sinkStatusChangeOnly (k : ℕ) (n : Ref) (status : NodeStatus) :
    Within R (sinkStatusChangeOnly k n status) := by
  induction k generalizing n with
  | zero => exact .pure _
  | succ k ih =>
    exact .bind (hR.setNodeStatusOnly n status) fun _ => .bind .get fun h =>
      .when (.forM fun c _ => ih c)

theorem requeueNode (n : Ref) (resetRepeat : Bool) : Within R (requeueNode n resetRepeat) :=
  .bind .get fun _ => .bind (hR.setNodeStatusOnly n _) fun _ => .modify fun _ =>
    hR.reset _ n _ _ List.map_eq_nil_iff

theorem requeue (k : ℕ) (n : Ref) (resetRepeat : Bool) : Within R (requeue k n resetRepeat) := by
  induction k generalizing n with
  | zero => exact .pure _
  | succ k ih =>
    refine .bind .get fun h => ?_
    split
    · exact hR.requeueNode n resetRepeat
    · exact .ite (.throw _) (hR.requeueNode n resetRepeat)
    all_goals
      exact .ite (.throw _) (.bind (hR.requeueNode n resetRepeat) fun _ => .bind .get fun h =>
        .bind (.forM fun c _ => ih c) fun _ => .when (hR.sinkStatusChangeOnly _ n _))

theorem swim (k : ℕ) : (∀ n, Within R (swimStatusChange k n)) ∧
    ∀ n, Within R (swimStatusChangeOnly k n) := by
  induction k with
  | zero => exact ⟨fun n => .pure _, fun n => .pure _⟩
  | succ k ih =>
    refine ⟨fun n => ?_, fun n => ?_⟩
    · refine .bind (hR.computed n) fun status => .bind .get fun h =>
        .bind (.when (hR.setNodeStatusOnly n status)) fun _ => ?_
      split
      · refine .bind (.modify fun h => ?_) fun _ => .bind (hR.requeue _ n _) fun _ => ih.2 n
        exact hR.reset h n _ _ .rfl
      · split
        · exact .pure _
        · exact ih.1 _
    · refine .bind .get fun h => .ite ?_ (.bind (hR.computed n) fun status =>
        .bind (.when (hR.setNodeStatusOnly n status)) fun _ => ?_)
      · split
        · exact .pure _
        · exact ih.2 _
      · split
        · exact .pure _
        · exact ih.1 _

theorem handleStatusChange (k : ℕ) (n : Ref) : Within R (handleStatusChange k n) :=
  .bind .get fun _ => .when ((hR.swim k).1 n)

theorem setNodeStatus (k : ℕ) (n : Ref) (status : NodeStatus) :
    Within R (setNodeStatus k n status) :=
  .bind .get fun _ => .ite (.pure _) (.bind (hR.setNodeStatusOnly n status) fun _ =>
    hR.handleStatusChange k n)

/-- Every status call keeps to the relation, whatever way it goes and wherever it raises. -/
theorem program (call : StatusCall) : Within R call.program := by
  cases call with
  | setNodeStatusOnly n status => exact hR.setNodeStatusOnly n status
  | setNodeStatus k n status => exact hR.setNodeStatus k n status
  | sinkStatusChangeOnly k n status => exact hR.sinkStatusChangeOnly k n status
  | sinkStatusChange k n status =>
    refine .bind .get fun h => ?_
    split
    · exact hR.sinkStatusChangeOnly k n status
    · exact hR.setNodeStatus k n status
    all_goals
      exact .bind (hR.sinkStatusChangeOnly k n status) fun _ => hR.handleStatusChange k n
  | swimStatusChange k n => exact (hR.swim k).1 n
  | swimStatusChangeOnly k n => exact (hR.swim k).2 n
  | requeue k n resetRepeat => exact hR.requeue k n resetRepeat
  | computedStatus n => exact .bind (hR.computed n) fun _ => .pure _

end StatusClosed

/-- A status call leaves the tree alone. -/
theorem sameTree_program (call : StatusCall) : Within SameTree call.program :=
  statusClosed_sameTree.program call

/-! ### Links through every action -/

theorem wellLinked_empty : Heap.WellLinked {} where
  parent_of_mem hc := absurd hc List.not_mem_nil
  mem_of_parent hp := absurd hp nofun
  nodup _ := List.nodup_nil
  bounded hp := absurd hp nofun
  climbs := ⟨fun _ => ⟨_, fun _ hp => absurd hp nofun⟩⟩

theorem Heap.WellLinked.links_size {h : Heap} (hl : h.WellLinked) :
    (h.obj h.size).parent = none ∧ (h.obj h.size).children = [] := by
  refine ⟨?_, List.eq_nil_iff_forall_not_mem.mpr fun c hc => ?_⟩
  · by_contra hne
    obtain ⟨p, hp⟩ := Option.ne_none_iff_exists'.mp hne
    exact absurd (hl.bounded hp).1 (lt_irrefl _)
  · exact absurd (hl.bounded (hl.parent_of_mem hc)).2 (lt_irrefl _)

@[simp] theorem obj_create_self (h : Heap) (kind : Kind) (name : String) :
    (h.create kind name).obj h.size = { name, kind } := Function.update_self ..

theorem obj_create_of_ne (h : Heap) (kind : Kind) (name : String) {m : Ref} (hm : m ≠ h.size) :
    (h.create kind name).obj m = h.obj m := Function.update_of_ne hm ..

theorem forest_create {h : Heap} (hl : h.WellLinked) (kind : Kind) (name : String) :
    (h.create kind name).forest = { h.forest with size := h.size + 1 } := by
  obtain ⟨hp, hc⟩ := hl.links_size
  unfold Heap.forest
  congr 1
  · funext m
    by_cases hm : m = h.size
    · rw [hm, obj_create_self]
      exact hp.symm
    · rw [obj_create_of_ne h kind name hm]
  · funext m
    by_cases hm : m = h.size
    · rw [hm, obj_create_self]
      exact hc.symm
    · rw [obj_create_of_ne h kind name hm]

@[simp] theorem forest_addFlow (h : Heap) (b f : Ref) (uuid : Uuid) :
    (h.addFlow b f uuid).forest = h.forest :=
  (Heap.forest_modify rfl rfl).trans (forest_ensureDefinitionGeneration h f none uuid)

@[simp] theorem forest_addTimeAttribute (h : Heap) (n : Ref) (a : TimeAttribute) :
    (h.addTimeAttribute n a).forest = h.forest :=
  (forest_forgetCalendar _ n).trans (Heap.forest_modify rfl rfl)

theorem sameTree_calendarChanged (time : ℤ) (l : List Ref) (h : Heap) :
    SameTree h (l.foldl (Heap.calendarChanged time) h) := by
  induction l generalizing h with
  | nil => exact .refl h
  | cons n l ih =>
    exact .trans (.write rfl rfl rfl rfl rfl rfl List.map_eq_nil_iff) (ih _)

/-- Moving the calendar of a flow writes nothing else. -/
theorem moveCalendar_eq_ok {h h₁ : Heap} {f : Ref} {now time : ℤ}
    (hm : h.moveCalendar f now = .ok (time, h₁)) :
    ∃ calendar, h₁ = h.modify f fun o => { o with calendar } := by
  unfold Heap.moveCalendar at hm
  obtain ⟨calendar, _, hm⟩ := Except.bind_eq_ok.mp hm
  split at hm
  · cases hm
  · cases hm
    exact ⟨calendar, rfl⟩

theorem sameTree_moveCalendar {h h₁ : Heap} {f : Ref} {now time : ℤ}
    (hm : h.moveCalendar f now = .ok (time, h₁)) : SameTree h h₁ := by
  obtain ⟨calendar, rfl⟩ := moveCalendar_eq_ok hm
  exact .write rfl rfl rfl rfl rfl rfl .rfl

theorem updateCalendar_eq_ok {h h' : Heap} {f : Ref} {now : ℤ}
    (hu : h.updateCalendar f now = .ok h') : ∃ time h₁, h.moveCalendar f now = .ok (time, h₁) ∧
      h' = (h₁.calendarTargets f).foldl (Heap.calendarChanged time)
        (h₁.modify f fun o => { o with calendarNodes := some (h₁.calendarTargets f) }) := by
  unfold Heap.updateCalendar at hu
  obtain ⟨⟨time, h₁⟩, hm, hu⟩ := Except.bind_eq_ok.mp hu
  cases hu
  exact ⟨time, h₁, hm, rfl⟩

/-- A field that neither the calendars nor the time attributes are part of. -/
theorem field_updateCalendar {α : Type} (g : Obj → α)
    (hsame : ∀ {h h' : Heap}, SameTree h h' → ∀ n, g (h'.obj n) = g (h.obj n))
    (hlist : ∀ (o : Obj) l, g { o with calendarNodes := l } = g o) (h : Heap) (f : Ref) (now : ℤ)
    (n : Ref) : g ((h.after (h.updateCalendar f now)).obj n) = g (h.obj n) := by
  cases hu : h.updateCalendar f now with
  | error e => rfl
  | ok h' =>
    obtain ⟨time, h₁, hm, rfl⟩ := updateCalendar_eq_ok hu
    refine (hsame (sameTree_calendarChanged _ _ _) n).trans ?_
    exact (Heap.field_modify g (hlist _ _) n).trans (hsame (sameTree_moveCalendar hm) n)

theorem forest_updateCalendar (h : Heap) (f : Ref) (now : ℤ) :
    (h.after (h.updateCalendar f now)).forest = h.forest := by
  cases hu : h.updateCalendar f now with
  | error e => rfl
  | ok h' =>
    obtain ⟨time, h₁, hm, rfl⟩ := updateCalendar_eq_ok hu
    refine (sameTree_calendarChanged _ _ _).forest.trans ?_
    exact (Heap.forest_modify rfl rfl).trans (sameTree_moveCalendar hm).forest

/-- The actions that leave the tree alone. -/
def Action.LeavesTree : Action → Prop
  | .addRepeat .. | .setDefaultNodeStatus .. | .markSubmissionUnknown .. | .beginCalendar ..
  | .status _ => True
  | _ => False

theorem sameTree_perform (h : Heap) {a : Action} (ha : a.LeavesTree) :
    SameTree h (a.perform h) := by
  cases a with
  | addRepeat | setDefaultNodeStatus | markSubmissionUnknown | beginCalendar =>
    rw [Action.perform]
    exact .write rfl rfl rfl rfl rfl rfl .rfl
  | status call => exact sameTree_program call h
  | _ => exact ha.elim

/-- An action that attaches only detached nodes keeps the heap well linked. -/
theorem linked_perform {h : Heap} (hl : h.WellLinked) {a : Action} (he : a.enabled h)
    (hd : a.AttachesDetached h) : (a.perform h).WellLinked := by
  have hsame : ∀ {h' : Heap}, h'.forest = h.forest → h'.WellLinked := by
    intro h' hf
    rw [Heap.WellLinked, hf]
    exact hl
  cases a with
  | create kind name =>
    rw [Action.perform, Heap.WellLinked, forest_create hl]
    exact hl.grow (Nat.le_succ _)
  | appendChild p c uuid =>
    obtain ⟨hp, hc⟩ := of_decide_eq_true he
    exact (attached_appendChild hl hp hc hd uuid).linked
  | updateChild p child c =>
    obtain ⟨hp, hc⟩ := of_decide_eq_true he
    rcases attached_updateChild hl hp hc hd child with heq | ha
    · exact (congrArg Heap.WellLinked heq).mpr hl
    · exact ha.linked
  | deleteChild p child => exact (deletes_deleteChild h p child ∅ hl).2
  | deleteChildren p => exact (deletes_deleteChildren h.size h p ∅ hl).2
  | addFlow b f uuid => exact hsame (forest_addFlow h b f uuid)
  | addTimeAttribute n a => exact hsame (forest_addTimeAttribute h n a)
  | updateCalendar f now => exact hsame (forest_updateCalendar h f now)
  | addRepeat | setDefaultNodeStatus | markSubmissionUnknown | beginCalendar | status =>
    exact hsame (SameTree.forest (sameTree_perform h (by exact trivial)))

end Takler.Linked
