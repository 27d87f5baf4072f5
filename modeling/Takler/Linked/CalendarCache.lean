import Takler.Linked.StatusCalls

/-!
# The cached nodes with time attributes of a flow

`Flow.update_calendar` looks for the nodes with time attributes once and then only goes through
the list (`_calendar_nodes`), which every edit below the flow has to forget. The edits find the
flow by climbing the parent pointers, so a node that is in the tree without a pointer to it
escapes them: `update_child` of a node by itself clears the pointer of a child that stays in the
list. A task can also be given children; the list has them, while the traversal that the list
stands for, `NodeContainer.calendar_changed`, does not go below a task.

When every edit attaches a node that hangs nowhere and is not a flow, below a container, the list
always has the nodes with times of the current tree.

## Main definitions

* `Action.BuildsTree`: the edits of that kind.
* `Heap.Timed`: the listed nodes include every node of the flow with time attributes.

## Main results

* `timed_of_reachable`: this holds in every reached heap.
* `updateCalendar_of_reachable`: `update_calendar` leaves the time attributes of the flow as the
  full traversal does.
-/

namespace Takler.Linked

open Program

/-- A detached node that is not a flow is attached below a container. -/
def Action.BuildsTree (h : Heap) : Action → Prop
  | .appendChild p c _ | .updateChild p _ c =>
    h.Detached p c ∧ (h.obj c).kind ≠ .flow ∧ (h.obj p).kind.isContainer
  | _ => True

instance (h : Heap) : (a : Action) → Decidable (a.BuildsTree h)
  | .appendChild .. | .updateChild .. => inferInstanceAs (Decidable (_ ∧ _ ∧ _))
  | .addFlow .. => isTrue trivial
  | .create .. | .deleteChild .. | .deleteChildren .. | .addTimeAttribute .. | .addRepeat ..
  | .setDefaultNodeStatus .. | .markSubmissionUnknown .. | .beginCalendar .. | .updateCalendar ..
  | .status .. => isTrue trivial

theorem Action.BuildsTree.attachesDetached {h : Heap} {a : Action} (ha : a.BuildsTree h) :
    a.AttachesDetached h := by
  cases a with
  | appendChild p c uuid => exact ha.1
  | updateChild p child c => exact ha.1
  | _ => trivial

/-- Only containers have children, flows are nobody's children, and a flow that lists its nodes
with times lists them all. -/
structure Heap.Timed (h : Heap) : Prop where
  linked : h.WellLinked
  shape : ∀ {p c}, c ∈ (h.obj p).children → (h.obj p).kind.isContainer ∧ (h.obj c).kind ≠ .flow
  cached : ∀ {f l m}, (h.obj f).kind = .flow → (h.obj f).calendarNodes = some l →
    h.forest.Below m f → (h.obj m).times ≠ [] → m ∈ l

namespace Heap.Timed

variable {h h' : Heap} (ht : h.Timed)

include ht

theorem parent_flow {f : Ref} (hf : (h.obj f).kind = .flow) : (h.obj f).parent = none := by
  by_contra hne
  obtain ⟨p, hp⟩ := Option.ne_none_iff_exists'.mp hne
  exact (ht.shape (ht.linked.mem_of_parent hp (Set.notMem_empty f))).2 hf

/-- What is below a flow finds it by climbing. -/
theorem getFlow_of_below {f n : Ref} (hf : (h.obj f).kind = .flow) (hn : h.forest.Below n f) :
    h.getFlow n = some f :=
  Heap.getFlow_eq_some ⟨∅, ht.linked⟩ (ht.linked.under_of_below hn) (ht.parent_flow hf) hf

/-- A change that leaves the links alone and adds no times. -/
theorem of_forest (hforest : h'.forest = h.forest)
    (hk : ∀ n, (h'.obj n).kind = (h.obj n).kind)
    (htimes : ∀ n, (h'.obj n).times ≠ [] → (h.obj n).times ≠ [])
    (hcal : ∀ {n l}, (h'.obj n).calendarNodes = some l → (h.obj n).calendarNodes = some l) :
    h'.Timed where
  linked := by
    rw [Heap.WellLinked, hforest]
    exact ht.linked
  shape {p c} hc := by
    have hc : c ∈ h'.forest.children p := hc
    rw [hforest] at hc
    rw [hk, hk]
    exact ht.shape hc
  cached {f l m} hf hl hb hm := by
    rw [hk] at hf
    rw [hforest] at hb
    exact ht.cached hf (hcal hl) hb (htimes m hm)

theorem of_sameTree (hs : SameTree h h') : h'.Timed :=
  ht.of_forest hs.forest hs.kind (fun n => mt (hs.times n).mpr) fun {n _} hl =>
    (hs.calendarNodes n).symm.trans hl

theorem of_shrunk (hs : Shrunk h h') (hl : h'.WellLinked) : h'.Timed where
  linked := hl
  shape hc := by
    rw [hs.kind, hs.kind]
    exact ht.shape ((hs.children hc).resolve_right id)
  cached {f l m} hf hcal hb hm := by
    rw [hs.kind] at hf
    rw [hs.times] at hm
    have hsub : h.forest.Below m f :=
      Relation.ReflTransGen.mono (fun _ _ hc => (hs.children hc).resolve_right id) _ _ hb
    exact ht.cached hf (hs.calendar hcal) hsub hm

/-- Attaching a node that is not a flow below a container. -/
theorem of_attached {p c : Ref} (ha : Attached p c h h') (hc : (h.obj c).kind ≠ .flow)
    (hp : (h.obj p).kind.isContainer) : h'.Timed where
  linked := ha.linked
  shape {q d} hd := by
    rw [ha.edited.kind, ha.edited.kind]
    rcases ha.edited.children hd with hd | ⟨rfl, rfl⟩
    · exact ht.shape hd
    · exact ⟨hp, hc⟩
  cached {f l m} hf hcal hb hm := by
    rw [ha.edited.kind] at hf
    rw [ha.edited.times] at hm
    rcases LinkedForest.below_or_below (F := h.forest) (p := p)
      (fun hd => (ha.edited.children hd).imp_right And.left) hb with hb | hb
    · exact ht.cached hf (ha.edited.calendar hcal) hb hm
    · -- The flow of the new child's place has forgotten its list.
      exact absurd ((ha.calendar f (ht.getFlow_of_below hf hb)).symm.trans hcal) nofun

theorem addTimeAttribute (n : Ref) (a : TimeAttribute) : (h.addTimeAttribute n a).Timed := by
  set h₁ := h.modify n fun o => { o with times := o.times ++ [a] } with hh₁
  have hforest : h₁.forest = h.forest := Heap.forest_modify rfl rfl
  have hk₁ : ∀ m, (h₁.obj m).kind = (h.obj m).kind := Heap.field_modify Obj.kind rfl
  have he : Shrunk h₁ (h.addTimeAttribute n a) := .forgetCalendar n
  refine ⟨?_, fun {p c} hc => ?_, fun {f l m} hf hl hb hm => ?_⟩
  · rw [Heap.WellLinked, forest_addTimeAttribute]
    exact ht.linked
  · rw [he.kind, he.kind, hk₁, hk₁]
    have hc : c ∈ (h₁.obj p).children := (he.children hc).resolve_right id
    rw [Heap.field_modify Obj.children rfl] at hc
    exact ht.shape hc
  · rw [he.kind, hk₁] at hf
    rw [forest_addTimeAttribute] at hb
    by_cases hmn : m = n
    · subst hmn
      have hflow : h₁.getFlow m = some f := by
        rw [getFlow_congr hforest hk₁]
        exact ht.getFlow_of_below hf hb
      have hnone : ((h.addTimeAttribute m a).obj f).calendarNodes = none :=
        calendarNodes_forgetCalendar hflow
      exact absurd (hnone.symm.trans hl) (Option.some_ne_none _).symm
    · rw [he.times, Heap.obj_modify_of_ne _ hmn] at hm
      have hl := he.calendar hl
      rw [Heap.field_modify Obj.calendarNodes rfl] at hl
      exact ht.cached hf hl hb hm

theorem create (kind : Kind) (name : String) : (h.create kind name).Timed := by
  have hforest := forest_create ht.linked kind name
  refine ⟨?_, fun {p c} hc => ?_, fun {f l m} hf hl hb hm => ?_⟩
  · rw [Heap.WellLinked, hforest]
    exact ht.linked.grow (Nat.le_succ _)
  · have hc : c ∈ (h.create kind name).forest.children p := hc
    rw [hforest] at hc
    have hlt := ht.linked.bounded (ht.linked.parent_of_mem hc)
    rw [obj_create_of_ne h kind name hlt.1.ne, obj_create_of_ne h kind name hlt.2.ne]
    exact ht.shape hc
  · rw [hforest] at hb
    have hfs : f ≠ h.size := by
      rintro rfl
      rw [obj_create_self] at hl
      cases hl
    have hms : m ≠ h.size := by
      rintro rfl
      rw [obj_create_self] at hm
      exact hm rfl
    rw [obj_create_of_ne h kind name hfs] at hf hl
    rw [obj_create_of_ne h kind name hms] at hm
    exact ht.cached hf hl hb hm

end Heap.Timed

/-! ### Going through the nodes -/

/-- Some nodes have had `calendar_changed` called, perhaps more than once; nothing else has
changed. -/
structure CalendarPass (time : ℤ) (h h' : Heap) : Prop where
  sameTree : SameTree h h'
  times : ∀ n, (h'.obj n).times = (h.obj n).times ∨
    (h'.obj n).times = (h.obj n).times.map (TimeAttribute.calendarChanged time)

theorem TimeAttribute.calendarChanged_idem (time : ℤ) (a : TimeAttribute) :
    (a.calendarChanged time).calendarChanged time = a.calendarChanged time := by
  unfold TimeAttribute.calendarChanged
  split_ifs <;> simp_all

theorem map_calendarChanged_idem (time : ℤ) (l : List TimeAttribute) :
    (l.map (TimeAttribute.calendarChanged time)).map (TimeAttribute.calendarChanged time) =
      l.map (TimeAttribute.calendarChanged time) := by
  rw [List.map_map]
  exact List.map_congr_left fun a _ => a.calendarChanged_idem time

/-- The node has been visited. -/
def Visited (time : ℤ) (h h' : Heap) (n : Ref) : Prop :=
  (h'.obj n).times = (h.obj n).times.map (TimeAttribute.calendarChanged time)

namespace CalendarPass

variable {time : ℤ} {h h' h'' : Heap}

theorem refl (h : Heap) : CalendarPass time h h := ⟨.refl h, fun _ => .inl rfl⟩

theorem visited_left (h₂ : CalendarPass time h' h'') {n : Ref} (hv : Visited time h h' n) :
    Visited time h h'' n := by
  unfold Visited at hv ⊢
  rcases h₂.times n with hn | hn
  · rw [hn, hv]
  · rw [hn, hv, map_calendarChanged_idem]

theorem visited_right (h₁ : CalendarPass time h h') {n : Ref} (hv : Visited time h' h'' n) :
    Visited time h h'' n := by
  unfold Visited at hv ⊢
  rcases h₁.times n with hn | hn
  · rw [hv, hn]
  · rw [hv, hn, map_calendarChanged_idem]

theorem trans (h₁ : CalendarPass time h h') (h₂ : CalendarPass time h' h'') :
    CalendarPass time h h'' := by
  refine ⟨h₁.sameTree.trans h₂.sameTree, fun n => ?_⟩
  rcases h₂.times n with hn | hn
  · rw [hn]
    exact h₁.times n
  · exact .inr (h₁.visited_right hn)

theorem one (time : ℤ) (h : Heap) (n : Ref) :
    CalendarPass time h (h.calendarChanged time n) ∧
      Visited time h (h.calendarChanged time n) n := by
  refine ⟨⟨.write rfl rfl rfl rfl rfl rfl List.map_eq_nil_iff, fun m => ?_⟩, ?_⟩
  · by_cases hm : m = n
    · subst hm
      exact .inr (by rw [Heap.calendarChanged, Heap.obj_modify_self])
    · exact .inl (by rw [Heap.calendarChanged, Heap.obj_modify_of_ne _ hm])
  · rw [Visited, Heap.calendarChanged, Heap.obj_modify_self]

/-- A loop of visits visits what each round visits. -/
theorem foldl {g : Heap → Ref → Heap} {V : Ref → Ref → Prop}
    (hg : ∀ (t : Heap) n, t.forest = h.forest → (∀ m, (t.obj m).kind = (h.obj m).kind) →
      CalendarPass time t (g t n) ∧ ∀ m, V n m → Visited time t (g t n) m)
    (l : List Ref) : ∀ t : Heap, t.forest = h.forest → (∀ m, (t.obj m).kind = (h.obj m).kind) →
      CalendarPass time t (l.foldl g t) ∧
        ∀ n ∈ l, ∀ m, V n m → Visited time t (l.foldl g t) m := by
  induction l with
  | nil => exact fun t _ _ => ⟨.refl t, fun n hn => absurd hn List.not_mem_nil⟩
  | cons x l ih =>
    intro t hf hk
    obtain ⟨hx, hvx⟩ := hg t x hf hk
    obtain ⟨hl, hvl⟩ := ih (g t x) (hx.sameTree.forest.trans hf)
      fun m => (hx.sameTree.kind m).trans (hk m)
    refine ⟨hx.trans hl, fun n hn m hm => ?_⟩
    rcases List.mem_cons.mp hn with rfl | hn
    · exact hl.visited_left (hvx m hm)
    · exact hx.visited_right (hvl n hn m hm)

/-- The full traversal visits all that is below. -/
theorem below (hshape : ∀ {p c}, c ∈ (h.obj p).children → (h.obj p).kind.isContainer) (k : ℕ) :
    ∀ (t : Heap) (n : Ref), t.forest = h.forest → (∀ m, (t.obj m).kind = (h.obj m).kind) →
      CalendarPass time t (t.calendarChangedBelow time k n) ∧
        ∀ m ∈ h.forest.walk k n, Visited time t (t.calendarChangedBelow time k n) m := by
  induction k with
  | zero => exact fun t n _ _ => ⟨.refl t, fun m hm => absurd hm List.not_mem_nil⟩
  | succ k ih =>
    intro t n hf hk
    obtain ⟨hone, hvis⟩ := one time t n
    have hf₁ : (t.calendarChanged time n).forest = h.forest := hone.sameTree.forest.trans hf
    have hk₁ : ∀ m, ((t.calendarChanged time n).obj m).kind = (h.obj m).kind :=
      fun m => (hone.sameTree.kind m).trans (hk m)
    have hchildren : ((t.calendarChanged time n).obj n).children = (h.obj n).children :=
      congrArg (fun F => F.children n) hf₁
    rw [Heap.calendarChangedBelow]
    split_ifs with hcont
    · obtain ⟨hpass, hall⟩ := foldl (V := fun c m => m ∈ h.forest.walk k c) ih
        ((t.calendarChanged time n).obj n).children _ hf₁ hk₁
      refine ⟨hone.trans hpass, fun m hm => ?_⟩
      rw [LinkedForest.walk] at hm
      rcases List.mem_cons.mp hm with rfl | hm
      · exact hpass.visited_left hvis
      · obtain ⟨c, hc, hm⟩ := List.mem_flatMap.mp hm
        have hc : c ∈ (h.obj n).children := List.mem_reverse.mp hc
        rw [← hchildren] at hc
        exact hone.visited_right (hall c hc m hm)
    · refine ⟨hone, fun m hm => ?_⟩
      rw [LinkedForest.walk] at hm
      rcases List.mem_cons.mp hm with rfl | hm
      · exact hvis
      · obtain ⟨c, hc, -⟩ := List.mem_flatMap.mp hm
        rw [hk₁] at hcont
        exact absurd (hshape (List.mem_reverse.mp hc)) hcont

/-- A list of nodes is visited. -/
theorem nodes (time : ℤ) (h : Heap) (l : List Ref) :
    CalendarPass time h (l.foldl (Heap.calendarChanged time) h) ∧
      ∀ n ∈ l, Visited time h (l.foldl (Heap.calendarChanged time) h) n := by
  obtain ⟨hpass, hall⟩ := foldl (h := h) (V := fun n m => m = n)
    (fun t n _ _ => ⟨(one time t n).1, fun m hm => hm ▸ (one time t n).2⟩) l h rfl fun _ => rfl
  exact ⟨hpass, fun n hn => hall n hn n rfl⟩

end CalendarPass

/-! ### The flow's calendar -/

namespace Heap.Timed

variable {h : Heap}

/-- The targets of `update_calendar` include every node of the flow with time attributes. -/
theorem mem_calendarTargets (ht : h.Timed) {f m : Ref} (hf : (h.obj f).kind = .flow)
    (hlt : f < h.size) (hb : h.forest.Below m f) (hm : (h.obj m).times ≠ []) :
    m ∈ h.calendarTargets f := by
  unfold Heap.calendarTargets
  cases hl : (h.obj f).calendarNodes with
  | none =>
    refine List.mem_filter.mpr ⟨ht.linked.mem_subtree hb hlt, ?_⟩
    simpa using hm
  | some l => exact ht.cached hf hl hb hm

theorem updateCalendar (ht : h.Timed) {f : Ref} (hf : (h.obj f).kind = .flow) (hlt : f < h.size)
    (now : ℤ) : (h.after (h.updateCalendar f now)).Timed := by
  cases hu : h.updateCalendar f now with
  | error e => exact ht
  | ok h' =>
    obtain ⟨time, h₁, hmove, rfl⟩ := updateCalendar_eq_ok hu
    have hs₁ := sameTree_moveCalendar hmove
    have ht₁ : h₁.Timed := ht.of_sameTree hs₁
    rw [← hs₁.kind] at hf
    rw [← hs₁.size] at hlt
    have ht₂ : (h₁.modify f fun o =>
        { o with calendarNodes := some (h₁.calendarTargets f) }).Timed := by
      refine ⟨?_, fun {p c} hc => ?_, fun {g l m} hg hl hb hm => ?_⟩
      · rw [Heap.WellLinked, Heap.forest_modify rfl rfl]
        exact ht₁.linked
      · rw [Heap.field_modify Obj.children rfl] at hc
        rw [Heap.field_modify Obj.kind rfl, Heap.field_modify Obj.kind rfl]
        exact ht₁.shape hc
      · rw [Heap.field_modify Obj.kind rfl] at hg
        rw [Heap.field_modify Obj.times rfl] at hm
        rw [Heap.forest_modify rfl rfl] at hb
        by_cases hgf : g = f
        · subst hgf
          rw [Heap.obj_modify_self, Option.some.injEq] at hl
          exact hl ▸ ht₁.mem_calendarTargets hf hlt hb hm
        · rw [Heap.obj_modify_of_ne _ hgf] at hl
          exact ht₁.cached hg hl hb hm
    exact ht₂.of_sameTree (CalendarPass.nodes time _ _).1.sameTree

theorem perform (ht : h.Timed) {a : Action} (he : a.enabled h) (hb : a.BuildsTree h) :
    (a.perform h).Timed := by
  have hl := linked_perform ht.linked he hb.attachesDetached
  cases a with
  | create kind name => exact ht.create kind name
  | appendChild p c uuid =>
    obtain ⟨hp, hc⟩ := of_decide_eq_true he
    exact ht.of_attached (attached_appendChild ht.linked hp hc hb.1 uuid) hb.2.1 hb.2.2
  | updateChild p child c =>
    obtain ⟨hp, hc⟩ := of_decide_eq_true he
    rcases attached_updateChild ht.linked hp hc hb.1 child with heq | ha
    · exact (congrArg Heap.Timed heq).mpr ht
    · exact ht.of_attached ha hb.2.1 hb.2.2
  | deleteChild p child => exact ht.of_shrunk (deletes_deleteChild h p child ∅ ht.linked).1 hl
  | deleteChildren p => exact ht.of_shrunk (deletes_deleteChildren h.size h p ∅ ht.linked).1 hl
  | addFlow b f uuid =>
    have hens : Shrunk h (h.ensureDefinitionGeneration f none uuid) :=
      .ensureDefinitionGeneration f none uuid
    refine ht.of_forest (forest_addFlow h b f uuid) (fun n => ?_) (fun n hn => ?_)
      fun {n l} hcal => ?_
    · rw [Action.perform, Heap.addFlow, Heap.field_modify Obj.kind rfl, hens.kind]
    · rw [Action.perform, Heap.addFlow, Heap.field_modify Obj.times rfl, hens.times] at hn
      exact hn
    · rw [Action.perform, Heap.addFlow, Heap.field_modify Obj.calendarNodes rfl] at hcal
      exact hens.calendar hcal
  | addTimeAttribute n a => exact ht.addTimeAttribute n a
  | updateCalendar f now =>
    obtain ⟨hlt, hf⟩ := of_decide_eq_true he
    exact ht.updateCalendar hf hlt now
  | addRepeat | setDefaultNodeStatus | markSubmissionUnknown | beginCalendar | status =>
    exact ht.of_sameTree (sameTree_perform h (by exact trivial))

end Heap.Timed

/-- In every reached heap a flow that lists its nodes with times lists them all. -/
theorem timed_of_reachable {h : Heap} (hr : objects.Reachable (fun h a => a.BuildsTree h) h) :
    h.Timed := by
  refine hr.invariant (I := Heap.Timed) ?_ ?_
  · rintro s rfl
    exact ⟨wellLinked_empty, fun hc => absurd hc List.not_mem_nil, fun _ hl => absurd hl nofun⟩
  · intro s a t hs hb hstep
    simp only [objects, Option.ite_none_right_eq_some, Option.some.injEq] at hstep
    exact hstep.2 ▸ hs.perform hstep.1 hb

/-- The time attributes of the nodes of a flow. -/
def Heap.timesBelow (h : Heap) (f : Ref) : List (List TimeAttribute) :=
  (h.forest.subtree f).map fun n => (h.obj n).times

/-- **The calendar cache is transparent.** In every heap reached by edits that attach a detached
node which is not a flow below a container, `update_calendar` of a flow leaves its time attributes
as the full traversal does, or raises as it does. -/
theorem updateCalendar_of_reachable {h : Heap}
    (hr : objects.Reachable (fun h a => a.BuildsTree h) h) {f : Ref}
    (hf : (h.obj f).kind = .flow) (hlt : f < h.size) (now : ℤ) :
    (h.updateCalendar f now).map (fun h' => h'.timesBelow f) =
      (h.fullUpdateCalendar f now).map fun h' => h'.timesBelow f := by
  unfold Heap.updateCalendar Heap.fullUpdateCalendar
  cases hmove : h.moveCalendar f now with
  | error e => rfl
  | ok r =>
    obtain ⟨time, h₁⟩ := r
    have hs₁ := sameTree_moveCalendar hmove
    have ht₁ : h₁.Timed := (timed_of_reachable hr).of_sameTree hs₁
    rw [← hs₁.kind] at hf
    rw [← hs₁.size] at hlt
    obtain ⟨hpass, hall⟩ := CalendarPass.nodes time
      (h₁.modify f fun o => { o with calendarNodes := some (h₁.calendarTargets f) })
      (h₁.calendarTargets f)
    obtain ⟨hfull, hbelow⟩ := @CalendarPass.below time h₁ (fun hc => (ht₁.shape hc).1)
      h₁.size h₁ f rfl fun _ => rfl
    refine congrArg Except.ok ?_
    show Heap.timesBelow ((h₁.calendarTargets f).foldl (Heap.calendarChanged time) _) f =
      Heap.timesBelow _ f
    unfold Heap.timesBelow
    rw [hpass.sameTree.forest, Heap.forest_modify rfl rfl, hfull.sameTree.forest]
    refine List.map_congr_left fun n hn => ?_
    rw [hbelow n hn]
    -- A node without times has none after either, a node with times is among the targets.
    by_cases htimes : (h₁.obj n).times = []
    · have := hpass.times n
      rw [Heap.field_modify Obj.times rfl, htimes] at this
      rw [htimes]
      exact this.elim id id
    · have hvis := hall n (ht₁.mem_calendarTargets hf hlt
        (LinkedForest.below_of_mem_subtree hn) htimes)
      rw [Visited, Heap.field_modify Obj.times rfl] at hvis
      exact hvis

/-- The calendar of a flow that was begun at midnight. -/
def midnight : Calendar where
  initialTime := some 0
  flowTime := some 0
  duration := some 0
  increment := some 0
  initialRealTime := some 0
  lastRealTime := some 0

/-- A subtree that already carries a time is attached after the flow has listed its nodes, and its
time comes. -/
theorem updateCalendar_of_reachable_attached : ∃ h : Heap,
    objects.Reachable (fun h a => a.BuildsTree h) h ∧ (h.obj 0).calendarNodes = none ∧
      ((h.updateCalendar 0 36000000000).map fun h' => h'.timesBelow 0).toOption =
        some [[], [], [⟨10, 0, true⟩]] := by
  obtain ⟨h, hr, hf, hlt, hl, hv⟩ := StepSystem.exists_of_run (S := objects)
    (G := fun h a => a.BuildsTree h)
    [.create .flow "f", .create .container "c", .create .task "t", .beginCalendar 0 midnight,
      .updateCalendar 0 0, .appendChild 1 2 ⟨"g", by decide⟩, .addTimeAttribute 2 ⟨10, 0, false⟩,
      .appendChild 0 1 ⟨"g", by decide⟩]
    (fun h => (h.obj 0).kind = .flow ∧ 0 < h.size ∧ (h.obj 0).calendarNodes = none ∧
      ((h.fullUpdateCalendar 0 36000000000).map fun h' => h'.timesBelow 0).toOption =
        some [[], [], [⟨10, 0, true⟩]])
    rfl (by decide +kernel)
  refine ⟨h, hr, hl, ?_⟩
  rw [updateCalendar_of_reachable hr hf hlt, hv]

/-- `update_child` of a task by itself clears its parent pointer and keeps it in the list. The
flow lists its nodes, the task is given a time, which no longer finds the flow, and when the time
comes the list misses it. -/
theorem updateCalendar_misses_time : ∃ h : Heap, objects.Reachable StepSystem.Free h ∧
    (h.obj 0).kind = .flow ∧ 0 < h.size ∧
      ((h.updateCalendar 0 36000000000).map fun h' => h'.timesBelow 0).toOption =
        some [[], [⟨10, 0, false⟩]] ∧
      ((h.fullUpdateCalendar 0 36000000000).map fun h' => h'.timesBelow 0).toOption =
        some [[], [⟨10, 0, true⟩]] :=
  StepSystem.exists_of_run (S := objects) (G := StepSystem.Free)
    [.create .flow "f", .create .task "t", .appendChild 0 1 ⟨"g", by decide⟩,
      .beginCalendar 0 midnight, .updateChild 0 "t" 1, .updateCalendar 0 0,
      .addTimeAttribute 1 ⟨10, 0, false⟩]
    (fun h => (h.obj 0).kind = .flow ∧ 0 < h.size ∧
      ((h.updateCalendar 0 36000000000).map fun h' => h'.timesBelow 0).toOption =
        some [[], [⟨10, 0, false⟩]] ∧
      ((h.fullUpdateCalendar 0 36000000000).map fun h' => h'.timesBelow 0).toOption =
        some [[], [⟨10, 0, true⟩]])
    rfl (by decide +kernel)

end Takler.Linked
