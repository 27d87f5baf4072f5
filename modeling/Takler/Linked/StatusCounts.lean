import Takler.Linked.StatusCalls

/-!
# The cached counts of child statuses

`NodeContainer.computed_status` does not look at the children each time: it keeps how many of them
have each status (`_status_counts`), and `set_node_status_only` of a child lowers one count of its
parent and raises another. The cache is checked only by the number of children, so an exact count
needs every edit of a child list to forget it and every child to stand once, under its parent.

## Main definitions

* `Heap.Counted`: the cached counts are exact.

## Main results

* `sound_setNodeStatusOnly`: a status change of a child keeps the counts exact.
* `computedStatus_of_reachable`: in every reached heap `computed_status` gives the most
  significant status of the current children, and the cached counts are those of the children.
-/

namespace Takler.Linked

open Program

/-- Every cached count is the number of children with the status. -/
def Heap.Counted (h : Heap) : Prop :=
  ∀ n counts, (h.obj n).kind.isContainer → (h.obj n).statusCounts = some counts →
    counts = countStatuses h (h.obj n).children ∧
      (h.obj n).statusChildCount = (h.obj n).children.length

/-- The heaps in which the counts can be relied on. -/
def Heap.Sound (h : Heap) : Prop := h.WellLinked ∧ h.Counted

theorem countStatuses_congr {h h' : Heap} {l : List Ref}
    (hl : ∀ c ∈ l, (h'.obj c).status = (h.obj c).status) :
    countStatuses h' l = countStatuses h l := by
  funext status
  unfold countStatuses
  rw [List.map_congr_left hl]

/-- A heap with the same statuses whose kept counts belong to kept lists. -/
theorem Heap.Counted.of_kept {h h' : Heap} (hc : h.Counted)
    (hk : ∀ n, (h'.obj n).kind = (h.obj n).kind)
    (hs : ∀ n, (h'.obj n).status = (h.obj n).status)
    (hkept : ∀ {n counts}, (h.obj n).kind.isContainer → (h'.obj n).statusCounts = some counts →
      (h.obj n).statusCounts = some counts ∧ (h'.obj n).children = (h.obj n).children ∧
        (h'.obj n).statusChildCount = (h.obj n).statusChildCount) : h'.Counted := by
  intro n counts hn hcs
  rw [hk] at hn
  obtain ⟨hcs, hl, hlen⟩ := hkept hn hcs
  obtain ⟨heq, hcount⟩ := hc n counts hn hcs
  rw [hl, hlen]
  exact ⟨heq.trans (countStatuses_congr fun c _ => hs c).symm, hcount⟩

theorem Heap.Counted.of_edited {E : Ref → Ref → Prop} {h h' : Heap} (hc : h.Counted)
    (he : Edited ∅ E h h') : h'.Counted :=
  hc.of_kept he.kind he.status (he.counts (Set.notMem_empty _))

/-- A write that leaves the class, the status, the children and the counts alone. -/
theorem Heap.Counted.write {h : Heap} (hc : h.Counted) {n : Ref} {f : Obj → Obj}
    (hk : (f (h.obj n)).kind = (h.obj n).kind) (hs : (f (h.obj n)).status = (h.obj n).status)
    (hl : (f (h.obj n)).children = (h.obj n).children)
    (hcs : (f (h.obj n)).statusCounts = (h.obj n).statusCounts)
    (hlen : (f (h.obj n)).statusChildCount = (h.obj n).statusChildCount) :
    (h.modify n f).Counted :=
  hc.of_kept (Heap.field_modify Obj.kind hk) (Heap.field_modify Obj.status hs) fun {m _} _ hm =>
    ⟨(Heap.field_modify Obj.statusCounts hcs m).symm.trans hm,
      Heap.field_modify Obj.children hl m, Heap.field_modify Obj.statusChildCount hlen m⟩

/-! ### A status change -/

/-- The counts after one of the children, which stands once in the list, has changed its status. -/
theorem countStatuses_setStatus {h h' : Heap} {l : List Ref} {n : Ref} (hn : n ∈ l)
    (hnd : l.Nodup) (hother : ∀ c, c ≠ n → (h'.obj c).status = (h.obj c).status)
    (hne : (h.obj n).status ≠ (h'.obj n).status) :
    countStatuses h' l =
      Function.update (Function.update (countStatuses h l) (h.obj n).status
        (countStatuses h l (h.obj n).status - 1)) (h'.obj n).status
          (countStatuses h l (h'.obj n).status + 1) := by
  have hsplit : ∀ (t : Heap) (status : NodeStatus), countStatuses t l status =
      countStatuses t (l.erase n) status + if (t.obj n).status = status then 1 else 0 := by
    intro t status
    unfold countStatuses
    rw [((List.perm_cons_erase hn).map fun c => (t.obj c).status).count_eq, List.map_cons,
      List.count_cons]
    split_ifs <;> simp_all
  have hrest : countStatuses h' (l.erase n) = countStatuses h (l.erase n) :=
    countStatuses_congr fun c hc => hother c fun heq => hnd.not_mem_erase (heq ▸ hc)
  funext status
  by_cases hnew : status = (h'.obj n).status
  · subst hnew
    rw [Function.update_self, hsplit, hsplit h, hrest, if_pos rfl, if_neg hne]
    omega
  · rw [Function.update_of_ne hnew]
    by_cases hold : status = (h.obj n).status
    · subst hold
      rw [Function.update_self, hsplit, hsplit h, hrest, if_pos rfl, if_neg (Ne.symm hne)]
      omega
    · rw [Function.update_of_ne hold, hsplit, hsplit h, hrest, if_neg (Ne.symm hnew),
        if_neg (Ne.symm hold)]

theorem status_changeStatus_of_ne (h : Heap) {n m : Ref} (status : NodeStatus) (hm : m ≠ n) :
    ((h.changeStatus n status).obj m).status = (h.obj m).status := by
  unfold Heap.changeStatus
  dsimp only
  have hset : ((h.modify n fun o => { o with status }).obj m).status = (h.obj m).status := by
    rw [Heap.obj_modify_of_ne _ hm]
  split
  · rfl
  · split
    · exact hset
    · split_ifs
      · rw [Heap.field_modify Obj.status rfl, hset]
      · exact hset

section ChangeStatus

variable {h : Heap} {n m : Ref} {status : NodeStatus} (hne : (h.obj n).status ≠ status)

include hne

theorem status_changeStatus_self : ((h.changeStatus n status).obj n).status = status := by
  rw [Heap.changeStatus, if_neg hne]
  dsimp only
  split
  · simp
  · split_ifs
    · rw [Heap.field_modify Obj.status rfl, Heap.obj_modify_self]
    · simp

theorem statusCounts_changeStatus_parent (hp : (h.obj n).parent = some m)
    (hm : (h.obj m).kind.isContainer) : ((h.changeStatus n status).obj m).statusCounts =
      ((h.obj m).childStatusChanged (h.obj n).status status).statusCounts := by
  rw [Heap.changeStatus, if_neg hne, hp]
  dsimp only
  rw [if_pos hm, Heap.obj_modify_self, Obj.childStatusChanged, Obj.childStatusChanged,
    Heap.field_modify Obj.statusCounts rfl]

theorem statusCounts_changeStatus_other (hp : (h.obj n).parent ≠ some m) :
    ((h.changeStatus n status).obj m).statusCounts = (h.obj m).statusCounts := by
  have hset := Heap.field_modify (h := h) (n := n) (f := fun o => { o with status })
    Obj.statusCounts rfl m
  rw [Heap.changeStatus, if_neg hne]
  dsimp only
  split
  · exact hset
  · rename_i p hq
    split_ifs
    · have hmp : m ≠ p := fun heq => hp (heq ▸ hq)
      rw [Heap.obj_modify_of_ne _ hmp, hset]
    · exact hset

end ChangeStatus

theorem statusChildCount_changeStatus (h : Heap) (n m : Ref) (status : NodeStatus) :
    ((h.changeStatus n status).obj m).statusChildCount = (h.obj m).statusChildCount := by
  have hset := Heap.field_modify (h := h) (n := n) (f := fun o => { o with status })
    Obj.statusChildCount rfl m
  unfold Heap.changeStatus
  dsimp only
  split
  · rfl
  · split
    · exact hset
    · split_ifs
      · rw [Heap.field_modify Obj.statusChildCount rfl, hset]
      · exact hset

/-- A status change keeps the counts exact. -/
theorem counted_changeStatus {h : Heap} (hl : h.WellLinked) (hc : h.Counted) (n : Ref)
    (status : NodeStatus) : (h.changeStatus n status).Counted := by
  by_cases hne : (h.obj n).status = status
  · rw [Heap.changeStatus, if_pos hne]
    exact hc
  have hsame := sameTree_changeStatus h n status
  have hother := fun m (hm : m ≠ n) => status_changeStatus_of_ne h status hm
  intro m counts hm hcs
  rw [hsame.kind] at hm
  rw [hsame.children, statusChildCount_changeStatus]
  -- Only the counts of the parent are written; another container has not this child.
  by_cases hp : (h.obj n).parent = some m
  · have hmem : n ∈ (h.obj m).children := hl.mem_of_parent hp (Set.notMem_empty n)
    rw [statusCounts_changeStatus_parent hne hp hm] at hcs
    obtain ⟨old, hold, rfl⟩ := Option.map_eq_some_iff.mp hcs
    obtain ⟨rfl, hlen⟩ := hc m old hm hold
    refine ⟨?_, hlen⟩
    have hself : ((h.changeStatus n status).obj n).status = status :=
      status_changeStatus_self hne
    rw [countStatuses_setStatus hmem (hl.nodup m) hother (by rwa [hself]), hself]
    simp only [Function.update_of_ne (Ne.symm hne)]
  · have hnot : n ∉ (h.obj m).children := fun hn => hp (hl.parent_of_mem hn)
    rw [statusCounts_changeStatus_other hne hp] at hcs
    obtain ⟨rfl, hlen⟩ := hc m counts hm hcs
    refine ⟨(countStatuses_congr fun c hcm => hother c ?_).symm, hlen⟩
    rintro rfl
    exact hnot hcm

theorem sound_setNodeStatusOnly {h : Heap} (hs : h.Sound) (n : Ref) (status : NodeStatus) :
    (h.setNodeStatusOnly n status).Sound := by
  have hforget : (h.forgetUnknown n status).Sound := by
    refine ⟨?_, ?_⟩
    · rw [Heap.WellLinked, (sameTree_forgetUnknown h n status).forest]
      exact hs.1
    · unfold Heap.forgetUnknown
      split_ifs
      · exact hs.2.write rfl rfl rfl rfl rfl
      · exact hs.2
  refine ⟨?_, counted_changeStatus hforget.1 hforget.2 n status⟩
  rw [Heap.WellLinked, Heap.setNodeStatusOnly, (sameTree_changeStatus _ n status).forest]
  exact hforget.1

/-- A write to the fields that the counts do not depend on. -/
theorem Heap.Sound.write {h : Heap} (hs : h.Sound) {n : Ref} {f : Obj → Obj}
    (hk : (f (h.obj n)).kind = (h.obj n).kind) (hst : (f (h.obj n)).status = (h.obj n).status)
    (hp : (f (h.obj n)).parent = (h.obj n).parent)
    (hl : (f (h.obj n)).children = (h.obj n).children)
    (hcs : (f (h.obj n)).statusCounts = (h.obj n).statusCounts)
    (hlen : (f (h.obj n)).statusChildCount = (h.obj n).statusChildCount) :
    (h.modify n f).Sound := by
  refine ⟨?_, hs.2.write hk hst hl hcs hlen⟩
  rw [Heap.WellLinked, Heap.forest_modify hp hl]
  exact hs.1

/-! ### The computed status -/

theorem Heap.Counted.currentCounts {h : Heap} (hc : h.Counted) {n : Ref}
    (hn : (h.obj n).kind.isContainer) :
    h.currentCounts n = countStatuses h (h.obj n).children := by
  unfold Heap.currentCounts
  split
  · rfl
  · rename_i counts hcs
    obtain ⟨heq, hlen⟩ := hc n counts hn hcs
    rw [if_pos hlen, heq]

theorem countStatuses_ne_zero (h : Heap) (l : List Ref) (status : NodeStatus) :
    countStatuses h l status ≠ 0 ↔ status ∈ l.map fun c => (h.obj c).status := by
  unfold countStatuses
  rw [Ne, Int.natCast_eq_zero, List.count_eq_zero, not_not]

/-- The first status with a count is the most significant status of the children. -/
theorem significantStatus_countStatuses (h : Heap) (l : List Ref) :
    significantStatus (countStatuses h l) = mostSignificant (l.map fun c => (h.obj c).status) := by
  simp only [significantStatus, mostSignificant, countStatuses_ne_zero]

/-- Every child has one of the statuses. -/
theorem sum_countStatuses (h : Heap) (l : List Ref) :
    countStatuses h l .unknown + countStatuses h l .complete + countStatuses h l .queued +
      countStatuses h l .submitted + countStatuses h l .active + countStatuses h l .aborted =
        l.length := by
  induction l with
  | nil => rfl
  | cons c l ih =>
    have hcons : ∀ status, countStatuses h (c :: l) status =
        countStatuses h l status + if (h.obj c).status = status then 1 else 0 := by
      intro status
      simp only [countStatuses, List.map_cons, List.count_cons, beq_iff_eq, Int.natCast_add]
      split_ifs <;> rfl
    simp only [hcons, List.length_cons]
    cases (h.obj c).status <;> simp <;> omega

/-- What `computed_status` of a container leaves. -/
def Heap.fillCounts (h : Heap) (n : Ref) : Heap :=
  if (h.obj n).children = [] then h
  else h.modify n fun o =>
    { o with statusCounts := some (h.currentCounts n), statusChildCount := o.children.length }

/-- `computed_status` of a container: the most significant status of its children, or its own. -/
theorem exec_computedStatus {h : Heap} (hc : h.Counted) {n : Ref}
    (hn : (h.obj n).kind.isContainer) :
    (computedStatus n).exec h =
      (.ok (if (h.obj n).children = [] then (h.obj n).status
        else mostSignificant ((h.obj n).children.map fun c => (h.obj c).status)),
        h.fillCounts n) := by
  have hval := significantStatus_countStatuses h (h.obj n).children
  rw [← hc.currentCounts hn] at hval
  unfold computedStatus Heap.fillCounts
  rw [exec_bind, exec_get]
  dsimp only
  cases hk : (h.obj n).kind with
  | node => rw [hk] at hn; cases hn
  | task => rw [hk] at hn; cases hn
  | container | flow | bunch =>
    dsimp only
    split_ifs
    · rfl
    · rw [← hval]
      rfl

theorem sound_fillCounts {h : Heap} (hs : h.Sound) {n : Ref} (hn : (h.obj n).kind.isContainer) :
    (h.fillCounts n).Sound := by
  unfold Heap.fillCounts
  split_ifs
  · exact hs
  refine ⟨?_, fun m counts hm hcs => ?_⟩
  · rw [Heap.WellLinked, Heap.forest_modify rfl rfl]
    exact hs.1
  · rw [Heap.field_modify Obj.kind rfl] at hm
    rw [Heap.field_modify Obj.children rfl,
      countStatuses_congr fun c _ => Heap.field_modify Obj.status rfl c]
    by_cases hmn : m = n
    · subst hmn
      rw [Heap.obj_modify_self] at hcs ⊢
      exact ⟨(Option.some.inj hcs).symm.trans (hs.2.currentCounts hn), rfl⟩
    · rw [Heap.obj_modify_of_ne _ hmn] at hcs ⊢
      exact hs.2 m counts hm hcs

theorem sound_computedStatus {h : Heap} (hs : h.Sound) (n : Ref) :
    ((computedStatus n).exec h).2.Sound := by
  by_cases hn : (h.obj n).kind.isContainer
  · rw [exec_computedStatus hs.2 hn]
    exact sound_fillCounts hs hn
  · have hsame : ((computedStatus n).exec h).2 = h := by
      unfold computedStatus
      rw [exec_bind, exec_get]
      dsimp only
      cases hk : (h.obj n).kind with
      | node => rfl
      | task => rfl
      | container | flow | bunch =>
        rw [hk] at hn
        exact absurd rfl hn
    rw [hsame]
    exact hs

/-! ### Runs -/

/-- The counts stay exact. -/
def KeepsSound (h h' : Heap) : Prop := h.Sound → h'.Sound

instance : Std.Refl KeepsSound := ⟨fun _ => id⟩

instance : IsTrans Heap KeepsSound := ⟨fun _ _ _ h₁ h₂ => h₂ ∘ h₁⟩

theorem statusClosed_keepsSound : StatusClosed KeepsSound where
  setStatus _ n status hs := sound_setNodeStatusOnly hs n status
  computed n _ hs := sound_computedStatus hs n
  reset _ _ _ _ _ hs := hs.write rfl rfl rfl rfl rfl rfl

theorem counted_create {h : Heap} (hs : h.Sound) (kind : Kind) (name : String) :
    (h.create kind name).Counted := by
  intro m counts hm hcs
  by_cases hms : m = h.size
  · rw [hms, obj_create_self] at hcs
    cases hcs
  · rw [obj_create_of_ne h kind name hms] at hm hcs ⊢
    obtain ⟨rfl, hlen⟩ := hs.2 m counts hm hcs
    refine ⟨(countStatuses_congr fun c hc => ?_).symm, hlen⟩
    rw [obj_create_of_ne h kind name (hs.1.bounded (hs.1.parent_of_mem hc)).1.ne]

theorem counted_calendarChanged {h : Heap} (hc : h.Counted) (time : ℤ) (l : List Ref) :
    (l.foldl (Heap.calendarChanged time) h).Counted := by
  induction l generalizing h with
  | nil => exact hc
  | cons n l ih => exact ih (hc.write rfl rfl rfl rfl rfl)

theorem counted_updateCalendar {h : Heap} (hc : h.Counted) (f : Ref) (now : ℤ) :
    (h.after (h.updateCalendar f now)).Counted := by
  cases hu : h.updateCalendar f now with
  | error e => exact hc
  | ok h' =>
    obtain ⟨time, h₁, hm, rfl⟩ := updateCalendar_eq_ok hu
    obtain ⟨calendar, rfl⟩ := moveCalendar_eq_ok hm
    have hc₁ := hc.write (n := f) (f := fun o => { o with calendar }) rfl rfl rfl rfl rfl
    exact counted_calendarChanged (hc₁.write rfl rfl rfl rfl rfl) time _

/-- Every action that attaches only detached nodes keeps the counts exact. -/
theorem sound_perform {h : Heap} (hs : h.Sound) {a : Action} (he : a.enabled h)
    (hd : a.AttachesDetached h) : (a.perform h).Sound := by
  refine ⟨linked_perform hs.1 he hd, ?_⟩
  obtain ⟨hl, hc⟩ := hs
  cases a with
  | create kind name => exact counted_create ⟨hl, hc⟩ kind name
  | appendChild p c uuid =>
    obtain ⟨hp, hlc⟩ := of_decide_eq_true he
    exact hc.of_edited (attached_appendChild hl hp hlc hd uuid).edited
  | updateChild p child c =>
    obtain ⟨hp, hlc⟩ := of_decide_eq_true he
    rcases attached_updateChild hl hp hlc hd child with heq | ha
    · exact (congrArg Heap.Counted heq).mpr hc
    · exact hc.of_edited ha.edited
  | deleteChild p child => exact hc.of_edited (deletes_deleteChild h p child ∅ hl).1
  | deleteChildren p => exact hc.of_edited (deletes_deleteChildren h.size h p ∅ hl).1
  | addFlow b f uuid =>
    have hens : Shrunk h _ := .ensureDefinitionGeneration f none uuid
    exact Heap.Counted.write (hc.of_edited hens) (n := f) (f := fun o => { o with bunch := some b })
      rfl rfl rfl rfl rfl
  | addTimeAttribute n a =>
    have hw := hc.write (n := n) (f := fun o => { o with times := o.times ++ [a] })
      rfl rfl rfl rfl rfl
    exact hw.of_edited (E := fun _ _ => False) (.forgetCalendar n)
  | addRepeat n r =>
    exact hc.write (n := n) (f := fun o => { o with nodeRepeat := some r }) rfl rfl rfl rfl rfl
  | setDefaultNodeStatus n value =>
    exact hc.write (n := n) (f := fun o => { o with defaultNodeStatus := value })
      rfl rfl rfl rfl rfl
  | markSubmissionUnknown n reason =>
    exact hc.write (n := n) (f := fun o => { o with submissionUnknownReason := some reason })
      rfl rfl rfl rfl rfl
  | beginCalendar f calendar =>
    exact hc.write (n := f) (f := fun o => { o with calendar }) rfl rfl rfl rfl rfl
  | updateCalendar f now => exact counted_updateCalendar hc f now
  | status call => exact (statusClosed_keepsSound.program call h ⟨hl, hc⟩).2

/-- In every reached heap the counts are exact. -/
theorem sound_of_reachable {h : Heap}
    (hr : objects.Reachable (fun h a => a.AttachesDetached h) h) : h.Sound := by
  refine hr.invariant (I := Heap.Sound) ?_ ?_
  · rintro s rfl
    exact ⟨wellLinked_empty, fun n counts _ hcs => absurd hcs nofun⟩
  · intro s a t hs hd hstep
    simp only [objects, Option.ite_none_right_eq_some, Option.some.injEq] at hstep
    exact hstep.2 ▸ sound_perform hs hstep.1 hd

/-- **The cached counts are transparent.** In every heap reached by edits that attach detached
nodes, by status calls and by `computed_status` in any order, `computed_status` of a container with
children is the most significant status of its current children, without children it is its own
status, and a cached count is the number of children with that status: none is negative, and
together they are the number of children. -/
theorem computedStatus_of_reachable {h : Heap}
    (hr : objects.Reachable (fun h a => a.AttachesDetached h) h) {n : Ref}
    (hn : (h.obj n).kind.isContainer) :
    ((computedStatus n).exec h).1 = .ok (if (h.obj n).children = [] then (h.obj n).status
      else mostSignificant ((h.obj n).children.map fun c => (h.obj c).status)) ∧
    ∀ counts, (h.obj n).statusCounts = some counts →
      (∀ status, 0 ≤ counts status) ∧
      counts .unknown + counts .complete + counts .queued + counts .submitted +
        counts .active + counts .aborted = (h.obj n).children.length := by
  have hs := sound_of_reachable hr
  refine ⟨by rw [exec_computedStatus hs.2 hn], fun counts hcs => ?_⟩
  obtain ⟨rfl, -⟩ := hs.2 n counts hn hcs
  exact ⟨fun status => Int.natCast_nonneg _, sum_countStatuses h _⟩

/-- A container with a complete and an aborted task, after its counts have been filled and one of
the tasks has changed. -/
theorem computedStatus_of_reachable_aborted : ∃ h : Heap,
    objects.Reachable (fun h a => a.AttachesDetached h) h ∧
      (h.obj 0).statusCounts.isSome ∧ ((computedStatus 0).exec h).1 = .ok .aborted := by
  obtain ⟨h, hr, hn, hcs, hl, hv⟩ := StepSystem.exists_of_run (S := objects)
    (G := fun h a => a.AttachesDetached h)
    [.create .container "c", .create .task "t", .create .task "u",
      .appendChild 0 1 ⟨"g", by decide⟩, .appendChild 0 2 ⟨"g", by decide⟩,
      .status (.setNodeStatusOnly 1 .complete), .status (.computedStatus 0),
      .status (.setNodeStatusOnly 2 .aborted)]
    (fun h => (h.obj 0).kind.isContainer ∧ (h.obj 0).statusCounts.isSome ∧
      (h.obj 0).children ≠ [] ∧
      mostSignificant ((h.obj 0).children.map fun c => (h.obj c).status) = .aborted)
    rfl (by decide +kernel)
  refine ⟨h, hr, hcs, ?_⟩
  rw [(computedStatus_of_reachable hr hn).1, if_neg hl, hv]

/-- Without children the two differ: a queued container computes its own status, while no children
have the status `unknown`. -/
theorem computedStatus_without_children : ∃ h : Heap,
    objects.Reachable (fun h a => a.AttachesDetached h) h ∧ (h.obj 0).kind = .container ∧
      ((computedStatus 0).exec h).1.toOption = some .queued ∧
      mostSignificant ((h.obj 0).children.map fun c => (h.obj c).status) = .unknown :=
  StepSystem.exists_of_run (S := objects) (G := fun h a => a.AttachesDetached h)
    [.create .container "c", .status (.setNodeStatusOnly 0 .queued)]
    (fun h => (h.obj 0).kind = .container ∧ ((computedStatus 0).exec h).1.toOption = some .queued ∧
      mostSignificant ((h.obj 0).children.map fun c => (h.obj c).status) = .unknown)
    rfl (by decide +kernel)

end Takler.Linked
