import Takler.Linked.StatusCalls

/-!
# The generation of a flow and of its tasks

A flow that is attached to a bunch has a `definition_generation`, and each of its tasks carries the
same one: `add_flow` gives it to the tasks that have none, and `append_child` below an attached flow
gives it to every task of the new subtree. `update_child` attaches a subtree as well but does not
call `ensure_definition_generation`, so the tasks that it brings into an attached flow keep the
generation they have, which for new tasks is none.

## Main definitions

* `Action.KeepsGeneration`: the steps that keep the generations together.
* `Heap.Generated`: every task of an attached flow carries the generation of the flow.

## Main results

* `generated_of_reachable`: this holds in every heap that such steps reach.
* `generation_of_reachable`: so no task of an attached flow is without a generation.
-/

namespace Takler.Linked

open Program

/-- The edits attach detached nodes that are not in a bunch; a subtree that takes the place of a
child in an attached flow already carries the generation of the flow; and a flow is added with
tasks that have no generation or its own. -/
def Action.KeepsGeneration (h : Heap) : Action → Prop
  | .appendChild p c _ => h.Detached p c ∧ (h.obj c).bunch = none
  | .updateChild p _ c => h.Detached p c ∧ (h.obj c).bunch = none ∧
      ∀ f ∈ h.getFlow p, (h.obj f).bunch ≠ none → ∀ n ∈ h.forest.subtree c,
        (h.obj n).kind = .task → (h.obj n).definitionGeneration = (h.obj f).definitionGeneration
  | .addFlow _ f _ => (h.obj f).parent = none ∧ ∀ n ∈ h.forest.subtree f, (h.obj n).kind = .task →
      (h.obj n).definitionGeneration = none ∨
        (h.obj n).definitionGeneration = (h.obj f).definitionGeneration
  | _ => True

instance (h : Heap) : (a : Action) → Decidable (a.KeepsGeneration h)
  | .appendChild .. => inferInstanceAs (Decidable (_ ∧ _))
  | .updateChild .. => inferInstanceAs (Decidable (_ ∧ _ ∧ ∀ f ∈ _, _))
  | .addFlow .. => inferInstanceAs (Decidable (_ ∧ ∀ n ∈ _, _))
  | .create .. | .deleteChild .. | .deleteChildren .. | .addTimeAttribute .. | .addRepeat ..
  | .setDefaultNodeStatus .. | .markSubmissionUnknown .. | .beginCalendar .. | .updateCalendar ..
  | .status .. => isTrue trivial

theorem Action.KeepsGeneration.attachesDetached {h : Heap} {a : Action}
    (ha : a.KeepsGeneration h) : a.AttachesDetached h := by
  cases a with
  | appendChild p c uuid => exact ha.1
  | updateChild p child c => exact ha.1
  | _ => trivial

/-- An attached flow is nobody's child, it has a generation, and its tasks carry it. -/
structure Heap.Generated (h : Heap) : Prop where
  linked : h.WellLinked
  root : ∀ {f}, (h.obj f).bunch ≠ none → (h.obj f).kind = .flow ∧ (h.obj f).parent = none
  named : ∀ {f}, (h.obj f).kind = .flow → (h.obj f).definitionGeneration ≠ some ""
  attached : ∀ {f}, (h.obj f).bunch ≠ none → (h.obj f).definitionGeneration ≠ none
  tasks : ∀ {f n}, (h.obj f).bunch ≠ none → h.forest.Below n f → (h.obj n).kind = .task →
    (h.obj n).definitionGeneration = (h.obj f).definitionGeneration

/-! ### Writing generations -/

/-- The generation of a node after a loop over pending nodes. -/
theorem generation_assignGenerations (g : String) (given : Bool) (l : List Ref) (h : Heap)
    (n : Ref) :
    ((l.foldl (fun h n => h.assignGeneration g given n) h).obj n).definitionGeneration =
      if n ∈ l ∧ (h.obj n).kind = .task ∧ (given ∨ (h.obj n).definitionGeneration = none) then
        some g
      else (h.obj n).definitionGeneration := by
  induction l generalizing h with
  | nil => simp
  | cons x l ih =>
    have hkind : ((h.assignGeneration g given x).obj n).kind = (h.obj n).kind := by
      unfold Heap.assignGeneration
      split_ifs
      · exact Heap.field_modify Obj.kind rfl n
      · rfl
    have hgen : ((h.assignGeneration g given x).obj n).definitionGeneration =
        if n = x ∧ (h.obj n).kind = .task ∧ (given ∨ (h.obj n).definitionGeneration = none) then
          some g
        else (h.obj n).definitionGeneration := by
      unfold Heap.assignGeneration
      by_cases hnx : n = x
      · subst hnx
        split_ifs with h₁ h₂ h₂
        · rw [Heap.obj_modify_self]
        · exact absurd ⟨rfl, h₁⟩ h₂
        · exact absurd h₂.2 h₁
        · rfl
      · have hout : ¬ (n = x ∧ (h.obj n).kind = .task ∧
            (given ∨ (h.obj n).definitionGeneration = none)) := fun hx => hnx hx.1
        rw [if_neg hout]
        split_ifs
        · rw [Heap.obj_modify_of_ne _ hnx]
        · rfl
    rw [List.foldl_cons, ih, hkind, hgen]
    by_cases hnx : n = x
    · subst hnx
      by_cases hc : (h.obj n).kind = .task ∧ (given ∨ (h.obj n).definitionGeneration = none)
      · simp [hc]
      · simp only [List.mem_cons, true_or, hc, if_false, and_false]
    · simp only [List.mem_cons, hnx, false_or, false_and, if_false]

/-- The generation of a node after `ensure_definition_generation`. -/
theorem generation_ensure {h : Heap} {f : Ref} (hf : (h.obj f).kind = .flow) (subtree : Option Ref)
    (uuid : Uuid) (n : Ref) :
    ((h.ensureDefinitionGeneration f subtree uuid).obj n).definitionGeneration =
      if n = f ∨ (n ∈ h.pendingNodes f subtree ∧ (h.obj n).kind = .task ∧
          (subtree.isSome ∨ (h.obj n).definitionGeneration = none)) then
        some ((h.obj f).definitionGeneration.getD uuid.1)
      else (h.obj n).definitionGeneration := by
  unfold Heap.ensureDefinitionGeneration
  rw [generation_assignGenerations, Heap.field_modify Obj.kind rfl]
  by_cases hnf : n = f
  · subst hnf
    simp [hf]
  · rw [Heap.obj_modify_of_ne _ hnf]
    simp only [hnf, false_or]

/-- The flow of `ensure_definition_generation` and its tasks carry one generation afterwards, when
each of them is pending or had it before, and the tasks outside keep theirs. -/
theorem generation_ensure_tasks {h : Heap} (hl : h.WellLinked) {f : Ref}
    (hf : (h.obj f).kind = .flow) (hpf : (h.obj f).parent = none) (subtree : Option Ref)
    (uuid : Uuid) (hpend : ∀ n ∈ h.pendingNodes f subtree, h.forest.Below n f)
    (htasks : ∀ n, h.forest.Below n f → (h.obj n).kind = .task →
      (n ∈ h.pendingNodes f subtree ∧ (subtree.isSome ∨ (h.obj n).definitionGeneration = none)) ∨
        (h.obj n).definitionGeneration = (h.obj f).definitionGeneration ∧
          (h.obj f).definitionGeneration ≠ none) :
    let h' := h.ensureDefinitionGeneration f subtree uuid
    (∀ n, h.forest.Below n f → (h.obj n).kind = .task →
      (h'.obj n).definitionGeneration = (h'.obj f).definitionGeneration) ∧
    ∀ r n, r ≠ f → (h.obj r).parent = none → h.forest.Below n r →
      (h'.obj n).definitionGeneration = (h.obj n).definitionGeneration := by
  have hgen := generation_ensure hf subtree uuid
  refine ⟨fun n hn ht => ?_, fun r n hrf hr hn => ?_⟩
  · have hgf := hgen f
    rw [if_pos (.inl rfl)] at hgf
    rw [hgf, hgen n]
    rcases htasks n hn ht with ⟨hmem, hnone⟩ | ⟨heq, hne⟩
    · rw [if_pos (.inr ⟨hmem, ht, hnone⟩)]
    · obtain ⟨g, hg⟩ := Option.ne_none_iff_exists'.mp hne
      rw [heq, hg, Option.getD_some, ite_self]
  · have hout : ∀ m, h.forest.Below m f → m ≠ n := by
      rintro m hm rfl
      exact hrf (LinkedForest.eq_of_under (hl.under_of_below hn) (hl.under_of_below hm) hr hpf)
    rw [hgen, if_neg]
    rintro (rfl | ⟨hmem, -⟩)
    · exact hout n .refl rfl
    · exact hout n (hpend n hmem) rfl

theorem below_of_mem_pendingNodes {h : Heap} {f n : Ref} (hn : n ∈ h.pendingNodes f none) :
    h.forest.Below n f := by
  obtain ⟨c, hc, hn⟩ := List.mem_flatMap.mp hn
  exact (LinkedForest.below_of_mem_subtree hn).tail (List.mem_reverse.mp hc)

theorem mem_pendingNodes {h : Heap} (hl : h.WellLinked) {f n : Ref} (hn : h.forest.Below n f)
    (hnf : n ≠ f) : n ∈ h.pendingNodes f none := by
  rcases hn.cases_tail with heq | ⟨c, hnc, hc⟩
  · exact absurd heq.symm hnf
  · refine List.mem_flatMap.mpr ⟨c, List.mem_reverse.mpr hc, ?_⟩
    exact hl.mem_subtree hnc (hl.bounded (hl.parent_of_mem hc)).1

theorem generation_ensure_flow {h : Heap} {f r : Ref} (hf : (h.obj f).kind = .flow)
    (hr : (h.obj r).kind = .flow) (subtree : Option Ref) (uuid : Uuid) :
    ((h.ensureDefinitionGeneration f subtree uuid).obj r).definitionGeneration =
      if r = f then some ((h.obj f).definitionGeneration.getD uuid.1)
      else (h.obj r).definitionGeneration := by
  rw [generation_ensure hf]
  simp [hr]

/-- A flow that has no empty generation has none afterwards. -/
theorem generation_ensure_ne_empty {h : Heap} {f r : Ref} (hf : (h.obj f).kind = .flow)
    (hr : (h.obj r).kind = .flow) (hfn : (h.obj f).definitionGeneration ≠ some "")
    (hrn : (h.obj r).definitionGeneration ≠ some "") (subtree : Option Ref) (uuid : Uuid) :
    ((h.ensureDefinitionGeneration f subtree uuid).obj r).definitionGeneration ≠ some "" := by
  rw [generation_ensure_flow hf hr]
  split_ifs
  · cases hg : (h.obj f).definitionGeneration with
    | none => simpa using uuid.2
    | some g =>
      rw [hg] at hfn
      simpa using hfn
  · exact hrn

/-! ### Edits that write no generation -/

theorem generation_forgetCounts (h : Heap) (n m : Ref) :
    ((h.modify n Obj.forgetCounts).obj m).definitionGeneration =
      (h.obj m).definitionGeneration :=
  Heap.field_modify Obj.definitionGeneration
    (Obj.field_forgetCounts Obj.definitionGeneration (fun _ => rfl) _) m

theorem generation_forgetCalendar (h : Heap) (n m : Ref) :
    ((h.forgetCalendar n).obj m).definitionGeneration = (h.obj m).definitionGeneration := by
  unfold Heap.forgetCalendar
  cases h.getFlow n with
  | none => rfl
  | some f => exact Heap.field_modify Obj.definitionGeneration rfl m

theorem generation_deleteChildren (k : ℕ) : ∀ (h : Heap) (n m : Ref),
    ((Heap.deleteChildren k h n).obj m).definitionGeneration = (h.obj m).definitionGeneration := by
  induction k with
  | zero => exact fun _ _ _ => rfl
  | succ k ih =>
    intro h n m
    rw [Heap.deleteChildren]
    have hloop : ∀ (l : List Ref) (t : Heap), ((l.foldl (fun h c => (Heap.deleteChildren k
        (h.modify n fun o => { o with children := o.children.erase c }) c).modify c
          fun o => { o with parent := none }) t).obj m).definitionGeneration =
            (t.obj m).definitionGeneration := by
      intro l
      induction l with
      | nil => exact fun _ => rfl
      | cons c l ihl =>
        intro t
        rw [List.foldl_cons, ihl, Heap.field_modify Obj.definitionGeneration rfl, ih,
          Heap.field_modify Obj.definitionGeneration rfl]
    rw [hloop, generation_forgetCounts, generation_forgetCalendar]

theorem generation_deleteChild (h : Heap) (p : Ref) (child : String) (m : Ref) :
    ((h.after (h.deleteChild p child)).obj m).definitionGeneration =
      (h.obj m).definitionGeneration := by
  unfold Heap.deleteChild
  cases h.findChild p child with
  | none => rfl
  | some c =>
    dsimp only [Heap.after]
    rw [Heap.field_modify Obj.definitionGeneration rfl, generation_deleteChildren,
      generation_forgetCounts, generation_forgetCalendar,
      Heap.field_modify Obj.definitionGeneration rfl]

theorem generation_updateChild (h : Heap) (p : Ref) (child : String) (c m : Ref) :
    ((h.after (h.updateChild p child c)).obj m).definitionGeneration =
      (h.obj m).definitionGeneration := by
  unfold Heap.updateChild
  cases h.findChild p child with
  | none => rfl
  | some old =>
    dsimp only [Heap.after]
    rw [Heap.field_modify Obj.definitionGeneration rfl, generation_forgetCounts,
      Heap.field_modify Obj.definitionGeneration rfl,
      Heap.field_modify Obj.definitionGeneration rfl, generation_forgetCalendar]

theorem generation_linkChild (h : Heap) (p c m : Ref) :
    ((h.linkChild p c).obj m).definitionGeneration = (h.obj m).definitionGeneration := by
  unfold Heap.linkChild
  dsimp only
  rw [generation_forgetCalendar, generation_forgetCounts,
    Heap.field_modify Obj.definitionGeneration rfl,
    Heap.field_modify Obj.definitionGeneration rfl]

/-! ### Steps -/

namespace Heap.Generated

variable {h h' : Heap} (hg : h.Generated)

include hg

/-- What is below an attached flow finds it by climbing. -/
theorem getFlow_of_below {f n : Ref} (hf : (h.obj f).bunch ≠ none) (hn : h.forest.Below n f) :
    h.getFlow n = some f :=
  Heap.getFlow_eq_some ⟨∅, hg.linked⟩ (hg.linked.under_of_below hn) (hg.root hf).2 (hg.root hf).1

/-- A change that leaves links, classes, bunches and generations alone. -/
theorem of_forest (hforest : h'.forest = h.forest)
    (hk : ∀ n, (h'.obj n).kind = (h.obj n).kind)
    (hb : ∀ n, (h'.obj n).bunch = (h.obj n).bunch)
    (hgen : ∀ n, (h'.obj n).definitionGeneration = (h.obj n).definitionGeneration) :
    h'.Generated where
  linked := by
    rw [Heap.WellLinked, hforest]
    exact hg.linked
  root {f} hf := by
    rw [hb] at hf
    have hp : h'.forest.parent f = h.forest.parent f := by rw [hforest]
    exact ⟨(hk f).trans (hg.root hf).1, hp.trans (hg.root hf).2⟩
  named {f} hf := by
    rw [hk] at hf
    rw [hgen]
    exact hg.named hf
  attached {f} hf := by
    rw [hb] at hf
    rw [hgen]
    exact hg.attached hf
  tasks {f n} hf hn ht := by
    rw [hb] at hf
    rw [hforest] at hn
    rw [hk] at ht
    rw [hgen, hgen]
    exact hg.tasks hf hn ht

theorem of_sameTree (hs : SameTree h h') : h'.Generated :=
  hg.of_forest hs.forest hs.kind hs.bunch hs.generation

theorem root_of_edited {E : Ref → Ref → Prop} (he : Edited ∅ E h h') (hl : h'.WellLinked)
    (hE : ∀ p c, E p c → (h.obj c).bunch = none) {f : Ref} (hf : (h'.obj f).bunch ≠ none) :
    (h'.obj f).kind = .flow ∧ (h'.obj f).parent = none := by
  rw [he.bunch] at hf
  refine ⟨(he.kind f).trans (hg.root hf).1, ?_⟩
  by_contra hne
  obtain ⟨p, hp⟩ := Option.ne_none_iff_exists'.mp hne
  rcases he.children (hl.mem_of_parent hp (Set.notMem_empty f)) with hm | hE'
  · exact absurd ((hg.root hf).2.symm.trans (hg.linked.parent_of_mem hm)) nofun
  · exact hf (hE p f hE')

/-- An edit that writes no generation, and after which every task of an attached flow was there
before or carries its generation. -/
theorem of_edited {E : Ref → Ref → Prop} (he : Edited ∅ E h h') (hl : h'.WellLinked)
    (hE : ∀ p c, E p c → (h.obj c).bunch = none)
    (hgen : ∀ n, (h'.obj n).definitionGeneration = (h.obj n).definitionGeneration)
    (htasks : ∀ f n, (h.obj f).bunch ≠ none → h'.forest.Below n f → (h.obj n).kind = .task →
      h.forest.Below n f ∨ (h.obj n).definitionGeneration = (h.obj f).definitionGeneration) :
    h'.Generated where
  linked := hl
  root := hg.root_of_edited he hl hE
  named {f} hf := by
    rw [he.kind] at hf
    rw [hgen]
    exact hg.named hf
  attached {f} hf := by
    rw [he.bunch] at hf
    rw [hgen]
    exact hg.attached hf
  tasks {f n} hf hn ht := by
    rw [he.bunch] at hf
    rw [he.kind] at ht
    rw [hgen, hgen]
    rcases htasks f n hf hn ht with hn | heq
    · exact hg.tasks hf hn ht
    · exact heq

theorem of_shrunk (hs : Shrunk h h') (hl : h'.WellLinked)
    (hgen : ∀ n, (h'.obj n).definitionGeneration = (h.obj n).definitionGeneration) :
    h'.Generated := by
  refine hg.of_edited hs hl (fun _ _ hE => hE.elim) hgen fun f n _ hn _ => .inl ?_
  exact Relation.ReflTransGen.mono (fun _ _ hc => (hs.children hc).resolve_right id) _ _ hn

/-- What an attachment puts below an attached flow. -/
theorem below_or_of_attached {p c : Ref} (ha : Attached p c h h') {f n : Ref}
    (hf : (h.obj f).bunch ≠ none) (hn : h'.forest.Below n f) :
    h.forest.Below n f ∨ h.getFlow p = some f ∧ h.forest.Below n c := by
  rcases LinkedForest.below_or_below (F := h.forest) (p := p)
    (fun hd => (ha.edited.children hd).imp_right And.left) hn with hb | hb
  · exact .inl hb
  · rcases LinkedForest.below_or_below_child (F := h.forest) (c := c)
      (fun hd => (ha.edited.children hd).imp_right And.right) hn with hb' | hb'
    · exact .inl hb'
    · exact .inr ⟨hg.getFlow_of_below hf hb, hb'⟩

theorem updateChild {p c : Ref} (hp : p < h.size) (hc : c < h.size) (child : String)
    (hk : (Action.updateChild p child c).KeepsGeneration h) :
    (h.after (h.updateChild p child c)).Generated := by
  obtain ⟨hd, hb, hcond⟩ := hk
  rcases attached_updateChild hg.linked hp hc hd child with heq | ha
  · exact (congrArg Heap.Generated heq).mpr hg
  · refine hg.of_edited ha.edited ha.linked (fun q d hE => hE.2 ▸ hb)
      (generation_updateChild h p child c) fun f n hf hn ht => ?_
    refine (hg.below_or_of_attached ha hf hn).imp_right fun ⟨hflow, hn⟩ => ?_
    exact hcond f hflow hf n (hg.linked.mem_subtree hn hc) ht

/-- `append_child` below an attached flow. -/
theorem ensure_linkChild {p c f : Ref} (hp : p < h.size) (hc : c < h.size) (uuid : Uuid)
    (hd : h.Detached p c) (hb : (h.obj c).bunch = none) (hpf : h.getFlow p = some f)
    (hf : (h.obj f).bunch ≠ none) :
    ((h.linkChild p c).ensureDefinitionGeneration f (some c) uuid).Generated := by
  obtain ⟨ha, hforest, hflow⟩ := attached_linkChild hg.linked hp hc hd
  set h₁ := h.linkChild p c with hh₁
  have hgen₁ : ∀ n, (h₁.obj n).definitionGeneration = (h.obj n).definitionGeneration :=
    generation_linkChild h p c
  have hk₁ := ha.edited.kind
  have hroot₁ : ∀ {r}, (h₁.obj r).bunch ≠ none → (h₁.obj r).kind = .flow ∧
      (h₁.obj r).parent = none :=
    hg.root_of_edited ha.edited ha.linked fun q d hE => hE.2 ▸ hb
  obtain ⟨hkf, hpar⟩ := hroot₁ (r := f) (by rwa [ha.edited.bunch])
  have hens : Shrunk h₁ (h₁.ensureDefinitionGeneration f (some c) uuid) :=
    .ensureDefinitionGeneration f (some c) uuid
  have hfe := forest_ensureDefinitionGeneration h₁ f (some c) uuid
  -- The new child is below the flow, and so is all that came with it.
  have hcf : h₁.forest.Below c f := by
    have hpf' : h.forest.Below p f := by
      unfold Heap.getFlow at hpf
      split_ifs at hpf
      exact Option.some.inj hpf ▸ hg.linked.below_of_under (LinkedForest.under_root p)
    rw [hforest]
    refine .head ?_ (LinkedForest.below_attach hpf' p c)
    simp [LinkedForest.attach]
  obtain ⟨htasks, hother⟩ := generation_ensure_tasks ha.linked hkf hpar (some c) uuid
    (fun n hn => (LinkedForest.below_of_mem_subtree hn).trans hcf) fun n hn ht => by
      rcases hg.below_or_of_attached ha hf hn with hn | ⟨-, hn⟩
      · rw [hgen₁, hgen₁]
        exact .inr ⟨hg.tasks hf hn ((hk₁ n).symm.trans ht), hg.attached hf⟩
      · have hc₁ : c < h₁.size := by rwa [ha.edited.size]
        refine .inl ⟨ha.linked.mem_subtree ?_ hc₁, .inl rfl⟩
        rw [hforest]
        exact LinkedForest.below_attach hn p c
  refine ⟨?_, fun {r} hr => ?_, fun {r} hr => ?_, fun {r} hr => ?_, fun {r n} hr hn ht => ?_⟩
  · rw [Heap.WellLinked, hfe]
    exact ha.linked
  · rw [hens.bunch] at hr
    have hp' : (h₁.ensureDefinitionGeneration f (some c) uuid).forest.parent r =
        h₁.forest.parent r := by rw [hfe]
    exact ⟨(hens.kind r).trans (hroot₁ hr).1, hp'.trans (hroot₁ hr).2⟩
  · rw [hens.kind] at hr
    refine generation_ensure_ne_empty hkf hr ?_ ?_ _ uuid
    · rw [hgen₁]
      exact hg.named ((hk₁ f).symm.trans hkf)
    · rw [hgen₁]
      exact hg.named ((hk₁ r).symm.trans hr)
  · rw [hens.bunch] at hr
    rw [generation_ensure_flow hkf (hroot₁ hr).1]
    split_ifs
    · simp
    · rw [hgen₁]
      exact hg.attached (by rwa [ha.edited.bunch] at hr)
  · rw [hens.bunch] at hr
    rw [hfe] at hn
    rw [hens.kind] at ht
    by_cases hrf : r = f
    · subst hrf
      exact htasks n hn ht
    · rw [hother r n hrf (hroot₁ hr).2 hn, hother r r hrf (hroot₁ hr).2 .refl, hgen₁, hgen₁]
      rw [ha.edited.bunch] at hr
      rcases hg.below_or_of_attached ha hr hn with hn | ⟨hflow', -⟩
      · exact hg.tasks hr hn ((hk₁ n).symm.trans ht)
      · exact absurd (Option.some.inj (hflow'.symm.trans hpf)) hrf

theorem appendChild {p c : Ref} (hp : p < h.size) (hc : c < h.size) (uuid : Uuid)
    (hd : h.Detached p c) (hb : (h.obj c).bunch = none) : (h.appendChild p c uuid).Generated := by
  obtain ⟨ha, -, hflow⟩ := attached_linkChild hg.linked hp hc hd
  -- Outside an attached flow nothing is assigned.
  have hplain : (∀ f, h.getFlow p = some f → (h.obj f).bunch = none) →
      (h.linkChild p c).Generated := fun hnone =>
    hg.of_edited ha.edited ha.linked (fun q d hE => hE.2 ▸ hb) (generation_linkChild h p c)
      fun f n hf hn _ =>
        (hg.below_or_of_attached ha hf hn).imp_right fun hn => absurd (hnone f hn.1) hf
  unfold Heap.appendChild
  dsimp only
  rw [hflow]
  cases hpf : h.getFlow p with
  | none => exact hplain (by rw [hpf]; nofun)
  | some f =>
    dsimp only
    rw [ha.edited.bunch]
    split_ifs with hbf
    · exact hg.ensure_linkChild hp hc uuid hd hb hpf (Option.isSome_iff_ne_none.mp hbf)
    · refine hplain fun f' hf' => ?_
      obtain rfl := Option.some.inj (hpf.symm.trans hf')
      simpa using hbf

/-- `add_flow` of a detached flow whose tasks have no generation or its own. -/
theorem addFlow {b f : Ref} (hlt : f < h.size) (hkf : (h.obj f).kind = .flow) (uuid : Uuid)
    (hpar : (h.obj f).parent = none)
    (hcond : ∀ n ∈ h.forest.subtree f, (h.obj n).kind = .task →
      (h.obj n).definitionGeneration = none ∨
        (h.obj n).definitionGeneration = (h.obj f).definitionGeneration) :
    (h.addFlow b f uuid).Generated := by
  have hens : Shrunk h (h.ensureDefinitionGeneration f none uuid) :=
    .ensureDefinitionGeneration f none uuid
  obtain ⟨htasks, hother⟩ := generation_ensure_tasks hg.linked hkf hpar none uuid
    (fun n hn => below_of_mem_pendingNodes hn) fun n hn ht => by
      have hnf : n ≠ f := by
        rintro rfl
        exact absurd (hkf.symm.trans ht) nofun
      by_cases hnone : (h.obj n).definitionGeneration = none
      · exact .inl ⟨mem_pendingNodes hg.linked hn hnf, .inr hnone⟩
      · have heq := (hcond n (hg.linked.mem_subtree hn hlt) ht).resolve_left hnone
        exact .inr ⟨heq, heq ▸ hnone⟩
  have hgen : ∀ n, ((h.addFlow b f uuid).obj n).definitionGeneration =
      ((h.ensureDefinitionGeneration f none uuid).obj n).definitionGeneration :=
    Heap.field_modify Obj.definitionGeneration rfl
  have hk : ∀ n, ((h.addFlow b f uuid).obj n).kind = (h.obj n).kind :=
    fun n => (Heap.field_modify Obj.kind rfl n).trans (hens.kind n)
  have hattached : ∀ {r}, ((h.addFlow b f uuid).obj r).bunch ≠ none → r = f ∨
      (h.obj r).bunch ≠ none := by
    intro r hr
    by_cases hrf : r = f
    · exact .inl hrf
    · rw [Heap.addFlow, Heap.obj_modify_of_ne _ hrf, hens.bunch] at hr
      exact .inr hr
  have hroot : ∀ {r}, ((h.addFlow b f uuid).obj r).bunch ≠ none → (h.obj r).kind = .flow ∧
      (h.obj r).parent = none := by
    intro r hr
    rcases hattached hr with rfl | hr
    · exact ⟨hkf, hpar⟩
    · exact hg.root hr
  have hforest := forest_addFlow h b f uuid
  refine ⟨?_, fun {r} hr => ?_, fun {r} hr => ?_, fun {r} hr => ?_, fun {r n} hr hn ht => ?_⟩
  · rw [Heap.WellLinked, hforest]
    exact hg.linked
  · have hp : (h.addFlow b f uuid).forest.parent r = h.forest.parent r := by rw [hforest]
    exact ⟨(hk r).trans (hroot hr).1, hp.trans (hroot hr).2⟩
  · rw [hk] at hr
    rw [hgen]
    exact generation_ensure_ne_empty hkf hr (hg.named hkf) (hg.named hr) none uuid
  · rw [hgen, generation_ensure_flow hkf (hroot hr).1]
    split_ifs with hrf
    · simp
    · exact hg.attached ((hattached hr).resolve_left hrf)
  · rw [hforest] at hn
    rw [hk] at ht
    rw [hgen, hgen]
    by_cases hrf : r = f
    · subst hrf
      exact htasks n hn ht
    · rw [hother r n hrf (hroot hr).2 hn, hother r r hrf (hroot hr).2 .refl]
      exact hg.tasks ((hattached hr).resolve_left hrf) hn ht

theorem create (kind : Kind) (name : String) : (h.create kind name).Generated := by
  have hforest := forest_create hg.linked kind name
  have hne : ∀ {f}, ((h.create kind name).obj f).bunch ≠ none → f ≠ h.size := by
    rintro f hf rfl
    rw [obj_create_self] at hf
    exact hf rfl
  have hold : ∀ {f}, f ≠ h.size → (h.create kind name).obj f = h.obj f :=
    fun hf => obj_create_of_ne h kind name hf
  refine ⟨?_, fun {f} hf => ?_, fun {f} hf => ?_, fun {f} hf => ?_, fun {f n} hf hn ht => ?_⟩
  · rw [Heap.WellLinked, hforest]
    exact hg.linked.grow (Nat.le_succ _)
  · have hfs := hne hf
    rw [hold hfs] at hf ⊢
    exact hg.root hf
  · by_cases hfs : f = h.size
    · rw [hfs, obj_create_self]
      exact (Option.some_ne_none _).symm
    · rw [hold hfs] at hf ⊢
      exact hg.named hf
  · have hfs := hne hf
    rw [hold hfs] at hf ⊢
    exact hg.attached hf
  · have hfs := hne hf
    rw [hforest] at hn
    have hns : n ≠ h.size := by
      rintro rfl
      rcases hn.cases_head with heq | ⟨c, hc, -⟩
      · exact hfs heq.symm
      · exact absurd (hg.linked.bounded (hg.linked.parent_of_mem hc)).1 (lt_irrefl _)
    rw [hold hfs] at hf ⊢
    rw [hold hns] at ht ⊢
    exact hg.tasks hf hn ht

theorem perform {a : Action} (he : a.enabled h) (hk : a.KeepsGeneration h) :
    (a.perform h).Generated := by
  have hl := linked_perform hg.linked he hk.attachesDetached
  cases a with
  | create kind name => exact hg.create kind name
  | appendChild p c uuid =>
    obtain ⟨hp, hc⟩ := of_decide_eq_true he
    exact hg.appendChild hp hc uuid hk.1 hk.2
  | updateChild p child c =>
    obtain ⟨hp, hc⟩ := of_decide_eq_true he
    exact hg.updateChild hp hc child hk
  | deleteChild p child =>
    exact hg.of_shrunk (deletes_deleteChild h p child ∅ hg.linked).1 hl
      (generation_deleteChild h p child)
  | deleteChildren p =>
    exact hg.of_shrunk (deletes_deleteChildren h.size h p ∅ hg.linked).1 hl
      (generation_deleteChildren h.size h p)
  | addFlow b f uuid =>
    obtain ⟨-, hlt, -, hkf⟩ := of_decide_eq_true he
    exact hg.addFlow hlt hkf uuid hk.1 hk.2
  | addTimeAttribute n a =>
    have hforget : Shrunk _ (h.addTimeAttribute n a) := .forgetCalendar n
    refine hg.of_forest (forest_addTimeAttribute h n a) (fun m => ?_) (fun m => ?_) fun m => ?_
    · exact (hforget.kind m).trans (Heap.field_modify Obj.kind rfl m)
    · exact (hforget.bunch m).trans (Heap.field_modify Obj.bunch rfl m)
    · exact (generation_forgetCalendar _ n m).trans
        (Heap.field_modify Obj.definitionGeneration rfl m)
  | updateCalendar f now =>
    refine hg.of_forest (forest_updateCalendar h f now) ?_ ?_ ?_
    · exact field_updateCalendar Obj.kind SameTree.kind (fun _ _ => rfl) h f now
    · exact field_updateCalendar Obj.bunch SameTree.bunch (fun _ _ => rfl) h f now
    · exact field_updateCalendar Obj.definitionGeneration SameTree.generation (fun _ _ => rfl) h f
        now
  | addRepeat | setDefaultNodeStatus | markSubmissionUnknown | beginCalendar | status =>
    exact hg.of_sameTree (sameTree_perform h (by exact trivial))

end Heap.Generated

/-- In every heap reached by such steps the tasks of an attached flow carry its generation. -/
theorem generated_of_reachable {h : Heap}
    (hr : objects.Reachable (fun h a => a.KeepsGeneration h) h) : h.Generated := by
  refine hr.invariant (I := Heap.Generated) ?_ ?_
  · rintro s rfl
    exact ⟨wellLinked_empty, fun hf => absurd rfl hf, fun hf => absurd hf nofun,
      fun hf => absurd rfl hf, fun hf => absurd rfl hf⟩
  · intro s a t hs hk hstep
    simp only [objects, Option.ite_none_right_eq_some, Option.some.injEq] at hstep
    exact hstep.2 ▸ hs.perform hstep.1 hk

/-- **Task generations.** In every run whose `update_child` steps bring into an attached flow only
tasks that already carry its generation, every task of an attached flow has a non-empty generation,
the one of the flow. -/
theorem generation_of_reachable {h : Heap}
    (hr : objects.Reachable (fun h a => a.KeepsGeneration h) h) {f : Ref}
    (hf : (h.obj f).bunch ≠ none) : ∃ g, g ≠ "" ∧ (h.obj f).definitionGeneration = some g ∧
      ∀ n ∈ h.forest.subtree f, (h.obj n).kind = .task →
        (h.obj n).definitionGeneration = some g := by
  have hg := generated_of_reachable hr
  obtain ⟨g, hgf⟩ := Option.ne_none_iff_exists'.mp (hg.attached hf)
  refine ⟨g, ?_, hgf, fun n hn ht => ?_⟩
  · rintro rfl
    exact hg.named (hg.root hf).1 hgf
  · exact (hg.tasks hf (LinkedForest.below_of_mem_subtree hn) ht).trans hgf

/-- A subtree built outside is appended to an attached flow. -/
theorem generation_of_reachable_appended : ∃ h : Heap,
    objects.Reachable (fun h a => a.KeepsGeneration h) h ∧ 3 ∈ h.forest.subtree 1 ∧
      (h.obj 3).definitionGeneration = some "g" := by
  obtain ⟨h, hr, hf, hg, hn, ht⟩ := StepSystem.exists_of_run (S := objects)
    (G := fun h a => a.KeepsGeneration h)
    [.create .bunch "", .create .flow "f", .create .container "c", .create .task "t",
      .addFlow 0 1 ⟨"g", by decide⟩, .appendChild 2 3 ⟨"x", by decide⟩,
      .appendChild 1 2 ⟨"y", by decide⟩]
    (fun h => (h.obj 1).bunch ≠ none ∧ (h.obj 1).definitionGeneration = some "g" ∧
      3 ∈ h.forest.subtree 1 ∧ (h.obj 3).kind = .task)
    rfl (by decide +kernel)
  obtain ⟨g, -, hgf, htasks⟩ := generation_of_reachable hr hf
  exact ⟨h, hr, hn, by rw [htasks 3 hn ht, ← hgf, hg]⟩

/-- `update_child` of a child of an attached flow by a new task leaves a task without a
generation. -/
theorem generation_missing : ∃ h : Heap,
    objects.Reachable (fun h a => a.AttachesDetached h) h ∧ (h.obj 1).bunch ≠ none ∧
      (h.obj 1).definitionGeneration = some "g" ∧ 3 ∈ h.forest.subtree 1 ∧
      (h.obj 3).kind = .task ∧ (h.obj 3).definitionGeneration = none :=
  StepSystem.exists_of_run (S := objects) (G := fun h a => a.AttachesDetached h)
    [.create .bunch "", .create .flow "f", .create .task "t", .create .task "u",
      .addFlow 0 1 ⟨"g", by decide⟩, .appendChild 1 2 ⟨"x", by decide⟩, .updateChild 1 "t" 3]
    (fun h => (h.obj 1).bunch ≠ none ∧ (h.obj 1).definitionGeneration = some "g" ∧
      3 ∈ h.forest.subtree 1 ∧ (h.obj 3).kind = .task ∧ (h.obj 3).definitionGeneration = none)
    rfl (by decide +kernel)

end Takler.Linked
