import Takler.Linked.Objects

/-!
# What the edits do to the links and the caches

Every edit of the tree is a sequence of writes to single objects. `Edited E` collects what the
caches need to know about it: the statuses and time attributes stay, no child list gains more
than the pairs in `E`, a container whose child list changes forgets its counts, and the flow of a
place that gains a child forgets its nodes with times. The edits that attach a node which hangs
nowhere keep the heap well linked.

## Main definitions

* `Heap.WellLinked`: the child lists and the parent pointers agree.
* `Edited`: what an edit leaves alone and what it forgets.
* `Deletes`, `Attached`: deletions, and edits that attach a node which hangs nowhere.

## Main results

* `deletes_deleteChildren`, `deletes_deleteChild`: deletions shrink the child lists and keep the
  rest linked.
* `attached_appendChild`, `attached_updateChild`: what is attached is linked.
-/

namespace Takler.Linked

open Program LinkedForest

/-! ### Writes to one object -/

namespace Heap

variable {h : Heap} {n m : Ref} {f : Obj → Obj}

@[simp] theorem obj_modify_self (h : Heap) (n : Ref) (f : Obj → Obj) :
    (h.modify n f).obj n = f (h.obj n) := Function.update_self ..

theorem obj_modify_of_ne (f : Obj → Obj) (hn : m ≠ n) : (h.modify n f).obj m = h.obj m :=
  Function.update_of_ne hn ..

/-- A field that the write leaves alone is as before everywhere. -/
theorem field_modify {α : Type} (g : Obj → α) (hg : g (f (h.obj n)) = g (h.obj n)) (m : Ref) :
    g ((h.modify n f).obj m) = g (h.obj m) := by
  by_cases hm : m = n
  · rw [hm, obj_modify_self, hg]
  · rw [obj_modify_of_ne f hm]

theorem forest_modify (hp : (f (h.obj n)).parent = (h.obj n).parent)
    (hc : (f (h.obj n)).children = (h.obj n).children) : (h.modify n f).forest = h.forest := by
  unfold forest
  congr 1
  · funext m
    exact field_modify Obj.parent hp m
  · funext m
    exact field_modify Obj.children hc m

/-- The two links of a heap determine its forest. -/
theorem forest_eq {h h' : Heap} (hs : h'.size = h.size)
    (hp : ∀ m, (h'.obj m).parent = (h.obj m).parent)
    (hc : ∀ m, (h'.obj m).children = (h.obj m).children) : h'.forest = h.forest := by
  unfold forest
  rw [hs]
  congr 1
  · funext m
    exact hp m
  · funext m
    exact hc m

/-- The child lists and the parent pointers agree. -/
def WellLinked (h : Heap) : Prop := h.forest.WellLinked ∅

theorem getFlow_eq_some (hl : ∃ O, h.forest.WellLinked O) {r : Ref} (hn : h.forest.Under n r)
    (hr : (h.obj r).parent = none) (hk : (h.obj r).kind = .flow) : h.getFlow n = some r := by
  obtain ⟨O, hl⟩ := hl
  have hroot : h.forest.root n = r := hl.root_eq hn hr
  rw [getFlow, hroot, if_pos hk]

end Heap

@[simp] theorem Obj.forgetCounts_kind (o : Obj) : o.forgetCounts.kind = o.kind := by
  unfold Obj.forgetCounts
  split_ifs <;> rfl

theorem Obj.forgetCounts_eq (o : Obj) : o.forgetCounts = o ∨
    o.forgetCounts = { o with statusCounts := none } := by
  unfold Obj.forgetCounts
  split_ifs
  · exact .inr rfl
  · exact .inl rfl

theorem Obj.forgetCounts_statusCounts {o : Obj} (ho : o.kind.isContainer) :
    o.forgetCounts.statusCounts = none := by
  rw [Obj.forgetCounts, if_pos ho]

/-- A field other than the counts is kept when these are forgotten. -/
theorem Obj.field_forgetCounts {α : Type} (g : Obj → α)
    (hg : ∀ o : Obj, g { o with statusCounts := none } = g o) (o : Obj) :
    g o.forgetCounts = g o := by
  rcases o.forgetCounts_eq with h | h
  · rw [h]
  · rw [h, hg]

/-! ### The relation -/

/-- What an edit with the new children `E` leaves alone and what it forgets; the containers in `X`
still have to forget their counts. -/
structure Edited (X : Set Ref) (E : Ref → Ref → Prop) (h h' : Heap) : Prop where
  size : h'.size = h.size
  kind : ∀ n, (h'.obj n).kind = (h.obj n).kind
  status : ∀ n, (h'.obj n).status = (h.obj n).status
  times : ∀ n, (h'.obj n).times = (h.obj n).times
  bunch : ∀ n, (h'.obj n).bunch = (h.obj n).bunch
  children : ∀ {p c}, c ∈ (h'.obj p).children → c ∈ (h.obj p).children ∨ E p c
  counts : ∀ {n counts}, n ∉ X → (h.obj n).kind.isContainer →
    (h'.obj n).statusCounts = some counts →
      (h.obj n).statusCounts = some counts ∧ (h'.obj n).children = (h.obj n).children ∧
        (h'.obj n).statusChildCount = (h.obj n).statusChildCount
  calendar : ∀ {n l}, (h'.obj n).calendarNodes = some l → (h.obj n).calendarNodes = some l

/-- An edit without new children. -/
abbrev Shrunk : Heap → Heap → Prop := Edited ∅ fun _ _ => False

namespace Edited

variable {X : Set Ref} {E : Ref → Ref → Prop} {h h' h'' : Heap}

theorem refl (h : Heap) : Edited X E h h where
  size := rfl
  kind _ := rfl
  status _ := rfl
  times _ := rfl
  bunch _ := rfl
  children := .inl
  counts _ _ hc := ⟨hc, rfl, rfl⟩
  calendar hl := hl

theorem trans (h₁ : Edited X E h h') (h₂ : Edited X E h' h'') : Edited X E h h'' where
  size := h₂.size.trans h₁.size
  kind n := (h₂.kind n).trans (h₁.kind n)
  status n := (h₂.status n).trans (h₁.status n)
  times n := (h₂.times n).trans (h₁.times n)
  bunch n := (h₂.bunch n).trans (h₁.bunch n)
  children hc := (h₂.children hc).elim h₁.children .inr
  counts hX hk hc := by
    obtain ⟨hc, hl, hn⟩ := h₂.counts hX (by rwa [h₁.kind]) hc
    obtain ⟨hc, hl', hn'⟩ := h₁.counts hX hk hc
    exact ⟨hc, hl.trans hl', hn.trans hn'⟩
  calendar hl := h₁.calendar (h₂.calendar hl)

/-- Once the containers in `X` have forgotten their counts, nothing is pending. -/
theorem close (he : Edited X E h h')
    (hX : ∀ n ∈ X, (h.obj n).kind.isContainer → (h'.obj n).statusCounts = none) :
    Edited ∅ E h h' where
  size := he.size
  kind := he.kind
  status := he.status
  times := he.times
  bunch := he.bunch
  children := he.children
  counts {n _} _ hk hc := by
    by_cases hn : n ∈ X
    · exact absurd ((hX n hn hk).symm.trans hc) nofun
    · exact he.counts hn hk hc
  calendar := he.calendar

theorem calendarNodes_eq_none (he : Edited X E h h') {n : Ref}
    (hn : (h.obj n).calendarNodes = none) : (h'.obj n).calendarNodes = none := by
  by_contra hne
  obtain ⟨l, hl⟩ := Option.ne_none_iff_exists'.mp hne
  exact absurd (hn.symm.trans (he.calendar hl)) nofun

theorem statusCounts_eq_none (he : Edited X E h h') {n : Ref} (hX : n ∉ X)
    (hn : (h.obj n).kind.isContainer → (h.obj n).statusCounts = none)
    (hk : (h'.obj n).kind.isContainer) : (h'.obj n).statusCounts = none := by
  rw [he.kind] at hk
  by_contra hne
  obtain ⟨counts, hc⟩ := Option.ne_none_iff_exists'.mp hne
  exact absurd ((hn hk).symm.trans (he.counts hX hk hc).1) nofun

/-- One write. -/
theorem write {n : Ref} {f : Obj → Obj} (hk : (f (h.obj n)).kind = (h.obj n).kind)
    (hs : (f (h.obj n)).status = (h.obj n).status) (ht : (f (h.obj n)).times = (h.obj n).times)
    (hb : (f (h.obj n)).bunch = (h.obj n).bunch)
    (hc : ∀ c ∈ (f (h.obj n)).children, c ∈ (h.obj n).children ∨ E n c)
    (hcount : ∀ counts, n ∉ X → (h.obj n).kind.isContainer →
      (f (h.obj n)).statusCounts = some counts →
        (h.obj n).statusCounts = some counts ∧ (f (h.obj n)).children = (h.obj n).children ∧
          (f (h.obj n)).statusChildCount = (h.obj n).statusChildCount)
    (hcal : ∀ l, (f (h.obj n)).calendarNodes = some l → (h.obj n).calendarNodes = some l) :
    Edited X E h (h.modify n f) where
  size := rfl
  kind := Heap.field_modify Obj.kind hk
  status := Heap.field_modify Obj.status hs
  times := Heap.field_modify Obj.times ht
  bunch := Heap.field_modify Obj.bunch hb
  children {p c} hp := by
    by_cases hpn : p = n
    · subst hpn
      rw [Heap.obj_modify_self] at hp
      exact hc c hp
    · rw [Heap.obj_modify_of_ne f hpn] at hp
      exact .inl hp
  counts {m counts} hX hm hcs := by
    by_cases hmn : m = n
    · subst hmn
      rw [Heap.obj_modify_self] at hcs ⊢
      exact hcount counts hX hm hcs
    · rw [Heap.obj_modify_of_ne f hmn] at hcs ⊢
      exact ⟨hcs, rfl, rfl⟩
  calendar {m l} hl := by
    by_cases hmn : m = n
    · subst hmn
      rw [Heap.obj_modify_self] at hl
      exact hcal l hl
    · rwa [Heap.obj_modify_of_ne f hmn] at hl

/-- A write to a child list whose counts are forgotten later. -/
theorem writeChildren {n : Ref} (g : List Ref → List Ref) (hX : n ∈ X)
    (hg : ∀ c ∈ g (h.obj n).children, c ∈ (h.obj n).children ∨ E n c) :
    Edited X E h (h.modify n fun o => { o with children := g o.children }) :=
  .write rfl rfl rfl rfl hg (fun _ hn => absurd hX hn) fun _ hl => hl

theorem writeParent (n : Ref) (q : Option Ref) :
    Edited X E h (h.modify n fun o => { o with parent := q }) :=
  .write rfl rfl rfl rfl (fun _ => .inl) (fun _ _ _ hc => ⟨hc, rfl, rfl⟩) fun _ hl => hl

theorem writeGeneration (n : Ref) (q : Option String) :
    Edited X E h (h.modify n fun o => { o with definitionGeneration := q }) :=
  .write rfl rfl rfl rfl (fun _ => .inl) (fun _ _ _ hc => ⟨hc, rfl, rfl⟩) fun _ hl => hl

theorem forgetCounts (n : Ref) : Edited X E h (h.modify n Obj.forgetCounts) := by
  refine .write (Obj.field_forgetCounts Obj.kind (fun _ => rfl) _)
    (Obj.field_forgetCounts Obj.status (fun _ => rfl) _)
    (Obj.field_forgetCounts Obj.times (fun _ => rfl) _)
    (Obj.field_forgetCounts Obj.bunch (fun _ => rfl) _) (fun c hc => ?_)
    (fun counts _ hk hc => ?_) fun l hl => ?_
  · rw [Obj.field_forgetCounts Obj.children fun _ => rfl] at hc
    exact .inl hc
  · rw [Obj.forgetCounts_statusCounts hk] at hc
    cases hc
  · rwa [Obj.field_forgetCounts Obj.calendarNodes fun _ => rfl] at hl

theorem forgetCalendar (n : Ref) : Edited X E h (h.forgetCalendar n) := by
  unfold Heap.forgetCalendar
  cases h.getFlow n with
  | none => exact .refl h
  | some f =>
    exact .write rfl rfl rfl rfl (fun _ => .inl) (fun _ _ _ hc => ⟨hc, rfl, rfl⟩) nofun

theorem assignGenerations (generation : String) (given : Bool) (l : List Ref) (h : Heap) :
    Edited X E h (l.foldl (fun h n => h.assignGeneration generation given n) h) := by
  induction l generalizing h with
  | nil => exact .refl h
  | cons n l ih =>
    refine trans ?_ (ih _)
    show Edited X E h (h.assignGeneration generation given n)
    unfold Heap.assignGeneration
    split_ifs
    · exact writeGeneration n _
    · exact .refl h

theorem ensureDefinitionGeneration (f : Ref) (subtree : Option Ref) (uuid : Uuid) :
    Edited X E h (h.ensureDefinitionGeneration f subtree uuid) :=
  (writeGeneration f _).trans (assignGenerations _ _ _ _)

end Edited

/-! ### Links after the small writes -/

section Forest

variable (h : Heap) (n : Ref)

@[simp] theorem forest_forgetCounts : (h.modify n Obj.forgetCounts).forest = h.forest :=
  Heap.forest_modify (Obj.field_forgetCounts Obj.parent (fun _ => rfl) _)
    (Obj.field_forgetCounts Obj.children (fun _ => rfl) _)

@[simp] theorem forest_forgetCalendar : (h.forgetCalendar n).forest = h.forest := by
  unfold Heap.forgetCalendar
  cases h.getFlow n with
  | none => rfl
  | some f => exact Heap.forest_modify rfl rfl

theorem forest_writeParent (q : Option Ref) :
    (h.modify n fun o => { o with parent := q }).forest =
      { h.forest with parent := Function.update h.forest.parent n q } := by
  unfold Heap.forest
  congr 1
  · funext m
    by_cases hm : m = n
    · rw [hm, Heap.obj_modify_self, Function.update_self]
    · rw [Heap.obj_modify_of_ne _ hm, Function.update_of_ne hm]
  · funext m
    exact Heap.field_modify Obj.children rfl m

theorem forest_writeChildren (g : List Ref → List Ref) :
    (h.modify n fun o => { o with children := g o.children }).forest =
      { h.forest with
        children := Function.update h.forest.children n (g (h.forest.children n)) } := by
  unfold Heap.forest
  congr 1
  · funext m
    exact Heap.field_modify Obj.parent rfl m
  · funext m
    by_cases hm : m = n
    · rw [hm, Heap.obj_modify_self, Function.update_self]
    · rw [Heap.obj_modify_of_ne _ hm, Function.update_of_ne hm]

theorem forest_clearParent :
    (h.modify n fun o => { o with parent := none }).forest = h.forest.clear n :=
  forest_writeParent h n none

theorem forest_takeChild (c : Ref) :
    (h.modify n fun o => { o with children := o.children.erase c }).forest =
      h.forest.take n c :=
  forest_writeChildren h n fun l => l.erase c

end Forest

theorem forest_assignGenerations (generation : String) (given : Bool) (l : List Ref) (h : Heap) :
    (l.foldl (fun h n => h.assignGeneration generation given n) h).forest = h.forest := by
  induction l generalizing h with
  | nil => rfl
  | cons n l ih =>
    refine (ih _).trans ?_
    show (h.assignGeneration generation given n).forest = h.forest
    unfold Heap.assignGeneration
    split_ifs
    · exact Heap.forest_modify rfl rfl
    · rfl

@[simp] theorem forest_ensureDefinitionGeneration (h : Heap) (f : Ref) (subtree : Option Ref)
    (uuid : Uuid) : (h.ensureDefinitionGeneration f subtree uuid).forest = h.forest :=
  (forest_assignGenerations _ _ _ _).trans (Heap.forest_modify rfl rfl)

/-- The flow of a place forgets its nodes with times. -/
theorem calendarNodes_forgetCalendar {h : Heap} {n f : Ref} (hf : h.getFlow n = some f) :
    ((h.forgetCalendar n).obj f).calendarNodes = none := by
  unfold Heap.forgetCalendar
  rw [hf]
  simp

theorem getFlow_congr {h h' : Heap} (hf : h'.forest = h.forest)
    (hk : ∀ n, (h'.obj n).kind = (h.obj n).kind) (n : Ref) : h'.getFlow n = h.getFlow n := by
  unfold Heap.getFlow
  rw [hf, hk]

/-! ### Deletions -/

/-- Deletions shrink the child lists and keep what is linked linked. -/
def Deletes (O : Set ℕ) (h t : Heap) : Prop :=
  h.forest.WellLinked O → Shrunk h t ∧ t.forest.WellLinked O

/-- The rest of a deletion, once the child is out of the list. -/
theorem linked_dropChild {del : Heap → Ref → Heap}
    (hdel : ∀ (h : Heap) (n : Ref) (O : Set ℕ), Deletes O h (del h n)) {O : Set ℕ} {h t : Heap}
    {n c : Ref} (hl : h.forest.WellLinked O) (hc : ∀ q, c ∈ (h.obj q).children → q = n)
    (ht : t.forest = h.forest.take n c) :
    Shrunk t ((del t c).modify c fun o => { o with parent := none }) ∧
      ((del t c).modify c fun o => { o with parent := none }).forest.WellLinked O := by
  obtain ⟨hsh, hld⟩ := hdel t c (insert c O) (ht ▸ hl.take n c)
  refine ⟨hsh.trans (.writeParent c none), ?_⟩
  rw [forest_clearParent]
  refine hld.clear fun q hq => ?_
  have hq : c ∈ t.forest.children q := (hsh.children hq).resolve_right id
  rw [ht] at hq
  by_cases hqn : q = n
  · subst hqn
    simp only [LinkedForest.take, Function.update_self] at hq
    exact (hl.nodup q).not_mem_erase hq
  · simp only [LinkedForest.take, Function.update_of_ne hqn] at hq
    exact hqn (hc q hq)

/-- Taking one child out, with all that is below it. -/
theorem deletes_dropChild {del : Heap → Ref → Heap}
    (hdel : ∀ (h : Heap) (n : Ref) (O : Set ℕ), Deletes O h (del h n))
    {O : Set ℕ} {h : Heap} {n c : Ref} (hc : ∀ q, c ∈ (h.obj q).children → q = n)
    (hn : (h.obj n).kind.isContainer → (h.obj n).statusCounts = none) :
    Deletes O h ((del (h.modify n fun o => { o with children := o.children.erase c }) c).modify c
      fun o => { o with parent := none }) := by
  intro hl
  obtain ⟨hsh, hlt⟩ := linked_dropChild hdel hl hc (forest_takeChild h n c)
  have htake : Edited {n} (fun _ _ => False) h
      (h.modify n fun o => { o with children := o.children.erase c }) :=
    .writeChildren (fun l => l.erase c) (Set.mem_singleton n) fun _ hd => .inl (List.mem_of_mem_erase hd)
  refine ⟨(htake.close fun m hm hk => ?_).trans hsh, hlt⟩
  obtain rfl := Set.mem_singleton_iff.mp hm
  rw [Heap.obj_modify_self]
  exact hn hk

/-- `delete_children` deletes, to whatever depth it goes. -/
theorem deletes_deleteChildren (k : ℕ) :
    ∀ (h : Heap) (n : Ref) (O : Set ℕ), Deletes O h (Heap.deleteChildren k h n) := by
  induction k with
  | zero => exact fun h n O hl => ⟨.refl h, hl⟩
  | succ k ih =>
    intro h n O hl
    rw [Heap.deleteChildren]
    set h₁ := (h.forgetCalendar n).modify n Obj.forgetCounts with hh₁
    have hsh : Shrunk h h₁ := .trans (.forgetCalendar n) (.forgetCounts n)
    have hf : h₁.forest = h.forest := by simp [hh₁]
    have hcounts : (h₁.obj n).kind.isContainer → (h₁.obj n).statusCounts = none := by
      rw [hh₁, Heap.obj_modify_self]
      intro hk
      exact Obj.forgetCounts_statusCounts (by simpa using hk)
    have honly : ∀ c ∈ (h₁.obj n).children, ∀ q, c ∈ (h₁.obj q).children → q = n := by
      intro c hc q hq
      have hl₁ : h₁.forest.WellLinked O := hf ▸ hl
      exact Option.some.inj ((hl₁.parent_of_mem hq).symm.trans (hl₁.parent_of_mem hc))
    -- The loop: the children that are left stand in no other list, and the counts stay forgotten.
    have hloop : ∀ (l : List Ref) (t : Heap), (∀ c ∈ l, ∀ q, c ∈ (t.obj q).children → q = n) →
        ((t.obj n).kind.isContainer → (t.obj n).statusCounts = none) → Deletes O t
          (l.foldl (fun h c => (Heap.deleteChildren k
            (h.modify n fun o => { o with children := o.children.erase c }) c).modify c
              fun o => { o with parent := none }) t) := by
      intro l
      induction l with
      | nil => exact fun t _ _ ht => ⟨.refl t, ht⟩
      | cons c l ihl =>
        intro t hon hcn ht
        obtain ⟨hs, hlt⟩ := deletes_dropChild ih (hon c List.mem_cons_self) hcn ht
        obtain ⟨hs', hlt'⟩ := ihl _
          (fun d hd q hq => hon d (List.mem_cons_of_mem c hd) q ((hs.children hq).resolve_right id))
          (hs.statusCounts_eq_none (Set.notMem_empty n) hcn) hlt
        exact ⟨hs.trans hs', hlt'⟩
    obtain ⟨hs, hlt⟩ := hloop _ h₁ honly hcounts (hf ▸ hl)
    exact ⟨hsh.trans hs, hlt⟩

theorem findChild_mem {h : Heap} {p c : Ref} {child : String} (hc : h.findChild p child = some c) :
    c ∈ (h.obj p).children := List.mem_of_find?_eq_some hc

/-- `delete_child` deletes, or it raises. -/
theorem deletes_deleteChild (h : Heap) (p : Ref) (child : String) (O : Set ℕ) :
    Deletes O h (h.after (h.deleteChild p child)) := by
  intro hl
  unfold Heap.deleteChild
  cases hfind : h.findChild p child with
  | none => exact ⟨.refl h, hl⟩
  | some c =>
    have hc : c ∈ (h.obj p).children := findChild_mem hfind
    set h₁ := ((h.modify p fun o => { o with children := o.children.erase c }).forgetCalendar
      p).modify p Obj.forgetCounts with hh₁
    have hf : h₁.forest = h.forest.take p c := by
      rw [hh₁, forest_forgetCounts, forest_forgetCalendar, forest_takeChild]
    have htake : Edited {p} (fun _ _ => False) h h₁ :=
      .trans (.trans (.writeChildren (fun l => l.erase c) (Set.mem_singleton p)
        fun _ hd => .inl (List.mem_of_mem_erase hd)) (.forgetCalendar p)) (.forgetCounts p)
    obtain ⟨hsh, hlt⟩ := linked_dropChild (deletes_deleteChildren h₁.size) hl
      (fun q hq => Option.some.inj ((hl.parent_of_mem hq).symm.trans (hl.parent_of_mem hc))) hf
    refine ⟨(htake.close fun m hm hk => ?_).trans hsh, hlt⟩
    obtain rfl := Set.mem_singleton_iff.mp hm
    rw [← htake.kind] at hk
    rw [hh₁, Heap.obj_modify_self] at hk ⊢
    exact Obj.forgetCounts_statusCounts (by simpa using hk)

/-! ### Attachments -/

/-- The pair of a new child. -/
abbrev NewChild (p c : Ref) : Ref → Ref → Prop := fun q d => q = p ∧ d = c

theorem not_under_of_detached {h : Heap} (hl : h.WellLinked) {p c : Ref} (hd : h.Detached p c) :
    ¬ h.forest.Under p c := fun hu => hd.2 (hl.root_eq hu hd.1)

theorem forest_attach (h : Heap) (p c : Ref) :
    ((h.modify c fun o => { o with parent := some p }).modify p
      fun o => { o with children := o.children ++ [c] }).forest = h.forest.attach p c := by
  rw [forest_writeChildren _ p fun l => l ++ [c], forest_writeParent]
  rfl

/-- A node has been attached: what the caches need to know, and the heap is linked as before. -/
structure Attached (p c : Ref) (h h' : Heap) : Prop where
  edited : Edited ∅ (NewChild p c) h h'
  linked : h'.WellLinked
  calendar : ∀ f, h.getFlow p = some f → (h'.obj f).calendarNodes = none

section Attach

variable {h : Heap} {p c : Ref} (hl : h.WellLinked) (hp : p < h.size) (hc : c < h.size)
  (hd : h.Detached p c)

include hl hp hc hd

/-- The new links of `append_child`; they do not move the place to another flow. -/
theorem attached_linkChild : Attached p c h (h.linkChild p c) ∧
    (h.linkChild p c).forest = h.forest.attach p c ∧
    (h.linkChild p c).getFlow p = h.getFlow p := by
  have hnot := not_under_of_detached hl hd
  set h₂ := (h.modify c fun o => { o with parent := some p }).modify p
    fun o => { o with children := o.children ++ [c] } with hh₂
  have he : Edited {p} (NewChild p c) h h₂ := by
    refine .trans (.writeParent c (some p))
      (.writeChildren (fun l => l ++ [c]) (Set.mem_singleton p) fun d hd => ?_)
    rcases List.mem_append.mp hd with hd | hd
    · exact .inl hd
    · exact .inr ⟨rfl, List.mem_singleton.mp hd⟩
  have he₃ : Edited ∅ (NewChild p c) h (h₂.modify p Obj.forgetCounts) := by
    refine (he.trans (.forgetCounts p)).close fun m hm hk => ?_
    obtain rfl := Set.mem_singleton_iff.mp hm
    rw [Heap.obj_modify_self]
    exact Obj.forgetCounts_statusCounts (by rwa [he.kind])
  have hf₃ : (h₂.modify p Obj.forgetCounts).forest = h.forest.attach p c := by
    rw [forest_forgetCounts, hh₂, forest_attach]
  have hflow : (h₂.modify p Obj.forgetCounts).getFlow p = h.getFlow p := by
    unfold Heap.getFlow
    rw [hf₃, hl.root_attach hd.1 hc hp hnot, he₃.kind]
  have hf : (h.linkChild p c).forest = h.forest.attach p c :=
    (forest_forgetCalendar _ p).trans hf₃
  have he₄ : Edited ∅ (NewChild p c) (h₂.modify p Obj.forgetCounts) (h.linkChild p c) :=
    .forgetCalendar p
  refine ⟨⟨he₃.trans he₄, ?_, fun f hf => ?_⟩, hf, ?_⟩
  · rw [Heap.WellLinked, hf]
    exact hl.attach hd.1 hc hp hnot
  · exact calendarNodes_forgetCalendar (hflow.trans hf)
  · exact (getFlow_congr (forest_forgetCalendar _ p) he₄.kind p).trans hflow

/-- `append_child` of a detached node. -/
theorem attached_appendChild (uuid : Uuid) : Attached p c h (h.appendChild p c uuid) := by
  obtain ⟨hatt, -, -⟩ := attached_linkChild hl hp hc hd
  unfold Heap.appendChild
  dsimp only
  cases (h.linkChild p c).getFlow p with
  | none => exact hatt
  | some f =>
    dsimp only
    split_ifs
    · have hens : Edited ∅ (NewChild p c) (h.linkChild p c) _ :=
        .ensureDefinitionGeneration f (some c) uuid
      refine ⟨hatt.edited.trans hens, ?_, fun g hg => hens.calendarNodes_eq_none (hatt.calendar g hg)⟩
      rw [Heap.WellLinked, forest_ensureDefinitionGeneration]
      exact hatt.linked
    · exact hatt

/-- `update_child` with a detached node, unless it raises. -/
theorem attached_updateChild (child : String) :
    h.after (h.updateChild p child c) = h ∨
      Attached p c h (h.after (h.updateChild p child c)) := by
  unfold Heap.updateChild
  cases hfind : h.findChild p child with
  | none => exact .inl rfl
  | some old =>
    have hold : old ∈ (h.obj p).children := findChild_mem hfind
    have hcp : (h.obj c).parent = none := hd.1
    refine .inr ?_
    dsimp only [Heap.after]
    set h₁ := h.forgetCalendar p with hh₁
    set h₃ := (h₁.modify c fun o => { o with parent := some p }).modify p
      fun o => { o with children := o.children.set (o.children.idxOf old) c } with hh₃
    have he₁ : Edited {p} (NewChild p c) h h₁ := .forgetCalendar p
    have he₃ : Edited {p} (NewChild p c) h₁ h₃ := by
      refine .trans (.writeParent c (some p))
        (.writeChildren (fun l => l.set (l.idxOf old) c) (Set.mem_singleton p) fun d hd => ?_)
      exact (List.mem_or_eq_of_mem_set hd).imp_right fun h => ⟨rfl, h⟩
    have he₄ : Edited {p} (NewChild p c) h ((h₃.modify p Obj.forgetCounts).modify old
        fun o => { o with parent := none }) :=
      .trans (he₁.trans (he₃.trans (.forgetCounts p))) (.writeParent old none)
    refine ⟨he₄.close fun m hm hk => ?_, ?_, fun f hf => ?_⟩
    · obtain rfl := Set.mem_singleton_iff.mp hm
      rw [Heap.field_modify Obj.statusCounts rfl, Heap.obj_modify_self]
      exact Obj.forgetCounts_statusCounts (by rwa [he₃.kind, he₁.kind])
    · have hf : ((h₃.modify p Obj.forgetCounts).modify old
          fun o => { o with parent := none }).forest = h.forest.replace p old c := by
        rw [forest_clearParent, forest_forgetCounts, hh₃,
          forest_writeChildren _ p fun l => l.set (l.idxOf old) c, forest_writeParent, hh₁,
          forest_forgetCalendar]
        rfl
      rw [Heap.WellLinked, hf]
      exact hl.replace hold hd.1 hc hp (not_under_of_detached hl hd)
    · have hnone := calendarNodes_forgetCalendar hf
      exact ((he₃.trans (.forgetCounts p)).trans (.writeParent old none)).calendarNodes_eq_none hnone

end Attach

end Takler.Linked
