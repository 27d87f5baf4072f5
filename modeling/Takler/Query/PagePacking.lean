import Takler.Query.Cursor
import Takler.Query.PageEstimate

/-!
# Captures that fit

The loop of `_capture` follows the estimate. A page that the estimate puts together is made as it is
or is too large, and then the loop stops. So whether a capture gives its pages can be told from the
sizes of the rows, the generations and the header, page by page.

A long name of the root takes more room than the estimate has for a header: nodes that fit on pages
of their own are put on one page, which is refused.

## Main definitions

* `Packing.Drafted`: the variables of the loop, in terms of the page that is being filled.
* `Packing.Outcome`: what the loop and the last page come to.

## Main results

* `Packing.Drafted.outcome`: the loop makes the pages that the estimate puts together.
* `capture_outcome`: so does a capture.
-/

open CodePoints (ofString encode byteLength)
open Json (escapeGrowth memberBytes)

namespace Takler.Query

open Version

variable {F : Type} {R : Json.FloatText F} {view : PageView} {root : CodePoints}

/-! ### Valid pages -/

namespace Packing

/-- A node can be placed when it has no flow, or its flow has a generation. -/
def Placeable (x : Item) : Prop := flowPath x.path = none ∨ ∃ c g, x.generation = some (c :: g)

/-- What holds of every selection: its paths differ and are valid, and no flow has two
generations. -/
structure Sound (items : List Item) : Prop where
  nodup : (items.map Item.path).Nodup
  valid : ∀ x ∈ items, validPath x.path
  consistent : Consistent items

/-- The page with one more node. -/
def placed (s : Packing) (x : Item) (size : ℕ) : Packing :=
  { s.append x size with
    generations := x.flowEntry.elim s.generations fun e => s.generations.set e.1 e.2 }

theorem place_of_placeable {s : Packing} {x : Item} (h : Placeable x) (size : ℕ) :
    s.place x size = .ok (s.placed x size) := by
  rcases h with h | ⟨c, g, h⟩
  · simp [place, placed, Item.flowEntry, h, append]
  · cases hflow : flowPath x.path <;> simp [place, placed, Item.flowEntry, h, hflow, append]

theorem place_of_not_placeable {s : Packing} {x : Item} (h : ¬ Placeable x) (size : ℕ) :
    s.place x size = .error .noGeneration := by
  unfold Placeable at h
  push Not at h
  obtain ⟨flow, hflow⟩ := Option.ne_none_iff_exists'.mp h.1
  rw [place, hflow]
  split
  · cases ‹some flow = none›
  · exact absurd ‹x.generation = _› (h.2 _ _)
  · rfl

/-- A flow is among the generations when one of its nodes is on the page. -/
theorem mem_keys_generationsOf_iff {nodes : List Item} (h : ∀ y ∈ nodes, Placeable y)
    {flow : CodePoints} :
    flow ∈ (generationsOf nodes).keys ↔ ∃ y ∈ nodes, flowPath y.path = some flow := by
  constructor
  · intro hflow
    obtain ⟨e, he, rfl⟩ := List.mem_map.mp hflow
    obtain ⟨y, hy, hye⟩ := exists_of_mem_generationsOf he
    obtain ⟨f, hf, hye⟩ := Option.bind_eq_some_iff.mp hye
    obtain ⟨g, -, rfl⟩ := Option.map_eq_some_iff.mp hye
    exact ⟨y, hy, hf⟩
  · rintro ⟨y, hy, hflow⟩
    rcases h y hy with hnone | ⟨c, g, hg⟩
    · cases hnone.symm.trans hflow
    · exact mem_keys_generationsOf hy (e := (flow, c :: g)) (by
        rw [Item.flowEntry, hflow, hg]
        rfl)

/-- The variables of the loop: the page that is being filled, with the nodes that are left. -/
structure Drafted (items xs : List Item) (p : Draft) (s : Packing) : Prop where
  nodes : s.nodes = p.map Prod.fst
  estimated : s.estimated = estimateOf p
  generations : s.generations = generationsOf s.nodes
  count : p.length ≤ maxPageNodes
  sublist : (p.map Prod.fst ++ xs).Sublist items
  placeable : ∀ y ∈ s.nodes, Placeable y

theorem drafted_start (items : List Item) : Drafted items items [] {} where
  nodes := rfl
  estimated := rfl
  generations := rfl
  count := Nat.zero_le _
  sublist := List.Sublist.refl _
  placeable _ hy := absurd hy List.not_mem_nil

namespace Drafted

variable {items xs : List Item} {p : Draft} {s : Packing} {x : Item}

theorem mem (h : Drafted items xs p s) {y : Item} (hy : y ∈ s.nodes) : y ∈ items :=
  h.sublist.subset (List.mem_append_left _ (h.nodes ▸ hy))

/-- What the loop counts for a generation depends on the nodes of the page. -/
theorem generationSize_eq (h : Drafted items (x :: xs) p s) :
    s.generationSize x = entryCost p x := by
  unfold generationSize entryCost Item.entrySize
  cases hflow : flowPath x.path with
  | none => simp
  | some flow =>
    have hkeys : flow ∈ s.generations.keys ↔
        (p.any fun e => flowPath e.1.path = some flow) = true := by
      rw [h.generations, mem_keys_generationsOf_iff h.placeable, h.nodes]
      simp
    exact if_congr hkeys rfl rfl

theorem endsBefore_eq (h : Drafted items (x :: xs) p s) :
    s.endsBefore x = isFull p x := by
  rw [endsBefore, isFull, h.generationSize_eq, h.estimated, h.nodes, List.length_map,
    decide_eq_decide, ne_eq, List.map_eq_nil_iff]

theorem accepts (h : Drafted items xs p s) (hsound : Sound items) (hp : p ≠ []) (complete : Bool) :
    acceptsPage complete s.generations s.nodes = true := by
  rw [acceptsPage, decide_eq_true_eq]
  refine ⟨?_, .inr ?_, ?_, fun e he => ?_, fun x hx flow hflow => ?_⟩
  · rw [h.nodes, List.length_map]
    exact h.count
  · rw [h.nodes, ne_eq, List.map_eq_nil_iff]
    exact hp
  · rw [h.nodes]
    exact hsound.nodup.sublist
      (((List.sublist_append_left _ _).trans h.sublist).map Item.path)
  · rw [h.generations] at he
    obtain ⟨x, hx, hentry⟩ := exists_of_mem_generationsOf he
    obtain ⟨flow, hflow, hentry⟩ := Option.bind_eq_some_iff.mp hentry
    obtain ⟨g, hg, rfl⟩ := Option.map_eq_some_iff.mp hentry
    obtain ⟨hvalid, hroot, hcount⟩ := valid_flowPath (hsound.valid x (h.mem hx)) hflow
    refine ⟨hvalid, hroot, hcount, ?_⟩
    rcases h.placeable x hx with hnone | ⟨c, g', hg'⟩
    · cases hnone.symm.trans hflow
    · cases hg'.symm.trans hg
      exact List.cons_ne_nil _ _
  · rw [h.generations]
    exact (mem_keys_generationsOf_iff h.placeable).mpr ⟨x, hx, Option.mem_toList.mp hflow⟩

/-- A node that goes on the page. -/
theorem placed (h : Drafted items (x :: xs) p s) (hx : Placeable x) (hfull : isFull p x = false) :
    Drafted items xs (p ++ [(x, entryCost p x)]) (s.placed x (entryCost p x)) where
  nodes := by
    rw [List.map_append, ← h.nodes]
    rfl
  estimated := by
    rw [estimateOf_append_singleton, ← h.estimated, ← Nat.add_assoc]
    rfl
  generations := by
    have hnodes : (s.placed x (entryCost p x)).nodes = s.nodes ++ [x] := rfl
    rw [hnodes]
    cases he : x.flowEntry with
    | none =>
      rw [generationsOf_append_of_none he, ← h.generations]
      simp [Packing.placed, he, append]
    | some e =>
      rw [generationsOf_append_of_some he, ← h.generations]
      simp [Packing.placed, he]
  count := by
    rw [List.length_append, List.length_singleton]
    rw [isFull, decide_eq_false_iff_not, not_and_or, not_or, not_not] at hfull
    rcases hfull with rfl | ⟨hcount, -⟩
    · decide
    · omega
  sublist := by
    rw [List.map_append, List.append_assoc]
    exact h.sublist
  placeable y hy := (List.mem_append.mp hy).elim (h.placeable y) fun hy =>
    List.mem_singleton.mp hy ▸ hx

variable (R view root) in
/-- The first node of the next page. What was counted for its generation is what it would have added
to the page before. -/
theorem placed_flushed (h : Drafted items (x :: xs) p s) (hx : Placeable x) (complete : Bool)
    (n : ℕ) :
    Drafted items xs [(x, n)] ((s.flushed R view root complete).placed x n) where
  nodes := rfl
  estimated := by
    rw [estimateOf, List.map_singleton, List.sum_singleton, ← Nat.add_assoc]
    rfl
  generations := by
    have hnodes : ((s.flushed R view root complete).placed x n).nodes = [] ++ [x] := rfl
    rw [hnodes]
    cases he : x.flowEntry with
    | none =>
      rw [generationsOf_append_of_none he]
      simp [Packing.placed, he, append, Packing.flushed, generationsOf]
    | some e =>
      rw [generationsOf_append_of_some he]
      simp [Packing.placed, he, Packing.flushed, generationsOf]
  count := Nat.le_of_ble_eq_true rfl
  sublist := (List.sublist_append_right _ _).trans h.sublist
  placeable _ hy := List.mem_singleton.mp hy ▸ hx

theorem raw_eq (h : Drafted items xs p s) (complete : Bool) :
    s.raw R view root complete = page R view root s.pageIndex complete
      (generationsOf (p.map Prod.fst)) (p.map Prod.fst) := by
  rw [raw, h.generations, h.nodes]

/-- The last step of a page: it is too large, or the budget does not suffice, or it is kept. -/
theorem flush_eq (h : Drafted items xs p s) (hsound : Sound items) (hp : p ≠ []) (complete : Bool)
    (budget : ℕ) :
    s.flush R view root budget complete =
      if maxPageBytes < pageBytes R view root s.pageIndex complete (p.map Prod.fst) then
        .error .pageTooLarge
      else if budget < s.totalSize + (s.raw R view root complete).length then .error .budget
      else .ok (s.flushed R view root complete) := by
  have hlen : (s.raw R view root complete).length =
      pageBytes R view root s.pageIndex complete (p.map Prod.fst) := by
    rw [h.raw_eq]
    exact length_page_eq hsound.consistent (fun y hy => h.mem (h.nodes ▸ hy))
      (by simpa using hp) _ _
  rw [Packing.flush, ← hlen, h.accepts hsound hp complete, if_neg (c := true = false) (by simp)]

end Drafted

/-! ### The loop -/

variable (R view root) in
/-- The loop and the last page. -/
def finish (budget : ℕ) (s : Packing) (xs : List Item) : Except CaptureError Packing := do
  let t ← xs.foldlM (Packing.push R view root budget) s
  t.flush R view root budget true

/-- What comes of some pages, if all nodes of them are usable. When all of them fit, they are made or
the budget does not suffice; when one does not, a size stops the loop, if the budget does not. An
unusable node stops it with another error. -/
structure Outcome (usable fit : Prop) (budget total : ℕ) (pages : List (List UInt8))
    (result : Except CaptureError Packing) : Prop where
  made : fit → (∃ t, result = .ok t ∧ t.pages = pages) ∨
    ∃ e, result = .error e ∧ e.isPageSize = false ∧ (usable → budget < total)
  stopped : usable → ¬ fit → total ≤ budget → ∃ e, result = .error e ∧ e.isPageSize = true

namespace Outcome

variable {usable fit : Prop} {budget total : ℕ} {pages : List (List UInt8)} {e : CaptureError}

theorem of_size (hfit : ¬ fit) (he : e.isPageSize = true) :
    Outcome usable fit budget total pages (.error e) :=
  ⟨fun h => absurd h hfit, fun _ _ _ => ⟨e, rfl, he⟩⟩

theorem of_budget (h : budget < total) : Outcome usable fit budget total pages (.error .budget) :=
  ⟨fun _ => .inr ⟨_, rfl, rfl, fun _ => h⟩, fun _ _ hle => absurd h (Nat.not_lt.mpr hle)⟩

theorem of_unusable (h : ¬ usable) (he : e.isPageSize = false) :
    Outcome usable fit budget total pages (.error e) :=
  ⟨fun _ => .inr ⟨_, rfl, he, fun hu => absurd hu h⟩, fun hu => absurd hu h⟩

theorem mono {usable' : Prop} {result : Except CaptureError Packing} (hu : usable' → usable)
    (h : Outcome usable fit budget total pages result) :
    Outcome usable' fit budget total pages result where
  made hfit := (h.made hfit).imp_right fun ⟨e, he, hsize, hb⟩ => ⟨e, he, hsize, fun h => hb (hu h)⟩
  stopped h' := h.stopped (hu h')

end Outcome

theorem finish_cons (budget : ℕ) (s : Packing) (x : Item) (xs : List Item) :
    finish R view root budget s (x :: xs) =
      s.push R view root budget x >>= fun t => finish R view root budget t xs := by
  rw [finish, List.foldlM_cons, bind_assoc]
  rfl

/-- **What the loop comes to**, by induction on the nodes that are left: each of them ends the page,
which is made or is too large, or goes on it. -/
theorem Drafted.outcome {items : List Item} (hsound : Sound items) (budget : ℕ) (xs : List Item) :
    ∀ {p : Draft} {s : Packing}, Drafted items xs p s → p ≠ [] ∨ xs ≠ [] → NodesFit p →
      Outcome (∀ x ∈ xs, Placeable x) (AllFit R view root s.pageIndex (splitPages p xs)) budget
        (s.totalSize + ((pagesFrom R view root s.pageIndex (splitPages p xs)).map
          List.length).sum)
        (s.pages ++ pagesFrom R view root s.pageIndex (splitPages p xs))
        (finish R view root budget s xs) := by
  induction xs with
  | nil =>
    intro p s h hne hp
    have hne := hne.resolve_right (not_not.mpr rfl)
    have hfinish : finish R view root budget s [] = s.flush R view root budget true := rfl
    rw [hfinish, h.flush_eq hsound hne, splitPages, pagesFrom, pagesFrom, List.map_singleton,
      List.sum_singleton, List.isEmpty_nil, ← h.raw_eq]
    split_ifs with hlarge hbudget
    · exact .of_size (fun hfit => absurd hfit.1.2 (Nat.not_le.mpr hlarge)) rfl
    · exact .of_budget hbudget
    · exact ⟨fun _ => .inl ⟨_, rfl, rfl⟩,
        fun _ hfit => absurd ⟨⟨hp, Nat.not_lt.mp hlarge⟩, trivial⟩ hfit⟩
  | cons x xs ih =>
    intro p s h _ hp
    -- the estimate of the node alone, on whichever page it is
    have hnode {k : ℕ} {q : Draft} (hq : (x, entryCost p x) ∈ q)
        (hfit : AllFit R view root k (splitPages q xs)) :
        nodeSize x + entryCost p x + 1200 ≤ maxPageBytes := by
      obtain ⟨page, hpage, hmem⟩ := exists_mem_splitPages hq xs
      exact hfit.nodesFit hpage _ hmem
    rw [finish_cons, Packing.push, h.endsBefore_eq, h.generationSize_eq, splitPages]
    cases hfull : isFull p x with
    | false =>
      simp only [if_neg Bool.false_ne_true, bind, Except.bind]
      have hmem : (x, entryCost p x) ∈ p ++ [(x, entryCost p x)] :=
        List.mem_append_right _ List.mem_cons_self
      split_ifs with hlarge
      · exact .of_size (fun hfit => absurd (hnode hmem hfit) (Nat.not_le.mpr hlarge)) rfl
      · by_cases hplaceable : Placeable x
        swap
        · rw [place_of_not_placeable hplaceable]
          exact .of_unusable (fun hu => hplaceable (hu x List.mem_cons_self)) rfl
        rw [place_of_placeable hplaceable]
        refine (ih (h.placed hplaceable hfull) (.inl (List.ne_nil_of_mem hmem)) fun e he => ?_).mono
          fun hu y hy => hu y (List.mem_cons_of_mem x hy)
        rcases List.mem_append.mp he with he | he
        · exact hp e he
        · exact List.mem_singleton.mp he ▸ Nat.not_lt.mp hlarge
    | true =>
      have hne : p ≠ [] := by
        rw [isFull, decide_eq_true_eq] at hfull
        exact hfull.1
      have hlast : (splitPages [(x, entryCost p x)] xs).isEmpty = false := by
        simpa using splitPages_ne_nil [(x, entryCost p x)] xs
      rw [if_pos rfl, h.flush_eq hsound hne, if_pos rfl, pagesFrom, hlast, ← h.raw_eq, List.map_cons,
        List.sum_cons]
      by_cases hlarge : maxPageBytes < pageBytes R view root s.pageIndex false (p.map Prod.fst)
      · rw [if_pos hlarge]
        refine .of_size (fun hfit => ?_) rfl
        have hpage := hfit.1.2
        rw [hlast] at hpage
        exact absurd hpage (Nat.not_le.mpr hlarge)
      rw [if_neg hlarge]
      by_cases hbudget : budget < s.totalSize + (s.raw R view root false).length
      · rw [if_pos hbudget]
        exact .of_budget (by omega)
      rw [if_neg hbudget]
      by_cases hlargeNode : maxPageBytes < nodeSize x + entryCost p x + 1200
      · simp only [bind, Except.bind, if_pos hlargeNode]
        exact .of_size (fun hfit => absurd (hnode List.mem_cons_self hfit.2)
          (Nat.not_le.mpr hlargeNode)) rfl
      simp only [bind, Except.bind, if_neg hlargeNode]
      by_cases hplaceable : Placeable x
      swap
      · rw [place_of_not_placeable hplaceable]
        exact .of_unusable (fun hu => hplaceable (hu x List.mem_cons_self)) rfl
      rw [place_of_placeable hplaceable]
      have hrest := ih (h.placed_flushed R view root hplaceable false (entryCost p x))
        (.inl (List.cons_ne_nil _ _))
        fun e he => List.mem_singleton.mp he ▸ Nat.not_lt.mp hlargeNode
      have hfit : AllFit R view root s.pageIndex (p :: splitPages [(x, entryCost p x)] xs) ↔
          AllFit R view root (s.pageIndex + 1) (splitPages [(x, entryCost p x)] xs) := by
        refine ⟨fun hfit => hfit.2, fun hfit => ⟨⟨hp, ?_⟩, hfit⟩⟩
        rw [hlast]
        exact Nat.not_lt.mp hlarge
      rw [hfit, ← Nat.add_assoc, List.append_cons]
      exact hrest.mono fun hu y hy => hu y (List.mem_cons_of_mem x hy)

end Packing

/-! ### Captures -/

theorem consistent_iterFixedSummaries {V : StateVersion} {scope : CodePoints} {depth : Option ℕ} :
    Consistent (iterFixedSummaries R V scope depth).1 := by
  intro x hx y hy e he d hd hflow
  have hgen {z : Item} (hz : z ∈ (iterFixedSummaries R V scope depth).1)
      {a : CodePoints × CodePoints} (ha : z.flowEntry = some a) :
      flowGeneration R V a.1 = .ok (some a.2) := by
    have hspec := (spec_of_mem_iterFixedSummaries hz).generation
    obtain ⟨flow, hflow, ha⟩ := Option.bind_eq_some_iff.mp ha
    obtain ⟨g, hg, rfl⟩ := Option.map_eq_some_iff.mp ha
    rw [generationOf, hflow, hg] at hspec
    exact hspec
  have heq := (hgen hx he).symm.trans (hflow ▸ hgen hy hd)
  exact Prod.ext hflow (Option.some.inj (Except.ok.inj heq))

section Capture

variable {V : StateVersion} {scope : CodePoints} {depth : Option ℕ}

theorem sound_iterFixedSummaries : Packing.Sound (iterFixedSummaries R V scope depth).1 where
  nodup := nodup_iterFixedSummaries scope depth
  valid _ hx := (spec_of_mem_iterFixedSummaries hx).valid
  consistent := consistent_iterFixedSummaries

theorem placeable_of_generation {x : Item}
    (h : x.path ≠ rootPath → ∃ c g, x.generation = some (c :: g)) : Packing.Placeable x := by
  by_cases hroot : x.path = rootPath
  · exact .inl (if_pos hroot)
  · exact .inr (h hroot)

/-- The loop and the last page, from the start. -/
theorem outcome_start {items : List Item} (hsound : Packing.Sound items) (hne : items ≠ [])
    (budget : ℕ) :
    Packing.Outcome (∀ x ∈ items, Packing.Placeable x)
      (AllFit R view root 0 (splitPages [] items)) budget
      ((pagesFrom R view root 0 (splitPages [] items)).map List.length).sum
      (pagesFrom R view root 0 (splitPages [] items))
      (Packing.finish R view root budget {} items) := by
  have h := @Packing.Drafted.outcome F R view root items hsound budget items [] {}
    (Packing.drafted_start items) (.inr hne) fun e he => absurd he List.not_mem_nil
  rw [Nat.zero_add, List.nil_append] at h
  exact h

theorem capture_eq_finish (hroot : rootName R V = .ok root)
    (hwalk : (iterFixedSummaries R V scope depth).2 = none) (budget : ℕ) :
    capture R V view scope depth budget =
      (Packing.finish R view root budget {} (iterFixedSummaries R V scope depth).1).map
        Packing.pages := by
  rw [capture, hroot, Packing.finish]
  simp only [bind, Except.bind, hwalk]
  split
  · rfl
  · rename_i s _
    cases s.flush R view root budget true <;> rfl

theorem length_le_of_mem_pagesFrom {items : List Item} (hc : Consistent items) {k : ℕ}
    {ps : List Draft} (hne : ∀ p ∈ ps, p ≠ []) (hsub : ∀ p ∈ ps, ∀ e ∈ p, e.1 ∈ items)
    (hfit : AllFit R view root k ps) {bytes : List UInt8} (h : bytes ∈ pagesFrom R view root k ps) :
    bytes.length ≤ maxPageBytes := by
  induction ps generalizing k with
  | nil => exact absurd h List.not_mem_nil
  | cons p ps ih =>
    rcases List.mem_cons.mp h with rfl | h
    · rw [length_page_eq hc (fun y hy => ?_) (by simpa using hne p List.mem_cons_self)]
      · exact hfit.1.2
      · obtain ⟨e, he, rfl⟩ := List.mem_map.mp hy
        exact hsub p List.mem_cons_self e he
    · exact ih (fun q hq => hne q (List.mem_cons_of_mem p hq))
        (fun q hq => hsub q (List.mem_cons_of_mem p hq)) hfit.2 h

variable (view) in
/-- What a capture comes to after a walk without an error: its pages are those of the estimate. -/
theorem capture_outcome (hroot : rootName R V = .ok root)
    (hwalk : (iterFixedSummaries R V scope depth).2 = none) (budget : ℕ) :
    ∃ result, capture R V view scope depth budget = result.map Packing.pages ∧
      Packing.Outcome (∀ x ∈ (iterFixedSummaries R V scope depth).1, Packing.Placeable x)
        (AllFit R view root 0 (splitPages [] (iterFixedSummaries R V scope depth).1)) budget
        ((pagesFrom R view root 0 (splitPages [] (iterFixedSummaries R V scope depth).1)).map
          List.length).sum
        (pagesFrom R view root 0 (splitPages [] (iterFixedSummaries R V scope depth).1)) result :=
  ⟨_, capture_eq_finish hroot hwalk budget,
    outcome_start sound_iterFixedSummaries (iterFixedSummaries_ne_nil hwalk) budget⟩

/-- Pages that fit do not stop a capture, whatever the walk meets. -/
theorem isPageSize_capture (hroot : rootName R V = .ok root)
    (hfit : (iterFixedSummaries R V scope depth).1 ≠ [] →
      AllFit R view root 0 (splitPages [] (iterFixedSummaries R V scope depth).1))
    {budget : ℕ} {e : CaptureError} (he : capture R V view scope depth budget = .error e) :
    e.isPageSize = false := by
  have hfinish {e : CaptureError} (hne : (iterFixedSummaries R V scope depth).1 ≠ [])
      (he : Packing.finish R view root budget {} (iterFixedSummaries R V scope depth).1 =
        .error e) : e.isPageSize = false := by
    rcases (outcome_start sound_iterFixedSummaries hne budget).made (hfit hne) with
      ⟨t, ht, -⟩ | ⟨e', he', hsize, -⟩
    · cases ht.symm.trans he
    · cases he'.symm.trans he
      exact hsize
  cases hwalk : (iterFixedSummaries R V scope depth).2 with
  | none =>
    rw [capture_eq_finish hroot hwalk] at he
    cases hresult : Packing.finish R view root budget {}
        (iterFixedSummaries R V scope depth).1 with
    | ok t =>
      rw [hresult] at he
      cases he
    | error e' =>
      rw [hresult] at he
      cases he
      exact hfinish (iterFixedSummaries_ne_nil hwalk) hresult
  | some e' =>
    rw [capture, hroot] at he
    simp only [bind, Except.bind, hwalk] at he
    cases hloop : (iterFixedSummaries R V scope depth).1.foldlM
        (Packing.push R view root budget) {} with
    | ok t =>
      rw [hloop] at he
      cases he
      exact isPageSize_of_iterPending _ hwalk
    | error e'' =>
      rw [hloop] at he
      cases he
      refine hfinish (fun hnil => ?_) ?_
      · rw [hnil] at hloop
        cases hloop
      · rw [Packing.finish, hloop]
        rfl

/-- With a budget for all pages, a page that does not fit stops the capture. -/
theorem capture_stopped (hroot : rootName R V = .ok root)
    (hwalk : (iterFixedSummaries R V scope depth).2 = none)
    (hplaceable : ∀ x ∈ (iterFixedSummaries R V scope depth).1, Packing.Placeable x)
    (halone : Alone R view root (iterFixedSummaries R V scope depth).1)
    (hfit : ¬ PagesFit R view root (iterFixedSummaries R V scope depth).1) {budget : ℕ}
    (hbudget : ((pagesFrom R view root 0
      (splitPages [] (iterFixedSummaries R V scope depth).1)).map List.length).sum ≤ budget) :
    ∃ e, capture R V view scope depth budget = .error e ∧ e.isPageSize = true := by
  obtain ⟨result, hresult, houtcome⟩ := capture_outcome view hroot hwalk budget
  obtain ⟨e, rfl, hsize⟩ := houtcome.stopped hplaceable (mt (allFit_iff_pagesFit
    (iterFixedSummaries_ne_nil hwalk) consistent_iterFixedSummaries halone).mp hfit) hbudget
  exact ⟨e, hresult, hsize⟩

end Capture

/-! ### A bunch with one flow -/

section Flow

open Json.FloatText (noFloats)

/-- A snapshot, as `token_urlsafe` makes them. -/
def sampleSnapshot : CodePoints := "Zm9yZWNhc3Qtc25hcHNob3QtaWRlbnRp"

/-- Identities and times of a snapshot: a session as `token_urlsafe` makes them, a digest for the
query and the cursors of the service. -/
def sampleView : PageView where
  sessionId := "dGFrbGVyLXNlcnZlci1zZXNzaW9uLWlk"
  queryId := "0f1e2d3c4b5a69788796a5b4c3d2e1f00f1e2d3c4b5a69788796a5b4c3d2e1f0"
  snapshotId := sampleSnapshot
  cursor index := cursor (fun _ => ⟨List.replicate 32 0, rfl⟩) sampleSnapshot index []
  baseRevision := 1
  asOf := "2026-01-01T00:00:00.000000Z"
  expiresAt := "2026-01-01T00:02:00.000000Z"

/-- The generation of a flow, as `uuid4` makes them. -/
def sampleGeneration : CodePoints := "3f2b8c1e-7d64-4a09-9b5e-c2d1e0f4a687"

/-- The row of a bunch with one flow. -/
def rootRow (root : CodePoints) : FrozenNode where
  path := rootPath
  parent := none
  children := ["/f"]
  definition := "{}"
  runtime := "{}"
  publicText := some ((Json.obj [("name", .str root)]).render noFloats)
  summary := { nodeKind := .bunch, typeId := "takler.bunch", status := .queued, suspended := false }

/-- The row of the flow, which has no children. -/
def flowRow : FrozenNode where
  path := "/f"
  parent := some rootPath
  children := []
  definition := "{}"
  runtime := "{}"
  publicText := some ((Json.obj [("definition_generation", .str sampleGeneration)]).render noFloats)
  summary := { nodeKind := .flow, typeId := "takler.flow", status := .queued, suspended := false }

/-- The version of the bunch. -/
def flowVersion (root : CodePoints) : StateVersion where
  stateVersion := 1
  asOf := "2026-01-01T00:00:00+00:00"
  nodes := [rootRow root, flowRow]
  cwd := "/"
  retainedBytes := 0
  nodup := (by decide : ([rootPath, ofString "/f"] : List CodePoints).Nodup)
  longer := by
    intro row hrow child hchild
    rcases List.mem_pair.mp hrow with rfl | rfl
    · rw [List.mem_singleton.mp hchild]
      exact (by decide : rootPath.length < (ofString "/f").length)
    · cases hchild
  shorter := by
    intro row hrow p hp
    rcases List.mem_pair.mp hrow with rfl | rfl
    · cases hp
    · cases hp
      decide
  tree := List.nodup_singleton _

/-- The node of the bunch in a selection. -/
def rootItem : Item := ⟨rootPath, (rootRow []).summaryText noFloats, none⟩

/-- The node of the flow in a selection. -/
def flowItem : Item := ⟨"/f", flowRow.summaryText noFloats, some sampleGeneration⟩

variable (root : CodePoints)

private theorem readJson_singleton (k t : CodePoints) :
    readJson noFloats ((Json.obj [(k, .str t)]).render noFloats) = some (.obj [(k, .str t)]) :=
  Json.loads_render Json.keepsDistinct_keepLast (.obj (by simp) (by simpa using .str t))

theorem rootName_flowVersion : rootName noFloats (flowVersion root) = .ok root := by
  have hrow : (flowVersion root).node? rootPath = some (rootRow root) := rfl
  rw [rootName, hrow]
  simp only [rootRow, Option.bind_some, readJson_singleton]
  rfl

/-- The walk gives the bunch and then its flow. -/
theorem iterFixedSummaries_flowVersion :
    iterFixedSummaries noFloats (flowVersion root) rootPath none = ([rootItem, flowItem], none) := by
  have hroot : (flowVersion root).node? rootPath = some (rootRow root) := rfl
  have hflow : (flowVersion root).node? (ofString "/f") = some flowRow := rfl
  have hrootItem : fixedSummary noFloats (flowVersion root) (rootRow root) = .ok rootItem := by
    have hvalid : (rootRow []).summary.accepts rootPath := by decide
    rw [fixedSummary, if_neg (by simp [rootRow]), if_pos (by exact hvalid)]
    rfl
  have hflowItem : fixedSummary noFloats (flowVersion root) flowRow = .ok flowItem := by
    have hvalid : flowRow.summary.accepts flowRow.path := by decide
    have hgeneration : flowGeneration noFloats (flowVersion root) (ofString "/f") =
        .ok (some sampleGeneration) := by
      rw [flowGeneration, hflow]
      simp only [flowRow, readPublic, readJson_singleton]
      rfl
    have hpath : flowPath flowRow.path = some (ofString "/f") := by decide
    rw [fixedSummary, if_neg (by simp [flowRow]), if_pos hvalid, generationOf, hpath,
      Option.elim_some, hgeneration]
    rfl
  have hdone : iterPending noFloats (flowVersion root) none [] = ([], none) := by
    rw [iterPending]
  have hbelow : belowRow none (rootRow root) 0 ++ [] = [(ofString "/f", 1)] := rfl
  have hnone : belowRow none flowRow 1 ++ [] = [] := rfl
  rw [iterFixedSummaries, iterPending_of_ok hroot hrootItem, hbelow,
    iterPending_of_ok hflow hflowItem, hnone, hdone]

theorem generation_of_mem_flowVersion :
    ∀ x ∈ (iterFixedSummaries noFloats (flowVersion root) rootPath none).1, x.path ≠ rootPath →
      ∃ c g, x.generation = some (c :: g) := by
  rw [iterFixedSummaries_flowVersion]
  intro x hx hpath
  rcases List.mem_pair.mp hx with rfl | rfl
  · exact absurd rfl hpath
  · exact ⟨_, _, rfl⟩

/-! ### The sizes of its pages -/

/-- There are names of any size that are written as they are. -/
theorem exists_plain (n : ℕ) : ∃ root : CodePoints, escapeGrowth root = 0 ∧ byteLength root = n := by
  refine ⟨List.replicate n (CodePoints.char 'a'), Json.escapeGrowth_of_plain fun c hc => ?_,
    CodePoints.byteLength_replicate (by decide) n⟩
  rw [List.eq_of_mem_replicate hc]
  decide

variable {root}

/-- The cursor of a page that is not the last takes 89 bytes more than `null`. -/
theorem headerBytes_sample (hroot : escapeGrowth root = 0) {index : ℕ} (hindex : index ≤ 2)
    (complete : Bool) :
    headerBytes noFloats sampleView root index complete =
      (if complete then 425 else 514) + byteLength root := by
  have hlen : headerBytes noFloats sampleView root index complete =
      headerBytes noFloats sampleView [] index complete + byteLength root + escapeGrowth root :=
    Json.byteLength_obj_str noFloats ((sampleView.fields [] index complete).take 12)
      [(ofString "flow_generations", .obj (generationFields .empty)), (ofString "nodes", .arr [])]
      "root_name" root
  have hconst : ∀ i ≤ 2, ∀ c : Bool, headerBytes noFloats sampleView [] i c =
      if c then 425 else 514 := by
    decide +kernel
  rw [hlen, hconst index hindex complete, hroot, Nat.add_zero]

theorem alone_flowVersion (hroot : escapeGrowth root = 0)
    (hle : 649 + byteLength root ≤ maxPageBytes) :
    Alone noFloats sampleView root
      (iterFixedSummaries noFloats (flowVersion root) rootPath none).1 := by
  have hc := @consistent_iterFixedSummaries _ noFloats (flowVersion root) rootPath none
  rw [iterFixedSummaries_flowVersion] at hc ⊢
  intro x hx index hindex complete
  have hnode : ∀ x ∈ [rootItem, flowItem],
      (([x].map fun x => byteLength x.row + 1).sum - 1) +
        (((entriesOf [x]).map entryBytes).sum - 1) ≤ 135 := by
    decide +kernel
  have hx' := hnode x hx
  rw [length_page_eq hc (fun y hy => List.mem_singleton.mp hy ▸ hx) (List.cons_ne_nil _ _),
    pageBytes, headerBytes_sample hroot hindex]
  split_ifs <;> omega

/-- On one page the two nodes take five bytes more than the flow alone, with the header of a page
that is not the last, may take. -/
theorem pagesFit_flowVersion (hroot : escapeGrowth root = 0) :
    PagesFit noFloats sampleView root
        (iterFixedSummaries noFloats (flowVersion root) rootPath none).1 ↔
      654 + byteLength root ≤ maxPageBytes := by
  have hroom : 1200 + ([rootItem, flowItem].map fun x =>
      Packing.nodeSize x + x.entrySize).sum ≤ pageTargetBytes := by
    decide +kernel
  have hbytes : (([rootItem, flowItem].map fun x => byteLength x.row + 1).sum - 1) +
      (((entriesOf [rootItem, flowItem]).map entryBytes).sum - 1) = 229 := by
    decide +kernel
  rw [iterFixedSummaries_flowVersion, pagesFit_iff_of_room (by decide) hroom, pageBytes,
    headerBytes_sample hroot (Nat.zero_le 2), if_pos rfl]
  simp only [List.length_cons, List.length_nil]
  omega

end Flow

end Takler.Query
