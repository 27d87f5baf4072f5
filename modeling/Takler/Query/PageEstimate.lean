import Takler.Query.SummaryPages

/-!
# What the estimate of a page counts

The estimate of a page counts the rows with the commas between them, the generations of its flows
as they are, and 1200 bytes for the header. It misses three things: the bytes of the header beyond
1200, the escapes of the generations, and one generation, that of a flow which was already on the
page that ended just before.

The estimate alone says where a page ends. So the nodes of the pages can be told from the sizes of
the rows and of the generations before any page is made, and the loop of `_capture` is stopped by a
size exactly when one of these pages, or the estimate of one of these nodes, is too large.

## Main definitions

* `splitPages`: the nodes of the pages, by the estimate.
* `pageBytes`: the bytes of a page, by the sizes of its parts.
* `Alone`: every node fits on a page of its own.
* `PagesFit`: every page of several nodes fits, and so does the estimate of every node.

## Main results

* `length_page`, `length_page_eq`: the bytes of a page.
* `allFit_iff_pagesFit`: when every node fits alone, only pages of several nodes can be too large.
* `pagesFit_iff_of_room`: nodes whose estimate is below the target are one page.
-/

open CodePoints (ofString encode byteLength byteLength_append)
open Json (escapeGrowth memberBytes)

namespace Takler.Query

open Version

variable {F : Type} (R : Json.FloatText F) (view : PageView) (root : CodePoints)

/-! ### Generations -/

namespace Item

/-- The entry of a node in the generations of its page. -/
def flowEntry (x : Item) : Option (CodePoints × CodePoints) :=
  (flowPath x.path).bind fun flow => x.generation.map (flow, ·)

/-- What the estimate counts for the entry. -/
def entrySize (x : Item) : ℕ :=
  (flowPath x.path).elim 0 fun flow => Packing.entrySize flow x.generation

theorem entrySize_of_flowEntry {x : Item} {e : CodePoints × CodePoints} (h : x.flowEntry = some e) :
    x.entrySize = Packing.entrySize e.1 (some e.2) := by
  obtain ⟨flow, hflow, h⟩ := Option.bind_eq_some_iff.mp h
  obtain ⟨g, hg, rfl⟩ := Option.map_eq_some_iff.mp h
  rw [entrySize, hflow, hg]
  rfl

end Item

/-- The generations of a page with some nodes. -/
def generationsOf (nodes : List Item) : Generations :=
  (nodes.filterMap Item.flowEntry).foldl (fun d e => d.set e.1 e.2) .empty

theorem generationsOf_append_of_some {nodes : List Item} {x : Item} {e : CodePoints × CodePoints}
    (h : x.flowEntry = some e) :
    generationsOf (nodes ++ [x]) = (generationsOf nodes).set e.1 e.2 := by
  rw [generationsOf, List.filterMap_append, List.filterMap_cons_some h, List.filterMap_nil,
    List.foldl_append]
  rfl

theorem generationsOf_append_of_none {nodes : List Item} {x : Item} (h : x.flowEntry = none) :
    generationsOf (nodes ++ [x]) = generationsOf nodes := by
  rw [generationsOf, List.filterMap_append, List.filterMap_cons_none h, List.filterMap_nil,
    List.append_nil]
  rfl

theorem exists_of_mem_generationsOf {nodes : List Item} {e : CodePoints × CodePoints}
    (h : e ∈ (generationsOf nodes).entries) : ∃ x ∈ nodes, x.flowEntry = some e := by
  induction nodes using List.reverseRecOn with
  | nil => cases h
  | append_singleton nodes x ih =>
    have hold (h : e ∈ (generationsOf nodes).entries) :
        ∃ y ∈ nodes ++ [x], y.flowEntry = some e := by
      obtain ⟨y, hy, hye⟩ := ih h
      exact ⟨y, List.mem_append_left _ hy, hye⟩
    cases hx : x.flowEntry with
    | none => exact hold (generationsOf_append_of_none hx ▸ h)
    | some d =>
      rw [generationsOf_append_of_some hx] at h
      rcases OrderedDict.mem_set.mp h with rfl | ⟨h, -⟩
      · exact ⟨x, List.mem_append_right _ List.mem_cons_self, hx⟩
      · exact hold h

theorem mem_keys_generationsOf {nodes : List Item} {x : Item} (hx : x ∈ nodes)
    {e : CodePoints × CodePoints} (he : x.flowEntry = some e) :
    e.1 ∈ (generationsOf nodes).keys := by
  induction nodes using List.reverseRecOn with
  | nil => cases hx
  | append_singleton nodes y ih =>
    have hstep : ∀ k, (k ∈ (generationsOf nodes).keys ∨ y.flowEntry.map Prod.fst = some k) →
        k ∈ (generationsOf (nodes ++ [y])).keys := by
      intro k hk
      cases hy : y.flowEntry with
      | none => simpa [generationsOf_append_of_none hy, hy] using hk
      | some d =>
        rw [generationsOf_append_of_some hy]
        by_cases hd : d.1 ∈ (generationsOf nodes).keys
        · rw [OrderedDict.keys_set_of_mem hd]
          rcases hk with hk | hk
          · exact hk
          · rw [hy] at hk
            exact Option.some.inj hk ▸ hd
        · rw [OrderedDict.keys_set_of_notMem hd]
          simpa [hy, eq_comm] using hk
    rcases List.mem_append.mp hx with hx | hx
    · exact hstep _ (.inl (ih hx))
    · rw [List.mem_singleton.mp hx] at he
      exact hstep _ (.inr (by rw [he]; rfl))

/-- A flow has one generation in a selection. -/
def Consistent (items : List Item) : Prop :=
  ∀ x ∈ items, ∀ y ∈ items, ∀ e ∈ x.flowEntry, ∀ d ∈ y.flowEntry, e.1 = d.1 → e = d

/-- A flow that is on the page is there with its generation. -/
theorem get?_generationsOf {items nodes : List Item} (hc : Consistent items)
    (hsub : ∀ y ∈ nodes, y ∈ items) {x : Item} (hx : x ∈ items) {e : CodePoints × CodePoints}
    (he : x.flowEntry = some e) (hk : e.1 ∈ (generationsOf nodes).keys) :
    (generationsOf nodes).get? e.1 = some e.2 := by
  obtain ⟨d, hd, hde⟩ := List.mem_map.mp hk
  obtain ⟨y, hy, hyd⟩ := exists_of_mem_generationsOf hd
  have hed := hc x hx y (hsub y hy) e he d hyd hde.symm
  exact OrderedDict.get?_eq_some.mpr (hed ▸ hd)

/-! ### Sizes -/

/-- The header without generations. -/
def headerBytes (index : ℕ) (complete : Bool) : ℕ :=
  byteLength ((header (F := F) view root index complete .empty).render R)

/-- What escapes add to an entry. -/
def growth (e : CodePoints × CodePoints) : ℕ := escapeGrowth e.1 + escapeGrowth e.2

/-- The bytes of an entry with its comma. -/
def entryBytes (e : CodePoints × CodePoints) : ℕ := byteLength e.1 + byteLength e.2 + growth e + 6

variable {R view root}

theorem memberBytes_entry (e : CodePoints × CodePoints) :
    memberBytes R (e.1, .str e.2) = entryBytes e := by
  simp only [memberBytes, Json.render, Json.byteLength_renderString, entryBytes, growth]
  omega

theorem byteLength_generationFields (g : Generations) :
    byteLength ((Json.obj (generationFields g)).render R) =
      if g.entries = [] then 2 else (g.entries.map entryBytes).sum + 1 := by
  rw [Json.byteLength_render_obj, generationFields, List.map_map]
  simp only [List.map_eq_nil_iff]
  exact congrArg (fun l : List ℕ => if g.entries = [] then 2 else l.sum + 1)
    (List.map_congr_left fun e _ => memberBytes_entry e)

/-- The generations are all that makes one header longer than another. -/
theorem byteLength_header (index : ℕ) (complete : Bool) (g : Generations) :
    byteLength ((header (F := F) view root index complete g).render R) + 2 =
      headerBytes R view root index complete +
        byteLength ((Json.obj (generationFields g)).render R) := by
  have hlen : ∀ g : Generations,
      byteLength ((header (F := F) view root index complete g).render R) =
        ((view.fields root index complete).map (memberBytes R)).sum +
          (byteLength (Json.renderString (ofString "flow_generations")) +
            byteLength ((Json.obj (generationFields g)).render R) + 2 +
            memberBytes R (ofString "nodes", .arr [])) + 1 := by
    intro g
    rw [header, Json.byteLength_render_obj, if_neg (by simp), List.map_append, List.sum_append,
      List.map_cons, List.map_singleton, List.sum_cons, List.sum_singleton, memberBytes]
  have hempty : byteLength ((Json.obj (generationFields (F := F) .empty)).render R) = 2 := rfl
  rw [headerBytes, hlen g, hlen .empty, hempty]
  omega

theorem length_intercalate {α : Type} (sep : α) {l : List α} {ls : List (List α)} :
    ([sep].intercalate (l :: ls)).length + 1 = ((l :: ls).map fun x => x.length + 1).sum := by
  induction ls generalizing l with
  | nil => simp
  | cons l' ls ih =>
    rw [List.intercalate_cons_cons, List.length_append, List.length_append, List.length_singleton,
      List.map_cons, List.sum_cons, ← ih, Nat.add_assoc]

/-- The bytes of a page with nodes. -/
theorem length_page (index : ℕ) (complete : Bool) (g : Generations) {nodes : List Item}
    (hnodes : nodes ≠ []) :
    (page R view root index complete g nodes).length + 1 =
      byteLength ((header (F := F) view root index complete g).render R) +
        (nodes.map fun x => byteLength x.row + 1).sum := by
  obtain ⟨x, rest, rfl⟩ := List.exists_cons_of_ne_nil hnodes
  have hge : 2 ≤ byteLength ((header (F := F) view root index complete g).render R) :=
    Json.two_le_byteLength_obj R _
  have hsep : encode (ofString ",") = [44] := rfl
  have hclose : (encode (ofString "]\x7d")).length = 2 := rfl
  have hrows := @length_intercalate UInt8 44 (encode x.row) (rest.map fun x => encode x.row)
  rw [page, List.length_append, List.length_append, List.length_take, hsep, hclose, List.map_cons]
  rw [← List.map_cons (f := fun x : Item => encode x.row), List.map_map] at hrows
  rw [List.map_cons] at hrows
  simp only [byteLength] at hge ⊢
  simp only [Function.comp_def] at hrows
  omega

/-! ### Pages by their sizes -/

/-- The entries of the flows of some nodes. -/
def entriesOf (nodes : List Item) : List (CodePoints × CodePoints) :=
  (nodes.filterMap Item.flowEntry).dedup

variable (R view root) in
/-- The bytes of a page: its header, its rows with the commas between them, and the entries of its
flows with theirs. -/
def pageBytes (index : ℕ) (complete : Bool) (nodes : List Item) : ℕ :=
  headerBytes R view root index complete + ((nodes.map fun x => byteLength x.row + 1).sum - 1) +
    (((entriesOf nodes).map entryBytes).sum - 1)

theorem mem_entriesOf {nodes : List Item} {e : CodePoints × CodePoints} :
    e ∈ entriesOf nodes ↔ ∃ x ∈ nodes, x.flowEntry = some e := by
  rw [entriesOf, List.mem_dedup, List.mem_filterMap]

/-- A page has the entries of its flows, each once. -/
theorem entries_generationsOf_perm {items nodes : List Item} (hc : Consistent items)
    (hsub : ∀ y ∈ nodes, y ∈ items) : (generationsOf nodes).entries.Perm (entriesOf nodes) := by
  refine (List.perm_ext_iff_of_nodup (List.Nodup.of_map _ (generationsOf nodes).nodup)
    (List.nodup_dedup _)).mpr fun e => ?_
  constructor
  · intro he
    exact mem_entriesOf.mpr (exists_of_mem_generationsOf he)
  · intro he
    obtain ⟨x, hx, hxe⟩ := mem_entriesOf.mp he
    exact OrderedDict.get?_eq_some.mp
      (get?_generationsOf hc hsub (hsub x hx) hxe (mem_keys_generationsOf hx hxe))

/-- The bytes of a page with the generations of its nodes. -/
theorem length_page_eq {items nodes : List Item} (hc : Consistent items)
    (hsub : ∀ y ∈ nodes, y ∈ items) (hnodes : nodes ≠ []) (index : ℕ) (complete : Bool) :
    (page R view root index complete (generationsOf nodes) nodes).length =
      pageBytes R view root index complete nodes := by
  have hpage := @length_page F R view root index complete (generationsOf nodes) nodes hnodes
  have hheader := @byteLength_header F R view root index complete (generationsOf nodes)
  have hperm := entries_generationsOf_perm hc hsub
  have hsum := (hperm.map entryBytes).sum_eq
  have hrows : 0 < (nodes.map fun x => byteLength x.row + 1).sum := by
    obtain ⟨x, rest, rfl⟩ := List.exists_cons_of_ne_nil hnodes
    rw [List.map_cons, List.sum_cons]
    omega
  rw [byteLength_generationFields, hsum] at hheader
  unfold pageBytes
  split_ifs at hheader with hempty
  · rw [hempty, List.nil_perm] at hperm
    rw [hperm, List.map_nil, List.sum_nil]
    omega
  · have hentries : 0 < ((entriesOf nodes).map entryBytes).sum := by
      obtain ⟨e, rest, he⟩ := List.exists_cons_of_ne_nil hempty
      rw [← hsum, he, List.map_cons, List.sum_cons, entryBytes]
      omega
    omega

/-! ### Where pages end -/

/-- The nodes of a page, each with what the estimate counted for the generation of its flow. -/
abbrev Draft := List (Item × ℕ)

/-- The estimate of a page. -/
def estimateOf (p : Draft) : ℕ := 1200 + (p.map fun e => Packing.nodeSize e.1 + e.2).sum

/-- What a further node adds for the generation of its flow: nothing when the flow is on the page. -/
def entryCost (p : Draft) (x : Item) : ℕ :=
  if p.any fun e => flowPath e.1.path = flowPath x.path then 0 else x.entrySize

/-- By the estimate, the page has no room for a further node. -/
def isFull (p : Draft) (x : Item) : Bool :=
  p ≠ [] ∧ (maxPageNodes ≤ p.length ∨
    pageTargetBytes < estimateOf p + Packing.nodeSize x + entryCost p x)

/-- The pages of some nodes, the first of which is being filled. A node that does not go on the page
is counted as if it did. -/
def splitPages : Draft → List Item → List Draft
  | p, [] => [p]
  | p, x :: xs =>
    if isFull p x then p :: splitPages [(x, entryCost p x)] xs
    else splitPages (p ++ [(x, entryCost p x)]) xs

theorem splitPages_ne_nil (p : Draft) (xs : List Item) : splitPages p xs ≠ [] := by
  induction xs generalizing p with
  | nil => exact List.cons_ne_nil _ _
  | cons x xs ih =>
    rw [splitPages]
    split_ifs
    · exact List.cons_ne_nil _ _
    · exact ih _

theorem length_splitPages_le (p : Draft) (xs : List Item) :
    (splitPages p xs).length ≤ xs.length + 1 := by
  induction xs generalizing p with
  | nil => exact Nat.le_refl _
  | cons x xs ih =>
    rw [splitPages]
    split_ifs
    · exact Nat.succ_le_succ (ih _)
    · exact Nat.le_succ_of_le (ih _)

/-- The nodes on the first page stay there. -/
theorem exists_mem_splitPages {p : Draft} {e : Item × ℕ} (he : e ∈ p) (xs : List Item) :
    ∃ q ∈ splitPages p xs, e ∈ q := by
  induction xs generalizing p with
  | nil => exact ⟨p, List.mem_cons_self, he⟩
  | cons x xs ih =>
    rw [splitPages]
    split_ifs
    · exact ⟨p, List.mem_cons_self, he⟩
    · exact ih (List.mem_append_left _ he)

/-- A page has the nodes that were on the first page, or further ones. -/
theorem mem_of_mem_splitPages {p q : Draft} {xs : List Item} (hq : q ∈ splitPages p xs)
    {e : Item × ℕ} (he : e ∈ q) : e ∈ p ∨ e.1 ∈ xs := by
  induction xs generalizing p with
  | nil => exact .inl (List.mem_singleton.mp hq ▸ he)
  | cons x xs ih =>
    rw [splitPages] at hq
    split_ifs at hq
    · rcases List.mem_cons.mp hq with rfl | hq
      · exact .inl he
      · rcases ih hq with h | h
        · rw [List.mem_singleton.mp h]
          exact .inr List.mem_cons_self
        · exact .inr (List.mem_cons_of_mem x h)
    · rcases ih hq with h | h
      · rcases List.mem_append.mp h with h | h
        · exact .inl h
        · rw [List.mem_singleton.mp h]
          exact .inr List.mem_cons_self
      · exact .inr (List.mem_cons_of_mem x h)

/-- No page is empty. -/
theorem ne_nil_of_mem_splitPages {p q : Draft} {xs : List Item} (h : p ≠ [] ∨ xs ≠ [])
    (hq : q ∈ splitPages p xs) : q ≠ [] := by
  induction xs generalizing p with
  | nil => exact List.mem_singleton.mp hq ▸ h.resolve_right (not_not.mpr rfl)
  | cons x xs ih =>
    rw [splitPages] at hq
    split_ifs at hq with hfull
    · rcases List.mem_cons.mp hq with rfl | hq
      · rw [isFull, decide_eq_true_eq] at hfull
        exact hfull.1
      · exact ih (.inl (List.cons_ne_nil _ _)) hq
    · exact ih (.inl (List.append_ne_nil_of_right_ne_nil _ (List.cons_ne_nil _ _))) hq

/-- A property of every page, with its number and with whether it is the last one. -/
def ForPages (P : ℕ → Bool → Draft → Prop) : ℕ → List Draft → Prop
  | _, [] => True
  | k, p :: ps => P k ps.isEmpty p ∧ ForPages P (k + 1) ps

theorem ForPages.congr {P Q : ℕ → Bool → Draft → Prop} {k : ℕ} {ps : List Draft}
    (h : ∀ p ∈ ps, ∀ i < k + ps.length, ∀ complete, P i complete p ↔ Q i complete p) :
    ForPages P k ps ↔ ForPages Q k ps := by
  induction ps generalizing k with
  | nil => rfl
  | cons p ps ih =>
    rw [List.length_cons] at h
    exact and_congr (h p List.mem_cons_self k (by omega) _)
      (ih fun q hq i hi => h q (List.mem_cons_of_mem p hq) i (by omega))

theorem ForPages.of_mem {P : Draft → Prop} {k : ℕ} {ps : List Draft}
    (h : ForPages (fun _ _ => P) k ps) {p : Draft} (hp : p ∈ ps) : P p := by
  induction ps generalizing k with
  | nil => exact absurd hp List.not_mem_nil
  | cons q ps ih =>
    rcases List.mem_cons.mp hp with rfl | hp
    · exact h.1
    · exact ih h.2 hp

theorem ForPages.mono {P Q : ℕ → Bool → Draft → Prop} {k : ℕ} {ps : List Draft}
    (hPQ : ∀ i complete p, P i complete p → Q i complete p) (h : ForPages P k ps) :
    ForPages Q k ps := by
  induction ps generalizing k with
  | nil => exact h
  | cons p ps ih => exact ⟨hPQ _ _ _ h.1, ih h.2⟩

/-! ### What fits -/

variable (R view root) in
/-- Every node fits on a page of its own, with the entry of its flow and whatever header a page of
this selection has. -/
def Alone (items : List Item) : Prop :=
  ∀ x ∈ items, ∀ index ≤ items.length, ∀ complete,
    (page R view root index complete (generationsOf [x]) [x]).length ≤ maxPageBytes

/-- The estimate of every node, taken alone, is within the limit. -/
def NodesFit (p : Draft) : Prop :=
  ∀ e ∈ p, Packing.nodeSize e.1 + e.2 + 1200 ≤ maxPageBytes

variable (R view root) in
/-- The nodes of every page fit, and so does the page if it has two or more. -/
def PagesFit (items : List Item) : Prop :=
  ForPages (fun k complete p => NodesFit p ∧ (2 ≤ p.length →
    pageBytes R view root k complete (p.map Prod.fst) ≤ maxPageBytes)) 0 (splitPages [] items)

variable (R view root) in
/-- The nodes of every page fit, and so does the page. -/
def AllFit (k : ℕ) (ps : List Draft) : Prop :=
  ForPages (fun k complete p => NodesFit p ∧
    pageBytes R view root k complete (p.map Prod.fst) ≤ maxPageBytes) k ps

theorem AllFit.nodesFit {k : ℕ} {ps : List Draft} (h : AllFit R view root k ps) {p : Draft}
    (hp : p ∈ ps) : NodesFit p :=
  ForPages.of_mem (h.mono fun _ _ _ hp => hp.1) hp

/-- With room for every node alone, the pages of a single node fit. -/
theorem allFit_iff_pagesFit {items : List Item} (hne : items ≠ []) (hc : Consistent items)
    (halone : Alone R view root items) :
    AllFit R view root 0 (splitPages [] items) ↔ PagesFit R view root items := by
  refine ForPages.congr fun p hp i hi complete => and_congr_right fun _ =>
    ⟨fun h _ => h, fun h => ?_⟩
  by_cases hlen : 2 ≤ p.length
  · exact h hlen
  have hone : p.length = 1 := by
    have hpos := List.length_pos_iff.mpr (ne_nil_of_mem_splitPages (.inr hne) hp)
    omega
  obtain ⟨x, rfl⟩ := List.length_eq_one_iff.mp hone
  have hx : x.1 ∈ items :=
    (mem_of_mem_splitPages hp List.mem_cons_self).resolve_left List.not_mem_nil
  have hle := length_splitPages_le [] items
  have hpage := halone x.1 hx i (by omega) complete
  rwa [length_page_eq hc (fun y hy => List.mem_singleton.mp hy ▸ hx) (List.cons_ne_nil _ _)]
    at hpage

variable (R view root) in
/-- The pages, with numbers from `k` on. -/
def pagesFrom : ℕ → List Draft → List (List UInt8)
  | _, [] => []
  | k, p :: ps =>
    page R view root k ps.isEmpty (generationsOf (p.map Prod.fst)) (p.map Prod.fst) ::
      pagesFrom (k + 1) ps

/-! ### One page -/

theorem estimateOf_append_singleton (p : Draft) (x : Item) (n : ℕ) :
    estimateOf (p ++ [(x, n)]) = estimateOf p + (Packing.nodeSize x + n) := by
  rw [estimateOf, List.map_append, List.sum_append, List.map_singleton, List.sum_singleton,
    ← Nat.add_assoc]
  rfl

theorem entryCost_le (p : Draft) (x : Item) : entryCost p x ≤ x.entrySize := by
  rw [entryCost]
  split_ifs
  · exact Nat.zero_le _
  · exact Nat.le_refl _

/-- Nodes whose estimate is below the target are on one page. -/
theorem splitPages_of_room {p : Draft} {xs : List Item} (hcount : p.length + xs.length ≤ maxPageNodes)
    (hroom : estimateOf p + (xs.map fun x => Packing.nodeSize x + x.entrySize).sum ≤
      pageTargetBytes) :
    ∃ q, splitPages p xs = [q] ∧ q.map Prod.fst = p.map Prod.fst ++ xs ∧
      estimateOf q ≤ pageTargetBytes := by
  induction xs generalizing p with
  | nil => exact ⟨p, rfl, (List.append_nil _).symm, Nat.le_of_add_right_le hroom⟩
  | cons x xs ih =>
    rw [List.map_cons, List.sum_cons] at hroom
    rw [List.length_cons] at hcount
    have hcost := entryCost_le p x
    have hfull : isFull p x = false := by
      rw [isFull, decide_eq_false_iff_not]
      omega
    obtain ⟨q, hq, hnodes, hle⟩ := @ih (p ++ [(x, entryCost p x)])
      (by rw [List.length_append, List.length_singleton]; omega) (by rw [estimateOf_append_singleton]; omega)
    refine ⟨q, ?_, ?_, hle⟩
    · rw [splitPages, hfull]
      exact hq
    · rw [hnodes, List.map_append, List.append_assoc]
      rfl

theorem nodesFit_of_estimateOf_le {p : Draft} (h : estimateOf p ≤ maxPageBytes) : NodesFit p := by
  intro e he
  have hle := List.single_le_sum (fun _ _ => Nat.zero_le _) _
    (List.mem_map_of_mem (f := fun e : Item × ℕ => Packing.nodeSize e.1 + e.2) he)
  rw [estimateOf] at h
  omega

/-- Such nodes fit when their page does. -/
theorem pagesFit_iff_of_room {items : List Item} (hcount : items.length ≤ maxPageNodes)
    (hroom : 1200 + (items.map fun x => Packing.nodeSize x + x.entrySize).sum ≤ pageTargetBytes) :
    PagesFit R view root items ↔
      (2 ≤ items.length → pageBytes R view root 0 true items ≤ maxPageBytes) := by
  obtain ⟨q, hq, hnodes, hle⟩ := @splitPages_of_room [] items (by simpa using hcount) hroom
  have hfit : NodesFit q := nodesFit_of_estimateOf_le (Nat.le_trans hle (by decide))
  have hlen : q.length = items.length := by
    rw [← List.length_map (f := Prod.fst), hnodes]
    rfl
  rw [PagesFit, hq, ForPages, ForPages, List.isEmpty_nil, hnodes, List.map_nil, List.nil_append,
    hlen, and_true]
  exact and_iff_right hfit

end Takler.Query
