import Takler.Lib.JsonRead
import Takler.Version.Frozen

/-!
# The nodes of a summary query

`_iter_fixed_summaries` (`server/query_service.py`) walks over a scope of a fixed version, down to a
depth, with a stack of paths. Every node comes with the text of its summary and the generation of
its flow. The walk comes to no path twice.

## Main definitions

* `flowPath`, `fixedSummary`, `iterFixedSummaries`, `rootName`: the functions of the source.

## Main results

* `nodup_iterFixedSummaries`: the paths of a selection differ.
* `spec_of_mem_iterFixedSummaries`: its summaries are valid, and their generations are those of the
  flows.
-/

open CodePoints (ofString)

namespace Takler.Query

open Version

variable {F : Type}

/-- Why `_capture` fails. -/
inductive CaptureError
  /-- `KeyError`: a path is absent from the version. -/
  | missing
  /-- `VersionUnavailable("unsupported_plugin_detail")`. -/
  | unsupported
  /-- `ValueError`: a document is not valid. -/
  | invalid
  /-- `ValueError("flow has no generation")`. -/
  | noGeneration
  /-- `OverflowError("summary node exceeds page budget")`. -/
  | nodeTooLarge
  /-- `WireError("query document too large")`. -/
  | pageTooLarge
  /-- `MemoryError("snapshot budget exceeded")`. -/
  | budget
deriving DecidableEq

/-- The errors that are about the size of a page. -/
def CaptureError.isPageSize : CaptureError → Bool
  | nodeTooLarge | pageTooLarge => true
  | _ => false

/-! ### The selection -/

/-- `"/" + path.split("/", 2)[1]`, unless the path is that of the root. -/
def flowPath (path : CodePoints) : Option CodePoints :=
  if path = rootPath then none
  else some (slash :: (path.dropWhile (· ≠ slash)).tail.takeWhile (· ≠ slash))

/-- A node of a selection: its path, the text of its row and the generation of its flow. -/
structure Item where
  path : CodePoints
  row : CodePoints
  generation : Option CodePoints

section Selection

variable (R : Json.FloatText F) (V : StateVersion)

/-- The public document of a row. -/
def readPublic (row : FrozenNode) : Except CaptureError (Json F) :=
  match row.publicText with
  | none => .error .unsupported
  | some t => ((readJson R t).map .ok).getD (.error .invalid)

/-- The generation of a flow. -/
def flowGeneration (flow : CodePoints) : Except CaptureError (Option CodePoints) :=
  match V.node? flow with
  | none => .error .missing
  | some row => do
    let source ← readPublic R row
    return (source.getD "definition_generation").text?

/-- The generation of the flow of a node; the root has none. -/
def generationOf (path : CodePoints) : Except CaptureError (Option CodePoints) :=
  (flowPath path).elim (.ok none) (flowGeneration R V)

/-- `_fixed_summary`, with the text of the summary. The generations of flows are remembered there;
they do not change. -/
def fixedSummary (row : FrozenNode) : Except CaptureError Item :=
  if row.publicText = none then .error .unsupported
  else if row.summary.accepts row.path then do
    let generation ← generationOf R V row.path
    return ⟨row.path, row.summaryText R, generation⟩
  else .error .invalid

/-- The children of a row with their level, unless the depth ends here. -/
def belowRow (depth : Option ℕ) (row : FrozenNode) (level : ℕ) : List (CodePoints × ℕ) :=
  if depth.all (level < ·) then row.children.map (·, level + 1) else []

theorem sum_weight_belowRow_lt {V : StateVersion} (depth : Option ℕ) {path : CodePoints}
    {row : FrozenNode} (h : V.node? path = some row) (level : ℕ) :
    ((belowRow depth row level).map fun x => V.weight x.1).sum < V.weight path := by
  refine Nat.lt_of_le_of_lt ?_ (StateVersion.sum_weight_children_lt h)
  rw [belowRow]
  split_ifs
  · rw [List.map_map]
    exact Nat.le_refl _
  · exact Nat.zero_le _

/-- The loop of `_iter_fixed_summaries` over its stack: the nodes that it yields, and the error that
ends it. -/
def iterPending (depth : Option ℕ) : List (CodePoints × ℕ) → List Item × Option CaptureError
  | [] => ([], none)
  | (path, level) :: pending =>
    match _h : V.node? path with
    | none => ([], some .missing)
    | some row =>
      match fixedSummary R V row with
      | .error e => ([], some e)
      | .ok item =>
        let rest := iterPending depth (belowRow depth row level ++ pending)
        (item :: rest.1, rest.2)
termination_by pending => (pending.map fun x => V.weight x.1).sum
decreasing_by
  have hlt := sum_weight_belowRow_lt depth ‹V.node? path = some row› level
  rw [List.map_append, List.sum_append, List.map_cons, List.sum_cons]
  exact Nat.add_lt_add_right hlt _

/-- `_iter_fixed_summaries`. -/
def iterFixedSummaries (scope : CodePoints) (depth : Option ℕ) :
    List Item × Option CaptureError :=
  iterPending R V depth [(scope, 0)]

/-- The name of the root in its public document. -/
def rootName : Except CaptureError CodePoints :=
  match V.node? rootPath with
  | none => .error .missing
  | some row =>
    match row.publicText.bind (readJson R) with
    | none => .error .invalid
    | some source => ((source.getD "name").text?.map .ok).getD (.error .invalid)

end Selection

/-! ### Paths of flows -/

private theorem head?_splitOn (c : Fin 0x110000) (t : CodePoints) :
    (t.splitOn c).head? = some (t.takeWhile (· ≠ c)) := by
  induction t with
  | nil => rfl
  | cons d t ih =>
    rw [List.splitOn, List.splitOnP_cons_eq_if_modifyHead]
    by_cases hd : d = c
    · simp [hd]
    · rw [if_neg (by simpa using hd), List.head?_modifyHead, ← List.splitOn, ih]
      simp [hd]

/-- The path of a flow by its name. -/
theorem validPath_cons {name : CodePoints} (hslash : ∀ c ∈ name, c ≠ slash)
    (hname : name ≠ [] ∧ name ≠ ofString "." ∧ name ≠ ofString ".." ∧
      name.all fun c => 0x1f < c.val) : validPath (slash :: name) := by
  rw [validPath, decide_eq_true_eq]
  refine .inr ⟨rfl, ?_, ?_⟩
  · rw [List.getLast?_cons, List.getLast?_eq_some_getLast hname.1]
    exact fun h => hslash _ (List.getLast_mem hname.1) (Option.some.inj h)
  · intro segment hsegment
    rw [List.tail_cons, List.splitOn, List.splitOnP_eq_singleton fun c hc => by
      simpa using hslash c hc] at hsegment
    rw [List.mem_singleton.mp hsegment]
    exact hname

/-- The path of the flow of a valid path. -/
theorem valid_flowPath {path flow : CodePoints} (h : validPath path)
    (hflow : flowPath path = some flow) :
    validPath flow ∧ flow ≠ rootPath ∧ flow.count slash = 1 := by
  rw [flowPath] at hflow
  split_ifs at hflow with hroot
  rw [validPath, decide_eq_true_eq] at h
  obtain ⟨hhead, -, hsegments⟩ := h.resolve_left hroot
  obtain ⟨rest, rfl⟩ : ∃ rest, path = slash :: rest := by
    cases path with
    | nil => cases hhead
    | cons c rest => exact ⟨rest, by rw [Option.some.inj hhead]⟩
  -- the first segment of the path is the name of the flow
  have hname : slash :: rest.takeWhile (· ≠ slash) = flow := by simpa using hflow
  have hseg := hsegments _ (List.mem_of_head? (head?_splitOn slash rest))
  have hslash : ∀ c ∈ rest.takeWhile (· ≠ slash), c ≠ slash := fun c hc => by
    simpa using List.mem_takeWhile_imp hc
  subst hname
  refine ⟨validPath_cons hslash hseg, fun h => hseg.1 (List.cons.inj h).2, ?_⟩
  rw [List.count_cons_self, List.count_eq_zero.mpr fun h => hslash _ h rfl]

/-! ### What is selected -/

variable {R : Json.FloatText F} {V : StateVersion} {depth : Option ℕ}

theorem fixedSummary_eq_ok {row : FrozenNode} {item : Item}
    (h : fixedSummary R V row = .ok item) :
    item.path = row.path ∧ row.summary.accepts row.path ∧
      generationOf R V row.path = .ok item.generation := by
  rw [fixedSummary] at h
  split_ifs at h with hpublic hvalid
  obtain ⟨generation, hgeneration, h⟩ := Except.bind_eq_ok.mp h
  cases h
  exact ⟨rfl, hvalid, hgeneration⟩

section Loop

variable {path : CodePoints} {level : ℕ} {pending : List (CodePoints × ℕ)}

theorem iterPending_of_none (h : V.node? path = none) :
    iterPending R V depth ((path, level) :: pending) = ([], some .missing) := by
  rw [iterPending]
  split
  · rfl
  · next row hrow => simp [h] at hrow

theorem iterPending_of_some {row : FrozenNode} (h : V.node? path = some row) :
    iterPending R V depth ((path, level) :: pending) =
      match fixedSummary R V row with
      | .error e => ([], some e)
      | .ok item =>
        (item :: (iterPending R V depth (belowRow depth row level ++ pending)).1,
          (iterPending R V depth (belowRow depth row level ++ pending)).2) := by
  rw [iterPending]
  split
  · next hnone => simp [h] at hnone
  · next row' hrow =>
    obtain rfl := Option.some.inj (h.symm.trans hrow)
    rfl

theorem iterPending_of_error {row : FrozenNode} {e : CaptureError} (h : V.node? path = some row)
    (he : fixedSummary R V row = .error e) :
    iterPending R V depth ((path, level) :: pending) = ([], some e) := by
  rw [iterPending_of_some h, he]

theorem iterPending_of_ok {row : FrozenNode} {item : Item} (h : V.node? path = some row)
    (hitem : fixedSummary R V row = .ok item) :
    iterPending R V depth ((path, level) :: pending) =
      (item :: (iterPending R V depth (belowRow depth row level ++ pending)).1,
        (iterPending R V depth (belowRow depth row level ++ pending)).2) := by
  rw [iterPending_of_some h, hitem]

end Loop

/-- What is known about a node of a selection. -/
structure Item.Spec (R : Json.FloatText F) (V : StateVersion) (x : Item) : Prop where
  valid : validPath x.path
  generation : generationOf R V x.path = .ok x.generation

theorem Item.spec_of_fixedSummary {row : FrozenNode} {item : Item}
    (h : fixedSummary R V row = .ok item) : item.Spec R V := by
  obtain ⟨hpath, hvalid, hgeneration⟩ := fixedSummary_eq_ok h
  rw [Version.Summary.accepts, decide_eq_true_eq] at hvalid
  exact ⟨hpath ▸ hvalid.1, hpath ▸ hgeneration⟩

/-- The paths that go on the stack are those of children. -/
theorem mem_children_of_mem_belowRow {row : FrozenNode} {level : ℕ} {x : CodePoints × ℕ}
    (h : x ∈ belowRow depth row level) : x.1 ∈ row.children := by
  rw [belowRow] at h
  split_ifs at h with hdepth
  · obtain ⟨child, hchild, rfl⟩ := List.mem_map.mp h
    exact hchild
  · cases h

theorem map_fst_belowRow_sublist (row : FrozenNode) (level : ℕ) :
    ((belowRow depth row level).map Prod.fst).Sublist row.children := by
  rw [belowRow]
  split_ifs
  · rw [List.map_map]
    exact (List.map_id row.children).symm ▸ List.Sublist.refl _
  · exact List.nil_sublist _

/-- Every node is reached from the stack, and meets its specification. -/
theorem reached_of_mem_iterPending (pending : List (CodePoints × ℕ)) :
    ∀ x ∈ (iterPending R V depth pending).1,
      x.Spec R V ∧ ∃ p ∈ pending, V.Descends p.1 x.path := by
  induction pending using iterPending.induct R V depth with
  | case1 =>
    rw [iterPending]
    simp
  | case2 path level pending hrow =>
    rw [iterPending_of_none hrow]
    simp
  | case3 path level pending row hrow e he =>
    rw [iterPending_of_error hrow he]
    simp
  | case4 path level pending row hrow item hitem ih =>
    rw [iterPending_of_ok hrow hitem]
    intro x hx
    rcases List.mem_cons.mp hx with rfl | hx
    · refine ⟨Item.spec_of_fixedSummary hitem, (path, level), List.mem_cons_self, ?_⟩
      rw [(fixedSummary_eq_ok hitem).1, StateVersion.path_of_node? hrow]
      exact .refl
    · obtain ⟨hspec, p, hp, hreach⟩ := ih x hx
      refine ⟨hspec, ?_⟩
      rcases List.mem_append.mp hp with hp | hp
      · have hchild := mem_children_of_mem_belowRow hp
        exact ⟨(path, level), List.mem_cons_self,
          (StateVersion.Descends.child .refl hrow hchild).trans hreach⟩
      · exact ⟨p, List.mem_cons_of_mem _ hp, hreach⟩

/-- A stack of paths that lie apart gives every path once. -/
theorem nodup_iterPending (pending : List (CodePoints × ℕ))
    (h : (pending.map Prod.fst).Pairwise V.Apart) :
    ((iterPending R V depth pending).1.map Item.path).Nodup := by
  induction pending using iterPending.induct R V depth with
  | case1 =>
    rw [iterPending]
    exact List.nodup_nil
  | case2 path level pending hrow =>
    rw [iterPending_of_none hrow]
    exact List.nodup_nil
  | case3 path level pending row hrow e he =>
    rw [iterPending_of_error hrow he]
    exact List.nodup_nil
  | case4 path level pending row hrow item hitem ih =>
    rw [iterPending_of_ok hrow hitem, List.map_cons, List.nodup_cons]
    rw [List.map_cons, List.pairwise_cons] at h
    have hpath : item.path = path := by
      rw [(fixedSummary_eq_ok hitem).1, StateVersion.path_of_node? hrow]
    constructor
    · rw [hpath]
      intro hmem
      obtain ⟨x, hx, hxpath⟩ := List.mem_map.mp hmem
      obtain ⟨-, p, hp, hreach⟩ := reached_of_mem_iterPending _ x hx
      rw [hxpath] at hreach
      rcases List.mem_append.mp hp with hp | hp
      · have hle := hreach.length_le
        have hlt := V.longer row (StateVersion.mem_of_node? hrow) _
          (mem_children_of_mem_belowRow hp)
        rw [StateVersion.path_of_node? hrow] at hlt
        omega
      · exact (h.1 p.1 (List.mem_map_of_mem hp)).2 hreach
    · refine ih ?_
      rw [List.map_append, List.pairwise_append]
      refine ⟨(StateVersion.pairwise_apart_children hrow).sublist
        (map_fst_belowRow_sublist row level), h.2, fun c hc q hq => ?_⟩
      exact (h.1 q hq).child hrow ((map_fst_belowRow_sublist row level).subset hc)

theorem nodup_iterFixedSummaries (scope : CodePoints) (depth : Option ℕ) :
    ((iterFixedSummaries R V scope depth).1.map Item.path).Nodup :=
  nodup_iterPending _ (List.pairwise_singleton _ _)

theorem spec_of_mem_iterFixedSummaries {scope : CodePoints} {depth : Option ℕ} {x : Item}
    (hx : x ∈ (iterFixedSummaries R V scope depth).1) : x.Spec R V :=
  (reached_of_mem_iterPending _ x hx).1

theorem isPageSize_of_flowGeneration {flow : CodePoints} {e : CaptureError}
    (h : flowGeneration R V flow = .error e) : e.isPageSize = false := by
  rw [flowGeneration] at h
  split at h
  · cases h
    rfl
  · next row _ =>
    rw [readPublic] at h
    split at h
    · cases h
      rfl
    · next t _ =>
      cases hread : readJson R t with
      | none =>
        rw [hread] at h
        cases h
        rfl
      | some v =>
        rw [hread] at h
        cases h

theorem isPageSize_of_fixedSummary {row : FrozenNode} {e : CaptureError}
    (h : fixedSummary R V row = .error e) : e.isPageSize = false := by
  rw [fixedSummary] at h
  split_ifs at h
  · cases h
    rfl
  · rw [generationOf] at h
    cases hflow : flowPath row.path with
    | none =>
      rw [hflow] at h
      cases h
    | some flow =>
      rw [hflow, Option.elim_some] at h
      cases hgen : flowGeneration R V flow with
      | error e' =>
        rw [hgen] at h
        cases h
        exact isPageSize_of_flowGeneration hgen
      | ok generation =>
        rw [hgen] at h
        cases h
  · cases h
    rfl

/-- The errors of the walk are not about sizes. -/
theorem isPageSize_of_iterPending (pending : List (CodePoints × ℕ)) {e : CaptureError}
    (h : (iterPending R V depth pending).2 = some e) : e.isPageSize = false := by
  induction pending using iterPending.induct R V depth with
  | case1 =>
    rw [iterPending] at h
    cases h
  | case2 path level pending hrow =>
    rw [iterPending_of_none hrow] at h
    cases h
    rfl
  | case3 path level pending row hrow e' he =>
    rw [iterPending_of_error hrow he] at h
    cases h
    exact isPageSize_of_fixedSummary he
  | case4 path level pending row hrow item hitem ih =>
    rw [iterPending_of_ok hrow hitem] at h
    exact ih h

/-- A walk that is not stopped by an error has nodes. -/
theorem iterFixedSummaries_ne_nil {scope : CodePoints} {depth : Option ℕ}
    (h : (iterFixedSummaries R V scope depth).2 = none) :
    (iterFixedSummaries R V scope depth).1 ≠ [] := by
  rw [iterFixedSummaries] at h ⊢
  cases hrow : V.node? scope with
  | none =>
    rw [iterPending_of_none hrow] at h
    cases h
  | some row =>
    cases hitem : fixedSummary R V row with
    | error e =>
      rw [iterPending_of_error hrow hitem] at h
      cases h
    | ok item =>
      rw [iterPending_of_ok hrow hitem]
      exact List.cons_ne_nil _ _

end Takler.Query
