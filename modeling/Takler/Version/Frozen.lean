import Mathlib
import Takler.Lib.JsonRoundTrip
import Takler.Query.DeltaPaths
import Takler.Version.Objects

/-!
# Fixed versions

A `StateVersion` (`serialization/version.py`) is a table of rows that never change. A row holds the
encoded documents of one node: what goes into a checkpoint, what queries show, and its summary.
Rows refer to each other by their paths.

The shards and the index of a version are a way to find a row; here a version is the list of its
rows, whose paths differ. The path of a child is longer than the path of its parent, so that going
down from a row comes to an end (`StateVersion.weight`), and no two rows have a child in common, so
that it comes to a row only once (`StateVersion.Apart`).

## Main definitions

* `Summary`: the fields of a `SummaryNode` besides the path.
* `FrozenNode`, `StateVersion`, `StateVersion.node?`.
* `StateVersion.Descends`: one path is reached from another one.

## Main results

* `StateVersion.sum_weight_children_lt`: the children of a row weigh less than the row.
-/

open CodePoints (ofString)

namespace Takler.Version

variable {F : Type}

/-! ### Summaries -/

/-- `SummaryNode` without its path. A field that is not set is left out. -/
structure Summary where
  nodeKind : Kind
  typeId : CodePoints
  status : NodeStatus
  suspended : Bool
  attemptId : Option CodePoints := none
  submissionUnknown : Bool := false

namespace Summary

/-- The fields that are always set. -/
def fields (s : Summary) (path : CodePoints) : List (CodePoints × Json F) :=
  [("path", .str path), ("node_kind", .str s.nodeKind.text), ("type_id", .str s.typeId),
    ("status", .str s.status.text), ("suspended", .bool s.suspended)]

/-- The fields of an attempt. -/
def attemptFields (s : Summary) : List (CodePoints × Json F) :=
  s.attemptId.toList.map (fun t => (ofString "attempt_id", .str t)) ++
    if s.submissionUnknown then [(ofString "submission_unknown", .bool true)] else []

/-- `model_dump`, without the fields that were not set. -/
def json (s : Summary) (path : CodePoints) : Json F := .obj (s.fields path ++ s.attemptFields)

/-- `SummaryNode.validate_node`, as a test. -/
def accepts (s : Summary) (path : CodePoints) : Bool :=
  Query.validPath path ∧ s.typeId ≠ [] ∧
    (s.attemptId.isSome → s.nodeKind = .task ∧ s.attemptId ≠ some []) ∧
    (s.submissionUnknown → s.nodeKind = .task ∧ s.status = .submitted ∧ s.attemptId.isSome)

end Summary

/-! ### Rows -/

/-- `FrozenNode`, with the texts of its documents. The summary is there as its fields; it is bound
to its bytes exactly if the fields are valid. -/
structure FrozenNode where
  path : CodePoints
  parent : Option CodePoints
  children : List CodePoints
  definition : CodePoints
  runtime : CodePoints
  publicText : Option CodePoints
  summary : Summary

/-- The text of the summary. -/
def FrozenNode.summaryText (R : Json.FloatText F) (row : FrozenNode) : CodePoints :=
  (row.summary.json row.path).render R

/-- `json.loads`, as Python has it. -/
def readJson (R : Json.FloatText F) (t : CodePoints) : Option (Json F) :=
  Json.loads R Json.keepLast t

/-- `StateVersion`: rows with distinct paths, in the order of the walk through the tree. -/
structure StateVersion where
  stateVersion : ℕ
  asOf : CodePoints
  nodes : List FrozenNode
  cwd : CodePoints
  retainedBytes : ℕ
  nodup : (nodes.map FrozenNode.path).Nodup
  /-- The name of a child is added to the path of its parent. -/
  longer : ∀ row ∈ nodes, ∀ child ∈ row.children, row.path.length < child.length
  shorter : ∀ row ∈ nodes, ∀ p ∈ row.parent, p.length < row.path.length
  /-- A child has one parent, and is its child once. -/
  tree : (nodes.flatMap FrozenNode.children).Nodup

namespace StateVersion

variable (V : StateVersion)

/-- `StateVersion.node`. -/
def node? (path : CodePoints) : Option FrozenNode := V.nodes.find? fun row => row.path = path

variable {V} {path : CodePoints} {row : FrozenNode}

theorem mem_of_node? (h : V.node? path = some row) : row ∈ V.nodes := List.mem_of_find?_eq_some h

theorem path_of_node? (h : V.node? path = some row) : row.path = path := by
  simpa using List.find?_some h

/-! ### Going down -/

/-- A bound of the lengths of paths. -/
def longest (V : StateVersion) : ℕ := (V.nodes.map fun row => row.path.length).sum

/-- A bound of the numbers of children. -/
def widest (V : StateVersion) : ℕ := (V.nodes.map fun row => row.children.length).sum

/-- A bound of the number of nodes below a path. -/
def weight (V : StateVersion) (path : CodePoints) : ℕ :=
  (V.widest + 1) ^ (V.longest + 1 - path.length)

theorem length_le_longest (h : V.node? path = some row) : path.length ≤ V.longest := by
  rw [← path_of_node? h]
  exact List.single_le_sum (fun _ _ => Nat.zero_le _) _ (List.mem_map_of_mem (mem_of_node? h))

theorem length_children_le (h : V.node? path = some row) : row.children.length ≤ V.widest :=
  List.single_le_sum (fun _ _ => Nat.zero_le _) _ (List.mem_map_of_mem (mem_of_node? h))

/-- The children of a row weigh less than the row. -/
theorem sum_weight_children_lt (h : V.node? path = some row) :
    (row.children.map V.weight).sum < V.weight path := by
  have hpath := length_le_longest h
  have hweight : ∀ w ∈ row.children.map V.weight,
      w ≤ (V.widest + 1) ^ (V.longest - path.length) := by
    intro w hw
    obtain ⟨child, hchild, rfl⟩ := List.mem_map.mp hw
    have hlt := V.longer row (mem_of_node? h) child hchild
    rw [path_of_node? h] at hlt
    exact Nat.pow_le_pow_right (Nat.succ_pos _) (by omega)
  calc (row.children.map V.weight).sum
      ≤ (row.children.map V.weight).length • (V.widest + 1) ^ (V.longest - path.length) :=
        List.sum_le_card_nsmul _ _ hweight
    _ ≤ V.widest * (V.widest + 1) ^ (V.longest - path.length) := by
        rw [List.length_map, Nat.nsmul_eq_mul]
        exact Nat.mul_le_mul_right _ (length_children_le h)
    _ < (V.widest + 1) * (V.widest + 1) ^ (V.longest - path.length) :=
        Nat.mul_lt_mul_of_pos_right (Nat.lt_succ_self _) (Nat.pow_pos (Nat.succ_pos _))
    _ = V.weight path := by
        rw [weight, Nat.succ_sub hpath, Nat.pow_succ, Nat.mul_comm]

/-- A path is reached from another one through the children of rows. -/
inductive Descends (V : StateVersion) (p : CodePoints) : CodePoints → Prop
  | refl : Descends V p p
  | child {m q : CodePoints} {row : FrozenNode} (h : Descends V p m) (hm : V.node? m = some row)
      (hq : q ∈ row.children) : Descends V p q

theorem Descends.length_le {p q : CodePoints} (h : V.Descends p q) : p.length ≤ q.length := by
  induction h with
  | refl => exact Nat.le_refl _
  | child _ hm hq ih =>
    have hlt := V.longer _ (mem_of_node? hm) _ hq
    rw [path_of_node? hm] at hlt
    omega

theorem Descends.trans {p q r : CodePoints} (hpq : V.Descends p q) (hqr : V.Descends q r) :
    V.Descends p r := by
  induction hqr with
  | refl => exact hpq
  | child _ hm hr ih => exact .child ih hm hr

/-- The parent of a child. -/
theorem eq_of_mem_children {m m' q : CodePoints} {row row' : FrozenNode}
    (hm : V.node? m = some row) (hm' : V.node? m' = some row') (hq : q ∈ row.children)
    (hq' : q ∈ row'.children) : m = m' := by
  by_contra hne
  have hrow : row ≠ row' := fun h => hne (by rw [← path_of_node? hm, h, path_of_node? hm'])
  have : Std.Symm (Function.onFun List.Disjoint FrozenNode.children) :=
    ⟨fun _ _ h => List.Disjoint.symm h⟩
  exact (List.nodup_flatMap.mp V.tree).2.forall (mem_of_node? hm) (mem_of_node? hm') hrow hq hq'

theorem Descends.child_iff {p q m : CodePoints} {row : FrozenNode} (hm : V.node? m = some row)
    (hq : q ∈ row.children) : V.Descends p q ↔ p = q ∨ V.Descends p m := by
  constructor
  · intro h
    cases h with
    | refl => exact .inl rfl
    | child h hm' hq' => exact .inr (eq_of_mem_children hm' hm hq' hq ▸ h)
  · rintro (rfl | h)
    · exact .refl
    · exact .child h hm hq

/-- Neither of two paths is reached from the other. -/
def Apart (V : StateVersion) (p q : CodePoints) : Prop := ¬ V.Descends p q ∧ ¬ V.Descends q p

/-- The children of a row lie apart. -/
theorem pairwise_apart_children {p : CodePoints} (h : V.node? p = some row) :
    row.children.Pairwise V.Apart := by
  have hnodup : row.children.Nodup := (List.nodup_flatMap.mp V.tree).1 row (mem_of_node? h)
  have hnot : ∀ c ∈ row.children, ∀ d ∈ row.children, c ≠ d → ¬ V.Descends c d := by
    intro c hc d hd hne hcd
    rcases (Descends.child_iff h hd).mp hcd with hcd | hcd
    · exact hne hcd
    · have hle := hcd.length_le
      have hlt := V.longer row (mem_of_node? h) c hc
      rw [path_of_node? h] at hlt
      omega
  exact hnodup.pairwise_of_forall_ne fun c hc d hd hne =>
    ⟨hnot c hc d hd hne, hnot d hd c hc hne.symm⟩

/-- A child lies apart from what its parent lies apart from. -/
theorem Apart.child {p q c : CodePoints} (hpq : V.Apart p q) (h : V.node? p = some row)
    (hc : c ∈ row.children) : V.Apart c q := by
  refine ⟨fun hcq => hpq.1 ((Descends.child .refl h hc).trans hcq), fun hqc => ?_⟩
  · rcases (Descends.child_iff h hc).mp hqc with rfl | hqp
    · exact hpq.1 (.child .refl h hc)
    · exact hpq.2 hqp

end StateVersion

end Takler.Version
