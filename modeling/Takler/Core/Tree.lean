import Takler.Core.Expression
import Mathlib

/-!
# Definition trees

A bunch holds flows, and a flow is a tree of containers and tasks. The tree is what a definition
document fixes (`schema/definition.py`) after the builder has bound the references of triggers and
in-limits to nodes and limits (`serialization/builder.py`); everything that changes while the
flow runs is in the state of `Takler.Core.State`.

The rules the document models check are fields of the structures, so that a tree that breaks them
cannot be written down: meters have bounds in order, repeats run forward over dates that exist,
tokens are positive.

## Main definitions

* `NodeDef`, `Tree`, `Bunch`: definitions, trees of them, and flows with distinct names.
* `Tree.walk`: the nodes of a tree in preorder with their paths.
* `Bunch.node?`: the node at a path.

## Main results

* `Tree.induction`: induction over a tree with one hypothesis for each child.
* `Bunch.node?_child`, `Bunch.node?_of_mem_walk`: children and walked nodes are found.
-/

namespace Takler

/-- The built-in node types. -/
inductive NodeKind
  | flow
  | container
  | task
  | shell
deriving DecidableEq

/-- `isinstance(node, Task)`. -/
def NodeKind.isTask : NodeKind → Bool
  | flow | container => false
  | task | shell => true

/-- The two statuses a requeue may reset a node to. -/
inductive DefaultStatus
  | queued
  | complete
deriving DecidableEq

/-- The default status as a node status. -/
def DefaultStatus.toStatus : DefaultStatus → NodeStatus
  | queued => .queued
  | complete => .complete

/-- `EventDefinition`. -/
structure EventDef where
  name : String
  initialValue : Bool

/-- `MeterDefinition`. -/
structure MeterDef where
  name : String
  minValue : ℤ
  maxValue : ℤ
  bounds : minValue ≤ maxValue

/-- A limit is named by the node that holds it and by its name there. -/
abbrev LimitId := NodePath × String

/-- `LimitDefinition`. -/
structure LimitDef where
  name : String
  limit : ℕ

/-- `InLimitDefinition` with the limit that the builder has bound it to. -/
structure InLimit where
  limitName : String
  /-- The reference as written; without one the limit was searched up the tree. -/
  nodePath : Option String
  tokens : ℕ
  limit : LimitId
  tokens_pos : 0 < tokens
deriving DecidableEq

/-- The ordinal of `datetime.date.max`. -/
def maxOrdinal : ℕ := 3652059

/-- `RepeatDateDefinition`, dates being day ordinals. -/
structure RepeatDate where
  name : String
  startDate : ℕ
  endDate : ℕ
  step : ℕ
  start_le : startDate ≤ endDate
  end_le : endDate ≤ maxOrdinal
  step_pos : 0 < step

/-- `TimeDefinition`. -/
structure TimeDef where
  hour : ℕ
  minute : ℕ

/-- What a definition says about one node. -/
structure NodeDef where
  name : String
  kind : NodeKind
  defaultNodeStatus : DefaultStatus := .queued
  trigger : Option (Ast NodePath) := none
  completeTrigger : Option (Ast NodePath) := none
  events : List EventDef := []
  meters : List MeterDef := []
  limits : List LimitDef := []
  inLimits : List InLimit := []
  repeatDate : Option RepeatDate := none
  times : List TimeDef := []

/-- The trigger and the complete trigger, as far as there are any. -/
def NodeDef.triggers (d : NodeDef) : List (Ast NodePath) :=
  d.trigger.toList ++ d.completeTrigger.toList

/-- A node with its children. -/
inductive Tree
  | node (defn : NodeDef) (children : List Tree)

namespace Tree

/-- The definition of the root. -/
def defn : Tree → NodeDef
  | node d _ => d

/-- The children of the root. -/
def children : Tree → List Tree
  | node _ cs => cs

/-- The name of the root. -/
def name (t : Tree) : String := t.defn.name

/-- The type of the root. -/
def kind (t : Tree) : NodeKind := t.defn.kind

/-- Whether the root is a task. -/
def isTask (t : Tree) : Bool := t.kind.isTask

@[simp] theorem defn_node (d : NodeDef) (cs : List Tree) : (node d cs).defn = d := rfl

@[simp] theorem children_node (d : NodeDef) (cs : List Tree) : (node d cs).children = cs := rfl

/-- Induction over a tree: the children come with their hypotheses. -/
@[elab_as_elim]
theorem induction {P : Tree → Prop} (h : ∀ d cs, (∀ c ∈ cs, P c) → P (node d cs)) (t : Tree) :
    P t :=
  @Tree.rec P (fun cs => ∀ c ∈ cs, P c) h (by simp)
    (fun c cs hc hcs => by simpa using ⟨hc, hcs⟩) t

mutual
/-- `walk`: the nodes of the tree at a path in preorder. -/
def walk (p : NodePath) : Tree → List (NodePath × Tree)
  | node d cs => (p, node d cs) :: walkList p cs

/-- The nodes of the trees below a path, one tree after the other. -/
def walkList (p : NodePath) : List Tree → List (NodePath × Tree)
  | [] => []
  | c :: cs => walk (c.name :: p) c ++ walkList p cs
end

/-- Siblings have distinct names, tasks are leaves, and flows are only at the top. -/
inductive WF : Tree → Prop
  | node {d : NodeDef} {cs : List Tree} (leaf : d.kind.isTask → cs = [])
      (nodup : (cs.map Tree.name).Nodup) (nested : ∀ c ∈ cs, c.kind ≠ .flow)
      (children : ∀ c ∈ cs, c.WF) : WF (node d cs)

theorem WF.nodup {t : Tree} (h : t.WF) : (t.children.map Tree.name).Nodup := by
  cases h with
  | node _ hn _ _ => exact hn

theorem WF.child {t c : Tree} (h : t.WF) (hc : c ∈ t.children) : c.WF := by
  cases h with
  | node _ _ _ hs => exact hs c hc

theorem WF.children_of_isTask {t : Tree} (h : t.WF) (ht : t.isTask = true) : t.children = [] := by
  cases h with
  | node hl _ _ _ => exact hl ht

theorem mem_walkList {p : NodePath} {cs : List Tree} {x : NodePath × Tree} :
    x ∈ walkList p cs ↔ ∃ c ∈ cs, x ∈ walk (c.name :: p) c := by
  induction cs with
  | nil => simp [walkList]
  | cons c cs ih => simp [walkList, ih]

theorem mem_walk {p : NodePath} {t : Tree} {x : NodePath × Tree} :
    x ∈ walk p t ↔ x = (p, t) ∨ ∃ c ∈ t.children, x ∈ walk (c.name :: p) c := by
  cases t with
  | node d cs => simp [walk, mem_walkList]

theorem self_mem_walk (p : NodePath) (t : Tree) : (p, t) ∈ walk p t := mem_walk.mpr (.inl rfl)

/-- The rules may be checked node by node. -/
theorem wf_iff {t : Tree} : ∀ {p : NodePath}, t.WF ↔ ∀ x ∈ t.walk p,
    (x.2.isTask = true → x.2.children = []) ∧ (x.2.children.map Tree.name).Nodup ∧
      ∀ c ∈ x.2.children, c.kind ≠ .flow := by
  induction t using Tree.induction with
  | h d cs ih =>
    refine fun {p} => ⟨fun ⟨hleaf, hnodup, hnested, hcs⟩ x hx => ?_, fun h => ?_⟩
    · rcases mem_walk.mp hx with rfl | ⟨c, hc, hx⟩
      · exact ⟨hleaf, hnodup, hnested⟩
      · exact (ih c hc).mp (hcs c hc) x hx
    · obtain ⟨hleaf, hnodup, hnested⟩ := h _ (self_mem_walk p _)
      exact ⟨hleaf, hnodup, hnested, fun c hc =>
        (ih c hc).mpr fun x hx => h x (mem_walk.mpr (.inr ⟨c, hc, hx⟩))⟩

instance (t : Tree) : Decidable t.WF := decidable_of_iff' _ (wf_iff (p := []))

theorem WF.eq_of_mem_walk {p : NodePath} {t : Tree} {x : NodePath × Tree} (h : t.WF)
    (ht : t.isTask = true) (hx : x ∈ t.walk p) : x = (p, t) :=
  (mem_walk.mp hx).resolve_right fun ⟨c, hc, _⟩ => by simp [h.children_of_isTask ht] at hc

/-- The path of a walked node extends the path of the root. -/
theorem suffix_of_mem_walk {t : Tree} : ∀ {p : NodePath} {x : NodePath × Tree},
    x ∈ walk p t → p <:+ x.1 := by
  induction t using Tree.induction with
  | h d cs ih =>
    intro p x hx
    rcases mem_walk.mp hx with rfl | ⟨c, hc, hx⟩
    · exact List.suffix_rfl
    · exact (List.suffix_cons c.name p).trans (ih c hc hx)

/-- The trees of two siblings have no path in common. -/
theorem walk_disjoint {p : NodePath} {c d : Tree} (hne : c.name ≠ d.name)
    {x y : NodePath × Tree} (hx : x ∈ walk (c.name :: p) c) (hy : y ∈ walk (d.name :: p) d) :
    x.1 ≠ y.1 := by
  intro h
  have hcx := suffix_of_mem_walk hx
  rw [h] at hcx
  have hcd := List.suffix_of_suffix_length_le hcx (suffix_of_mem_walk hy) (by simp)
  exact hne (List.cons.inj (hcd.eq_of_length (by simp))).1

/-- A node is not below itself. -/
theorem ne_of_mem_walkList {p : NodePath} {cs : List Tree} {x : NodePath × Tree}
    (hx : x ∈ walkList p cs) : x.1 ≠ p := by
  rintro rfl
  obtain ⟨c, -, hx⟩ := mem_walkList.mp hx
  simpa using (suffix_of_mem_walk hx).length_le

end Tree

/-- Flows with distinct names, each of them well formed. -/
structure Bunch where
  flows : List Tree
  nodup : (flows.map Tree.name).Nodup
  wf : ∀ f ∈ flows, f.WF
  isFlow : ∀ f ∈ flows, f.kind = .flow

namespace Bunch

variable (b : Bunch)

/-- The node at a path. -/
def node? : NodePath → Option Tree
  | [] => none
  | [f] => b.flows.find? fun t => t.name = f
  | n :: m :: up => (node? (m :: up)).bind fun t => t.children.find? fun c => c.name = n

/-- Whether there is a task at a path. -/
def isTask (p : NodePath) : Bool := (b.node? p).any Tree.isTask

variable {b}

private theorem find?_name {l : List Tree} (h : (l.map Tree.name).Nodup) {c : Tree} (hc : c ∈ l) :
    (l.find? fun t => t.name = c.name) = some c := by
  cases hf : l.find? fun t => t.name = c.name with
  | none => simpa using List.find?_eq_none.mp hf c hc
  | some t =>
    have ht : t.name = c.name := by simpa using List.find?_some hf
    rw [List.inj_on_of_nodup_map h (List.mem_of_find?_eq_some hf) hc ht]

theorem node?_flow {f : Tree} (h : f ∈ b.flows) : b.node? [f.name] = some f := find?_name b.nodup h

/-- Every node of the bunch is well formed. -/
theorem wf_of_node? : ∀ {p : NodePath} {t : Tree}, b.node? p = some t → t.WF
  | [], _, h => by cases h
  | [_], _, h => b.wf _ (List.mem_of_find?_eq_some h)
  | _ :: _ :: _, _, h => by
    obtain ⟨u, hu, ht⟩ := Option.bind_eq_some_iff.mp h
    exact (wf_of_node? hu).child (List.mem_of_find?_eq_some ht)

/-- The path of a node starts with its name. -/
theorem ne_nil_of_node? {p : NodePath} {t : Tree} (h : b.node? p = some t) : p ≠ [] := by
  rintro rfl
  cases h

theorem head?_of_node? : ∀ {p : NodePath} {t : Tree}, b.node? p = some t → p.head? = some t.name
  | [], _, h => by cases h
  | [n], t, h => by
    have hn : t.name = n := by simpa using List.find?_some h
    simp [hn]
  | n :: _ :: _, t, h => by
    obtain ⟨u, _, ht⟩ := Option.bind_eq_some_iff.mp h
    have hn : t.name = n := by simpa using List.find?_some ht
    simp [hn]

/-- The children of a node are found below its path. -/
theorem node?_child {p : NodePath} {t c : Tree} (h : b.node? p = some t) (hc : c ∈ t.children) :
    b.node? (c.name :: p) = some c := by
  cases p with
  | nil => cases h
  | cons n up =>
    rw [node?, h]
    exact find?_name (wf_of_node? h).nodup hc

/-- The parent of a node that is not a flow, and the node among its children. -/
theorem parent_of_node? {n m : String} {up : NodePath} {c : Tree}
    (h : b.node? (n :: m :: up) = some c) :
    ∃ t, b.node? (m :: up) = some t ∧ c ∈ t.children ∧ c.name = n := by
  obtain ⟨t, ht, hc⟩ := Option.bind_eq_some_iff.mp h
  exact ⟨t, ht, List.mem_of_find?_eq_some hc, by simpa using List.find?_some hc⟩

theorem node?_of_mem_walk {t : Tree} : ∀ {p : NodePath} {x : NodePath × Tree},
    b.node? p = some t → x ∈ t.walk p → b.node? x.1 = some x.2 := by
  induction t using Tree.induction with
  | h d cs ih =>
    intro p x hp hx
    rcases Tree.mem_walk.mp hx with rfl | ⟨c, hc, hx⟩
    · exact hp
    · exact ih c hc (node?_child hp hc) hx

theorem exists_of_isTask {p : NodePath} (h : b.isTask p = true) :
    ∃ t, b.node? p = some t ∧ t.isTask = true := by
  unfold isTask at h
  cases hp : b.node? p with
  | none => simp [hp] at h
  | some t => exact ⟨t, rfl, by simpa [hp] using h⟩

theorem mem_walk_child {t : Tree} : ∀ {p : NodePath} {x : NodePath × Tree} {c : Tree},
    x ∈ t.walk p → c ∈ x.2.children → (c.name :: x.1, c) ∈ t.walk p := by
  induction t using Tree.induction with
  | h d cs ih =>
    intro p x c hx hc
    rcases Tree.mem_walk.mp hx with rfl | ⟨e, he, hx⟩
    · exact Tree.mem_walk.mpr (.inr ⟨c, hc, Tree.self_mem_walk _ _⟩)
    · exact Tree.mem_walk.mpr (.inr ⟨e, he, ih e he hx hc⟩)

/-- A node whose path extends the path of another one is below it. -/
theorem mem_walk_of_suffix {p : NodePath} {t : Tree} (hp : b.node? p = some t) :
    ∀ {q : NodePath} {u : Tree}, b.node? q = some u → p <:+ q → (q, u) ∈ t.walk p
  | [], _, hq, _ => by cases hq
  | n :: up, u, hq, hs => by
    rcases List.suffix_cons_iff.mp hs with rfl | hup
    · rw [hp, Option.some_inj] at hq
      exact hq ▸ Tree.self_mem_walk _ _
    · cases up with
      | nil =>
        rw [List.suffix_nil.mp hup] at hp
        cases hp
      | cons m up =>
        obtain ⟨v, hv, hc, rfl⟩ := parent_of_node? hq
        exact mem_walk_child (mem_walk_of_suffix hp hv hup) hc

/-- All nodes of the bunch with their paths. -/
def nodes (b : Bunch) : List (NodePath × Tree) := b.flows.flatMap fun f => f.walk [f.name]

theorem exists_flow_suffix : ∀ {p : NodePath} {t : Tree}, b.node? p = some t →
    ∃ f ∈ b.flows, [f.name] <:+ p
  | [], _, h => by cases h
  | [n], t, h => by
    have hn : t.name = n := by simpa using List.find?_some h
    exact ⟨t, List.mem_of_find?_eq_some h, hn ▸ List.suffix_rfl⟩
  | n :: m :: up, _, h => by
    obtain ⟨u, hu, -⟩ := Option.bind_eq_some_iff.mp h
    obtain ⟨f, hf, hs⟩ := exists_flow_suffix hu
    exact ⟨f, hf, hs.trans (List.suffix_cons n (m :: up))⟩

theorem mem_nodes {p : NodePath} {t : Tree} : (p, t) ∈ b.nodes ↔ b.node? p = some t := by
  constructor
  · intro h
    obtain ⟨f, hf, hx⟩ := List.mem_flatMap.mp h
    exact node?_of_mem_walk (node?_flow hf) hx
  · intro h
    obtain ⟨f, hf, hs⟩ := exists_flow_suffix h
    exact List.mem_flatMap.mpr ⟨f, hf, mem_walk_of_suffix (node?_flow hf) h hs⟩

end Bunch

end Takler
