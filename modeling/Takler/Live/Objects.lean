import Takler.Core.Expression
import Takler.Lib.KeyedTree

/-!
# Flows as objects that refer to each other

The server's tree is made of objects. A trigger keeps the node objects that its paths were bound to,
and an in-limit the limit object; a flow that was replaced is another object of the same name. This
module models the objects of a bunch with their identities, how paths are found
(`Bunch.find_node`, `Node.find_node`), and how a flow is built from a definition and bound to the
flows that exist (`serialization/builder.py`).

A flow object is named by a number that is never used twice and by its name, which does not change;
a node object by its flow and its address in it. The text of a path is the list of the parts
between its slashes; node names have no slashes.

The parser of trigger expressions is a parameter.

## Main definitions

* `Instance`, `NodeRef`, `Node`, `Flow`, `Bunch`: objects.
* `Flow.findFrom`, `Bunch.findNode`: `find_node`.
* `Document`, `Bunch.build`: `build_definition` with the existing bunch.

## Main results

* `follow_goAlong`: where a path leads is decided by its text.
* `Bunch.findNode_points`, `Flow.findFrom_points`: what is found belongs to the text.
-/

namespace Takler.Live

/-! ### Objects -/

/-- The exceptions of this part, by their types. -/
inductive Failure
  | invalidNodePath (message : String)
  | nodeNotFound (message : String)
  | nodeType (message : String)
  | flowState (message : String)
  | invalidRequest (message : String)
  | unsupportedValue (message : String)
  | expressionSyntax (message : String)
  | runtime (message : String)
  | index (message : String)
deriving DecidableEq

/-- The text of a path: the parts between its slashes. -/
abbrev PathText := List String

/-- The identity of a flow object. -/
structure Instance where
  serial : ℕ
  name : String
deriving DecidableEq

/-- A node object: its flow, and its address in the flow. Without a flow it is the bunch itself. -/
structure NodeRef where
  flow : Option Instance
  path : List String
deriving DecidableEq

/-- A path in a trigger with the objects it is bound to. -/
structure Reference where
  text : PathText
  /-- `_reference_node`. -/
  target : Option NodeRef := none
  /-- The node whose variable is kept in `_node_variable`. -/
  variableOf : Option NodeRef := none
  /-- A variable is only ever taken from the node that was found. -/
  kept : variableOf = none ∨ variableOf = target := by first | exact .inl rfl | exact .inr rfl
deriving DecidableEq

/-- `Expression`. -/
structure Expression where
  expressionStr : String
  ast : Option (Ast Reference) := none
deriving DecidableEq

/-- `Limit`, with the paths of its holders. -/
structure Limit where
  name : String
  limit : ℕ
  value : ℕ := 0
  nodePaths : List PathText := []
deriving DecidableEq

/-- `InLimit`; the limit it is bound to has its name. -/
structure InLimit where
  limitName : String
  nodePath : Option PathText
  tokens : ℕ
  /-- The node that holds the limit. -/
  limit : Option NodeRef := none
deriving DecidableEq

/-- What replacing a flow looks at in a node. -/
structure Node where
  status : NodeStatus := .unknown
  suspended : Bool := false
  /-- The names of the events, meters and parameters. -/
  variableNames : List String := []
  limits : List Limit := []
  inLimits : List InLimit := []
  trigger : Option Expression := none
  completeTrigger : Option Expression := none

/-- `Flow`: the nodes below it are addressed from the node upwards. -/
structure Flow where
  object : Instance
  tree : KeyedTree String Node

/-- `Bunch`: its own attributes and its flows, in the order of the dictionary. -/
structure Bunch where
  name : String := ""
  root : Node := {}
  flows : List Flow := []
  nextSerial : ℕ := 0

def Flow.name (f : Flow) : String := f.object.name

def Bunch.flow? (b : Bunch) (name : String) : Option Flow := b.flows.find? fun f => f.name = name

/-- `find_limit`. -/
def Node.findLimit (n : Node) (name : String) : Option Limit := n.limits.find? fun l => l.name = name

/-! ### Paths -/

namespace PathText

/-- `path.startswith("/")`. -/
def isAbsolute : PathText → Bool
  | part :: _ :: _ => part = ""
  | _ => false

/-- Whether a path is that of a flow or goes below it. -/
def isWithin (flow : String) : PathText → Bool
  | part :: n :: _ => part = "" && n = flow
  | _ => false

/-- `PurePosixPath(path).parts` without the root. -/
def parts (t : PathText) : List String := t.filter fun part => part ≠ "" && part ≠ "."

def text (t : PathText) : String := "/".intercalate t

theorem eq_of_isAbsolute : ∀ {t : PathText}, t.isAbsolute = true → ∃ n rest, t = "" :: n :: rest
  | part :: n :: rest, h => ⟨n, rest, by rw [of_decide_eq_true h]⟩

/-- When the first part is what follows the first slash, the other parts follow it. -/
theorem tail_of_parts_eq_cons {n m : String} {rest ms : List String}
    (h : parts ("" :: n :: rest) = m :: ms) (hmn : m = n) : parts rest = ms := by
  have hm : m ∈ parts ("" :: n :: rest) := h ▸ List.mem_cons_self
  have hn : (n ≠ "" && n ≠ ".") = true := hmn ▸ (List.mem_filter.mp hm).2
  unfold parts at h ⊢
  rw [List.filter_cons_of_neg (by decide), List.filter_cons_of_pos (by simpa using hn)] at h
  exact (List.cons.inj h).2

end PathText

/-- The path text of a node of a flow. -/
def nodePath (flow : String) (address : List String) : PathText := "" :: flow :: address.reverse

/-- Where parts lead when every node is there. -/
def goAlong : List String → List String → Option (List String)
  | p, [] => some p
  | p, part :: rest =>
    if part = ".." then
      match p with
      | [] => none
      | _ :: up => goAlong up rest
    else goAlong (part :: p) rest

/-- The loop of `Node.find_node`. -/
def follow {α : Type} (t : KeyedTree String α) : List String → List String → Option (List String)
  | p, [] => some p
  | p, part :: rest =>
    if part = ".." then
      match p with
      | [] => none
      | _ :: up => follow t up rest
    else if (t.find? (part :: p)).isSome then follow t (part :: p) rest
    else none

theorem follow_goAlong {α : Type} {t : KeyedTree String α} : ∀ {ps p q : List String},
    follow t p ps = some q → goAlong p ps = some q
  | [], _, _, h => h
  | part :: rest, p, q, h => by
    unfold follow at h
    unfold goAlong
    split_ifs at h ⊢ with hpart hfound
    · cases p with
      | nil => exact h
      | cons k up => exact follow_goAlong h
    · exact follow_goAlong h

/-- Names lead downwards. -/
theorem goAlong_parts : ∀ {rest p : List String},
    (∀ part ∈ rest, part ≠ "" ∧ part ≠ "." ∧ part ≠ "..") →
    goAlong p (PathText.parts rest) = some (rest.reverse ++ p)
  | [], _, _ => rfl
  | part :: rest, p, h => by
    obtain ⟨h₁, h₂, h₃⟩ := h part List.mem_cons_self
    have hparts : PathText.parts (part :: rest) = part :: PathText.parts rest := by
      simp [PathText.parts, h₁, h₂]
    unfold goAlong
    rw [hparts]
    dsimp only
    rw [if_neg h₃, goAlong_parts fun x hx => h x (List.mem_cons_of_mem part hx),
      List.reverse_cons, List.append_assoc, List.singleton_append]

/-- A node of a flow by its address. -/
def Flow.at? (f : Flow) (address : List String) : Option (NodeRef × Node) :=
  (f.tree.find? address).map fun n => (⟨some f.object, address⟩, n.value)

/-- `Node.find_node` from the node at an address. -/
def Flow.findFrom (f : Flow) (address : List String) (t : PathText) :
    Except Failure (Option (NodeRef × Node)) :=
  let base := if t.isAbsolute then [] else (f.name :: address.reverse).dropLast
  match base ++ t.parts with
  | [] => .error (.index "tuple index out of range")
  | n :: rest => .ok (if n = f.name then (follow f.tree [] rest).bind f.at? else none)

/-- `Bunch.find_node`. -/
def Bunch.findNode (b : Bunch) (t : PathText) : Except Failure (Option (NodeRef × Node)) :=
  if ¬ t.isAbsolute ∨ t = ["", ""] then
    .error (.invalidNodePath ("absolute node path is illegal: " ++ t.text))
  else
    match (t[1]?).bind b.flow? with
    | none => .ok none
    | some f => f.findFrom [] t

variable {b : Bunch} {f : Flow} {t : PathText} {x : NodeRef × Node}

theorem Flow.at?_eq_some {address : List String} (h : f.at? address = some x) :
    x.1 = ⟨some f.object, address⟩ ∧ (f.tree.find? address).map KeyedTree.value = some x.2 := by
  obtain ⟨n, hn, rfl⟩ := Option.map_eq_some_iff.mp h
  exact ⟨rfl, by rw [hn]; rfl⟩

/-- What `find_node` of a node finds is in its own flow. -/
theorem Flow.findFrom_points {address : List String} (h : f.findFrom address t = .ok (some x)) :
    x.1.flow = some f.object := by
  unfold Flow.findFrom at h
  dsimp only at h
  split at h
  · cases h
  · split_ifs at h with hn
    · obtain ⟨q, -, hx⟩ := Option.bind_eq_some_iff.mp (Except.ok.inj h)
      rw [(Flow.at?_eq_some hx).1]
    · cases h

/-- What `find_node` of the bunch finds is in the flow that the text names, where the text leads. -/
theorem Bunch.findNode_points (h : b.findNode t = .ok (some x)) :
    ∃ f ∈ b.flows, ∃ rest, t = "" :: f.name :: rest ∧ x.1.flow = some f.object ∧
      goAlong [] (PathText.parts rest) = some x.1.path := by
  unfold Bunch.findNode at h
  split_ifs at h with hlegal
  rw [not_or, not_not] at hlegal
  obtain ⟨n, rest, rfl⟩ := PathText.eq_of_isAbsolute hlegal.1
  split at h
  · cases h
  · next f hf =>
    have hname : f.name = n := by simpa using List.find?_some hf
    refine ⟨f, List.mem_of_find?_eq_some hf, rest, by rw [hname], Flow.findFrom_points h, ?_⟩
    unfold Flow.findFrom at h
    rw [hlegal.1] at h
    dsimp only [↓reduceIte, List.nil_append] at h
    split at h
    · cases h
    · next m ms hparts =>
      split_ifs at h with hm
      · obtain ⟨q, hq, hx⟩ := Option.bind_eq_some_iff.mp (Except.ok.inj h)
        rw [(Flow.at?_eq_some hx).1]
        rw [PathText.tail_of_parts_eq_cons hparts (hm.trans hname)]
        exact follow_goAlong hq
      · cases h

/-- A node that has references: the bunch itself, or a node of a flow. -/
inductive Owner
  | root
  | node (f : Flow) (address : List String)

/-- `owner.find_node`. -/
def Owner.findNode (b : Bunch) : Owner → PathText → Except Failure (Option (NodeRef × Node))
  | root, t => b.findNode t
  | node f address, t => f.findFrom address t

/-- The object that an owner belongs to. -/
def Owner.object : Owner → Option Instance
  | root => none
  | node f _ => some f.object

/-! ### Building a flow -/

/-- What a definition says about one node. -/
structure NodeDoc where
  trigger : Option String := none
  completeTrigger : Option String := none
  variableNames : List String := []
  limits : List (String × ℕ) := []
  inLimits : List (String × Option PathText × ℕ) := []

/-- A definition that was accepted: the attributes of a bunch, when it is one, and the flows. Names
are not empty and no directories. -/
structure Document where
  bunch : Option NodeDoc
  flows : List (KeyedTree String NodeDoc)
  named : ∀ t ∈ flows, ∀ x ∈ t.walk [], x.2.key ≠ "" ∧ x.2.key ≠ "." ∧ x.2.key ≠ ".."

/-- `_construct` of one node. -/
def NodeDoc.construct (d : NodeDoc) : Node where
  variableNames := d.variableNames
  limits := d.limits.map fun l => { name := l.1, limit := l.2 }
  inLimits := d.inLimits.map fun i => { limitName := i.1, nodePath := i.2.1, tokens := i.2.2 }
  trigger := d.trigger.map fun s => { expressionStr := s }
  completeTrigger := d.completeTrigger.map fun s => { expressionStr := s }

/-- `nodes.get(path)` of the nodes of a flow by their paths. -/
def Flow.lookup (f : Flow) : PathText → Option (NodeRef × Node)
  | part :: n :: rest => if part = "" ∧ n = f.name then f.at? rest.reverse else none
  | _ => none

/-- What a path of a node in new flows refers to. A path into one of them is not looked up in the
flows that exist. Exceptions of `find_node` are not told apart. -/
def Bunch.findNew (b : Bunch) (fs : List Flow) (owner : Owner) (t : PathText) :
    Except String (Option (NodeRef × Node)) :=
  let found :=
    if t.isAbsolute then
      match fs.findSome? fun f => f.lookup t with
      | some x => .ok (some x)
      | none => if ∃ f ∈ fs, t[1]? = some f.name then .ok none else b.findNode t
    else owner.findNode b t
  found.mapError fun _ => "invalid_field"

/-- `bind` of `bind_expressions` for one path. -/
def bindNew (find : PathText → Except String (Option (NodeRef × Node))) (t : PathText)
    (variableName : Option String) : Except String Reference := do
  match ← find t with
  | none => throw "unresolved_reference"
  | some (r, n) =>
    match variableName with
    | none => return { text := t, target := some r }
    | some name =>
      if name ∈ n.variableNames then return { text := t, target := some r, variableOf := some r }
      else throw "unresolved_reference"

section Parser

-- `parse_trigger`
variable (parse : String → Option (Ast PathText))

/-- `bind_expressions` for one expression. -/
def Expression.bindNew (find : PathText → Except String (Option (NodeRef × Node)))
    (e : Expression) : Except String Expression := do
  match parse e.expressionStr with
  | none => throw "expression_syntax"
  | some a =>
    let ast ← a.traverse (Live.bindNew find)
    return { e with ast := some ast }

/-- `find_limit_up` from a node of a flow. -/
def Flow.findLimitUp (f : Flow) (name : String) : List String → Option (NodeRef × Limit)
  | [] => (f.at? []).bind fun x => (x.2.findLimit name).map fun l => (x.1, l)
  | k :: up =>
    match (f.at? (k :: up)).bind fun x => (x.2.findLimit name).map fun l => (x.1, l) with
    | some x => some x
    | none => f.findLimitUp name up

/-- `find_limit_up`; a flow has no parent. -/
def Owner.findLimitUp (root : Node) (name : String) : Owner → Option (NodeRef × Limit)
  | .root => (root.findLimit name).map fun l => (⟨none, []⟩, l)
  | .node f address => f.findLimitUp name address

/-- Whether `validate_references` refuses a path. -/
def PathText.isIllegal (t : PathText) : Bool :=
  t = [""] || t = ["", ""] || t.tail.any (· = "") ||
    t.any fun part => part.toList.any fun c => c = ':' || c = '\x00'

section New

variable (b : Bunch) (root : Node) (fs : List Flow)

/-- The limit that an in-limit of a new node refers to. -/
def InLimit.findNew (owner : Owner) (i : InLimit) : Except String (Option (NodeRef × Limit)) :=
  match i.nodePath with
  | none => .ok (owner.findLimitUp root i.limitName)
  | some t =>
    if t.isIllegal then .error "invalid_reference"
    else do
      let found ← b.findNew fs owner t
      return found.bind fun x => (x.2.findLimit i.limitName).map fun l => (x.1, l)

/-- `validate_references` for one in-limit. -/
def InLimit.bindNew (owner : Owner) (i : InLimit) : Except String InLimit := do
  match ← i.findNew b root fs owner with
  | none => throw "unresolved_reference"
  | some (r, l) =>
    if i.tokens > l.limit then throw "invalid_reference"
    else return { i with limit := some r }

/-- `bind_expressions` for one node. -/
def Node.bindExpressions (owner : Owner) (n : Node) : Except String Node := do
  let trigger ← n.trigger.mapM (Expression.bindNew parse (b.findNew fs owner))
  let completeTrigger ← n.completeTrigger.mapM (Expression.bindNew parse (b.findNew fs owner))
  return { n with trigger, completeTrigger }

/-- `validate_references` for one node. -/
def Node.bindInLimits (owner : Owner) (n : Node) : Except String Node := do
  let inLimits ← n.inLimits.mapM (InLimit.bindNew b root fs owner)
  return { n with inLimits }

end New

/-- Compute the nodes of a flow anew. -/
def Flow.traverse (bind : Owner → Node → Except String Node) (f : Flow) : Except String Flow := do
  let tree ← f.tree.traverse (fun address n => bind (.node f address) n) []
  return { f with tree }

/-- The new flows before anything is bound. -/
def Bunch.construct (b : Bunch) (d : Document) (status : PathText → NodeStatus → NodeStatus) :
    List Flow :=
  d.flows.mapIdx fun i t =>
    { object := ⟨b.nextSerial + i, t.key⟩
      tree := t.mapWith (fun address n =>
        { n.construct with
          status := status (nodePath t.key address) n.construct.status }) [] }

/-- `build_definition` after the document was accepted: the node of the bunch, which is of use only
when the document is one, and the flows. The callback `initialize` raises, or makes something of the
statuses of the new nodes. -/
def Bunch.build (b : Bunch) (d : Document)
    (initial : Except String (PathText → NodeStatus → NodeStatus)) :
    Except String (Node × List Flow) := do
  let status ← initial
  let root := (d.bunch.getD {}).construct
  let fs := b.construct d status
  let root ← root.bindExpressions parse b fs .root
  let fs ← fs.mapM (Flow.traverse (Node.bindExpressions parse b fs))
  let root' ← Node.bindInLimits b root fs .root root
  let fs ← fs.mapM (Flow.traverse (Node.bindInLimits b root fs))
  return (root', fs)

end Parser

end Takler.Live
