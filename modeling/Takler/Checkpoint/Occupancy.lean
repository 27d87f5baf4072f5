import Takler.Core.Tree
import Takler.Live.Objects

/-!
# Who holds a limit: the check of a checkpoint and the check of a tree

The tokens that are taken from a limit have to be those of the tasks in flight. A checkpoint is
checked from its rows, which are keyed by path: `_validate_checkpoint_nodes` looks up the references
of the in-limits in path texts and climbs from a task to `/`. A restored tree is checked by
`validate_occupancy`, which follows the objects: the limit that an in-limit is bound to, and the
parents of a task up to its flow.

The text of a path is the list of the parts between its slashes, as in `Takler.Live`. Only one tree
is involved here, so that a node object is given by its place, and a limit by its place and name.

## Main definitions

* `Layout`: the definitions of a bunch, with limits and in-limits on any node.
* `Layout.resolveInLimit`, `Layout.validateReference`: what an in-limit of the tree is bound to.
* `validateOccupancy`: the check of a tree.
* `validateRuntimeLimit`, `normpath`, `resolve`, `validateHolders`: the check of a checkpoint.
-/

namespace Takler.Occupancy

open Live (PathText follow)

/-! ### The tree -/

/-- `InLimitDefinition`, with the path as written. -/
structure InLimitDoc where
  limitName : String
  nodePath : Option PathText
  tokens : ℕ

/-- What a definition says about a node. -/
structure NodeDoc where
  isTask : Bool := false
  limits : List LimitDef := []
  inLimits : List InLimitDoc := []

/-- The definitions of a bunch. -/
structure Layout where
  name : String
  root : NodeDoc
  flows : List (KeyedTree String NodeDoc)
  name_ne : name ≠ "." ∧ name ≠ ".."
  root_isTask : root.isTask = false
  nodup : (flows.map KeyedTree.key).Nodup
  distinct : ∀ f ∈ flows, f.Distinct
  named : ∀ f ∈ flows, ∀ x ∈ f.walk [], x.2.key ≠ "" ∧ x.2.key ≠ "." ∧ x.2.key ≠ ".."
  root_limits_nodup : (root.limits.map LimitDef.name).Nodup
  limits_nodup : ∀ f ∈ flows, ∀ x ∈ f.walk [], (x.2.value.limits.map LimitDef.name).Nodup

/-- A node: the bunch itself, or one of a flow with its address from the node upwards. -/
inductive Place
  | root
  | node (flow : String) (address : List String)
deriving DecidableEq

/-- The key of a node in a checkpoint, which for a node of a flow is its `node_path`. -/
def Place.text : Place → PathText
  | root => ["", ""]
  | node f a => Live.nodePath f a

/-- A node and its parents; a flow has none. -/
def Place.lineage : Place → List Place
  | root => [.root]
  | node f a => a.tails.map (.node f)

/-- `find_limit`. -/
def NodeDoc.findLimit (d : NodeDoc) (name : String) : Option LimitDef :=
  d.limits.find? fun l => l.name = name

/-- What is known of a limit at runtime. The holders are a set in the tree. -/
structure LimitUsage where
  value : ℤ
  nodePaths : List PathText
  nodup : nodePaths.Nodup

/-- What is known of the nodes at runtime. -/
structure Runtime where
  status : Place → NodeStatus
  generation : Place → Option String
  usage : Place → String → LimitUsage

namespace Layout

variable (L : Layout)

def flow? (name : String) : Option (KeyedTree String NodeDoc) :=
  L.flows.find? fun f => f.key = name

/-- The node at a place. -/
def at? : Place → Option NodeDoc
  | .root => some L.root
  | .node f a => (L.flow? f).bind fun t => (t.find? a).map KeyedTree.value

/-- `walk`. -/
def places : List Place :=
  .root :: L.flows.flatMap fun f => (f.walk []).map fun x => .node f.key x.1

/-- The limit with a name at a place. -/
def limit? (p : Place) (name : String) : Option LimitDef :=
  (L.at? p).bind fun d => d.findLimit name

def hasLimit (name : String) (p : Place) : Bool := (L.limit? p name).isSome

/-! ### References in the tree -/

/-- `find_limit_up` from a node of a flow. -/
def findLimitIn (name flow : String) : List String → Option Place
  | [] => if L.hasLimit name (.node flow []) then some (.node flow []) else none
  | k :: up =>
    if L.hasLimit name (.node flow (k :: up)) then some (.node flow (k :: up))
    else findLimitIn name flow up

/-- `find_limit_up`. -/
def findLimitUp (name : String) : Place → Option Place
  | .root => if L.hasLimit name .root then some .root else none
  | .node f a => L.findLimitIn name f a

/-- `Node.find_node`; an exception counts as nothing found. -/
def findFrom (flow : String) (address : List String) (t : PathText) : Option Place :=
  let base := if t.isAbsolute then [] else (flow :: address.reverse).dropLast
  match base ++ t.parts with
  | [] => none
  | n :: rest =>
    if n = flow then ((L.flow? flow).bind fun f => follow f [] rest).map (.node flow) else none

/-- `Bunch.find_node`. -/
def findNode (t : PathText) : Option Place :=
  if ¬ t.isAbsolute ∨ t = ["", ""] then none
  else (t[1]?).bind fun n => if (L.flow? n).isSome then L.findFrom n [] t else none

/-- `find_node` of any node. -/
def findAt : Place → PathText → Option Place
  | .root, t => L.findNode t
  | .node f a, t => L.findFrom f a t

/-- `InLimitManager.resolve_in_limit`: the place of the limit. -/
def resolveInLimit (owner : Place) (i : InLimitDoc) : Option Place :=
  match i.nodePath with
  | none => L.findLimitUp i.limitName owner
  | some t =>
    let found :=
      if t.isAbsolute ∧ owner ≠ .root then L.findNode t
      else if t = ["", ""] then none
      else L.findAt owner t
    found.filter (L.hasLimit i.limitName)

/-- `nodes.get(path)` of `validate_references`; a flow hides a bunch of its name. -/
def lookup : PathText → Option Place
  | part :: f :: down =>
    if part ≠ "" then none
    else if (L.at? (.node f down.reverse)).isSome then some (.node f down.reverse)
    else if f = L.name ∧ down = [] then some .root
    else none
  | _ => none

/-- `validate_references` for one in-limit. -/
def validateReference (owner : Place) (i : InLimitDoc) : Option Place :=
  let found :=
    match i.nodePath with
    | none => L.findLimitUp i.limitName owner
    | some t =>
      if t.isIllegal then none
      else (if t.isAbsolute then L.lookup t else L.findAt owner t).filter (L.hasLimit i.limitName)
  found.filter fun p => (L.limit? p i.limitName).any fun l => i.tokens ≤ l.limit

end Layout

/-! ### The check of a tree -/

/-- The first item for a limit decides. -/
def held {κ : Type} [DecidableEq κ] (items : List (κ × ℕ)) (k : κ) : Option ℕ :=
  (items.find? fun x => x.1 = k).map Prod.snd

/-- The paths and the value of a limit are those of its holders. -/
def LimitUsage.Matches (u : LimitUsage) (holders : List (PathText × ℕ)) : Prop :=
  (∀ t ∈ u.nodePaths, t ∈ holders.map Prod.fst) ∧ (∀ t ∈ holders.map Prod.fst, t ∈ u.nodePaths) ∧
    u.value = ((holders.map Prod.snd).sum : ℕ)

instance (u : LimitUsage) (holders : List (PathText × ℕ)) : Decidable (u.Matches holders) :=
  inferInstanceAs (Decidable (_ ∧ _ ∧ _))

/-- The limits that the in-limits of each node are bound to, with the tokens. -/
abbrev Binding := Place → List ((Place × String) × ℕ)

section Live

variable (L : Layout) (bound : Binding) (R : Runtime)

/-- A task in flight. -/
def inFlightTask (p : Place) : Bool :=
  (L.at? p).any (fun d => d.isTask) && (R.status p).inFlight

/-- The flow of a place. -/
def Place.flow : Place → Place
  | root => .root
  | node f _ => .node f []

/-- The generations of the tasks are those of their flows. -/
def SameGenerations : Prop :=
  ∀ p ∈ L.places, (L.at? p).any (fun d => d.isTask) = true → R.generation p = R.generation p.flow

instance : Decidable (SameGenerations L R) := inferInstanceAs (Decidable (∀ p ∈ L.places, _ → _))

/-- The in-limits of a task, the nearest first. -/
def itemsUp (p : Place) : List ((Place × String) × ℕ) := p.lineage.flatMap bound

/-- `expected` for a limit. -/
def holders (k : Place × String) : List (PathText × ℕ) :=
  (L.places.filter (inFlightTask L R)).filterMap fun p =>
    (held (itemsUp bound p) k).map fun tokens => (p.text, tokens)

/-- `validate_occupancy`. -/
def validateOccupancy : Except String Unit :=
  if ¬ SameGenerations L R then .error "invalid_runtime"
  else if ¬ ((L.places.filter fun p => p ≠ .root).map Place.text).Nodup then
    .error "invalid_structure"
  else if ∀ p ∈ L.places, ∀ d ∈ L.at? p, ∀ l ∈ d.limits,
      (R.usage p l.name).Matches (holders L bound R (p, l.name)) then .ok ()
  else .error "invalid_runtime"

end Live

/-! ### The check of a checkpoint -/

/-- The rows of a checkpoint by their keys. -/
abbrev Rows (α : Type) := List (PathText × α)

/-- The row with a key. -/
def Rows.get? {α : Type} (rows : Rows α) (t : PathText) : Option α :=
  (rows.find? fun x => x.1 = t).map Prod.snd

/-- `NodeRuntime`. -/
structure NodeRuntime where
  isTask : Bool
  status : NodeStatus
  generation : Option String
  usage : String → LimitUsage

/-- The definitions that are captured. -/
def Layout.definitions (L : Layout) : Rows NodeDoc :=
  L.places.map fun p => (p.text, (L.at? p).getD {})

/-- The runtime that is captured. -/
def Layout.capture (L : Layout) (R : Runtime) : Rows NodeRuntime :=
  L.places.map fun p => (p.text, ⟨((L.at? p).getD {}).isTask, R.status p, R.generation p, R.usage p⟩)

/-- `posixpath.dirname` of a key. -/
def dirname (t : PathText) : PathText := if t.dropLast = [""] then ["", ""] else t.dropLast

/-- A key and the keys above it up to `/`. -/
def keysUp : ℕ → PathText → List PathText
  | 0, t => [t]
  | n + 1, t => if t = ["", ""] then [t] else t :: keysUp n (dirname t)

/-- The slashes that `normpath` keeps in front: two are kept, more are one. -/
def leadingSlashes (t : PathText) : ℕ :=
  if t.isAbsolute then
    if t[1]? = some "" ∧ 3 ≤ t.length ∧ ¬ (t[2]? = some "" ∧ 4 ≤ t.length) then 2 else 1
  else 0

/-- The loop of `normpath`, the components so far being those from the last one on. -/
def normComps (rooted : Bool) : List String → List String → List String
  | comps, [] => comps.reverse
  | comps, c :: cs =>
    if c = "" ∨ c = "." then normComps rooted comps cs
    else if c ≠ ".." ∨ (rooted = false ∧ comps = []) ∨ comps.head? = some ".." then
      normComps rooted (c :: comps) cs
    else normComps rooted comps.tail cs

/-- `posixpath.normpath`. -/
def normpath (t : PathText) : PathText :=
  let n := leadingSlashes t
  let comps := normComps (n ≠ 0) [] t
  if n = 0 then (if comps = [] then ["."] else comps)
  else if comps = [] then List.replicate (n + 1) ""
  else List.replicate n "" ++ comps

section Static

variable (name : String) (definitions : Rows NodeDoc)

/-- `referenced_path`. -/
def referencedPath (owner t : PathText) : Except String PathText :=
  let path := normpath (if t.isAbsolute then t else dirname owner ++ t)
  let target := if path = ["", name] ∧ definitions.get? path = none then ["", ""] else path
  if definitions.get? target = none then .error "unresolved_reference" else .ok target

/-- The limit with a name at a key. -/
def rowLimit? (t : PathText) (limitName : String) : Option LimitDef :=
  (definitions.get? t).bind fun d => d.findLimit limitName

/-- `resolve`, up to the check of the tokens. -/
def resolvePath (owner : PathText) (i : InLimitDoc) : Except String PathText :=
  match i.nodePath with
  | none =>
    match (keysUp owner.length owner).find?
        fun t => (rowLimit? definitions t i.limitName).isSome with
    | none => .error "unresolved_reference"
    | some t => .ok t
  | some t =>
    if t.isIllegal then .error "invalid_reference"
    else do
      let target ← referencedPath name definitions owner t
      if (rowLimit? definitions target i.limitName).isNone then .error "unresolved_reference"
      else pure target

/-- `resolve`. -/
def resolve (owner : PathText) (i : InLimitDoc) : Except String (PathText × String) := do
  let target ← resolvePath name definitions owner i
  if (rowLimit? definitions target i.limitName).any fun l => l.limit < i.tokens then
    .error "invalid_reference"
  else pure (target, i.limitName)

/-- The in-limits of a row with their limits. -/
def resolveRow (x : PathText × NodeDoc) :
    Except String (PathText × List ((PathText × String) × ℕ)) := do
  let items ← x.2.inLimits.mapM fun i => do
    let k ← resolve name definitions x.1 i
    pure (k, i.tokens)
  pure (x.1, items)

/-- `resolved`. -/
def resolveAll : Except String (Rows (List ((PathText × String) × ℕ))) :=
  definitions.mapM (resolveRow name definitions)

variable (runtime : Rows NodeRuntime) (resolved : Rows (List ((PathText × String) × ℕ)))

/-- The in-limits of a task and of the rows above it up to `/`. -/
def rowItemsUp (t : PathText) : List ((PathText × String) × ℕ) :=
  (keysUp t.length t).flatMap fun u => (resolved.get? u).getD []

/-- `expected` for a limit. -/
def rowHolders (k : PathText × String) : List (PathText × ℕ) :=
  (runtime.filter fun x => x.2.isTask && x.2.status.inFlight).filterMap fun x =>
    (held (rowItemsUp resolved x.1) k).map fun tokens => (x.1, tokens)

/-- The generations of the tasks are those of their flows. -/
def RowGenerations : Prop :=
  ∀ x ∈ runtime, x.2.isTask = true →
    some x.2.generation = (runtime.get? (x.1.take 2)).map NodeRuntime.generation

instance : Decidable (RowGenerations runtime) := inferInstanceAs (Decidable (∀ x ∈ runtime, _ → _))

/-- `RuntimeLimit.model_validate`; that the paths are unique is a field of the usage. -/
def validateRuntimeLimit (l : LimitDef) (u : LimitUsage) : Except String Unit :=
  if u.value < 0 then .error "greater_than_equal"
  else if (l.limit : ℤ) < u.value then .error "invalid limit runtime"
  else .ok ()

/-- The first loop of `_validate_checkpoint_nodes`, as far as it is about limits. -/
def validateUsages : Except String Unit :=
  definitions.forM fun x => x.2.limits.forM fun l =>
    match runtime.get? x.1 with
    | some r => validateRuntimeLimit l (r.usage l.name)
    | none => .error "invalid_runtime"

/-- The part of `_validate_checkpoint_nodes` that is about the holders and values of limits. -/
def validateHolders : Except String Unit := do
  validateUsages definitions runtime
  let resolved ← resolveAll name definitions
  if ¬ RowGenerations runtime then .error "invalid_runtime"
  else if ∀ x ∈ definitions, ∀ l ∈ x.2.limits, ∀ r ∈ runtime.get? x.1,
      (r.usage l.name).Matches (rowHolders runtime resolved (x.1, l.name)) then .ok ()
  else .error "invalid_runtime"

end Static

end Takler.Occupancy
