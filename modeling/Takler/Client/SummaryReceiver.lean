import Takler.Query.Selection

/-!
# Two receivers of a snapshot

A client reads a snapshot page by page (`QueryClient.read_snapshot`). The pages are decoded and put
together in Python, or by the optional native kernel (`native/summary`). The kernel checks the nodes
of a page itself, and gives the rest of the page with one made-up node to the validators of Python;
what it does not take goes through the decoder of Python. Rows are then added one by one, with the
same checks in both.

A reply is any value with a size. The parsers are parameters; what the kernel parses, Python parses
to the same document. So are the validators of other kinds of replies, and `valid_utc`.

## Main definitions

* `readNode`, `readPage`, `decodePython`: the decoder of Python.
* `fromJson`, `prepare`, `decodeNative`: the decoder of the kernel.
* `stepPython`, `stepNative`: adding a row.
* `readSnapshot`: the loop over the pages.

## Main results

* `decodeNative_eq`, `stepNative_eq`: the parts agree.
* `readNative_eq_readPython`
-/

open CodePoints (ofString)

namespace Takler.Query.Receiver

open Json (member members orDefault listOf optionOf text? int? bool?)

variable {F R : Type}

/-! ### Models -/

/-- `SummaryNode`, and the `QueryNode` that is made of it. -/
structure SummaryNode where
  path : CodePoints
  nodeKind : CodePoints
  typeId : CodePoints
  status : CodePoints
  suspended : Bool
  attemptId : Option CodePoints
  submissionUnknown : Option Bool

def kinds : List CodePoints := ["bunch", "flow", "container", "task"].map ofString

def statuses : List CodePoints :=
  ["unknown", "queued", "submitted", "active", "complete", "aborted"].map ofString

/-- `SummaryNode.validate_node`, as a test. -/
def SummaryNode.accepts (x : SummaryNode) : Bool :=
  validPath x.path && x.nodeKind ∈ kinds && x.status ∈ statuses && x.typeId ≠ [] &&
    (x.attemptId.all fun t => x.nodeKind = ofString "task" && t ≠ []) &&
    x.submissionUnknown.all fun b => b && x.nodeKind = ofString "task" &&
      x.status = ofString "submitted" && x.attemptId.isSome

def nodeNames : List String :=
  ["path", "node_kind", "type_id", "status", "suspended", "attempt_id", "submission_unknown"]

/-- `SummaryNode.model_validate`. -/
def readNode (v : Json F) : Option SummaryNode := do
  let fs ← members nodeNames v
  let path ← (member fs "path").bind text?
  let nodeKind ← (member fs "node_kind").bind text?
  let typeId ← (member fs "type_id").bind text?
  let status ← (member fs "status").bind text?
  let suspended ← (member fs "suspended").bind bool?
  let attemptId ← orDefault none (optionOf text?) (member fs "attempt_id")
  let submissionUnknown ← orDefault none (optionOf bool?) (member fs "submission_unknown")
  let x : SummaryNode :=
    { path, nodeKind, typeId, status, suspended, attemptId, submissionUnknown }
  if x.accepts then some x else none

/-- `PageReply` without its nodes. -/
structure Header where
  sessionId : CodePoints
  queryId : CodePoints
  snapshotId : CodePoints
  baseRevision : Option ℤ
  asOf : CodePoints
  expiresAt : CodePoints
  pageIndex : ℤ
  totalNodes : Option ℤ
  complete : Bool
  nextCursor : Option CodePoints
  rootName : CodePoints
  flowGenerations : List (CodePoints × CodePoints)

/-- `"/" + path.split("/", 2)[1]`. -/
def flowOf (path : CodePoints) : CodePoints := slash :: (path.splitOn slash).getD 1 []

/-- What `PageReply.validate_page` asks of the nodes. -/
def acceptsNodes (generations : List CodePoints) (nodes : List SummaryNode) : Bool :=
  (nodes.map SummaryNode.path).Nodup ∧
    ∀ x ∈ nodes, x.path ≠ rootPath → flowOf x.path ∈ generations

/-- What it asks of the rest; `isEmpty` is whether there are no nodes. -/
def Header.accepts (h : Header) (isEmpty : Bool) : Bool :=
  (∀ t ∈ [h.sessionId, h.queryId, h.snapshotId, h.asOf, h.expiresAt], t ≠ []) ∧
    h.complete = h.nextCursor.isNone ∧
    (h.complete ∨ h.nextCursor ≠ some [] ∧ isEmpty = false) ∧
    ∀ x ∈ h.flowGenerations, validPath x.1 ∧ x.1 ≠ rootPath ∧ x.1.count slash = 1 ∧ x.2 ≠ []

def maxPageNodes : ℕ := 2048
def maxPageBytes : ℕ := 262144
def maxRevision : ℤ := 9223372036854775807

/-- An integer that passes a check. -/
def readInt (check : ℤ → Bool) (v : Json F) : Option ℤ := v.int?.filter check

def readGenerations : Json F → Option (List (CodePoints × CodePoints))
  | .obj fs => fs.mapM fun x => x.2.text?.map fun t => (x.1, t)
  | _ => none

def pageNames : List String :=
  ["kind", "schema_version", "session_id", "query_id", "snapshot_id", "base_revision", "as_of",
    "expires_at", "page_index", "total_nodes", "complete", "next_cursor", "root_name",
    "flow_generations", "nodes"]

section Decoders

variable (validUtc : CodePoints → Bool)

/-- The fields of `PageReply` besides the nodes, by the members of a document. -/
def readHeader (get : String → Option (Json F)) : Option Header := do
  let kind ← (get "kind").bind text?
  let version ← (get "schema_version").bind int?
  let sessionId ← (get "session_id").bind text?
  let queryId ← (get "query_id").bind text?
  let snapshotId ← (get "snapshot_id").bind text?
  let baseRevision ← orDefault none (optionOf (readInt fun n => 1 ≤ n ∧ n ≤ maxRevision))
    (get "base_revision")
  let asOf ← (get "as_of").bind text?
  let expiresAt ← (get "expires_at").bind text?
  let pageIndex ← (get "page_index").bind (readInt fun n => 0 ≤ n)
  let totalNodes ← orDefault none (optionOf (readInt fun n => 0 ≤ n)) (get "total_nodes")
  let complete ← (get "complete").bind bool?
  let nextCursor ← (get "next_cursor").bind (optionOf text?)
  let rootName ← (get "root_name").bind text?
  let flowGenerations ← (get "flow_generations").bind readGenerations
  if kind = ofString "page" ∧ version = 1 ∧ validUtc asOf ∧ validUtc expiresAt then
    some { sessionId, queryId, snapshotId, baseRevision, asOf, expiresAt, pageIndex, totalNodes,
           complete, nextCursor, rootName, flowGenerations }
  else none

/-- `PageReply.model_validate`. -/
def readPage (v : Json F) : Option (Header × List SummaryNode) := do
  let fs ← members pageNames v
  let h ← readHeader validUtc (member fs)
  let nodes ← (member fs "nodes").bind (listOf readNode)
  if nodes.length ≤ maxPageNodes ∧ h.accepts nodes.isEmpty ∧
      acceptsNodes (h.flowGenerations.map Prod.fst) nodes then
    some (h, nodes)
  else none

/-- What a decoder gives: a page with its nodes, a failure, or another reply. -/
inductive Received
  | page (h : Header) (nodes : List SummaryNode)
  | failure (code message : CodePoints)
  | other

variable (size : R → ℕ)
  -- the two parsers, and the models of the other kinds of replies
  (strictJson nativeJson : R → Option (Json F)) (readOther : Json F → Option Received)

/-- `decode_query_document`. -/
def decodePython (raw : R) : Option Received := do
  if maxPageBytes < size raw then none
  else
    let v ← strictJson raw
    let kind ← (v.get? (ofString "kind")).bind text?
    if kind = ofString "page" then (readPage validUtc v).map fun p => .page p.1 p.2
    else readOther v

/-! ### The kernel -/

/-- `path_valid`. -/
def pathValid (p : CodePoints) : Bool :=
  p = rootPath || (p.head? = some slash && !(p.getLast? = some slash) &&
    (p.tail.splitOn slash).all fun s =>
      !s.isEmpty && s ≠ ofString "." && s ≠ ofString ".." && !s.any fun c => c.val ≤ 0x1f)

def optionalString : Option (Json F) → Option (Option CodePoints)
  | none | some .null => some none
  | some (.str t) => some (some t)
  | _ => none

def optionalBool : Option (Json F) → Option (Option Bool)
  | none | some .null => some none
  | some (.bool b) => some (some b)
  | _ => none

/-- The last test of `Node::from_json`. -/
def SummaryNode.refused (x : SummaryNode) : Bool :=
  !pathValid x.path || x.nodeKind ∉ kinds || x.status ∉ statuses || x.typeId.isEmpty ||
    (x.attemptId.any fun t => x.nodeKind ≠ ofString "task" || t.isEmpty) ||
    x.submissionUnknown.any fun b => !b || x.nodeKind ≠ ofString "task" ||
      x.status ≠ ofString "submitted" || x.attemptId.isNone

/-- `Node::from_json`. Nothing stands for a fallback. -/
def fromJson : Json F → Option SummaryNode
  | .obj m =>
    if m.any fun x => nodeNames.all fun k => ofString k ≠ x.1 then none
    else do
      let path ← (member m "path").bind text?
      let nodeKind ← (member m "node_kind").bind text?
      let typeId ← (member m "type_id").bind text?
      let status ← (member m "status").bind text?
      let suspended ← (member m "suspended").bind bool?
      let attemptId ← optionalString (member m "attempt_id")
      let submissionUnknown ← optionalBool (member m "submission_unknown")
      let x : SummaryNode :=
        { path, nodeKind, typeId, status, suspended, attemptId, submissionUnknown }
      if x.refused then none else some x
  | _ => none

/-- The loop of `prepare` over the nodes. -/
def collect (generations : List CodePoints) :
    List (Json F) → List SummaryNode → Option (List SummaryNode)
  | [], pending => some pending
  | v :: vs, pending => do
    let n ← fromJson v
    if n.path ∈ pending.map SummaryNode.path then none
    else if n.path ≠ rootPath ∧ flowOf n.path ∉ generations then none
    else collect generations vs (pending ++ [n])

/-- The made-up node. -/
def witness : Json F :=
  .obj [("path", .str "/"), ("node_kind", .str "bunch"), ("type_id", .str "header-witness"),
    ("status", .str "unknown"), ("suspended", .bool false)]

/-- `prepare`: the nodes, and the document for the validators of Python. -/
def prepare : Json F → Option (List SummaryNode × Json F)
  | .obj header => do
    let kind ← (member header "kind").bind text?
    if kind ≠ ofString "page" then none
    else match member header "nodes", member header "flow_generations" with
      | some (.arr vals), some (.obj generations) =>
        if maxPageNodes < vals.length then none
        else do
          let pending ← collect (generations.map Prod.fst) vals []
          let nodes := if pending.isEmpty then [] else [witness]
          some (pending, .obj (header.filter (fun x => x.1 ≠ ofString "nodes") ++
            [(ofString "nodes", .arr nodes)]))
      | _, _ => none
  | _ => none

/-- `_Receiver.decode`. -/
def decodeNative (raw : R) : Option Received :=
  let prepared := if maxPageBytes < size raw then none else (nativeJson raw).bind prepare
  let page := prepared.bind fun x => (readPage validUtc x.2).map fun p => .page p.1 x.1
  page.or (decodePython validUtc size strictJson readOther raw)

end Decoders

/-! ### The view -/

/-- `ServerResponseError`, or `QueryResponseError` with its code. -/
inductive Failure
  | server (message : String)
  | query (code message : CodePoints)

/-- The rows so far, in a dictionary and in their order, and the estimated bytes. -/
structure View where
  nodes : OrderedDict CodePoints SummaryNode := .empty
  order : List CodePoints := []
  size : ℕ := 1024

/-- What a row adds to the estimate. -/
def SummaryNode.bytes (x : SummaryNode) : ℕ :=
  512 + ([x.path, x.nodeKind, x.typeId, x.status, x.attemptId.getD []].map
    fun t => (CodePoints.encode t).length).sum

/-- `path.rsplit("/", 1)[0] or "/"`. -/
def parentOf (path : CodePoints) : CodePoints :=
  if slash ∉ path then path
  else match (path.rdropWhile fun c => c ≠ slash).dropLast with
    | [] => rootPath
    | parent => parent

def maxClientViewBytes : ℕ := 128 * 1024 * 1024

def View.add (s : View) (x : SummaryNode) : View :=
  { nodes := s.nodes.set x.path x, order := s.order ++ [x.path], size := s.size + x.bytes }

section Steps

variable (oldSize : ℕ) (depth : Option ℕ) (scope : CodePoints)

/-- The start of the paths below the scope. -/
def scopePrefix : CodePoints := scope.rdropWhile (fun c => c = slash) ++ [slash]

def budgetFailure : Failure := .query "resource_exhausted" "query view memory budget exceeded"

/-- One round of the loop of `read_snapshot` over the nodes of a page. -/
def stepPython (s : View) (x : SummaryNode) : Except Failure View :=
  if x.path ∈ s.nodes.keys then .error (.server "duplicate query node")
  else if x.path ≠ scope ∧ ¬ scopePrefix scope <+: x.path then
    .error (.server "query node outside requested scope")
  else if depth.any fun d : ℕ => (d : ℤ) < pathDepth x.path - pathDepth scope then
    .error (.server "query node outside requested depth")
  else if x.path ≠ scope ∧ parentOf x.path ∉ s.nodes.keys then
    .error (.server "query parent is missing")
  else if maxClientViewBytes < oldSize + (s.add x).size then .error budgetFailure
  else .ok (s.add x)

/-- The depth of a path, as an unsigned number. -/
def slashes (path : CodePoints) : ℕ := if path = rootPath then 0 else path.count slash

/-- A difference of unsigned numbers wraps around. -/
def wrappingSub (m n : ℕ) : ℕ := if n ≤ m then m - n else 2 ^ 64 - (n - m)

/-- One round of `append`. -/
def stepNative (s : View) (x : SummaryNode) : Except Failure View :=
  if x.path ∈ s.nodes.keys then .error (.server "duplicate query node")
  else if x.path ≠ scope ∧ ¬ scopePrefix scope <+: x.path then
    .error (.server "query node outside requested scope")
  else if depth.any fun d => d < wrappingSub (slashes x.path) (slashes scope) then
    .error (.server "query node outside requested depth")
  else if x.path ≠ scope ∧ parentOf x.path ∉ s.nodes.keys then
    .error (.server "query parent is missing")
  else if maxClientViewBytes < min (s.size + x.bytes + oldSize) (2 ^ 64 - 1) then
    .error budgetFailure
  else .ok (s.add x)

end Steps

/-! ### The loop over the pages -/

/-- What has to be the same on all pages. -/
structure Identity where
  sessionId : CodePoints
  queryId : CodePoints
  snapshotId : CodePoints
  baseRevision : Option ℤ
  asOf : CodePoints
  expiresAt : CodePoints
  rootName : CodePoints
deriving DecidableEq

def Header.identity (h : Header) : Identity :=
  ⟨h.sessionId, h.queryId, h.snapshotId, h.baseRevision, h.asOf, h.expiresAt, h.rootName⟩

/-- The variables of `read_snapshot`. -/
structure Progress where
  view : View := {}
  generations : OrderedDict CodePoints CodePoints := .empty
  identity : Option Identity := none
  expectedTotal : Option ℤ := none

def addGeneration (generations : OrderedDict CodePoints CodePoints) (x : CodePoints × CodePoints) :
    Except Failure (OrderedDict CodePoints CodePoints) :=
  match generations.get? x.1 with
  | none => .ok (generations.set x.1 x.2)
  | some earlier =>
    if earlier ≠ x.2 then .error (.server "query flow identity changed") else .ok generations

/-- What is done with a page, given the step for its nodes. -/
def receive (step : View → SummaryNode → Except Failure View) (index : ℕ) (h : Header)
    (nodes : List SummaryNode) (s : Progress) : Except Failure Progress := do
  if h.pageIndex ≠ index then throw (.server "query page order changed")
  if s.identity.any fun i => i ≠ h.identity then throw (.server "query snapshot identity changed")
  if h.totalNodes.any fun n => s.expectedTotal.any fun m => n ≠ m then
    throw (.server "query node count changed")
  let generations ← h.flowGenerations.foldlM addGeneration s.generations
  let view ← nodes.foldlM step s.view
  return { view, generations, identity := some h.identity,
           expectedTotal := s.expectedTotal.or h.totalNodes }

/-- How reading ends: with a snapshot, with an error at a page, before the first request, or not
yet. -/
inductive Outcome
  | snapshot (s : Progress)
  | failed (page : ℕ) (e : Failure)
  | invalidRequest
  | waiting

/-- The checks after the last page. -/
def finish (scope : CodePoints) (index : ℕ) (s : Progress) : Outcome :=
  if s.view.order.head? ≠ some scope then .failed index (.server "query scope root is missing")
  else if s.expectedTotal.any fun n => n ≠ (s.view.order.length : ℤ) then
    .failed index (.server "query node count mismatch")
  else .snapshot s

/-- The loop, over the replies that come. -/
def readPages (decode : R → Option Received) (step : View → SummaryNode → Except Failure View)
    (scope : CodePoints) : ℕ → Progress → List R → Outcome
  | _, _, [] => .waiting
  | index, s, raw :: replies =>
    match decode raw with
    | none => .failed index (.server "invalid query response")
    | some (.failure code message) => .failed index (.query code message)
    | some .other => .failed index (.server "invalid query page response")
    | some (.page h nodes) =>
      match receive step index h nodes s with
      | .error e => .failed index e
      | .ok s => if h.complete then finish scope index s
        else readPages decode step scope (index + 1) s replies

/-- The scope of a `PageRequest` that is valid. -/
def requestScope : Option CodePoints → Option CodePoints → Option CodePoints
  | none, none => some rootPath
  | some path, none => if validPath path then some path else none
  | none, some name =>
    if name ≠ [] ∧ (name.all fun c => c ≠ slash ∧ 0x1f < c.val) ∧ name ≠ ofString "." ∧
        name ≠ ofString ".." then some (slash :: name)
    else none
  | some _, some _ => none

/-- `read_snapshot` with a decoder and a step. -/
def readSnapshot (decode : R → Option Received)
    (step : CodePoints → View → SummaryNode → Except Failure View)
    (scopePath flowName : Option CodePoints) (replies : List R) : Outcome :=
  match requestScope scopePath flowName with
  | none => .invalidRequest
  | some scope => readPages decode (step scope) scope 0 {} replies

/-! ### The decoders agree -/

theorem pathValid_eq (p : CodePoints) : pathValid p = validPath p := by
  rw [Bool.eq_iff_iff, pathValid, validPath]
  simp [and_assoc]

theorem refused_eq (x : SummaryNode) : x.refused = !x.accepts := by
  have hempty (t : CodePoints) : t.isEmpty = decide (t = []) := by cases t <;> rfl
  rw [SummaryNode.refused, SummaryNode.accepts, pathValid_eq]
  cases x.attemptId <;> cases x.submissionUnknown <;> simp [Bool.not_and, hempty]

theorem optionalString_eq (v : Option (Json F)) :
    optionalString v = orDefault none (optionOf text?) v := by
  rcases v with _ | v
  · rfl
  · cases v <;> rfl

theorem optionalBool_eq (v : Option (Json F)) :
    optionalBool v = orDefault none (optionOf bool?) v := by
  rcases v with _ | v
  · rfl
  · cases v <;> rfl

theorem fromJson_eq (v : Json F) : fromJson v = readNode v := by
  cases v with
  | obj m =>
    have hnames : (m.any fun x => nodeNames.all fun k => ofString k ≠ x.1) =
        !(m.all fun x => nodeNames.any fun k => ofString k = x.1) := by
      simp [List.any_eq_not_all_not]
    rw [fromJson, readNode, members, hnames]
    cases m.all fun x => nodeNames.any fun k => ofString k = x.1 with
    | false => rfl
    | true =>
      have hif (x : SummaryNode) :
          (if x.refused = true then none else some x) = if x.accepts = true then some x else none := by
        rw [refused_eq]
        cases x.accepts <;> rfl
      simp only [optionalString_eq, optionalBool_eq, hif]
      rfl
  | _ => rfl

/-- What the loop over the nodes has checked. -/
theorem collect_eq_some {generations : List CodePoints} : ∀ {vs : List (Json F)}
    {pending out : List SummaryNode}, collect generations vs pending = some out →
      acceptsNodes generations pending = true →
      ∃ nodes, vs.mapM readNode = some nodes ∧ out = pending ++ nodes ∧
        acceptsNodes generations out = true
  | [], pending, out, h, hpending =>
    ⟨[], rfl, by rw [List.append_nil, Option.some.inj h], Option.some.inj h ▸ hpending⟩
  | v :: vs, pending, out, h, hpending => by
    obtain ⟨n, hn, h⟩ := Option.bind_eq_some_iff.mp h
    split_ifs at h with hpath hflow
    have hnext : acceptsNodes generations (pending ++ [n]) = true := by
      simp only [acceptsNodes, decide_eq_true_eq] at hpending ⊢
      refine ⟨?_, fun x hx => ?_⟩
      · rw [List.map_append]
        exact hpending.1.append (List.nodup_singleton _)
          (List.disjoint_singleton.mpr hpath)
      · rcases List.mem_append.mp hx with hx | hx
        · exact hpending.2 x hx
        · rw [List.mem_singleton.mp hx]
          exact fun hne => not_not.mp fun hnot => hflow ⟨hne, hnot⟩
    obtain ⟨nodes, hnodes, rfl, hout⟩ := collect_eq_some h hnext
    refine ⟨n :: nodes, ?_, by rw [List.append_assoc, List.singleton_append], hout⟩
    rw [List.mapM_cons, ← fromJson_eq, hn, hnodes]
    rfl

/-- The document for the validators has the other members. -/
theorem member_replaced (fs : List (CodePoints × Json F)) (v : Json F) {name : String}
    (h : name ≠ "nodes") :
    member (fs.filter (fun x => x.1 ≠ ofString "nodes") ++ [(ofString "nodes", v)]) name =
      member fs name := by
  have hfilter : member (fs.filter fun x => x.1 ≠ ofString "nodes") name = member fs name := by
    rw [member, member, List.find?_filter]
    refine congrArg _ (congrArg (fs.find? ·) (funext fun x => ?_))
    by_cases hx : x.1 = ofString name
    · simp [hx, CodePoints.ofString_injective.ne h]
    · simp [hx]
  rw [Json.member_append, hfilter, Json.member_cons, if_neg (Ne.symm h), Json.member_nil,
    Option.or_none]

theorem member_nodes_replaced (fs : List (CodePoints × Json F)) (v : Json F) :
    member (fs.filter (fun x => x.1 ≠ ofString "nodes") ++ [(ofString "nodes", v)]) "nodes" =
      some v := by
  have hfilter : member (fs.filter fun x => x.1 ≠ ofString "nodes") "nodes" = none := by
    rw [member, List.find?_filter, Option.map_eq_none_iff, List.find?_eq_none]
    intro x _
    simp
  rw [Json.member_append, hfilter, Json.member_cons, if_pos rfl, Option.none_or]

theorem readHeader_congr {validUtc : CodePoints → Bool} {get get' : String → Option (Json F)}
    (h : ∀ name, name ≠ "nodes" → get name = get' name) :
    readHeader validUtc get = readHeader validUtc get' := by
  simp only [readHeader, h "kind" (by decide), h "schema_version" (by decide),
    h "session_id" (by decide), h "query_id" (by decide), h "snapshot_id" (by decide),
    h "base_revision" (by decide), h "as_of" (by decide), h "expires_at" (by decide),
    h "page_index" (by decide), h "total_nodes" (by decide), h "complete" (by decide),
    h "next_cursor" (by decide), h "root_name" (by decide), h "flow_generations" (by decide)]

theorem keys_readGenerations {gs : List (CodePoints × Json F)} {l : List (CodePoints × CodePoints)}
    (h : readGenerations (.obj gs) = some l) : l.map Prod.fst = gs.map Prod.fst := by
  rw [readGenerations] at h
  induction gs generalizing l with
  | nil =>
    rw [List.mapM_nil] at h
    rw [← Option.some.inj h]
    rfl
  | cons x gs ih =>
    rw [List.mapM_cons] at h
    obtain ⟨y, hy, h⟩ := Option.bind_eq_some_iff.mp h
    obtain ⟨ys, hys, h⟩ := Option.bind_eq_some_iff.mp h
    obtain ⟨t, -, rfl⟩ := Option.map_eq_some_iff.mp hy
    rw [← Option.some.inj h, List.map_cons, List.map_cons, ih hys]

theorem generations_of_readHeader {validUtc : CodePoints → Bool} {get : String → Option (Json F)}
    {h : Header} (hh : readHeader validUtc get = some h) {gs : List (CodePoints × Json F)}
    (hgs : get "flow_generations" = some (.obj gs)) :
    h.flowGenerations.map Prod.fst = gs.map Prod.fst := by
  rw [readHeader] at hh
  iterate 13 obtain ⟨_, -, hh⟩ := Option.bind_eq_some_iff.mp hh
  obtain ⟨l, hl, hh⟩ := Option.bind_eq_some_iff.mp hh
  rw [hgs, Option.bind_some] at hl
  split_ifs at hh
  rw [← Option.some.inj hh]
  exact keys_readGenerations hl

theorem members_of_replaced {fs : List (CodePoints × Json F)} {v : Json F}
    {fs' : List (CodePoints × Json F)} (h : members pageNames (.obj
      (fs.filter (fun x => x.1 ≠ ofString "nodes") ++ [(ofString "nodes", v)])) = some fs') :
    fs' = fs.filter (fun x => x.1 ≠ ofString "nodes") ++ [(ofString "nodes", v)] ∧
      members pageNames (.obj fs) = some fs := by
  rw [members] at h
  split_ifs at h with hall
  refine ⟨(Option.some.inj h).symm, if_pos (List.all_eq_true.mpr fun x hx => ?_)⟩
  by_cases hnodes : x.1 = ofString "nodes"
  · exact List.any_eq_true.mpr ⟨"nodes", by simp [pageNames], decide_eq_true hnodes.symm⟩
  · exact List.all_eq_true.mp hall x (List.mem_append_left _ (List.mem_filter.mpr
      ⟨hx, decide_eq_true hnodes⟩))

/-- The made-up node stands for the nodes when there are some. -/
theorem isEmpty_of_witness {pending shown : List SummaryNode}
    (h : listOf readNode (.arr (if pending.isEmpty then [] else [witness]) : Json F) = some shown) :
    shown.isEmpty = pending.isEmpty := by
  have hlength := Json.length_of_mapM h
  cases pending with
  | nil => rw [List.length_eq_zero_iff.mp hlength]
  | cons n pending =>
    obtain ⟨x, rfl⟩ := List.length_eq_one_iff.mp hlength
    rfl

/-- What the kernel takes, Python takes with the same nodes. -/
theorem readPage_of_prepare {validUtc : CodePoints → Bool} {v header : Json F}
    {pending : List SummaryNode} {p : Header × List SummaryNode}
    (h : prepare v = some (pending, header)) (hp : readPage validUtc header = some p) :
    readPage validUtc v = some (p.1, pending) := by
  cases v with
  | obj fs =>
    obtain ⟨kind, -, h⟩ := Option.bind_eq_some_iff.mp h
    split_ifs at h
    split at h
    · next vals gs hvals hgs =>
      split_ifs at h with hlength
      obtain ⟨found, hfound, h⟩ := Option.bind_eq_some_iff.mp h
      obtain ⟨rfl, rfl⟩ := Prod.mk.inj (Option.some.inj h)
      obtain ⟨nodes, hnodes, rfl, haccepts⟩ := collect_eq_some hfound rfl
      rw [readPage] at hp ⊢
      obtain ⟨fs', hfs, hp⟩ := Option.bind_eq_some_iff.mp hp
      obtain ⟨h, hh, hp⟩ := Option.bind_eq_some_iff.mp hp
      obtain ⟨shown, hshown, hp⟩ := Option.bind_eq_some_iff.mp hp
      split_ifs at hp with hvalid
      obtain rfl := Option.some.inj hp
      obtain ⟨rfl, hmembers⟩ := members_of_replaced hfs
      rw [readHeader_congr fun name hname => member_replaced fs _ hname] at hh
      rw [member_nodes_replaced, Option.bind_some] at hshown
      have hempty := isEmpty_of_witness hshown
      have hread : (member fs "nodes").bind (listOf readNode) = some found := by
        rw [hvals]
        exact hnodes
      rw [hmembers, Option.bind_eq_bind, Option.bind_some, hh, Option.bind_eq_bind,
        Option.bind_some, hread]
      refine if_pos ⟨?_, hempty ▸ hvalid.2.1, generations_of_readHeader hh hgs ▸ haccepts⟩
      rw [Json.length_of_mapM hnodes]
      exact not_lt.mp hlength
    · exact nomatch h
  | _ => exact nomatch h

theorem kind_of_prepare {v : Json F} {x : List SummaryNode × Json F} (h : prepare v = some x) :
    (v.get? (ofString "kind")).bind text? = some (ofString "page") := by
  cases v with
  | obj fs =>
    obtain ⟨kind, hkind, h⟩ := Option.bind_eq_some_iff.mp h
    split_ifs at h with hpage
    rw [← not_not.mp hpage]
    exact hkind
  | _ => exact nomatch h

section Loop

variable {validUtc : CodePoints → Bool} {size : R → ℕ} {strictJson nativeJson : R → Option (Json F)}
  {readOther : Json F → Option Received}

/-- The decoders agree, when the parsers do. -/
theorem decodeNative_eq (hparsers : ∀ raw v, nativeJson raw = some v → strictJson raw = some v)
    (raw : R) : decodeNative validUtc size strictJson nativeJson readOther raw =
      decodePython validUtc size strictJson readOther raw := by
  rw [decodeNative]
  cases hpage : ((if maxPageBytes < size raw then none else (nativeJson raw).bind prepare).bind
      fun x => (readPage validUtc x.2).map fun p => Received.page p.1 x.1) with
  | none => rfl
  | some reply =>
    obtain ⟨⟨pending, header⟩, hprepared, hreply⟩ := Option.bind_eq_some_iff.mp hpage
    split_ifs at hprepared with hsize
    obtain ⟨v, hv, hprepare⟩ := Option.bind_eq_some_iff.mp hprepared
    obtain ⟨p, hp, rfl⟩ := Option.map_eq_some_iff.mp hreply
    rw [Option.some_or, decodePython, if_neg hsize, hparsers raw v hv, Option.bind_eq_bind,
      Option.bind_some, kind_of_prepare hprepare, Option.bind_eq_bind, Option.bind_some, if_pos rfl,
      readPage_of_prepare hprepare hp]
    rfl

theorem validPath_of_requestScope {scopePath flowName : Option CodePoints} {scope : CodePoints}
    (h : requestScope scopePath flowName = some scope) : validPath scope = true := by
  unfold requestScope at h
  split at h
  · rw [← Option.some.inj h]
    rfl
  · split_ifs at h with hvalid
    exact Option.some.inj h ▸ hvalid
  · next name =>
    split_ifs at h with hvalid
    obtain ⟨hne, hchars, hdot, hdots⟩ := hvalid
    replace hchars : ∀ c ∈ name, c ≠ slash ∧ 0x1f < c.val := by simpa using hchars
    rw [← Option.some.inj h]
    refine validPath_cons (fun c hc => (hchars c hc).1) ⟨hne, hdot, hdots, ?_⟩
    exact List.all_eq_true.mpr fun c hc => decide_eq_true (hchars c hc).2
  · exact nomatch h

/-- A path in the scope is not above it. -/
theorem slashes_le {scope path : CodePoints} (hscope : validPath scope = true)
    (h : ¬ (path ≠ scope ∧ ¬ scopePrefix scope <+: path)) : slashes scope ≤ slashes path := by
  by_cases hroot : scope = rootPath
  · rw [slashes, if_pos hroot]
    exact Nat.zero_le _
  by_cases hpath : path = scope
  · rw [hpath]
  have hprefix : scopePrefix scope <+: path := not_not.mp fun hnot => h ⟨hpath, hnot⟩
  obtain ⟨hhead, hlast, -⟩ := (of_decide_eq_true hscope).resolve_left hroot
  have hself : scope.rdropWhile (fun c => c = slash) = scope :=
    List.rdropWhile_eq_self_iff.mpr fun hne hc => hlast (by
      rw [List.getLast?_eq_some_getLast hne, of_decide_eq_true hc])
  rw [scopePrefix, hself] at hprefix
  have hne : path ≠ rootPath := by
    rintro rfl
    have hlength := hprefix.length_le
    rw [List.length_append] at hlength
    have : scope.length = 0 := by
      change scope.length + 1 ≤ 1 at hlength
      omega
    rw [List.length_eq_zero_iff.mp this] at hhead
    exact nomatch hhead
  have hcount := hprefix.sublist.count_le slash
  rw [List.count_append] at hcount
  rw [slashes, slashes, if_neg hroot, if_neg hne]
  omega

theorem pathDepth_eq_slashes (path : CodePoints) : pathDepth path = slashes path := by
  rw [pathDepth, slashes]
  split_ifs <;> rfl

theorem stepNative_eq {oldSize : ℕ} {depth : Option ℕ} {scope : CodePoints}
    (hscope : validPath scope = true) :
    stepNative oldSize depth scope = stepPython oldSize depth scope := by
  funext s x
  rw [stepNative, stepPython]
  refine if_congr Iff.rfl rfl ?_
  by_cases hscoped : x.path ≠ scope ∧ ¬ scopePrefix scope <+: x.path
  · rw [if_pos hscoped, if_pos hscoped]
  have hle := slashes_le hscope hscoped
  have hdepth : (depth.any fun d => decide (d < wrappingSub (slashes x.path) (slashes scope))) =
      depth.any fun d : ℕ => decide ((d : ℤ) < pathDepth x.path - pathDepth scope) := by
    refine congrArg (fun test => depth.any test) (funext fun d => decide_eq_decide.mpr ?_)
    rw [wrappingSub, if_pos hle, pathDepth_eq_slashes, pathDepth_eq_slashes]
    omega
  have hbudget : maxClientViewBytes < min (s.size + x.bytes + oldSize) (2 ^ 64 - 1) ↔
      maxClientViewBytes < oldSize + (s.add x).size := by
    change _ ↔ maxClientViewBytes < oldSize + (s.size + x.bytes)
    unfold maxClientViewBytes
    omega
  rw [if_neg hscoped, if_neg hscoped, hdepth]
  exact if_congr Iff.rfl rfl (if_congr Iff.rfl rfl (if_congr hbudget rfl rfl))

/-- The native receiver and the receiver in Python give the same snapshot, or fail at the same page
with the same error. -/
theorem readNative_eq_readPython
    (hparsers : ∀ raw v, nativeJson raw = some v → strictJson raw = some v) (oldSize : ℕ)
    (depth : Option ℕ) (scopePath flowName : Option CodePoints) (replies : List R) :
    readSnapshot (decodeNative validUtc size strictJson nativeJson readOther)
        (stepNative oldSize depth) scopePath flowName replies =
      readSnapshot (decodePython validUtc size strictJson readOther) (stepPython oldSize depth)
        scopePath flowName replies := by
  have hdecode : decodeNative validUtc size strictJson nativeJson readOther =
      decodePython validUtc size strictJson readOther := funext (decodeNative_eq hparsers)
  rw [readSnapshot, readSnapshot, hdecode]
  cases hscope : requestScope scopePath flowName with
  | none => rfl
  | some scope =>
    change readPages _ (stepNative oldSize depth scope) _ _ _ _ = _
    rw [stepNative_eq (validPath_of_requestScope hscope)]

/-- A page of a snapshot, with one node. -/
def samplePage (index : ℤ) (cursor : Option String) (node : Json Unit) : Json Unit :=
  .obj [("kind", .str "page"), ("schema_version", .int 1), ("session_id", .str "s"),
    ("query_id", .str "q"), ("snapshot_id", .str "v"), ("as_of", .str "t"),
    ("expires_at", .str "t"), ("page_index", .int index), ("complete", .bool cursor.isNone),
    ("next_cursor", cursor.elim .null fun c => .str (ofString c)), ("root_name", .str ""),
    ("flow_generations", .obj [("/f", .str "g")]), ("nodes", .arr [node])]

/-- Two pages: a flow and then its task, which is active. -/
def samplePages : List (Json Unit) :=
  [samplePage 0 (some "c") (.obj [("path", .str "/f"), ("node_kind", .str "flow"),
      ("type_id", .str "takler.flow"), ("status", .str "active"), ("suspended", .bool false)]),
    samplePage 1 none (.obj [("path", .str "/f/t"), ("node_kind", .str "task"),
      ("type_id", .str "takler.task"), ("status", .str "active"), ("suspended", .bool false),
      ("attempt_id", .str "a")])]

/-- The header of a page of the snapshot. -/
def sampleHeader (index : ℤ) (cursor : Option String) : Header where
  sessionId := "s"
  queryId := "q"
  snapshotId := "v"
  baseRevision := none
  asOf := "t"
  expiresAt := "t"
  pageIndex := index
  totalNodes := none
  complete := cursor.isNone
  nextCursor := cursor.map ofString
  rootName := ""
  flowGenerations := [("/f", "g")]

def sampleFlow : SummaryNode := ⟨"/f", "flow", "takler.flow", "active", false, none, none⟩

def sampleTask : SummaryNode := ⟨"/f/t", "task", "takler.task", "active", false, some "a", none⟩

theorem decodeNative_samplePages :
    samplePages.map (decodeNative (fun _ => true) (fun _ => 0) some some fun _ => none) =
      [some (.page (sampleHeader 0 (some "c")) [sampleFlow]),
        some (.page (sampleHeader 1 none) [sampleTask])] :=
  rfl

/-- The loop goes by what the replies are decoded to. -/
theorem readPages_map (decode : R → Option Received)
    (step : View → SummaryNode → Except Failure View) (scope : CodePoints) (index : ℕ)
    (s : Progress) (replies : List R) :
    readPages decode step scope index s replies =
      readPages id step scope index s (replies.map decode) := by
  induction replies generalizing index s with
  | nil => rfl
  | cons raw replies ih =>
    rw [List.map_cons, readPages, readPages, id]
    simp only [ih]

/-- The snapshot that was read, if there is one. -/
def Outcome.snapshot? : Outcome → Option Progress
  | .snapshot s => some s
  | _ => none

/-- Both receivers read the flow and its task from the two pages, in this order. -/
theorem readNative_samplePages :
    readSnapshot (decodeNative (fun _ => true) (fun _ => 0) some some fun _ => none)
        (stepNative 0 none) none (some "f") samplePages =
      readSnapshot (decodePython (fun _ => true) (fun _ => 0) some fun _ => none)
        (stepPython 0 none) none (some "f") samplePages ∧
    (readSnapshot (decodeNative (fun _ => true) (fun _ => 0) some some fun _ => none)
        (stepNative 0 none) none (some "f") samplePages).snapshot?.map (fun s =>
          (s.view.order, s.view.nodes.entries.map fun x => x.2.status, s.generations.entries)) =
      some ([ofString "/f", ofString "/f/t"], [ofString "active", ofString "active"],
        [(ofString "/f", ofString "g")]) := by
  refine ⟨readNative_eq_readPython (fun _ _ h => h) 0 none none (some "f") samplePages, ?_⟩
  have hscope : requestScope none (some (ofString "f")) = some (ofString "/f") := by decide
  rw [readSnapshot, hscope]
  dsimp only
  rw [readPages_map, decodeNative_samplePages]
  decide +kernel

end Loop

end Takler.Query.Receiver
