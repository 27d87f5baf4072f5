import Takler.Lib.JsonSize
import Takler.Query.Selection

/-!
# The pages of a summary snapshot

`QueryService._capture` (`server/query_service.py`) walks over a scope of a fixed version and packs
the summaries into pages. A page ends when the next node would take its estimated size beyond a
target; the estimate counts the bytes of the rows and of the generations of their flows, and 1200
bytes for everything else. The size of the encoded page is checked afterwards.

The rows of a version are encoded and valid already. The identities of a view, its times and its
cursors come from the service.

## Main definitions

* `PageView`: what belongs to a page besides its nodes.
* `page`: the bytes of a page.
* `Packing.flush`, `Packing.push`, `capture`: the loop of `_capture`.
-/

open CodePoints (ofString encode byteLength)

namespace Takler.Query

open Version

variable {F : Type}

def maxPageNodes : ℕ := 2048
def maxPageBytes : ℕ := 262144
def pageTargetBytes : ℕ := 230000

/-! ### Pages -/

/-- What the pages of a snapshot have in common, and their cursors. -/
structure PageView where
  sessionId : CodePoints
  queryId : CodePoints
  snapshotId : CodePoints
  cursor : ℕ → CodePoints
  baseRevision : ℕ
  asOf : CodePoints
  expiresAt : CodePoints

abbrev Generations := OrderedDict CodePoints CodePoints

/-- The fields of a page up to its generations. -/
def PageView.fields (view : PageView) (root : CodePoints) (index : ℕ) (complete : Bool) :
    List (CodePoints × Json F) :=
  [("query_id", .str view.queryId), ("snapshot_id", .str view.snapshotId),
    ("next_cursor", if complete then .null else .str (view.cursor (index + 1))),
    ("kind", .str "page"), ("schema_version", .int 1), ("session_id", .str view.sessionId),
    ("base_revision", .int view.baseRevision), ("as_of", .str view.asOf),
    ("expires_at", .str view.expiresAt), ("page_index", .int index), ("total_nodes", .null),
    ("complete", .bool complete), ("root_name", .str root)]

/-- The generations of a page. -/
def generationFields (generations : Generations) : List (CodePoints × Json F) :=
  generations.entries.map fun x => (x.1, .str x.2)

/-- The header of a page: a page without nodes. -/
def header (view : PageView) (root : CodePoints) (index : ℕ) (complete : Bool)
    (generations : Generations) : Json F :=
  .obj (view.fields root index complete ++
    [(ofString "flow_generations", .obj (generationFields generations)),
      (ofString "nodes", .arr [])])

/-- The bytes of a page: the header with the rows put in. -/
def page (R : Json.FloatText F) (view : PageView) (root : CodePoints) (index : ℕ) (complete : Bool)
    (generations : Generations) (nodes : List Item) : List UInt8 :=
  let bytes := encode ((header view root index complete generations).render R)
  bytes.take (bytes.length - 2) ++
    (encode (ofString ",")).intercalate (nodes.map fun x => encode x.row) ++
    encode (ofString "]\x7d")

/-- `PageReply.validate_page`, as a test. The rows and the fields of the view are valid. -/
def acceptsPage (complete : Bool) (generations : Generations) (nodes : List Item) : Bool :=
  nodes.length ≤ maxPageNodes ∧ (complete ∨ nodes ≠ []) ∧ (nodes.map Item.path).Nodup ∧
    (∀ x ∈ generations.entries, validPath x.1 ∧ x.1 ≠ rootPath ∧ x.1.count slash = 1 ∧ x.2 ≠ []) ∧
    ∀ x ∈ nodes, ∀ flow ∈ (flowPath x.path).toList, flow ∈ generations.keys

/-! ### Packing -/

/-- The variables of `_capture`. -/
structure Packing where
  pages : List (List UInt8) := []
  nodes : List Item := []
  generations : Generations := .empty
  estimated : ℕ := 1200
  totalSize : ℕ := 0
  pageIndex : ℕ := 0

section Loop

variable (R : Json.FloatText F) (view : PageView) (root : CodePoints) (budget : ℕ)

namespace Packing

/-- The page of the nodes that were collected. -/
def raw (s : Packing) (complete : Bool) : List UInt8 :=
  page R view root s.pageIndex complete s.generations s.nodes

/-- The variables after a page. -/
def flushed (s : Packing) (complete : Bool) : Packing where
  pages := s.pages ++ [s.raw R view root complete]
  totalSize := s.totalSize + (s.raw R view root complete).length
  pageIndex := s.pageIndex + 1

/-- `flush`. -/
def flush (s : Packing) (complete : Bool) : Except CaptureError Packing :=
  if maxPageBytes < (s.raw R view root complete).length then .error .pageTooLarge
  else if acceptsPage complete s.generations s.nodes = false then .error .invalid
  else if budget < s.totalSize + (s.raw R view root complete).length then .error .budget
  else .ok (s.flushed R view root complete)

/-- `node_size`. -/
def nodeSize (x : Item) : ℕ := byteLength x.row + 2

/-- `generation_size` of an entry that is not there yet. -/
def entrySize (flow : CodePoints) (generation : Option CodePoints) : ℕ :=
  byteLength flow + byteLength (generation.getD []) + 8

/-- `generation_size`. -/
def generationSize (s : Packing) (x : Item) : ℕ :=
  match flowPath x.path with
  | none => 0
  | some flow => if flow ∈ s.generations.keys then 0 else entrySize flow x.generation

/-- The page has to end before a node. -/
def endsBefore (s : Packing) (x : Item) : Bool :=
  s.nodes ≠ [] ∧ (maxPageNodes ≤ s.nodes.length ∨
    pageTargetBytes < s.estimated + nodeSize x + s.generationSize x)

/-- The node goes on the page. -/
def append (s : Packing) (x : Item) (size : ℕ) : Packing :=
  { s with nodes := s.nodes ++ [x], estimated := s.estimated + nodeSize x + size }

/-- The node goes on the page, and the generation of its flow with it. -/
def place (s : Packing) (x : Item) (size : ℕ) : Except CaptureError Packing :=
  match flowPath x.path, x.generation with
  | none, _ => .ok (s.append x size)
  | some flow, some (c :: g) =>
    .ok { s.append x size with generations := s.generations.set flow (c :: g) }
  | some _, _ => .error .noGeneration

/-- The body of the loop. The size of the generation is that on the page before it ends. -/
def push (s : Packing) (x : Item) : Except CaptureError Packing := do
  let t ← if s.endsBefore x then s.flush R view root budget false else .ok s
  if maxPageBytes < nodeSize x + s.generationSize x + 1200 then .error .nodeTooLarge
  else t.place x (s.generationSize x)

end Packing

end Loop

/-- `_capture`: the pages. -/
def capture (R : Json.FloatText F) (V : StateVersion) (view : PageView) (scope : CodePoints)
    (depth : Option ℕ) (budget : ℕ) : Except CaptureError (List (List UInt8)) := do
  let root ← rootName R V
  let selection := iterFixedSummaries R V scope depth
  let s ← selection.1.foldlM (Packing.push R view root budget) {}
  match selection.2 with
  | some e => .error e
  | none => do
    let s ← s.flush R view root budget true
    return s.pages

end Takler.Query
