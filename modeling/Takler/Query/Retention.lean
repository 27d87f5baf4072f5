import Mathlib
import Takler.Lib.OrderedDict
import Takler.Lib.StepSystem

/-!
# What the query service keeps

The query service (`server/query_service.py`) keeps summary pages, changes and parts of details for
its clients, within fixed limits. A page request that finds no pages starts a *capture*: the pages
are built by a worker thread, which reserves the bytes of each page on the event loop, and are then
published as a *view* of the owner. Views of several owners may share one content, and captures of
several owners may wait for one build.

A step of the system is what the event loop does between two points where a coroutine waits. The
lock of the service is never held while waiting, so that a block under it is part of one step. The
workers may interleave with the loop at their reservations. Only the sizes of pages and blobs are
modelled, and tokens are numbers that are used once. The slots for workers are left out, which
leaves more interleavings.

## Main definitions

* `State`, `State.retainedSize`, `State.purge`, `State.renewLease`.
* `State.page`, `State.publishSnapshot`, `State.finishCapture`: requests for summary pages.
* `Event`, `service`: the step system.
-/

namespace Takler.Query

/-! ### Limits -/

/-- Times are in nanoseconds. -/
def second : ℕ := 1000000000

/-- `SNAPSHOT_SECONDS`. -/
def snapshotTime : ℕ := 120 * second

/-- `QUERY_LEASE_SECONDS`. -/
def queryLeaseTime : ℕ := 120 * second

/-- `MAX_SNAPSHOTS`. -/
def maxSnapshots : ℕ := 64

/-- `MAX_OWNER_SNAPSHOTS`. -/
def maxOwnerSnapshots : ℕ := 2

/-- `MAX_QUERY_LEASES`. -/
def maxQueryLeases : ℕ := 64

/-- `MAX_OWNER_QUERY_LEASES`. -/
def maxOwnerQueryLeases : ℕ := 8

/-- `MAX_RETAINED_BYTES`. -/
def maxRetainedBytes : ℕ := 96 * 1024 * 1024

/-- `MAX_BLOB_BYTES`. -/
def maxBlobBytes : ℕ := 32 * 1024 * 1024

/-- `MAX_DELTA_BATCHES`. -/
def maxDeltaBatches : ℕ := 64

/-- `MAX_DELTA_RETAINED_BYTES`. -/
def maxDeltaRetainedBytes : ℕ := 32 * 1024 * 1024

/-- `MAX_SUMMARY_READERS`. -/
def maxSummaryReaders : ℕ := 20

/-- `MAX_SUMMARY_CAPTURE_ROOTS`. -/
def maxSummaryCaptureRoots : ℕ := 4

/-- `SUMMARY_VIEW_BYTES`. -/
def summaryViewBytes : ℕ := 512

/-! ### Records -/

/-- `FailureReply`. -/
structure FailureReply where
  code : String
  message : String
deriving DecidableEq

/-- `_SummarySelection`; the root is given by its address in memory. -/
structure Selection where
  rootId : ℕ
  baseRevision : ℕ
  scope : String
  depth : Option ℕ
  redactedParameters : List String
deriving DecidableEq

/-- `_SummaryContent`, with the sizes of its pages. -/
structure Content where
  selection : Selection
  /-- The version that it was built from. -/
  source : ℕ
  originalSnapshotId : ℕ
  pages : List ℕ
  expires : ℕ
  size : ℕ
deriving DecidableEq

/-- `_Snapshot`: the view of an owner. -/
structure View where
  owner : String
  queryId : String
  content : Content
  expires : ℕ

/-- `_QueryLease`. -/
structure Lease where
  owner : String
  scope : String
  depth : Option ℕ
  expires : ℕ

/-- `_Blob`, with the length of its data. -/
structure Blob where
  owner : String
  queryId : String
  path : String
  generation : Option String
  attempt : Option String
  pointer : String
  data : ℕ
  expires : ℕ

/-- `_DeltaBatch`, with the sizes of its pages. -/
structure DeltaBatch where
  owner : String
  queryId : String
  fromRevision : ℕ
  pages : List ℕ
  expires : ℕ
  size : ℕ

/-- The outcome of a build; it may also raise an exception that nobody expects. -/
inductive BuildResult
  | content (c : Content)
  | failure (f : FailureReply)
  | raised

/-- Where `_build_content` is. -/
inductive Phase
  | created
  | waiting (capturedAt : ℕ)
  | capturing (capturedAt : ℕ) (budget : ℤ) (pages : List ℕ)
  | finished (r : BuildResult)

/-- `_ContentCapture`. -/
structure Build where
  snapshotId : ℕ
  version : ℕ
  readers : ℤ := 0
  reservedBytes : ℕ := 0
  phase : Phase := .created

/-- The key of a capture. -/
structure CaptureKey where
  queryId : String
  rootId : ℕ
  baseRevision : ℕ
deriving DecidableEq

/-- `_Capture`, which is told from others by the token of its view. -/
structure Capture where
  snapshotId : ℕ
  readers : ℤ := 0

/-- A task that runs `_capture_snapshot`. Its build is the one of its selection. -/
structure Task where
  key : CaptureKey
  owner : String
  queryId : String
  snapshotId : ℕ
  selection : Selection
deriving DecidableEq

/-- A page request that waits for a capture. -/
structure Reader where
  key : CaptureKey
  snapshotId : ℕ
  shared : Bool
  cancelled : Bool := false

/-- `QueryService`. -/
structure State where
  now : ℕ
  nextToken : ℕ := 0
  closed : Bool := false
  snapshots : OrderedDict ℕ View := ∅
  queryLeases : OrderedDict String Lease := ∅
  blobs : OrderedDict ℕ Blob := ∅
  deltaBatches : OrderedDict ℕ DeltaBatch := ∅
  reserved : ℤ := 0
  ownerReserved : OrderedDict String ℤ := ∅
  captures : OrderedDict CaptureKey Capture := ∅
  contentCaptures : OrderedDict Selection Build := ∅
  captureReaders : ℤ := 0
  tasks : List Task := []
  readers : List Reader := []

/-- A version that is pinned: the object and its address. -/
structure VersionRef where
  object : ℕ
  address : ℕ

/-- What a step reads of the scheduler. -/
structure Ambient where
  /-- `query_changes.estimated_bytes`. -/
  journal : ℕ
  /-- `query_changes.revision`. -/
  revision : ℕ
  /-- Whether `query_changes.since` still has the changes after a revision. -/
  window : ℕ → Bool
  redactedParameters : List String

/-- What a request is answered with. -/
inductive Reply
  | failure (code message : String)
  | page (snapshotId index : ℕ)
  | pending (key : CaptureKey)
  | reset (reason : String)
  | since (batchId index : ℕ)
  | detail (blobs : List ℕ)

namespace State

/-! ### Accounting -/

/-- The contents of the views, and of a view that is about to be added. -/
def contents (s : State) (replacing : Option ℕ) (adding : Option Content) : Finset Content :=
  (((s.snapshots.filter fun x => some x.1 ≠ replacing).values.map View.content) ++
    adding.toList).toFinset

/-- The bytes of contents, and of builds whose content is not among them. -/
def heldBytes (contents : Finset Content) (builds : List Build) : ℕ :=
  ∑ c ∈ contents, c.size +
    ((builds.filter fun b => b.snapshotId ∉ contents.image Content.originalSnapshotId).map
      Build.reservedBytes).sum

/-- `_retained_size` without the term of the change journal. -/
def keptSize (s : State) (replacing : Option ℕ) (adding : Option Content) (reservedView : Bool) :
    ℤ :=
  heldBytes (s.contents replacing adding) s.contentCaptures.values +
    (s.snapshots.size + s.reserved - (if replacing.isSome then 1 else 0) +
      (if adding.isSome && !reservedView then 1 else 0)) * summaryViewBytes +
    (s.blobs.values.map Blob.data).sum + (s.deltaBatches.values.map DeltaBatch.size).sum

/-- `_retained_size`. -/
def retainedSize (s : State) (a : Ambient) (replacing : Option ℕ := none)
    (adding : Option Content := none) (reservedView : Bool := false) : ℤ :=
  a.journal + s.keptSize replacing adding reservedView

/-- `_purge`; the timer is not modelled, it may fire at any time. -/
def purge (s : State) : State :=
  { s with
    queryLeases := s.queryLeases.filter fun x => s.now < x.2.expires
    snapshots := s.snapshots.filter fun x => s.now < x.2.expires
    blobs := s.blobs.filter fun x => s.now < x.2.expires
    deltaBatches := s.deltaBatches.filter fun x => s.now < x.2.expires }

/-- `close`. -/
def close (s : State) : State :=
  { s with closed := true, snapshots := ∅, queryLeases := ∅, blobs := ∅, deltaBatches := ∅ }

/-- `_replaceable_snapshot`. -/
def replaceableSnapshot (s : State) (owner : String) : Option ℕ :=
  let owned := (s.snapshots.filter fun x => x.2.owner = owner).keys
  if maxOwnerSnapshots ≤ owned.length then owned.head? else none

/-- Delete the first key of a list, if there are too many of them. -/
def dropFirst {κ α : Type} [DecidableEq κ] (d : OrderedDict κ α) (bound : ℕ) (keys : List κ) :
    OrderedDict κ α :=
  if bound ≤ keys.length then
    match keys with
    | k :: _ => d.erase k
    | [] => d
  else d

/-- `_renew_lease`. -/
def renewLease (s : State) (queryId owner scope : String) (depth : Option ℕ) : State :=
  let leases := s.queryLeases.erase queryId
  let leases := dropFirst leases maxOwnerQueryLeases (leases.filter fun x => x.2.owner = owner).keys
  let leases := dropFirst leases maxQueryLeases leases.keys
  { s with queryLeases := leases.set queryId ⟨owner, scope, depth, s.now + queryLeaseTime⟩ }

/-! ### Views -/

/-- `_publish_snapshot`. -/
def publishSnapshot (s : State) (a : Ambient) (owner queryId : String) (snapshotId : ℕ)
    (content : Content) (reservedView : Bool) : Reply × State :=
  if content.expires ≤ s.now then (.failure "snapshot_expired" "summary capture expired", s)
  else if ¬ a.window content.selection.baseRevision then
    (.failure "resource_exhausted" "query change window expired", s)
  else
    let replacement := s.replaceableSnapshot owner
    if maxSnapshots ≤ s.snapshots.size - (if replacement.isSome then 1 else 0) ∨
        (maxRetainedBytes : ℤ) < s.retainedSize a replacement (some content) reservedView then
      (.failure "resource_exhausted" "snapshot budget exceeded", s)
    else
      let kept := replacement.elim s.snapshots s.snapshots.erase
      let s := { s with
        snapshots := kept.set snapshotId ⟨owner, queryId, content, content.expires⟩ }
      (.page snapshotId 0,
        s.renewLease queryId owner content.selection.scope content.selection.depth)

/-- `PageRequest`, with the owner and the query that it stands for and its parsed cursor. -/
structure PageRequest where
  owner : String
  queryId : String
  scope : String
  depth : Option ℕ
  summaryOnly : Bool
  /-- A cursor that cannot be parsed is `some none`. -/
  cursor : Option (Option (ℕ × ℕ))
  /-- What `version_store.pin` gives. -/
  pinned : Except String VersionRef

/-- The part of `_page` for a cursor. -/
def cursorPage (s : State) (r : PageRequest) (cursor : Option (ℕ × ℕ)) : Reply :=
  match cursor with
  | none => .failure "invalid_request" "invalid cursor"
  | some (snapshotId, index) =>
    match s.snapshots.get? snapshotId with
    | none => .failure "snapshot_expired" "snapshot unavailable"
    | some view =>
      if view.owner ≠ r.owner ∨ view.queryId ≠ r.queryId then
        .failure "permission_denied" "query identity changed"
      else if index < 1 ∨ view.content.pages.length ≤ index then
        .failure "invalid_request" "cursor index out of range"
      else .page snapshotId index

/-- The views with the pages that are asked for, if they last long enough. -/
def matching (s : State) (selection : Selection) (version : ℕ) : List (ℕ × View) :=
  s.snapshots.entries.filter fun x =>
    x.2.content.selection = selection && x.2.content.source = version &&
      s.now + snapshotTime / 2 ≤ x.2.expires

/-- The part of `_page` that waits for a capture of another request. -/
def joinCapture (s : State) (key : CaptureKey) (capture : Capture) : Reply × State :=
  if (maxSummaryReaders : ℤ) ≤ s.reserved + s.captureReaders then
    (.failure "resource_exhausted" "summary reader limit", s)
  else (.pending key,
    { s with
      captureReaders := s.captureReaders + 1
      captures := s.captures.set key { capture with readers := capture.readers + 1 }
      readers := s.readers ++ [⟨key, capture.snapshotId, true, false⟩] })

/-- The build for a selection, one that exists or a new one; too many roots are refused. -/
def buildFor (s : State) (selection : Selection) (version : VersionRef) (snapshotId : ℕ) :
    Option Build :=
  match s.contentCaptures.get? selection with
  | some build => some build
  | none =>
    let roots := (s.contentCaptures.keys.map Selection.rootId).dedup
    if selection.rootId ∉ roots ∧ maxSummaryCaptureRoots ≤ roots.length then none
    else some { snapshotId := snapshotId, version := version.object }

/-- The part of `_page` that starts a capture. -/
def startCapture (s : State) (a : Ambient) (r : PageRequest) (key : CaptureKey)
    (selection : Selection) (version : VersionRef) (snapshotId : ℕ) : Reply × State :=
  if (maxSummaryReaders : ℤ) ≤ s.reserved + s.captureReaders then
    (.failure "resource_exhausted" "summary reader limit", s)
  else if (maxRetainedBytes : ℤ) < s.retainedSize a + summaryViewBytes then
    (.failure "resource_exhausted" "snapshot memory limit", s)
  else
    match s.buildFor selection version snapshotId with
    | none => (.failure "resource_exhausted" "summary version limit", s)
    | some build => (.pending key,
      { s with
        contentCaptures :=
          s.contentCaptures.set selection { build with readers := build.readers + 1 }
        reserved := s.reserved + 1
        ownerReserved := s.ownerReserved.set r.owner (s.ownerReserved.getInt r.owner + 1)
        captures := s.captures.set key { snapshotId, readers := 1 }
        tasks := s.tasks ++ [⟨key, r.owner, r.queryId, snapshotId, selection⟩]
        readers := s.readers ++ [⟨key, snapshotId, false, false⟩] })

/-- The part of `_page` for a request without a cursor. -/
def firstPage (s : State) (a : Ambient) (r : PageRequest) (version : VersionRef) : Reply × State :=
  let selection : Selection := ⟨version.address, a.revision, r.scope, r.depth, a.redactedParameters⟩
  let views := s.matching selection version.object
  match views.find? fun x => x.2.owner = r.owner && x.2.queryId = r.queryId with
  | some x => (.page x.1 0, s.renewLease r.queryId r.owner selection.scope r.depth)
  | none =>
    let key : CaptureKey := ⟨r.queryId, version.address, a.revision⟩
    match s.captures.get? key with
    | some capture => s.joinCapture key capture
    | none =>
      if (maxOwnerSnapshots : ℤ) ≤ s.ownerReserved.getInt r.owner ∨
          (maxSnapshots : ℤ) ≤ s.snapshots.size + s.reserved ∧
            s.replaceableSnapshot r.owner = none then
        (.failure "resource_exhausted" "snapshot count limit", s)
      else
        let snapshotId := s.nextToken
        let s := { s with nextToken := s.nextToken + 1 }
        match views.getLast? with
        | some x => s.publishSnapshot a r.owner r.queryId snapshotId x.2.content false
        | none => s.startCapture a r key selection version snapshotId

/-- `_page` up to the point where it waits for a capture. -/
def page (s : State) (a : Ambient) (r : PageRequest) : Reply × State :=
  if ¬ r.summaryOnly then
    (.failure "unsupported_capability" "initial pages support summary only", s)
  else
    let s := s.purge
    if s.closed then (.failure "snapshot_expired" "query service closed", s)
    else
      match r.cursor with
      | some cursor => (s.cursorPage r cursor, s)
      | none =>
        match r.pinned with
        | .error message => (.failure "resource_exhausted" message, s)
        | .ok version => s.firstPage a r version

/-! ### Builds and captures -/

/-- Change the build of a selection. -/
def updateBuild (s : State) (selection : Selection) (build : Build) : State :=
  { s with contentCaptures := s.contentCaptures.set selection build }

/-- `_build_content` starts. -/
def startBuild (s : State) (selection : Selection) (build : Build) : Option State :=
  match build.phase with
  | .created => some (s.updateBuild selection { build with phase := .waiting s.now })
  | _ => none

/-- Whether anybody waits for the build of a selection. -/
def hasReaders (s : State) (selection : Selection) : Bool :=
  s.tasks.any fun t => t.selection = selection && (s.captures.get? t.key).any fun c => c.readers ≠ 0

/-- `_build_content` has a slot. -/
def admitBuild (s : State) (a : Ambient) (selection : Selection) (build : Build) : Option State :=
  match build.phase with
  | .waiting capturedAt =>
    let phase :=
      if s.closed || !(s.hasReaders selection) then
        Phase.finished (.failure ⟨"snapshot_expired", "summary capture abandoned"⟩)
      else if capturedAt + snapshotTime ≤ s.now then
        .finished (.failure ⟨"snapshot_expired", "summary capture expired"⟩)
      else .capturing capturedAt (maxRetainedBytes - s.retainedSize a) []
    some (s.updateBuild selection { build with phase })
  | _ => none

/-- The failures of `_build_content` for the exceptions of its worker. -/
def workerFailures : List FailureReply :=
  [⟨"field_too_large", "summary exceeds page limit"⟩,
    ⟨"resource_exhausted", "fixed query version unavailable"⟩,
    ⟨"invalid_request", "scope unavailable or invalid"⟩,
    ⟨"resource_exhausted", "snapshot memory limit"⟩]

/-- A page of a worker is reserved (`_reserve_summary_page`). A worker that has waited too long fails
and may still have its page reserved afterwards. -/
def reservePage (s : State) (a : Ambient) (selection : Selection) (build : Build) (size : ℕ) :
    Option State :=
  match build.phase with
  | .capturing capturedAt budget pages =>
    some (s.updateBuild selection
      (if budget < (pages.sum + size : ℕ) then
        { build with
          phase := .finished (.failure ⟨"resource_exhausted", "snapshot memory limit"⟩) }
      else if s.closed then
        { build with
          phase := .finished (.failure ⟨"resource_exhausted", "fixed query version unavailable"⟩) }
      else if (maxRetainedBytes : ℤ) < s.retainedSize a + size then
        { build with
          phase := .finished (.failure ⟨"resource_exhausted", "snapshot memory limit"⟩) }
      else
        { build with
          reservedBytes := build.reservedBytes + size
          phase := .capturing capturedAt budget (pages ++ [size]) }))
  | .finished (.failure _) =>
    if s.closed ∨ (maxRetainedBytes : ℤ) < s.retainedSize a + size then some s
    else some (s.updateBuild selection
      { build with reservedBytes := build.reservedBytes + size })
  | _ => none

/-- The worker fails. -/
def failBuild (s : State) (selection : Selection) (build : Build) (f : Option FailureReply) :
    Option State :=
  match build.phase, f with
  | .capturing _ _ _, none =>
    some (s.updateBuild selection { build with phase := .finished .raised })
  | .capturing _ _ _, some f =>
    if f ∈ workerFailures then
      some (s.updateBuild selection { build with phase := .finished (.failure f) })
    else none
  | _, _ => none

/-- The worker has written its last page. -/
def completeBuild (s : State) (selection : Selection) (build : Build) : Option State :=
  match build.phase with
  | .capturing capturedAt _ pages =>
    if pages = [] then none
    else some (s.updateBuild selection
      { build with
        phase := .finished (.content
          { selection, source := build.version, originalSnapshotId := build.snapshotId, pages
            expires := capturedAt + snapshotTime, size := pages.sum }) })
  | _ => none

/-- The build of a task loses a reader, and is dropped with the last one. Without the build the
rest would not be reached. -/
def releaseBuild (s : State) (selection : Selection) : Option State :=
  (s.contentCaptures.get? selection).map fun (build : Build) =>
    { s with
      contentCaptures :=
        if build.readers - 1 = 0 then s.contentCaptures.erase selection
        else s.contentCaptures.set selection { build with readers := build.readers - 1 } }

/-- The reservation of an owner is returned; an owner without one would raise an exception. -/
def releaseOwner (s : State) (owner : String) : State :=
  match s.ownerReserved.get? owner with
  | none => s
  | some n =>
    { s with
      ownerReserved :=
        if n - 1 = 0 then s.ownerReserved.erase owner else s.ownerReserved.set owner (n - 1) }

/-- What `_capture_snapshot` does at the end in any case. -/
def releaseCapture (s : State) (task : Task) : State :=
  let s := { s with tasks := s.tasks.erase task }
  match s.releaseBuild task.selection with
  | none => s
  | some s =>
    releaseOwner
      { s with captures := s.captures.erase task.key, reserved := s.reserved - 1 } task.owner

/-- `_capture_snapshot` goes on with the outcome of the build. -/
def finishCapture (s : State) (a : Ambient) (task : Task) (build : Build) : Option State :=
  match build.phase with
  | .finished .raised => some (s.releaseCapture task)
  | .finished (.failure _) => some (s.purge.releaseCapture task)
  | .finished (.content content) =>
    let s := s.purge
    if s.closed || ((s.captures.get? task.key).all fun c => c.readers = 0) then
      some (s.releaseCapture task)
    else some ((s.publishSnapshot a task.owner task.queryId task.snapshotId content
      true).2.releaseCapture task)
  | _ => none

/-- A page request is cancelled while it waits. -/
def cancelReader (s : State) (i : ℕ) : Option State :=
  match s.readers[i]? with
  | none => none
  | some reader =>
    if reader.cancelled then none
    else
      let readers := s.readers.set i { reader with cancelled := true }
      match s.captures.get? reader.key with
      | some capture =>
        if capture.snapshotId = reader.snapshotId then
          some { s with
            readers
            captures := s.captures.set reader.key { capture with readers := capture.readers - 1 } }
        else some { s with readers }
      | none => some { s with readers }

/-- A page request ends: its capture has ended, or it was cancelled. The count of readers of a
capture that has ended does not matter any more. -/
def leaveReader (s : State) (i : ℕ) : Option State :=
  match s.readers[i]? with
  | none => none
  | some reader =>
    let running := (s.captures.get? reader.key).any fun c => c.snapshotId = reader.snapshotId
    if running && !reader.cancelled then none
    else some { s with
      readers := s.readers.eraseIdx i
      captureReaders := if reader.shared then s.captureReaders - 1 else s.captureReaders }

/-! ### Changes and details -/

/-- The part of `since` for a cursor. -/
def sinceCursor (s : State) (owner queryId scope : String) (depth : Option ℕ)
    (sinceRevision batchId index : ℕ) : Reply × State :=
  let s := s.purge
  match s.deltaBatches.get? batchId with
  | none => (.reset "history_expired", s)
  | some batch =>
    if batch.owner ≠ owner ∨ batch.queryId ≠ queryId ∨ batch.fromRevision ≠ sinceRevision then
      (.reset "identity_changed", s)
    else if index < 1 ∨ batch.pages.length ≤ index then
      (.failure "invalid_request" "cursor index out of range", s)
    else (.since batchId index, s.renewLease queryId owner scope depth)

/-- The end of `since`, for pages that have been built. -/
def publishDelta (s : State) (a : Ambient) (owner queryId scope : String) (depth : Option ℕ)
    (sinceRevision : ℕ) (pages : List ℕ) (expires : ℕ) : Reply × State :=
  let batchId := s.nextToken
  let s := { s.purge with nextToken := s.nextToken + 1 }
  if (s.queryLeases.get? queryId).isNone then (.reset "history_expired", s)
  else if pages.length = 1 then (.since batchId 0, s.renewLease queryId owner scope depth)
  else if maxDeltaBatches ≤ s.deltaBatches.size ∨
      maxDeltaRetainedBytes < (s.deltaBatches.values.map DeltaBatch.size).sum + pages.sum ∨
      (maxRetainedBytes : ℤ) < s.retainedSize a + pages.sum then
    (.reset "budget_exceeded", s)
  else
    let s := { s with
      deltaBatches := s.deltaBatches.set batchId
        ⟨owner, queryId, sinceRevision, pages, expires, pages.sum⟩ }
    (.since batchId 0, s.renewLease queryId owner scope depth)

/-- The last step of `detail`. -/
def keepLease (s : State) (queryId owner scope : String) (depth : Option ℕ) : Reply × State :=
  let s := s.purge
  if (s.queryLeases.get? queryId).isNone then
    (.failure "snapshot_expired" "query unavailable", s)
  else (.detail [], s.renewLease queryId owner scope depth)

/-- Add blobs, each with a token of its own. -/
def addBlobs (s : State) (blobs : List Blob) : State :=
  blobs.foldl (fun s b =>
    { s with nextToken := s.nextToken + 1, blobs := s.blobs.set s.nextToken b }) s

/-- The end of `_chunked_detail`, for the parts that have been taken out. -/
def publishBlobs (s : State) (a : Ambient) (blobs : List Blob) : Reply × State :=
  let s := s.purge
  let incoming := (blobs.map Blob.data).sum
  if maxBlobBytes < (s.blobs.values.map Blob.data).sum + incoming ∨
      (maxRetainedBytes : ℤ) < s.retainedSize a + incoming then
    (.failure "resource_exhausted" "blob budget exceeded", s)
  else
    (.detail ((List.range blobs.length).map (s.nextToken + ·)),
      s.addBlobs (blobs.map fun b => { b with expires := s.now + 60 * second }))

end State

/-! ### Steps -/

/-- What may happen next. -/
inductive Event
  | tick (elapsed : ℕ)
  | page (a : Ambient) (r : State.PageRequest)
  | startBuild (selection : Selection)
  | admitBuild (a : Ambient) (selection : Selection)
  | reservePage (a : Ambient) (selection : Selection) (size : ℕ)
  | failBuild (selection : Selection) (f : Option FailureReply)
  | completeBuild (selection : Selection)
  | finishCapture (a : Ambient) (task : Task)
  | cancelReader (i : ℕ)
  | leaveReader (i : ℕ)
  | sinceCursor (owner queryId scope : String) (depth : Option ℕ)
      (sinceRevision batchId index : ℕ)
  | publishDelta (a : Ambient) (owner queryId scope : String) (depth : Option ℕ)
      (sinceRevision : ℕ) (pages : List ℕ) (expires : ℕ)
  | keepLease (queryId owner scope : String) (depth : Option ℕ)
  | publishBlobs (a : Ambient) (blobs : List Blob)
  /-- The other steps of `since`, `detail` and `chunk`, and the timer, only remove what has
  expired. -/
  | purge
  | close

/-- One step. -/
def State.step (s : State) : Event → Option State
  | .tick elapsed => some { s with now := s.now + elapsed }
  | .page a r => some (s.page a r).2
  | .startBuild selection => (s.contentCaptures.get? selection).bind (s.startBuild selection)
  | .admitBuild a selection => (s.contentCaptures.get? selection).bind (s.admitBuild a selection)
  | .reservePage a selection size =>
    (s.contentCaptures.get? selection).bind fun b => s.reservePage a selection b size
  | .failBuild selection f =>
    (s.contentCaptures.get? selection).bind fun b => s.failBuild selection b f
  | .completeBuild selection =>
    (s.contentCaptures.get? selection).bind (s.completeBuild selection)
  | .finishCapture a task =>
    if task ∈ s.tasks then
      (s.contentCaptures.get? task.selection).bind (s.finishCapture a task)
    else none
  | .cancelReader i => s.cancelReader i
  | .leaveReader i => s.leaveReader i
  | .sinceCursor owner queryId scope depth sinceRevision batchId index =>
    some (s.sinceCursor owner queryId scope depth sinceRevision batchId index).2
  | .publishDelta a owner queryId scope depth sinceRevision pages expires =>
    some (s.publishDelta a owner queryId scope depth sinceRevision pages expires).2
  | .keepLease queryId owner scope depth => some (s.keepLease queryId owner scope depth).2
  | .publishBlobs a blobs => some (s.publishBlobs a blobs).2
  | .purge => some s.purge
  | .close => some s.close

/-- The query service, from its construction on. -/
def service : StepSystem State Event where
  init s := ∃ now, s = { now }
  step := State.step

end Takler.Query
