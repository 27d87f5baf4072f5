import Mathlib
import Takler.Lib.CodePoints
import Takler.Lib.OrderedDict

/-!
# The change journal

`QueryChanges` (`server/query_changes.py`) keeps, for a limited time and within limits, which paths
changed in which revision. A transaction collects marks in a dictionary by path; its end commits
them as one batch with the next revision. Too many paths collapse to an invalidation of the root,
and so does a path that is too long. Old batches are dropped from the front by four limits, and
`since` answers only for the revisions that are still covered.

Times are in microseconds. The hooks `on_mark` and `on_commit` are left out.

## Main definitions

* `QueryChange`, `ChangeBatch`, `Changes`.
* `Changes.begin`, `Changes.finish` (`end`), `Changes.mark`, `Changes.since`.
-/

namespace Takler.Query

/-- `MAX_CHANGE_BATCHES`. -/
def maxChangeBatches : ℕ := 1024

/-- `MAX_CHANGES_PER_BATCH`. -/
def maxChangesPerBatch : ℕ := 2048

/-- `MAX_RETAINED_CHANGES`. -/
def maxRetainedChanges : ℤ := 8192

/-- `MAX_CHANGE_WINDOW_BYTES`. -/
def maxChangeWindowBytes : ℤ := 32 * 1024 * 1024

/-- `MAX_CHANGE_PATH_BYTES`. -/
def maxChangePathBytes : ℕ := 4096

/-- `MAX_CHANGE_SECONDS`. -/
def maxChangeTime : ℤ := 120 * 1000000

/-- `FIELD_GROUPS`. -/
inductive FieldGroup
  | summary
  | parameters
  | definition
  | runtime
  | artifacts
  | service
deriving DecidableEq

/-- The group of a name, if there is one. -/
def FieldGroup.ofName? : String → Option FieldGroup
  | "summary" => some summary
  | "parameters" => some parameters
  | "definition" => some definition
  | "runtime" => some runtime
  | "artifacts" => some artifacts
  | "service" => some service
  | _ => none

/-- The code point of a slash. -/
def slash : Fin 0x110000 := 47

/-- The path of the root. -/
def rootPath : CodePoints := [slash]

/-- `QueryChange`. -/
structure QueryChange where
  path : CodePoints
  groups : Finset FieldGroup
  invalidate : Bool := false
deriving DecidableEq

/-- The invalidation of everything. -/
def QueryChange.root : QueryChange where
  path := rootPath
  groups := ∅
  invalidate := true

/-- The length of a path in UTF-8. -/
def pathBytes (path : CodePoints) : ℕ := (CodePoints.encode path).length

/-- `ChangeBatch`. -/
structure ChangeBatch where
  revision : ℕ
  changes : List QueryChange
  createdAt : ℤ
  estimatedBytes : ℤ

/-- The exceptions of `mark` and `end`. -/
inductive ChangeError
  | notOpen
  | path
  | empty
  | group
  | encoding
deriving DecidableEq

/-- `QueryChanges`. -/
structure Changes where
  revision : ℕ := 1
  oldestRevision : ℕ := 1
  batches : List ChangeBatch := []
  retainedChanges : ℤ := 0
  retainedBytes : ℤ := 0
  depth : ℕ := 0
  pending : OrderedDict CodePoints QueryChange := ∅

namespace Changes

variable (c : Changes)

/-- A limit is passed, or the oldest batch is too old. -/
def overLimit (cutoff : ℤ) (oldest : ChangeBatch) (count : ℕ) : Prop :=
  maxChangeBatches < count ∨ maxRetainedChanges < c.retainedChanges ∨
    maxChangeWindowBytes < c.retainedBytes ∨ oldest.createdAt ≤ cutoff

instance (cutoff : ℤ) (oldest : ChangeBatch) (count : ℕ) :
    Decidable (c.overLimit cutoff oldest count) := inferInstanceAs (Decidable (_ ∨ _))

/-- The loop of `_expire` over the batches that are left. -/
def expireFrom (cutoff : ℤ) : List ChangeBatch → Changes → Changes
  | [], c => { c with batches := [] }
  | b :: rest, c =>
    if c.overLimit cutoff b (rest.length + 1) then
      expireFrom cutoff rest { c with
        retainedChanges := c.retainedChanges - b.changes.length
        retainedBytes := c.retainedBytes - b.estimatedBytes
        oldestRevision := b.revision }
    else { c with batches := b :: rest }

/-- `_expire`, at the time that it reads. -/
def expire (now : ℤ) : Changes := expireFrom (now - maxChangeTime) c.batches c

/-- The estimated size of some changes. -/
def changesBytes (changes : List QueryChange) : ℤ :=
  (changes.map fun x => (pathBytes x.path : ℤ) + 512).sum

/-- `_commit`; the clock is read for the batch and again for `_expire`. -/
def commit (created now : ℤ) : Changes :=
  if c.pending.size = 0 then c
  else
    let changes := c.pending.values
    expire { c with
      revision := c.revision + 1
      batches := c.batches ++ [⟨c.revision + 1, changes, created, changesBytes changes⟩]
      retainedChanges := c.retainedChanges + changes.length
      retainedBytes := c.retainedBytes + changesBytes changes
      pending := ∅ } now

/-- `begin`. -/
def begin : Changes := { c with depth := c.depth + 1 }

/-- `end`. -/
def finish (created now : ℤ) : Except ChangeError Changes :=
  if c.depth = 0 then .error .notOpen
  else if c.depth - 1 = 0 then .ok (commit { c with depth := c.depth - 1 } created now)
  else .ok { c with depth := c.depth - 1 }

/-- The pending changes after a mark that was accepted. -/
def addPending (pending : OrderedDict CodePoints QueryChange) (x : QueryChange) :
    OrderedDict CodePoints QueryChange :=
  if maxChangesPerBatch ≤ pending.size ∧ x.path ∉ pending.keys then
    OrderedDict.set ∅ rootPath QueryChange.root
  else if (pending.get? rootPath).any QueryChange.invalidate then pending
  else
    pending.set x.path
      { path := x.path
        groups := x.groups ∪ ((pending.get? x.path).map QueryChange.groups).getD ∅
        invalidate := x.invalidate ||
          ((pending.get? x.path).map QueryChange.invalidate).getD false }

/-- The checks of `mark`, in the order in which they are made; the change that is asked for. -/
def checkMark (path : CodePoints) (groups : List String) (invalidate : Bool) :
    Except ChangeError QueryChange :=
  if path.head? ≠ some slash ∨ (path ≠ rootPath ∧ path.getLast? = some slash) then .error .path
  else if groups = [] ∧ invalidate = false then .error .empty
  else
    match groups.mapM FieldGroup.ofName? with
    | none => .error .group
    | some groups =>
      if path.any fun x => 0xd800 ≤ x.val ∧ x.val ≤ 0xdfff then .error .encoding
      else .ok ⟨path, groups.toFinset, invalidate⟩

/-- A path that is too long stands for everything. -/
def shorten (x : QueryChange) : QueryChange :=
  if maxChangePathBytes < pathBytes x.path then .root else x

/-- `mark`. -/
def mark (path : CodePoints) (groups : List String) (invalidate : Bool) (created now : ℤ) :
    Except ChangeError Changes := do
  let x ← checkMark path groups invalidate
  let c := { c with pending := addPending c.pending (shorten x) }
  return if c.depth = 0 then c.commit created now else c

/-- `since`: the batches after a revision, if they are all there. -/
def since (revision now : ℤ) : Option (List ChangeBatch) × Changes :=
  let c := c.expire now
  if revision < c.oldestRevision ∨ c.revision < revision then (none, c)
  else (some (c.batches.filter fun b => revision < b.revision), c)

end Changes

end Takler.Query
