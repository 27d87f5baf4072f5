import Takler.Lib.OrderedDict
import Takler.Lib.StepSystem

/-!
# The index of artifact paths

`ArtifactPathIndex` (`serialization/artifact_path_index.py`) knows for every path which fields of
which tasks refer to it. A path is looked up as what it resolves to. Most paths resolve to
themselves; the others are kept aside, with what they resolved to, and are looked at again by every
query. `Task.__setattr__` tells the index of every field that changes.

The file system enters as a function from texts to paths, `Path(text).resolve()`, which every call
brings with it: it may be another one for every call, and it may have no value, where `resolve` raises
(a loop of links, a null character). `abspath` is `Path(os.path.abspath(text))`, which does not look
at links. Tasks, texts and paths are arbitrary types. The index starts without entries: the loop of its
constructor makes the same calls of `update` that setting the fields one by one makes.

## Main definitions

* `Owners`, `Index`, `Index.update`, `Index.conflicts`: the index.
* `Registry`: the index and the fields of the tasks; `registry`: the system of its calls.
-/

namespace Takler.Artifact

/-- `ARTIFACT_FIELDS`. -/
inductive ArtifactField
  | jobPath
  | joboutPath
  | orvixInfoPath
deriving DecidableEq

/-- A field of a task. -/
abbrev Key (T : Type) := T × ArtifactField

/-- The fields that refer to a path: one, or a set of them. -/
inductive Owners (T : Type)
  | one (key : Key T)
  | many (keys : List (Key T))

/-- The fields of a bucket. -/
def Owners.keys {T : Type} : Owners T → List (Key T)
  | one key => [key]
  | many keys => keys

/-- What is left of a set: a single field is not kept as a set. -/
def Owners.ofRest {T : Type} : List (Key T) → Owners T
  | [last] => one last
  | keys => many keys

/-- The bucket with one more field; a set is made when a second field comes. -/
def Owners.joined {T : Type} [DecidableEq T] (key : Key T) : Option (Owners T) → Owners T
  | none => one key
  | some (many owners) => many (owners.insert key)
  | some (one owner) => many ([owner].insert key)

/-- What `update` and `conflicts` can raise. -/
inductive IndexError
  | keyError
  | assertionError
  | typeError
  /-- What `Path.resolve` raises. -/
  | resolution
deriving DecidableEq

/-- `ArtifactPathIndex`. -/
structure Index (T P : Type) where
  byPath : OrderedDict P (Owners T) := ∅
  symlinkFields : OrderedDict (Key T) P := ∅
  entryCount : ℤ := 0

section Calls

variable {T V P : Type} [DecidableEq T] [DecidableEq V] [DecidableEq P]

namespace Index

/-- Take a field out of the bucket of a path. -/
def removeEntry (x : Index T P) (key : Key T) (oldPath : P) : Except IndexError (Index T P) :=
  match x.byPath.get? oldPath with
  | none => .error .keyError
  | some (.many owners) =>
    if key ∈ owners then
      .ok { x with
        byPath := x.byPath.set oldPath (.ofRest (owners.erase key))
        entryCount := x.entryCount - 1 }
    else .error .keyError
  | some (.one owner) =>
    if owner = key then
      .ok { x with byPath := x.byPath.erase oldPath, entryCount := x.entryCount - 1 }
    else .error .assertionError

/-- Put a field into the bucket of a path. -/
def addEntry (x : Index T P) (key : Key T) (resolved : P) : Index T P :=
  { x with
    byPath := x.byPath.set resolved (.joined key (x.byPath.get? resolved))
    entryCount := x.entryCount + 1 }

variable (abspath : V → P) (resolve : V → Option P)

/-- Record what a field refers to now; a path that is not its own resolution is kept aside. -/
def record (x : Index T P) (key : Key T) (text : V) (resolved : P) : Index T P :=
  let x := x.addEntry key resolved
  if resolved ≠ abspath text then
    { x with symlinkFields := x.symlinkFields.set key resolved }
  else x

/-- The old path of a field: the one kept aside, or what the previous text resolves to now. -/
def oldPath? (x : Index T P) (key : Key T) (previous : Option V) :
    Except IndexError (Option P) :=
  match x.symlinkFields.get? key, previous with
  | some path, _ => .ok (some path)
  | none, none => .ok none
  | none, some text =>
    match resolve text with
    | some path => .ok (some path)
    | none => .error .resolution

/-- Take the old entry of a field out; the path kept aside is forgotten first. -/
def drop (x : Index T P) (key : Key T) (previous : Option V) :
    Except IndexError Unit × Index T P :=
  let popped := { x with symlinkFields := x.symlinkFields.erase key }
  match x.oldPath? resolve key previous with
  | .error e => (.error e, popped)
  | .ok none => (.ok (), popped)
  | .ok (some path) =>
    match popped.removeEntry key path with
    | .ok y => (.ok (), y)
    | .error e => (.error e, popped)

/-- `update`. The new text is resolved before the old entry is taken out. -/
def update (x : Index T P) (key : Key T) (value previous : Option V) :
    Except IndexError Unit × Index T P :=
  match value with
  | none => x.drop resolve key previous
  | some text =>
    match resolve text with
    | none => (.error .resolution, x)
    | some resolved =>
      match x.drop resolve key previous with
      | (.error e, y) => (.error e, y)
      | (.ok (), y) => (.ok (), y.record abspath key text resolved)

/-- The loop of `conflicts` over the fields kept aside. -/
def refresh (field : Key T → Option V) :
    List (Key T × P) → Index T P → Except IndexError Unit × Index T P
  | [], x => (.ok (), x)
  | (key, previous) :: rest, x =>
    match field key with
    | none => (.error .typeError, x)
    | some text =>
      match resolve text with
      | none => (.error .resolution, x)
      | some resolved =>
        if resolved ≠ previous then
          match x.update abspath resolve key (some text) (some text) with
          | (.ok (), y) => refresh field rest y
          | (.error e, y) => (.error e, y)
        else refresh field rest x

/-- `conflicts`. -/
def conflicts (x : Index T P) (field : Key T → Option V) (owner : T) (paths : List P) :
    Except IndexError Bool × Index T P :=
  match x.refresh abspath resolve field x.symlinkFields.entries with
  | (.error e, y) => (.error e, y)
  | (.ok (), y) =>
    (.ok (paths.any fun path => (y.byPath.get? path).any fun owners =>
      owners.keys.any fun key => key.1 ≠ owner), y)

end Index

end Calls

/-! ### The index and the tasks -/

/-- The index and the fields of the tasks. Beside the text of a field stands the path to which it
resolved when it was set, or at the last query since; the source does not have this. -/
structure Registry (T V P : Type) where
  index : Index T P := {}
  fields : OrderedDict (Key T) (V × P) := ∅

/-- A call, with the resolution of links at that moment. -/
inductive Call (T V P : Type)
  | setField (key : Key T) (value : Option V) (resolve : V → Option P)
  | query (owner : T) (paths : List P) (resolve : V → Option P)

section System

variable {T V P : Type} [DecidableEq T] [DecidableEq V] [DecidableEq P] (abspath : V → P)

namespace Registry

/-- The text of a field. -/
def text? (r : Registry T V P) (key : Key T) : Option V := (r.fields.get? key).map Prod.fst

/-- The fields after one was set; a text that does not resolve was refused before. -/
def setText (fields : OrderedDict (Key T) (V × P)) (key : Key T) (resolve : V → Option P) :
    Option V → OrderedDict (Key T) (V × P)
  | none => fields.erase key
  | some text =>
    match resolve text with
    | none => fields
    | some path => fields.set key (text, path)

/-- `Task.__setattr__` of an artifact field. -/
def setField (r : Registry T V P) (key : Key T) (value : Option V) (resolve : V → Option P) :
    Except IndexError Unit × Registry T V P :=
  if r.text? key = value then (.ok (), r)
  else
    match r.index.update abspath resolve key value (r.text? key) with
    | (.error e, x) => (.error e, { r with index := x })
    | (.ok (), x) => (.ok (), ⟨x, setText r.fields key resolve value⟩)

/-- A query; one that returns has seen a resolution of every path. -/
def query (r : Registry T V P) (owner : T) (paths : List P) (resolve : V → Option P) :
    Except IndexError Bool × Registry T V P :=
  match r.index.conflicts abspath resolve r.text? owner paths with
  | (.error e, x) => (.error e, { r with index := x })
  | (.ok answer, x) =>
    (.ok answer, ⟨x, r.fields.map fun entry => (entry.1, (resolve entry.1).getD entry.2)⟩)

end Registry

/-- The calls of the index, from an index without entries. -/
def registry : StepSystem (Registry T V P) (Call T V P) where
  init r := r = {}
  step r
    | .setField key value resolve => some (r.setField abspath key value resolve).2
    | .query owner paths resolve => some (r.query abspath owner paths resolve).2

/-- A path that last resolved to itself still does, and a path that is new or was a link resolves to
something: for a field that is set its old path and its new one, for a query those of all fields. -/
def Steady (r : Registry T V P) : Call T V P → Prop
  | .setField key value resolve =>
    (∀ text, r.fields.get? key = some (text, abspath text) → resolve text = some (abspath text)) ∧
      (r.text? key ≠ value → ∀ text ∈ value, resolve text ≠ none)
  | .query _ _ resolve =>
    ∀ key text path, r.fields.get? key = some (text, path) → resolve text ≠ none ∧
      (path = abspath text → resolve text = some (abspath text))

end System

end Takler.Artifact
