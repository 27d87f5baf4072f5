import Mathlib

/-!
# Node paths, statuses and exceptions

A node is named by its path; the path of a node lists the names from the node up to its flow, so
that the path of the parent is the tail.

`NodeStatus` (`core/state.py`) is an ordered enumeration. The status of a container is the most
significant status of its children: `compute_most_significant_status` (`core/node.py`) counts the
children's statuses and takes the first of `aborted`, `active`, `submitted`, `queued` and
`complete` that occurs, and `unknown` when none does.

## Main definitions

* `NodePath`, `pathString`, `Err`, `NodeStatus`, `mostSignificant`.

## Main results

* `le_mostSignificant`, `mostSignificant_mem`: this is the greatest of the statuses.
-/

namespace Takler

/-- The names from a node up to its flow; the parent's path is the tail. -/
abbrev NodePath := List String

/-- `Node.node_path`: the names from the flow down, each after a slash. -/
def pathString (p : NodePath) : String := p.reverse.foldl (fun acc name => acc ++ "/" ++ name) ""

/-- The exceptions that leave the modelled functions, with their messages. -/
inductive Err
  | flowState (message : String)
  | nodeNotFound (message : String)
  | nodeType (message : String)
  | invalidRequest (message : String)
  | attemptMismatch (message : String)
  | zombie (message : String)
  | jobSubmission (message : String)
  | notImplemented (message : String)
  | typeError (message : String)
  | valueError (message : String)
  | overflow (message : String)
  /-- What the index of artifact paths raises for a recorded path: `KeyError`, `AssertionError`, or
  an error of `Path.resolve`. -/
  | artifactPath (path : String)
deriving DecidableEq

/-- The status of a node. -/
inductive NodeStatus
  | unknown
  | complete
  | queued
  | submitted
  | active
  | aborted
deriving DecidableEq

namespace NodeStatus

/-- The value of the enumeration, which orders it. -/
def value : NodeStatus → ℕ
  | unknown => 1
  | complete => 2
  | queued => 3
  | submitted => 4
  | active => 5
  | aborted => 6

/-- The name of the enumeration member. -/
def text : NodeStatus → String
  | unknown => "unknown"
  | complete => "complete"
  | queued => "queued"
  | submitted => "submitted"
  | active => "active"
  | aborted => "aborted"

theorem value_injective : Function.Injective value := by
  intro a b h
  cases a <;> cases b <;> first | rfl | cases h

instance : LinearOrder NodeStatus := LinearOrder.lift' value value_injective

theorem unknown_le (a : NodeStatus) : unknown ≤ a := by
  cases a <;> decide

/-- The statuses of a task whose job was handed out and has not ended. -/
def inFlight : NodeStatus → Bool
  | submitted | active => true
  | _ => false

end NodeStatus

open NodeStatus

/-- `compute_most_significant_status` over the statuses of the children. -/
def mostSignificant (l : List NodeStatus) : NodeStatus :=
  if aborted ∈ l then aborted
  else if active ∈ l then active
  else if submitted ∈ l then submitted
  else if queued ∈ l then queued
  else if complete ∈ l then complete
  else unknown

theorem le_mostSignificant {l : List NodeStatus} {a : NodeStatus} (h : a ∈ l) :
    a ≤ mostSignificant l := by
  unfold mostSignificant
  cases a <;> split_ifs <;> decide

theorem mostSignificant_le {l : List NodeStatus} {b : NodeStatus} (h : ∀ a ∈ l, a ≤ b) :
    mostSignificant l ≤ b := by
  unfold mostSignificant
  split_ifs
  all_goals first | exact unknown_le b | exact h _ (by assumption)

theorem mostSignificant_mem {l : List NodeStatus} (h : l ≠ []) : mostSignificant l ∈ l := by
  unfold mostSignificant
  split_ifs
  any_goals assumption
  obtain ⟨a, ha⟩ := List.exists_mem_of_ne_nil l h
  cases a <;> first | exact ha | contradiction

theorem mostSignificant_of_forall_eq {l : List NodeStatus} {b : NodeStatus} (hl : l ≠ [])
    (h : ∀ a ∈ l, a = b) : mostSignificant l = b :=
  h _ (mostSignificant_mem hl)

end Takler
