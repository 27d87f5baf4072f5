import Mathlib

/-!
# Step systems, guarded runs and invariants

A step system has initial states and a partial step function: an action that is not enabled in
a state leads nowhere, an enabled one leads to exactly one state. A *guard* restricts the runs
that are looked at to those whose every step meets a condition on the state before the step
and on the action. Safety of a guarded system is the invariant rule
`StepSystem.Reachable.invariant`: what holds initially and survives every guarded step holds in
every state that a guarded run reaches.

## Main definitions

* `StepSystem`: initial states and a partial step function.
* `StepSystem.Reachable`: the states reached by the runs that keep to a guard.
* `StepSystem.run`: the effect of a list of actions that keep to a guard.

## Main results

* `StepSystem.Reachable.invariant`, `StepSystem.run_invariant`: the invariant rules.
* `StepSystem.reachable_of_run`, `StepSystem.exists_of_run`: a run that can be computed reaches its
  last state.
-/

/-- Initial states and a partial step function. -/
structure StepSystem (σ α : Type*) where
  /-- The states in which a run may start. -/
  init : σ → Prop
  /-- The state after an action, or nothing when the action is not enabled. -/
  step : σ → α → Option σ

namespace StepSystem

variable {σ α : Type*} (S : StepSystem σ α)

/-- The states reached from initial states by steps that all meet the guard `G`. -/
inductive Reachable (G : σ → α → Prop) : σ → Prop
  | init {s : σ} (h : S.init s) : Reachable G s
  | step {s t : σ} {a : α} (hs : Reachable G s) (hg : G s a) (h : S.step s a = some t) :
      Reachable G t

/-- Every run is a run for the guard that asks nothing. -/
abbrev Free : σ → α → Prop := fun _ _ => True

/-- Perform a list of actions one after the other, as long as each of them meets the guard. -/
def run (G : σ → α → Prop) [∀ s a, Decidable (G s a)] : σ → List α → Option σ
  | s, [] => some s
  | s, a :: as => if G s a then (S.step s a).bind fun t => run G t as else none

variable {S}

/-- **Invariant rule.** A property of the initial states that every guarded step preserves holds
in every state reached by a guarded run. -/
theorem Reachable.invariant {G : σ → α → Prop} {I : σ → Prop} (hinit : ∀ s, S.init s → I s)
    (hstep : ∀ s a t, I s → G s a → S.step s a = some t → I t) {s : σ}
    (h : S.Reachable G s) : I s := by
  induction h with
  | init h => exact hinit _ h
  | step _ hg h ih => exact hstep _ _ _ ih hg h

/-- What every guarded step preserves, a guarded run preserves. -/
theorem run_invariant {G : σ → α → Prop} [∀ s a, Decidable (G s a)] {I : σ → Prop}
    (hstep : ∀ s a t, I s → G s a → S.step s a = some t → I t) :
    (as : List α) → {s t : σ} → I s → S.run G s as = some t → I t
  | [], s, t, hs, h => by
      obtain rfl : s = t := by simpa [StepSystem.run] using h
      exact hs
  | a :: as, s, t, hs, h => by
      rw [StepSystem.run] at h
      split_ifs at h with hg
      obtain ⟨u, hu, ht⟩ := Option.bind_eq_some_iff.mp h
      exact run_invariant hstep as (hstep s a u hs hg hu) ht

theorem Reachable.run {G : σ → α → Prop} [∀ s a, Decidable (G s a)] (as : List α) {s t : σ}
    (hs : S.Reachable G s) (h : S.run G s as = some t) : S.Reachable G t :=
  run_invariant (fun _ _ _ hs hg hst => .step hs hg hst) as hs h

/-- A computed run from an initial state reaches its last state. -/
theorem reachable_of_run {G : σ → α → Prop} [∀ s a, Decidable (G s a)] {s t : σ} (as : List α)
    (hs : S.init s) (h : S.run G s as = some t) : S.Reachable G t :=
  Reachable.run as (.init hs) h

/-- A computed run whose last state passes a check. -/
theorem exists_of_run {G : σ → α → Prop} [∀ s a, Decidable (G s a)] {s : σ} (as : List α)
    (P : σ → Prop) [DecidablePred P] (hs : S.init s) (h : (S.run G s as).any fun t => P t) :
    ∃ t, S.Reachable G t ∧ P t := by
  cases ht : S.run G s as with
  | none =>
    rw [ht] at h
    cases h
  | some t =>
    rw [ht] at h
    exact ⟨t, reachable_of_run as hs ht, of_decide_eq_true h⟩

end StepSystem
