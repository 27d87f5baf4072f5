import Mathlib

/-!
# Programs whose operations are interleaved with an environment

A program is a tree: it has a result, or it asks for an operation and goes on with the answer. The
world in which it runs answers the operations, and between them an environment takes steps of its
own. `Exec` has all interleavings, `Ensures` is partial correctness over all of them.

## Main definitions

* `Interleaved.Prog`: programs over operations with typed answers.
* `Interleaved.Setting`: what the environment may do, and how operations are answered.
* `Interleaved.Setting.Exec`, `Interleaved.Setting.Ensures`.

## Main results

* `Interleaved.Setting.Exec.invariant`: what every step keeps, an execution keeps.
* `Interleaved.Setting.Ensures.call`, `Interleaved.Setting.Ensures.bind`: the rules for programs.
-/

namespace Interleaved

/-- A program over the operations `ι`, where `i` is answered by a `ρ i`. -/
inductive Prog {ι : Type} (ρ : ι → Type) (α : Type)
  | done (a : α)
  | call (i : ι) (k : ρ i → Prog ρ α)

variable {ι : Type} {ρ : ι → Type} {α β W : Type}

namespace Prog

/-- One program after the other. -/
def bind : Prog ρ α → (α → Prog ρ β) → Prog ρ β
  | done a, f => f a
  | call i k, f => call i fun r => (k r).bind f

instance : Monad (Prog ρ) where
  pure := done
  bind := bind

theorem done_bind (a : α) (f : α → Prog ρ β) : (done a >>= f) = f a := rfl

end Prog

/-- What the environment may do to the world, and how the world answers operations. -/
structure Setting (ρ : ι → Type) (W : Type) where
  env : W → W → Prop
  act : W → (i : ι) → ρ i → W → Prop

namespace Setting

variable (S : Setting ρ W)

/-- An execution: `Exec p w a w'` when `p` can return `a`, leading from `w` to `w'`. -/
inductive Exec : Prog ρ α → W → α → W → Prop
  | done {a : α} {w : W} : Exec (.done a) w a w
  | env {p : Prog ρ α} {a : α} {w w' w'' : W} (he : S.env w w') (h : Exec p w' a w'') :
      Exec p w a w''
  | call {i : ι} {k : ρ i → Prog ρ α} {r : ρ i} {a : α} {w w' w'' : W} (ha : S.act w i r w')
      (h : Exec (k r) w' a w'') : Exec (.call i k) w a w''

/-- Whatever is returned in whatever world, the postcondition holds there. -/
def Ensures (p : Prog ρ α) (w : W) (Q : α → W → Prop) : Prop :=
  ∀ a w', S.Exec p w a w' → Q a w'

variable {S}

/-- **Invariant rule.** What the environment and the operations keep, an execution keeps. -/
theorem Exec.invariant {I : W → Prop} (henv : ∀ w w', I w → S.env w w' → I w')
    (hact : ∀ w i r w', I w → S.act w i r w' → I w') {p : Prog ρ α} {w w' : W} {a : α}
    (h : S.Exec p w a w') (hw : I w) : I w' := by
  induction h with
  | done => exact hw
  | env he _ ih => exact ih (henv _ _ hw he)
  | call ha _ ih => exact ih (hact _ _ _ _ hw ha)

/-- What the environment keeps, holds wherever it leads. -/
theorem env_invariant {I : W → Prop} (henv : ∀ w w', I w → S.env w w' → I w') {w w' : W}
    (h : Relation.ReflTransGen S.env w w') (hw : I w) : I w' := by
  induction h with
  | refl => exact hw
  | tail _ he ih => exact henv _ _ ih he

theorem Exec.done_inv {a b : α} {w w' : W} (h : S.Exec (.done a) w b w') :
    b = a ∧ Relation.ReflTransGen S.env w w' := by
  generalize hp : Prog.done a = p at h
  induction h with
  | done =>
    cases hp
    exact ⟨rfl, .refl⟩
  | env he _ ih =>
    obtain ⟨hb, hw⟩ := ih hp
    exact ⟨hb, .head he hw⟩
  | call _ _ _ => cases hp

theorem Exec.call_inv {i : ι} {k : ρ i → Prog ρ α} {a : α} {w w' : W}
    (h : S.Exec (.call i k) w a w') : ∃ w₁ r w₂,
      Relation.ReflTransGen S.env w w₁ ∧ S.act w₁ i r w₂ ∧ S.Exec (k r) w₂ a w' := by
  generalize hp : Prog.call i k = p at h
  induction h with
  | done => cases hp
  | env he _ ih =>
    obtain ⟨w₁, r, w₂, hw, ha, h⟩ := ih hp
    exact ⟨w₁, r, w₂, .head he hw, ha, h⟩
  | call ha h _ =>
    cases hp
    exact ⟨_, _, _, .refl, ha, h⟩

/-- The environment may go on when the result is there. -/
theorem Exec.trailing {p : Prog ρ α} {a : α} {w w' w'' : W} (h : S.Exec p w a w')
    (henv : Relation.ReflTransGen S.env w' w'') : S.Exec p w a w'' := by
  induction h with
  | done =>
    induction henv using Relation.ReflTransGen.head_induction_on with
    | refl => exact .done
    | head he _ ih => exact .env he ih
  | env he _ ih => exact .env he (ih henv)
  | call ha _ ih => exact .call ha (ih henv)

/-- An execution of two programs is one of the first and one of the second. -/
theorem Exec.bind_inv {p : Prog ρ α} {f : α → Prog ρ β} {b : β} {w w' : W}
    (h : S.Exec (p >>= f) w b w') : ∃ a w₁, S.Exec p w a w₁ ∧ S.Exec (f a) w₁ b w' := by
  generalize hq : p >>= f = q at h
  induction h generalizing p with
  | done =>
    cases p with
    | done a =>
      rw [Prog.done_bind] at hq
      exact ⟨a, _, .done, hq ▸ .done⟩
    | call i k => cases hq
  | env he _ ih =>
    obtain ⟨a, w₁, hp, hf⟩ := ih hq
    exact ⟨a, w₁, .env he hp, hf⟩
  | call ha h ih =>
    cases p with
    | done a =>
      rw [Prog.done_bind] at hq
      exact ⟨a, _, .done, hq ▸ .call ha h⟩
    | call i k =>
      cases hq
      obtain ⟨a, w₁, hk, hf⟩ := ih rfl
      exact ⟨a, w₁, .call ha hk, hf⟩

namespace Ensures

variable {w : W}

/-- A result is returned where the environment has led. -/
theorem done {a : α} {Q : α → W → Prop} (hQ : Q a w)
    (hstable : ∀ w w', Q a w → S.env w w' → Q a w') : S.Ensures (.done a) w Q := fun b w' h => by
  obtain ⟨rfl, henv⟩ := h.done_inv
  exact env_invariant hstable henv hQ

/-- An operation is performed where the environment has led. -/
theorem call {i : ι} {k : ρ i → Prog ρ α} {I : W → Prop} {Q : α → W → Prop} (hI : I w)
    (hstable : ∀ w w', I w → S.env w w' → I w')
    (hk : ∀ w₁ r w₂, I w₁ → S.act w₁ i r w₂ → S.Ensures (k r) w₂ Q) :
    S.Ensures (.call i k) w Q := fun a w' h => by
  obtain ⟨w₁, r, w₂, henv, ha, h⟩ := h.call_inv
  exact hk w₁ r w₂ (env_invariant hstable henv hI) ha a w' h

theorem bind {p : Prog ρ α} {f : α → Prog ρ β} {R : α → W → Prop} {Q : β → W → Prop}
    (hp : S.Ensures p w R) (hf : ∀ a w', R a w' → S.Ensures (f a) w' Q) :
    S.Ensures (p >>= f) w Q := fun b w' h => by
  obtain ⟨a, w₁, hp', hf'⟩ := h.bind_inv
  exact hf a w₁ (hp a w₁ hp') b w' hf'

/-- A result that is only passed on. -/
theorem map {p : Prog ρ α} {f : α → β} {Q : β → W → Prop}
    (hp : S.Ensures p w fun a => Q (f a)) : S.Ensures (p >>= fun a => .done (f a)) w Q :=
  fun b w' h => by
    obtain ⟨a, w₁, hp', hf⟩ := h.bind_inv
    obtain ⟨rfl, henv⟩ := hf.done_inv
    exact hp a w' (hp'.trailing henv)

theorem mono {p : Prog ρ α} {Q Q' : α → W → Prop} (h : S.Ensures p w Q)
    (hQ : ∀ a w', Q a w' → Q' a w') : S.Ensures p w Q' := fun a w' he => hQ a w' (h a w' he)

end Ensures

end Setting

end Interleaved
