import Takler.Core.Node

/-!
# What the limit operations do

A task takes and gives back tokens by walking over the in-limits on itself and on its ancestors.
The walk keeps a set of limits it has seen, so that the nearest in-limit of a limit counts; the set
compares limits by name and size, so a limit may stay out of it, and then the walk changes that
limit twice. The second time does nothing, because a holder is entered once and removed once. So
the walk changes each limit once, with the tokens of the nearest in-limit.

## Main definitions

* `tokensFor`: the tokens of the nearest in-limit of a limit.
* `State.acquired`, `State.released`: the limits after a walk.

## Main results

* `exec_changeInLimits`: a walk changes each limit once.
* `exec_updateLimits`: a task takes or gives back its tokens, and otherwise leaves change marks
  only.
-/

namespace Takler

open Program

/-- The tokens of the first of some in-limits that is bound to a limit, or none at all. -/
def tokensFor (items : List InLimit) (id : LimitId) : ℕ := (effectiveTokens items id).getD 0

/-- A limit after a walk over some in-limits changed it with `f`. -/
def State.changed (s : State) (f : ℕ → Account NodePath → Account NodePath)
    (items : List InLimit) (id : LimitId) : Account NodePath :=
  match effectiveTokens items id with
  | none => s.limit id
  | some tokens => f tokens (s.limit id)

/-- A limit after a task took the tokens of the nearest of its in-limits. -/
def State.acquired (s : State) (p : NodePath) : LimitId → Account NodePath :=
  s.changed (fun tokens a => a.acquire tokens p) (s.inLimitsUp p)

/-- A limit after a task gave back the tokens of the nearest of its in-limits. -/
def State.released (s : State) (p : NodePath) : LimitId → Account NodePath :=
  s.changed (fun tokens a => a.release tokens p) (s.inLimitsUp p)

theorem effectiveTokens_cons_self (item : InLimit) (items : List InLimit) :
    effectiveTokens (item :: items) item.limit = some item.tokens := by
  simp [effectiveTokens]

theorem effectiveTokens_cons_of_ne {item : InLimit} {id : LimitId} (h : item.limit ≠ id)
    (items : List InLimit) : effectiveTokens (item :: items) id = effectiveTokens items id := by
  simp [effectiveTokens, h]

theorem effectiveTokens_isSome {items : List InLimit} {id : LimitId} :
    (effectiveTokens items id).isSome ↔ id ∈ items.map InLimit.limit := by
  simp [effectiveTokens, List.find?_isSome]

theorem State.mem_limitSetAdd {s : State} {seen : List LimitId} {id j : LimitId} (h : j ≠ id) :
    j ∈ s.limitSetAdd seen id ↔ j ∈ seen := by
  unfold State.limitSetAdd
  split_ifs
  · rfl
  · simp [h]

theorem exec_increment (id : LimitId) (tokens : ℕ) (p : NodePath) (s : State) :
    ∃ marks, exec (Limit.increment id tokens p) s = (.ok (), { s with
      limit := Function.update s.limit id ((s.limit id).acquire tokens p), marks }) := by
  simp only [Limit.increment, exec_bind, exec_get]
  split_ifs with h
  · refine ⟨s.marks, ?_⟩
    rw [Account.acquire_of_mem h, Function.update_eq_self]
    rfl
  · exact ⟨_, rfl⟩

theorem exec_decrement (id : LimitId) (tokens : ℕ) (p : NodePath) (s : State) :
    ∃ marks, exec (Limit.decrement id tokens p) s = (.ok (), { s with
      limit := Function.update s.limit id ((s.limit id).release tokens p), marks }) := by
  simp only [Limit.decrement, exec_bind, exec_get]
  split_ifs with h
  · exact ⟨_, rfl⟩
  · refine ⟨s.marks, ?_⟩
    rw [Account.release_of_notMem h, Function.update_eq_self]
    rfl

/-- A walk changes every limit it meets and has not seen, once: a second change does nothing. -/
theorem exec_changeInLimits {change : LimitId → ℕ → M Unit}
    {f : ℕ → Account NodePath → Account NodePath}
    (hchange : ∀ id tokens s, ∃ marks, exec (change id tokens) s = (.ok (), { s with
      limit := Function.update s.limit id (f tokens (s.limit id)), marks }))
    (hf : ∀ k l a, f k (f l a) = f l a) (items : List InLimit) :
    ∀ (seen : List LimitId) (s : State), ∃ marks,
      exec (changeInLimits change items seen) s = (.ok (), { s with
        limit := fun id => if id ∈ seen then s.limit id else s.changed f items id, marks }) := by
  induction items with
  | nil =>
    intro seen s
    refine ⟨s.marks, ?_⟩
    simp [changeInLimits, State.changed, effectiveTokens]
  | cons item items ih =>
    intro seen s
    rw [changeInLimits]
    split_ifs with hseen
    · obtain ⟨marks, h⟩ := ih seen s
      refine ⟨marks, ?_⟩
      rw [h]
      congr 3
      funext id
      split_ifs with hid
      · rfl
      · have hne : item.limit ≠ id := fun heq => hid (heq ▸ hseen)
        simp only [State.changed, effectiveTokens_cons_of_ne hne]
    · obtain ⟨marks₁, h₁⟩ := hchange item.limit item.tokens s
      obtain ⟨marks, h⟩ := ih (s.limitSetAdd seen item.limit) { s with
        limit := Function.update s.limit item.limit (f item.tokens (s.limit item.limit))
        marks := marks₁ }
      refine ⟨marks, ?_⟩
      simp only [exec_bind, exec_get, h₁, h]
      congr 3
      funext id
      by_cases heq : id = item.limit
      · subst heq
        simp only [State.changed, Function.update_self, hseen, if_false,
          effectiveTokens_cons_self]
        split_ifs
        · rfl
        · cases effectiveTokens items item.limit with
          | none => rfl
          | some k => exact hf k _ _
      · simp only [State.changed, Function.update_of_ne heq, State.mem_limitSetAdd heq,
          effectiveTokens_cons_of_ne (Ne.symm heq)]

theorem exec_incrementInLimit (p : NodePath) (s : State) : ∃ marks,
    exec (incrementInLimit p) s = (.ok (), { s with limit := s.acquired p, marks }) := by
  obtain ⟨marks, h⟩ := exec_changeInLimits (f := fun tokens a => a.acquire tokens p)
    (fun id tokens s => exec_increment id tokens p s) (fun k l _ => Account.acquire_acquire k l p)
    (s.inLimitsUp p) [] s
  refine ⟨marks, ?_⟩
  simpa [incrementInLimit, exec_bind, State.acquired] using h

theorem exec_decrementInLimit (p : NodePath) (s : State) : ∃ marks,
    exec (decrementInLimit p) s = (.ok (), { s with limit := s.released p, marks }) := by
  obtain ⟨marks, h⟩ := exec_changeInLimits (f := fun tokens a => a.release tokens p)
    (fun id tokens s => exec_decrement id tokens p s) (fun k l _ => Account.release_release k l p)
    (s.inLimitsUp p) [] s
  refine ⟨marks, ?_⟩
  simpa [decrementInLimit, exec_bind, State.released] using h

/-- `Task.update_limits` changes the limits and leaves change marks, nothing else. -/
theorem exec_updateLimits (p : NodePath) (s : State) : ∃ marks,
    exec (updateLimits p) s = (.ok (), { s with
      limit := if (s.node p).status.inFlight then s.acquired p else s.released p, marks }) := by
  simp only [updateLimits, exec_bind, exec_get]
  split_ifs
  · exact exec_incrementInLimit p s
  · exact exec_decrementInLimit p s

/-- The tokens of a task follow its status. -/
def State.LimitsUpdated (p : NodePath) (s s' : State) : Prop := ∃ marks, s' = { s with
  limit := if (s.node p).status.inFlight then s.acquired p else s.released p, marks }

theorem State.LimitsUpdated.indexKept {p : NodePath} {s s' : State}
    (h : State.LimitsUpdated p s s') : s.IndexKept s' := by
  obtain ⟨marks, rfl⟩ := h
  exact .of_eq rfl rfl

theorem effect_updateLimits (p : NodePath) :
    Effect (State.LimitsUpdated p) (updateLimits p) := by
  intro s
  obtain ⟨marks, h⟩ := exec_updateLimits p s
  exact ⟨_, h, marks, rfl⟩

/-! ### Deleting an in-limit -/

/-- Nodes and flows are as they were. -/
structure State.SameNodes (s s' : State) : Prop where
  node : s'.node = s.node
  flow : s'.flow = s.flow
  moved : s'.moved = s.moved
  parameterValue : s'.parameterValue = s.parameterValue
  draws : s.Draws s'

instance : Std.Refl State.SameNodes := ⟨fun s => ⟨rfl, rfl, rfl, rfl, .refl s⟩⟩

instance : IsTrans State State.SameNodes :=
  ⟨fun _ _ _ h h' =>
    ⟨h'.node.trans h.node, h'.flow.trans h.flow, h'.moved.trans h.moved,
      h'.parameterValue.trans h.parameterValue, h.draws.trans h'.draws⟩⟩

theorem sameNodes_increment (id : LimitId) (tokens : ℕ) (p : NodePath) :
    Within State.SameNodes (Limit.increment id tokens p) := by
  intro s
  obtain ⟨marks, h⟩ := exec_increment id tokens p s
  rw [h]
  exact ⟨rfl, rfl, rfl, rfl, rfl, le_rfl⟩

theorem sameNodes_decrement (id : LimitId) (tokens : ℕ) (p : NodePath) :
    Within State.SameNodes (Limit.decrement id tokens p) := by
  intro s
  obtain ⟨marks, h⟩ := exec_decrement id tokens p s
  rw [h]
  exact ⟨rfl, rfl, rfl, rfl, rfl, le_rfl⟩

/-- The deletion of an in-limit is about limits only. -/
theorem sameNodes_deleteInLimit (p : NodePath) (t : Tree) (name : String) :
    Within State.SameNodes (deleteInLimit p t name) := by
  refine Within.get.bind fun s => ?_
  split
  · exact Within.pure _
  · refine .ite (.throw _) (.ite (.throw _) (.ite (.throw _) (.ite (.throw _) ?_)))
    exact Within.bind (Within.modify fun _ => ⟨rfl, rfl, rfl, rfl, rfl, le_rfl⟩) fun _ =>
      Within.bind (.when (.bind (sameNodes_decrement _ _ p) fun _ =>
        .when (sameNodes_increment _ _ p))) fun _ => .pure _

end Takler
