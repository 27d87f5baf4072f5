import Takler.Server.Invariant

/-!
# Limit accounting

A limit counts the tokens of the tasks in flight below its in-limits, each task with the nearest of
them, and never counts more than it has. The invariant `Accounted` says so for every limit of the
bunch. Here is what a task that takes or gives back its tokens does to it; that every operation keeps
it, the deletion of an in-limit included, is in `Takler.Server.LimitSafety`.

## Main definitions

* `Ledger`, `Accounted`: the invariant, up to a set of tasks.

## Main results

* `State.checkInLimitUp_iff`: what `check_in_limit_up` checks.
* `Ledger.acquire`, `Ledger.release`: a task takes or gives back its tokens.
* `Accounted.acquired`, `Accounted.released`: the same for the limits of a state.
-/

namespace Takler

open Program

/-! ### The capacity check -/

theorem State.hasCapacity_iff {s : State} {p : NodePath} {items : List InLimit} :
    ∀ {seen : List LimitId}, s.hasCapacity p items seen = true ↔
      ∀ id ∉ seen, ∀ tokens, effectiveTokens items id = some tokens →
        (s.limit id).value + (if p ∈ (s.limit id).holders then 0 else tokens) ≤
          (s.limit id).limit := by
  induction items with
  | nil => simp [State.hasCapacity, effectiveTokens]
  | cons item items ih =>
    intro seen
    rw [State.hasCapacity]
    by_cases hseen : item.limit ∈ seen
    · rw [if_pos hseen, ih]
      refine forall₂_congr fun id hid => ?_
      have hne : item.limit ≠ id := fun heq => hid (heq ▸ hseen)
      rw [effectiveTokens_cons_of_ne hne]
    rw [if_neg hseen]
    by_cases hcap : (s.limit item.limit).value +
        (if p ∈ (s.limit item.limit).holders then 0 else item.tokens) > (s.limit item.limit).limit
    · refine iff_of_false (by simp [hcap]) fun h => ?_
      exact absurd (h item.limit hseen item.tokens (effectiveTokens_cons_self item items))
        (Nat.not_le.mpr hcap)
    · simp only [hcap, if_false, ih]
      constructor
      · intro h id hid tokens ht
        by_cases heq : item.limit = id
        · subst heq
          rw [effectiveTokens_cons_self, Option.some_inj] at ht
          exact ht ▸ Nat.not_lt.mp hcap
        · rw [effectiveTokens_cons_of_ne heq] at ht
          exact h id (by simp [hid, Ne.symm heq]) tokens ht
      · intro h id hid tokens ht
        have hne : item.limit ≠ id := fun heq => hid (heq ▸ List.mem_cons_self)
        exact h id (fun hm => hid (List.mem_cons_of_mem _ hm)) tokens
          ((effectiveTokens_cons_of_ne hne items).trans ht)

/-- The nearest in-limit of every limit fits, or the task holds the limit already. -/
theorem State.checkInLimitUp_iff {s : State} {p : NodePath} : s.checkInLimitUp p = true ↔
    ∀ id tokens, effectiveTokens (s.inLimitsUp p) id = some tokens →
      (s.limit id).value + (if p ∈ (s.limit id).holders then 0 else tokens) ≤
        (s.limit id).limit := by
  simp [State.checkInLimitUp, State.hasCapacity_iff]

theorem State.inLimitsUp_congr {s s' : State} (h : s'.inLimits = s.inLimits) :
    ∀ p : NodePath, s'.inLimitsUp p = s.inLimitsUp p
  | [] => rfl
  | n :: up => by rw [State.inLimitsUp, State.inLimitsUp, h, State.inLimitsUp_congr h up]

theorem State.checkInLimitUp_congr {s s' : State} (hl : s'.limit = s.limit)
    (hi : s'.inLimits = s.inLimits) (p : NodePath) :
    s'.checkInLimitUp p = s.checkInLimitUp p := by
  rw [Bool.eq_iff_iff, State.checkInLimitUp_iff, State.checkInLimitUp_iff,
    State.inLimitsUp_congr hi, hl]

/-! ### The ledger -/

/-- The limits count the tasks in flight, each with the nearest of the in-limits met going up from
it, up to the tasks of `D`, whose tokens do not follow their status yet. -/
structure Ledger (b : Bunch) (D : Set NodePath) (inFlight : NodePath → Bool)
    (up : NodePath → List InLimit) (limit : LimitId → Account NodePath) : Prop where
  balanced : ∀ id, (limit id).Balanced fun p => tokensFor (up p) id
  capped : ∀ id, (limit id).value ≤ (limit id).limit
  isTask : ∀ id, ∀ p ∈ (limit id).holders, b.isTask p = true
  bound : ∀ id, ∀ p ∈ (limit id).holders, id ∈ (up p).map InLimit.limit
  holds : ∀ p, b.isTask p = true → p ∉ D → ∀ id, p ∈ (limit id).holders ↔
    inFlight p = true ∧ id ∈ (up p).map InLimit.limit

namespace Ledger

variable {b : Bunch} {D D' : Set NodePath} {f f' : NodePath → Bool}
  {up up' : NodePath → List InLimit} {L : LimitId → Account NodePath} {p : NodePath}

theorem mono (h : Ledger b D f up L) (hD : D ⊆ D') : Ledger b D' f up L :=
  { h with holds := fun p hp hpD => h.holds p hp fun hm => hpD (hD hm) }

theorem congr (h : Ledger b D f up L) (hf : ∀ p, b.isTask p = true → p ∉ D → f' p = f p) :
    Ledger b D f' up L :=
  { h with holds := fun p hp hD id => hf p hp hD ▸ h.holds p hp hD id }

/-- **A task out of flight gives its tokens back.** -/
theorem release (h : Ledger b D f up L) (hf : f p = false) :
    Ledger b (D \ {p}) f up fun id => (L id).release (tokensFor (up p) id) p := by
  have hholders (id : LimitId) : ((L id).release (tokensFor (up p) id) p).holders =
      (L id).holders.erase p := (h.balanced id).holders_release p
  refine ⟨fun id => (h.balanced id).release p, fun id => ?_, fun id q hq => ?_,
    fun id q hq => ?_, fun q hq hD id => ?_⟩
  · rw [Account.limit_release]
    exact (Account.value_release_le _ p).trans (h.capped id)
  · exact h.isTask id q (Finset.mem_of_mem_erase (hholders id ▸ hq))
  · exact h.bound id q (Finset.mem_of_mem_erase (hholders id ▸ hq))
  · rw [hholders, Finset.mem_erase]
    by_cases hqp : q = p
    · subst hqp
      simp [hf]
    · have := h.holds q hq (fun hm => hD ⟨hm, hqp⟩) id
      exact ⟨fun hm => this.mp hm.2, fun hm => ⟨hqp, this.mpr hm⟩⟩

/-- **A task in flight whose in-limits fit takes its tokens.** -/
theorem acquire (h : Ledger b D f up L) (hp : b.isTask p = true) (hf : f p = true)
    (hc : ∀ id tokens, effectiveTokens (up p) id = some tokens →
      (L id).value + (if p ∈ (L id).holders then 0 else tokens) ≤ (L id).limit) :
    Ledger b (D \ {p}) f up fun id => if id ∈ (up p).map InLimit.limit then
      (L id).acquire (tokensFor (up p) id) p else L id := by
  refine ⟨fun id => ?_, fun id => ?_, fun id q hq => ?_, fun id q hq => ?_, fun q hq hD id => ?_⟩
  · split_ifs
    · exact (h.balanced id).acquire p
    · exact h.balanced id
  · split_ifs with hid
    · obtain ⟨tokens, ht⟩ := Option.isSome_iff_exists.mp (effectiveTokens_isSome.mpr hid)
      have := hc id tokens ht
      rw [Account.limit_acquire, tokensFor, ht, Option.getD_some, Account.acquire]
      split_ifs with hm
      · exact h.capped id
      · simpa [hm] using this
    · exact h.capped id
  · split_ifs at hq with hid
    · rcases Finset.mem_insert.mp (Account.holders_acquire _ p ▸ hq) with rfl | hq
      · exact hp
      · exact h.isTask id q hq
    · exact h.isTask id q hq
  · split_ifs at hq with hid
    · rcases Finset.mem_insert.mp (Account.holders_acquire _ p ▸ hq) with rfl | hq
      · exact hid
      · exact h.bound id q hq
    · exact h.bound id q hq
  · by_cases hqp : q = p
    · subst hqp
      split_ifs with hid
      · simp [hf, hid]
      · exact iff_of_false (fun hm => hid (h.bound id q hm)) fun hm => hid hm.2
    · rw [← h.holds q hq (fun hm => hD ⟨hm, hqp⟩) id]
      split_ifs with hid
      · simp [hqp]
      · rfl

/-- The one task that was not in order is in order. -/
theorem close (h : Ledger b {p} f up L) (hp : ∀ id, p ∈ (L id).holders ↔
    f p = true ∧ id ∈ (up p).map InLimit.limit) : Ledger b ∅ f up L :=
  { h with
    holds := fun q hq _ id => by
      by_cases hqp : q = p
      · exact hqp ▸ hp id
      · exact h.holds q hq hqp id }

/-- Other in-limits, of which no holder and no task in order sees a difference. -/
theorem rebound (h : Ledger b D f up L)
    (hh : ∀ id, ∀ q ∈ (L id).holders, effectiveTokens (up' q) id = effectiveTokens (up q) id)
    (hq : ∀ q, b.isTask q = true → q ∉ D → f q = true → ∀ id,
      effectiveTokens (up' q) id = effectiveTokens (up q) id) : Ledger b D f up' L where
  balanced id := (h.balanced id).congr fun q hm => by rw [tokensFor, tokensFor, hh id q hm]
  capped := h.capped
  isTask := h.isTask
  bound id q hm := by
    rw [← effectiveTokens_isSome, hh id q hm, effectiveTokens_isSome]
    exact h.bound id q hm
  holds q hb hD id := by
    rw [h.holds q hb hD id]
    refine and_congr_right fun hf => ?_
    rw [← effectiveTokens_isSome, ← effectiveTokens_isSome, hq q hb hD hf id]

/-- A task gives back the tokens of one limit. -/
theorem releaseOne (h : Ledger b D f up L) (p : NodePath) (i : LimitId) :
    Ledger b (insert p D) f up (Function.update L i
      ((L i).release (tokensFor (up p) i) p)) := by
  have hholders : ((L i).release (tokensFor (up p) i) p).holders = (L i).holders.erase p :=
    (h.balanced i).holders_release p
  have hmem {id : LimitId} {q : NodePath} (hq : q ∈ (Function.update L i
      ((L i).release (tokensFor (up p) i) p) id).holders) : q ∈ (L id).holders := by
    by_cases hid : id = i
    · subst hid
      rw [Function.update_self, hholders] at hq
      exact Finset.mem_of_mem_erase hq
    · rwa [Function.update_of_ne hid] at hq
  refine ⟨fun id => ?_, fun id => ?_, fun id q hq => h.isTask id q (hmem hq),
    fun id q hq => h.bound id q (hmem hq), fun q hq hD id => ?_⟩
  · by_cases hid : id = i
    · subst hid
      rw [Function.update_self]
      exact (h.balanced id).release p
    · rw [Function.update_of_ne hid]
      exact h.balanced id
  · by_cases hid : id = i
    · subst hid
      rw [Function.update_self, Account.limit_release]
      exact (Account.value_release_le _ p).trans (h.capped id)
    · rw [Function.update_of_ne hid]
      exact h.capped id
  · have hqp : q ≠ p := fun heq => hD (heq ▸ Set.mem_insert p D)
    rw [← h.holds q hq (fun hm => hD (Set.mem_insert_of_mem p hm)) id]
    by_cases hid : id = i
    · subst hid
      rw [Function.update_self, hholders, Finset.mem_erase]
      exact and_iff_right hqp
    · rw [Function.update_of_ne hid]

/-- A task takes the tokens of one limit of its in-limits. -/
theorem acquireOne (h : Ledger b D f up L) (hp : b.isTask p = true) {i : LimitId}
    (hi : i ∈ (up p).map InLimit.limit)
    (hc : (L i).value + tokensFor (up p) i ≤ (L i).limit) :
    Ledger b (insert p D) f up (Function.update L i
      ((L i).acquire (tokensFor (up p) i) p)) := by
  have hmem {id : LimitId} {q : NodePath} (hq : q ∈ (Function.update L i
      ((L i).acquire (tokensFor (up p) i) p) id).holders) :
      q ∈ (L id).holders ∨ (q = p ∧ id = i) := by
    by_cases hid : id = i
    · subst hid
      rw [Function.update_self, Account.holders_acquire, Finset.mem_insert] at hq
      exact hq.symm.imp_right fun heq => ⟨heq, rfl⟩
    · rw [Function.update_of_ne hid] at hq
      exact .inl hq
  refine ⟨fun id => ?_, fun id => ?_, fun id q hq => ?_, fun id q hq => ?_, fun q hq hD id => ?_⟩
  · by_cases hid : id = i
    · subst hid
      rw [Function.update_self]
      exact (h.balanced id).acquire p
    · rw [Function.update_of_ne hid]
      exact h.balanced id
  · by_cases hid : id = i
    · subst hid
      rw [Function.update_self, Account.limit_acquire, Account.acquire]
      split_ifs
      · exact h.capped id
      · exact hc
    · rw [Function.update_of_ne hid]
      exact h.capped id
  · rcases hmem hq with hq | ⟨rfl, -⟩
    · exact h.isTask id q hq
    · exact hp
  · rcases hmem hq with hq | ⟨rfl, rfl⟩
    · exact h.bound id q hq
    · exact hi
  · have hqp : q ≠ p := fun heq => hD (heq ▸ Set.mem_insert p D)
    rw [← h.holds q hq (fun hm => hD (Set.mem_insert_of_mem p hm)) id]
    by_cases hid : id = i
    · subst hid
      simp [hqp]
    · rw [Function.update_of_ne hid]

end Ledger

/-! ### The invariant -/

/-- The limits of a state are a ledger, up to the tasks of `D`. -/
def Accounted (b : Bunch) (D : Set NodePath) (s : State) : Prop :=
  Ledger b D (fun p => (s.node p).status.inFlight) s.inLimitsUp s.limit

namespace Accounted

variable {b : Bunch} {D : Set NodePath} {s s' : State} {p : NodePath}

private theorem of_ledger (hi : s'.inLimits = s.inLimits) (hn : s'.node = s.node)
    (h : Ledger b D (fun p => (s.node p).status.inFlight) s.inLimitsUp s'.limit) :
    Accounted b D s' := by
  rw [Accounted, hn, funext (State.inLimitsUp_congr hi)]
  exact h

/-- The invariant is about limits, in-limits and which tasks are in flight. -/
theorem congr (h : Accounted b D s) (hl : s'.limit = s.limit) (hi : s'.inLimits = s.inLimits)
    (hs : ∀ p, b.isTask p = true → p ∉ D →
      (s'.node p).status.inFlight = (s.node p).status.inFlight) : Accounted b D s' := by
  rw [Accounted, hl, funext (State.inLimitsUp_congr hi)]
  exact Ledger.congr h hs

theorem checkInLimitUp (h : Accounted b ∅ s) (hp : b.isTask p = true)
    (hf : (s.node p).status.inFlight = true) : s.checkInLimitUp p = true := by
  rw [State.checkInLimitUp_iff]
  intro id tokens ht
  have hmem : p ∈ (s.limit id).holders := by
    rw [h.holds p hp (Set.notMem_empty p) id]
    exact ⟨hf, effectiveTokens_isSome.mp (by simp [ht])⟩
  simpa [hmem] using h.capped id

theorem released (h : Accounted b D s) (hf : (s.node p).status.inFlight = false)
    (hs : State.LimitsUpdated p s s') : Accounted b (D \ {p}) s' := by
  obtain ⟨marks, rfl⟩ := hs
  rw [if_neg (by simp [hf])]
  have heq : s.released p = fun id => (s.limit id).release (tokensFor (s.inLimitsUp p) id) p := by
    funext id
    unfold State.released State.changed tokensFor
    cases ht : effectiveTokens (s.inLimitsUp p) id with
    | some tokens => rfl
    | none =>
      refine (Account.release_of_notMem (fun hp => ?_) _).symm
      simpa [ht] using effectiveTokens_isSome.mpr (h.bound id p hp)
  refine of_ledger (s := s) rfl rfl ?_
  simp only [heq]
  exact Ledger.release h hf

theorem acquired (h : Accounted b D s) (hp : b.isTask p = true)
    (hf : (s.node p).status.inFlight = true) (hc : s.checkInLimitUp p = true)
    (hs : State.LimitsUpdated p s s') : Accounted b (D \ {p}) s' := by
  obtain ⟨marks, rfl⟩ := hs
  rw [if_pos hf]
  have heq : s.acquired p = fun id => if id ∈ (s.inLimitsUp p).map InLimit.limit then
      (s.limit id).acquire (tokensFor (s.inLimitsUp p) id) p else s.limit id := by
    funext id
    simp only [← effectiveTokens_isSome]
    unfold State.acquired State.changed tokensFor
    cases effectiveTokens (s.inLimitsUp p) id <;> simp
  refine of_ledger (s := s) rfl rfl ?_
  simp only [heq]
  exact Ledger.acquire h hp hf (State.checkInLimitUp_iff.mp hc)

/-- The tokens of a task in order follow its status already. -/
theorem touched (h : Accounted b ∅ s) (hp : b.isTask p = true)
    (hs : State.LimitsUpdated p s s') : Accounted b ∅ s' := by
  cases hf : (s.node p).status.inFlight with
  | false => simpa using h.released hf hs
  | true => simpa using h.acquired hp hf (h.checkInLimitUp hp hf) hs

end Accounted

end Takler
