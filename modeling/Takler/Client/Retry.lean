import Mathlib

/-!
# Retrying a call

`run_with_retry` (`client/retry.py`) repeats an attempt until it succeeds, fails for good, or the
window of its policy is over. Between two attempts it waits for a delay that doubles up to a
maximum, and never for longer than the window lasts.

Times are rational numbers of seconds since the first reading of the clock. What a call meets is a
`World`: the outcome of every attempt, how long it takes, and by how much every sleep is too long.

## Main definitions

* `backoffSeconds`, `RetryPolicy.nextDelay`, `runWithRetry`: the functions of the source.
* `RetryPolicy.elapsed`: the time that is read after an attempt.
* `RetryPolicy.EndsAt`: the attempt at which a call ends, and how.

## Main results

* `RetryPolicy.min_le_started`: progress. An attempt starts after as many seconds as there were
  attempts before it, or when the window is over.
* `runWithRetry_of_endsAt`: what the loop does.
* `runWithRetry_window`: a call ends, in time.
-/

namespace Takler.Client

/-- The exceptions that a call raises. -/
inductive ClientException
  | invalidRequest
  | nodeNotFound
  | permissionDenied
  | clientConnection
  | transport
deriving DecidableEq

/-- `FailureCategory`, with the exception that a verdict names for a wrong request. -/
inductive FailureCategory
  | retryable
  | nonRetryable (exceptionType : ClientException)
  | fatal
deriving DecidableEq

/-- `FailureVerdict`. -/
structure FailureVerdict where
  category : FailureCategory
  failureName : String
  details : String := ""

/-- What one attempt does. -/
inductive Attempt (T : Type)
  | success (value : T)
  | failure (verdict : FailureVerdict)

def maxBackoffSeconds : ℚ := 60

/-- `backoff_seconds`. -/
def backoffSeconds (attempt : ℕ) : ℚ :=
  if 7 ≤ attempt then maxBackoffSeconds else min (2 ^ ((attempt : ℤ) - 1)) maxBackoffSeconds

/-- `RetryPolicy`, without the deadline of an attempt. -/
structure RetryPolicy where
  retryWindow : ℚ

/-- `RetryPolicy.next_delay`. -/
def RetryPolicy.nextDelay (policy : RetryPolicy) (attempt : ℕ) (elapsed : ℚ) : Option ℚ :=
  let remaining := policy.retryWindow - elapsed
  if remaining ≤ 0 then none else some (min (backoffSeconds attempt) remaining)

/-- What a call meets. Attempts are counted from zero here. -/
structure World (T : Type) where
  attempt : ℕ → Attempt T
  /-- The time from the beginning of an attempt to the reading of the clock after it. -/
  duration : ℕ → ℚ
  /-- The time by which the sleep after an attempt is longer than asked for. -/
  oversleep : ℕ → ℚ
  duration_nonneg : ∀ k, 0 ≤ duration k
  oversleep_nonneg : ∀ k, 0 ≤ oversleep k

/-- A call that has ended: its result, the number of its attempts, and its delays. -/
structure Ended (T : Type) where
  result : Except (ClientException × String) T
  attempts : ℕ
  delays : List ℚ

variable {T : Type}

/-- The message for a failure that is not retried. -/
def FailureVerdict.message (verdict : FailureVerdict) (operationName listenAddress : String) :
    String :=
  operationName ++ " on server " ++ listenAddress ++ " failed with " ++ verdict.failureName ++
    ": " ++ verdict.details

/-- The message when the window is over. -/
def FailureVerdict.unreachable (verdict : FailureVerdict) (listenAddress : String)
    (attempts : ℕ) : String :=
  "server " ++ listenAddress ++ " is unreachable after " ++ toString attempts ++
    " attempts, last " ++ verdict.failureName

section Loop

variable (policy : RetryPolicy) (operationName listenAddress : String) (world : World T)

/-- The loop of `run_with_retry` after some attempts, at a time since the call has started. It
takes at most as many attempts as the first number says. -/
def retryLoop : ℕ → ℕ → ℚ → Option (Ended T)
  | 0, _, _ => none
  | fuel + 1, k, now =>
    match world.attempt k with
    | .success value => some ⟨.ok value, k + 1, []⟩
    | .failure verdict =>
      match verdict.category with
      | .nonRetryable exceptionType =>
        some ⟨.error (exceptionType, verdict.message operationName listenAddress), k + 1, []⟩
      | .fatal =>
        some ⟨.error (.transport, verdict.message operationName listenAddress), k + 1, []⟩
      | .retryable =>
        let elapsed := now + world.duration k
        match policy.nextDelay (k + 1) elapsed with
        | none =>
          some ⟨.error (.clientConnection, verdict.unreachable listenAddress (k + 1)), k + 1, []⟩
        | some delay =>
          (retryLoop fuel (k + 1) (elapsed + (delay + world.oversleep k))).map fun ended =>
            { ended with delays := delay :: ended.delays }

/-- `run_with_retry`, with a bound on the number of attempts. -/
def runWithRetry (fuel : ℕ) : Option (Ended T) :=
  retryLoop policy operationName listenAddress world fuel 0 0

end Loop

/-! ### Times -/

theorem one_le_backoffSeconds (k : ℕ) : 1 ≤ backoffSeconds (k + 1) := by
  rw [backoffSeconds]
  split_ifs
  · norm_num [maxBackoffSeconds]
  · refine le_min ?_ (by norm_num [maxBackoffSeconds])
    rw [Nat.cast_succ, add_sub_cancel_right, zpow_natCast]
    exact one_le_pow₀ (by norm_num)

namespace RetryPolicy

variable (policy : RetryPolicy) (world : World T)

theorem nextDelay_eq_none (attempt : ℕ) {elapsed : ℚ} :
    policy.nextDelay attempt elapsed = none ↔ policy.retryWindow ≤ elapsed := by
  simp [nextDelay]

theorem nextDelay_of_lt (attempt : ℕ) {elapsed : ℚ} (h : elapsed < policy.retryWindow) :
    policy.nextDelay attempt elapsed =
      some (min (backoffSeconds attempt) (policy.retryWindow - elapsed)) :=
  if_neg (by linarith)

/-- When an attempt starts, in a call that gets there. -/
def started : ℕ → ℚ
  | 0 => 0
  | k + 1 =>
    let elapsed := started k + world.duration k
    elapsed + ((policy.nextDelay (k + 1) elapsed).getD 0 + world.oversleep k)

/-- The time that is read after an attempt. -/
def elapsed (k : ℕ) : ℚ := policy.started world k + world.duration k

/-- The delay after an attempt. -/
def delay (k : ℕ) : ℚ := (policy.nextDelay (k + 1) (policy.elapsed world k)).getD 0

theorem started_succ (k : ℕ) :
    policy.started world (k + 1) =
      policy.elapsed world k + (policy.delay world k + world.oversleep k) := rfl

theorem started_le_elapsed (k : ℕ) : policy.started world k ≤ policy.elapsed world k :=
  le_add_of_nonneg_right (world.duration_nonneg k)

variable {policy world} in
theorem delay_of_lt {k : ℕ} (h : policy.elapsed world k < policy.retryWindow) :
    policy.delay world k =
      min (backoffSeconds (k + 1)) (policy.retryWindow - policy.elapsed world k) := by
  rw [delay, nextDelay_of_lt policy _ h, Option.getD_some]

theorem delay_nonneg (k : ℕ) : 0 ≤ policy.delay world k := by
  rcases lt_or_ge (policy.elapsed world k) policy.retryWindow with h | h
  · rw [delay_of_lt h]
    exact le_min (by linarith [one_le_backoffSeconds k]) (by linarith)
  · rw [delay, (nextDelay_eq_none policy _).mpr h, Option.getD_none]

theorem elapsed_add_delay_le_started (k : ℕ) :
    policy.elapsed world k + policy.delay world k ≤ policy.started world (k + 1) := by
  rw [started_succ]
  linarith [world.oversleep_nonneg k]

/-- **Progress.** A delay lasts for a second, or to the end of the window. -/
theorem min_le_started (k : ℕ) :
    min (k : ℚ) policy.retryWindow ≤ policy.started world k := by
  induction k with
  | zero => exact min_le_left _ _
  | succ k ih =>
    have hstarted := started_le_elapsed policy world k
    have hnext := elapsed_add_delay_le_started policy world k
    have hdelay := delay_nonneg policy world k
    rcases lt_or_ge (policy.elapsed world k) policy.retryWindow with h | h
    · rw [delay_of_lt h] at hnext
      have hone := one_le_backoffSeconds k
      rcases min_choice (backoffSeconds (k + 1)) (policy.retryWindow - policy.elapsed world k)
        with hmin | hmin
      · have hk : (k : ℚ) ≤ policy.elapsed world k := by
          rcases min_le_iff.mp (ih.trans hstarted) with hk | hk
          · exact hk
          · linarith
        refine (min_le_left _ _).trans ?_
        rw [Nat.cast_succ]
        linarith
      · refine (min_le_right _ _).trans ?_
        linarith
    · exact (min_le_right _ _).trans (by linarith)

variable {policy world} in
/-- Only within the window an attempt is followed by another one. -/
theorem lt_retryWindow {k : ℕ}
    (h : policy.elapsed world k < policy.retryWindow) : (k : ℚ) < policy.retryWindow := by
  rcases min_le_iff.mp
    ((min_le_started policy world k).trans (started_le_elapsed policy world k)) with hk | hk
  · exact hk.trans_lt h
  · exact absurd hk (not_le.mpr h)

/-- The delays of the first attempts. -/
def delays (k : ℕ) : List ℚ :=
  (List.range k).map (policy.delay world)

theorem sum_delays_succ (k : ℕ) :
    (policy.delays world (k + 1)).sum = (policy.delays world k).sum + policy.delay world k := by
  rw [delays, delays, List.range_succ, List.map_append, List.sum_append, List.map_singleton,
    List.sum_singleton]

theorem sum_delays_le_started (k : ℕ) :
    (policy.delays world k).sum ≤ policy.started world k := by
  induction k with
  | zero => exact le_refl 0
  | succ k ih =>
    rw [sum_delays_succ]
    linarith [started_le_elapsed policy world k,
      elapsed_add_delay_le_started policy world k]

/-! ### How a call ends -/

/-- An attempt is followed by another one. -/
def Retried (k : ℕ) : Prop :=
  (∃ verdict, world.attempt k = .failure verdict ∧ verdict.category = .retryable) ∧
    policy.elapsed world k < policy.retryWindow

variable {policy world} in
theorem sum_delays_le (hw : 0 ≤ policy.retryWindow) {k : ℕ}
    (h : ∀ j < k, policy.Retried world j) : (policy.delays world k).sum ≤ policy.retryWindow := by
  cases k with
  | zero => exact hw
  | succ k =>
    have hdelay := delay_of_lt (h k (Nat.lt_succ_self k)).2
    have hsum := sum_delays_le_started policy world k
    have hstarted := started_le_elapsed policy world k
    have hmin := min_le_right (backoffSeconds (k + 1))
      (policy.retryWindow - policy.elapsed world k)
    rw [sum_delays_succ, hdelay]
    linarith

variable (operationName listenAddress : String)

/-- What a call ends with at an attempt that is not followed by another one. -/
def lastResult (k : ℕ) : Except (ClientException × String) T :=
  match world.attempt k with
  | .success value => .ok value
  | .failure verdict =>
    match verdict.category with
    | .nonRetryable exceptionType =>
      .error (exceptionType, verdict.message operationName listenAddress)
    | .fatal => .error (.transport, verdict.message operationName listenAddress)
    | .retryable => .error (.clientConnection, verdict.unreachable listenAddress (k + 1))

/-- The attempt at which a call ends. -/
def EndsAt (k : ℕ) : Prop := (∀ j < k, policy.Retried world j) ∧ ¬ policy.Retried world k

variable {policy world}

theorem EndsAt.eq {k l : ℕ} (hk : policy.EndsAt world k) (hl : policy.EndsAt world l) : k = l := by
  rcases lt_trichotomy k l with h | h | h
  · exact absurd (hl.1 k h) hk.2
  · exact h
  · exact absurd (hk.1 l h) hl.2

theorem not_retried_of_floor_lt {k : ℕ} (h : ⌊policy.retryWindow⌋₊ < k) :
    ¬ policy.Retried world k :=
  fun hretried => absurd (Nat.le_floor (lt_retryWindow hretried.2).le) (not_le.mpr h)

variable (policy world) in
/-- A call ends before it makes more attempts than the window has seconds, and two. -/
theorem exists_endsAt : ∃ k ≤ ⌊policy.retryWindow⌋₊ + 1, policy.EndsAt world k := by
  classical
  have hend : ∃ k, ¬ policy.Retried world k := ⟨_, not_retried_of_floor_lt (Nat.lt_succ_self _)⟩
  refine ⟨Nat.find hend, Nat.find_min' hend (not_retried_of_floor_lt (Nat.lt_succ_self _)),
    fun j hj => not_not.mp (Nat.find_min hend hj), Nat.find_spec hend⟩

/-- The exception that ends a call at an attempt. -/
def RaisesAt (policy : RetryPolicy) (world : World T) (operationName listenAddress : String)
    (k : ℕ) (e : ClientException × String) : Prop :=
  ∃ verdict, world.attempt k = .failure verdict ∧
    ((∃ exceptionType, verdict.category = .nonRetryable exceptionType ∧
        e = (exceptionType, verdict.message operationName listenAddress)) ∨
      (verdict.category = .fatal ∧
        e = (.transport, verdict.message operationName listenAddress)) ∨
      (verdict.category = .retryable ∧ policy.retryWindow ≤ policy.elapsed world k ∧
        e = (.clientConnection, verdict.unreachable listenAddress (k + 1))))

variable {operationName listenAddress : String} {k : ℕ}

theorem not_retried_of_success {value : T} (h : world.attempt k = .success value) :
    ¬ policy.Retried world k := by
  rintro ⟨⟨verdict, hverdict, -⟩, -⟩
  rw [h] at hverdict
  cases hverdict

theorem lastResult_eq_ok {value : T} :
    lastResult world operationName listenAddress k = .ok value ↔
      world.attempt k = .success value := by
  rw [lastResult]
  cases hattempt : world.attempt k with
  | success v => simp
  | failure verdict => cases hcategory : verdict.category <;> simp [hcategory]

theorem RaisesAt.not_retried {e : ClientException × String}
    (h : policy.RaisesAt world operationName listenAddress k e) : ¬ policy.Retried world k := by
  rintro ⟨⟨verdict, hverdict, hcategory⟩, hlt⟩
  obtain ⟨verdict', hverdict', h⟩ := h
  cases hverdict.symm.trans hverdict'
  rcases h with ⟨exceptionType, h, -⟩ | ⟨h, -⟩ | ⟨-, h, -⟩
  · cases hcategory.symm.trans h
  · cases hcategory.symm.trans h
  · exact absurd hlt (not_lt.mpr h)

theorem lastResult_eq_error (h : ¬ policy.Retried world k) {e : ClientException × String} :
    lastResult world operationName listenAddress k = .error e ↔
      policy.RaisesAt world operationName listenAddress k e := by
  rw [lastResult, RaisesAt]
  cases hattempt : world.attempt k with
  | success v => simp
  | failure verdict =>
    cases hcategory : verdict.category with
    | nonRetryable exceptionType => simp [hcategory, eq_comm]
    | fatal => simp [hcategory, eq_comm]
    | retryable =>
      have hle : policy.retryWindow ≤ policy.elapsed world k :=
        not_lt.mp fun hlt => h ⟨⟨verdict, hattempt, hcategory⟩, hlt⟩
      simp [hcategory, hle, eq_comm]

end RetryPolicy

/-! ### The loop -/

section Loop

open RetryPolicy

variable {policy : RetryPolicy} {operationName listenAddress : String} {world : World T}

/-- An attempt that is followed by another one. -/
theorem retryLoop_of_retried {k : ℕ} (h : policy.Retried world k) (fuel : ℕ) :
    retryLoop policy operationName listenAddress world (fuel + 1) k (policy.started world k) =
      (retryLoop policy operationName listenAddress world fuel (k + 1)
        (policy.started world (k + 1))).map fun ended =>
          { ended with delays := policy.delay world k :: ended.delays } := by
  obtain ⟨⟨verdict, hattempt, hcategory⟩, hlt⟩ := h
  have hnext := nextDelay_of_lt policy (k + 1) hlt
  rw [started_succ, delay_of_lt hlt]
  rw [elapsed] at hnext
  simp only [retryLoop, hattempt, hcategory, hnext]
  rfl

/-- The last attempt. -/
theorem retryLoop_of_not_retried {k : ℕ} (h : ¬ policy.Retried world k) (fuel : ℕ) :
    retryLoop policy operationName listenAddress world (fuel + 1) k (policy.started world k) =
      some ⟨lastResult world operationName listenAddress k, k + 1, []⟩ := by
  rw [retryLoop, lastResult]
  cases hattempt : world.attempt k with
  | success value => rfl
  | failure verdict =>
    cases hcategory : verdict.category with
    | nonRetryable exceptionType => simp only [hcategory]
    | fatal => simp only [hcategory]
    | retryable =>
      have hle : policy.retryWindow ≤ policy.elapsed world k :=
        not_lt.mp fun hlt => h ⟨⟨verdict, hattempt, hcategory⟩, hlt⟩
      have hnext := (nextDelay_eq_none policy (k + 1)).mpr hle
      rw [elapsed] at hnext
      simp only [hcategory, hnext]

/-- The attempts up to the last one. -/
theorem retryLoop_of_endsAt {l : ℕ} (h : policy.EndsAt world l) :
    ∀ (n k fuel : ℕ), k + n = l → n < fuel →
      retryLoop policy operationName listenAddress world fuel k (policy.started world k) =
        some ⟨lastResult world operationName listenAddress l, l + 1,
          (List.range' k n).map (policy.delay world)⟩ := by
  intro n
  induction n with
  | zero =>
    rintro k (_ | fuel) rfl hfuel
    · exact absurd hfuel (Nat.lt_irrefl 0)
    · exact retryLoop_of_not_retried h.2 fuel
  | succ n ih =>
    rintro k (_ | fuel) hk hfuel
    · exact absurd hfuel (Nat.not_lt_zero _)
    · rw [retryLoop_of_retried (h.1 k (by omega)), ih (k + 1) fuel (by omega) (by omega),
        Option.map_some, List.range'_succ, List.map_cons]

/-- **What the loop does.** With enough attempts it gets to the one at which the call ends. -/
theorem runWithRetry_of_endsAt {l fuel : ℕ} (h : policy.EndsAt world l) (hfuel : l < fuel) :
    runWithRetry policy operationName listenAddress world fuel =
      some ⟨lastResult world operationName listenAddress l, l + 1, policy.delays world l⟩ := by
  rw [delays, List.range_eq_range']
  exact retryLoop_of_endsAt h l 0 fuel (Nat.zero_add l) hfuel

end Loop

/-! ### The window -/

/-- **The retry window.** A call ends after at most two attempts more than its window has whole
seconds. Its delays sum up to at most the window, and without a window it makes one attempt. It
returns the value of the first attempt that succeeds when all attempts before it have failed within
the window in a way that is retried, and otherwise raises at the first attempt that has not. -/
theorem runWithRetry_window (policy : RetryPolicy) (hw : 0 ≤ policy.retryWindow)
    (operationName listenAddress : String) (world : World T) :
    ∃ ended : Ended T,
      (∀ fuel, ⌊policy.retryWindow⌋₊ + 2 ≤ fuel →
        runWithRetry policy operationName listenAddress world fuel = some ended) ∧
      ended.attempts ≤ ⌊policy.retryWindow⌋₊ + 2 ∧
      ended.delays.sum ≤ policy.retryWindow ∧
      (policy.retryWindow = 0 → ended.attempts = 1) ∧
      (∀ k value, ended.result = .ok value ∧ ended.attempts = k + 1 ↔
        world.attempt k = .success value ∧ ∀ j < k, policy.Retried world j) ∧
      ∀ k e, ended.result = .error e ∧ ended.attempts = k + 1 ↔
        policy.RaisesAt world operationName listenAddress k e ∧
          ∀ j < k, policy.Retried world j := by
  obtain ⟨l, hl, hend⟩ := RetryPolicy.exists_endsAt policy world
  refine ⟨_, fun fuel hfuel => runWithRetry_of_endsAt hend (by omega), ?_,
    RetryPolicy.sum_delays_le hw hend.1, ?_, ?_, ?_⟩
  · exact Nat.succ_le_succ hl
  · intro hzero
    cases l with
    | zero => rfl
    | succ l =>
      have hlt := RetryPolicy.lt_retryWindow (hend.1 0 (Nat.succ_pos l)).2
      rw [hzero, Nat.cast_zero] at hlt
      exact absurd hlt (lt_irrefl 0)
  · intro k value
    constructor
    · rintro ⟨hresult, hk⟩
      cases hk
      exact ⟨RetryPolicy.lastResult_eq_ok.mp hresult, hend.1⟩
    · rintro ⟨hsuccess, hbefore⟩
      cases hend.eq ⟨hbefore, RetryPolicy.not_retried_of_success hsuccess⟩
      exact ⟨RetryPolicy.lastResult_eq_ok.mpr hsuccess, rfl⟩
  · intro k e
    constructor
    · rintro ⟨hresult, hk⟩
      cases hk
      exact ⟨(RetryPolicy.lastResult_eq_error hend.2).mp hresult, hend.1⟩
    · rintro ⟨hraises, hbefore⟩
      cases hend.eq ⟨hbefore, hraises.not_retried⟩
      exact ⟨(RetryPolicy.lastResult_eq_error hend.2).mpr hraises, rfl⟩

/-- A server that is never reached, with instant attempts and exact sleeps. -/
def unreachable : World Unit where
  attempt _ := .failure { category := .retryable, failureName := "gRPC status UNAVAILABLE" }
  duration _ := 0
  oversleep _ := 0
  duration_nonneg _ := le_refl 0
  oversleep_nonneg _ := le_refl 0

theorem runWithRetry_window_unreachable :
    ∃ ended : Ended Unit,
      (∀ fuel, ⌊(⟨5 / 2⟩ : RetryPolicy).retryWindow⌋₊ + 2 ≤ fuel →
        runWithRetry ⟨5 / 2⟩ "complete" "host:33083" unreachable fuel = some ended) ∧
      ended.delays.sum ≤ 5 / 2 := by
  obtain ⟨ended, hrun, -, hsum, -⟩ :=
    runWithRetry_window ⟨5 / 2⟩ (by norm_num) "complete" "host:33083" unreachable
  exact ⟨ended, hrun, hsum⟩

end Takler.Client
