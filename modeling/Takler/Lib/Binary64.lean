import Mathlib

/-!
# Quotients in binary floating point

The quotient of two natural numbers, rounded to 53 significant bits and, between two such numbers,
to the one that is even. The quotients here are below `2 ^ 53`, so that neither overflow nor gradual
underflow occurs.

## Main definitions

* `Binary64`: a number with finitely many binary places.
* `Binary64.quot`: the rounded quotient.

## Main results

* `Binary64.isInteger_quot`: the rounded quotient is an integer exactly when the division has no
  remainder.
-/

/-- The number `significand / 2 ^ places`. -/
structure Binary64 where
  significand : ℕ
  places : ℕ

namespace Binary64

/-- The integer nearest to `a / b`, and the even one of two. -/
def roundHalfEven (a b : ℕ) : ℕ :=
  if 2 * (a % b) < b then a / b
  else if b < 2 * (a % b) then a / b + 1
  else a / b + a / b % 2

theorem roundHalfEven_bounds {a b : ℕ} (hb : 0 < b) :
    2 * (b * roundHalfEven a b) ≤ 2 * a + b ∧ 2 * a ≤ 2 * (b * roundHalfEven a b) + b := by
  have hdiv := Nat.div_add_mod a b
  have hmod := Nat.mod_lt a hb
  unfold roundHalfEven
  split_ifs with h₁ h₂
  · omega
  · rw [Nat.mul_add, Nat.mul_one]
    omega
  · rcases Nat.mod_two_eq_zero_or_one (a / b) with h | h
    · rw [h, Nat.add_zero]
      omega
    · rw [h, Nat.mul_add, Nat.mul_one]
      omega

theorem roundHalfEven_mul {b : ℕ} (hb : 0 < b) (c : ℕ) : roundHalfEven (b * c) b = c := by
  rw [roundHalfEven, Nat.mul_mod_right, if_pos (by omega), Nat.mul_div_cancel_left c hb]

/-- The binary places that give the quotient 53 significant bits. -/
def quotPlaces (a b : ℕ) : ℕ :=
  let s := 53 + Nat.log 2 b - Nat.log 2 a
  if a * 2 ^ s / b < 2 ^ 53 then s else s - 1

/-- With these places the quotient has 53 bits before the point. -/
theorem le_mul_quotPlaces {a b : ℕ} (ha : 0 < a) (hb : 0 < b) (hlt : a < 2 ^ 53 * b) :
    2 ^ 52 * b ≤ a * 2 ^ quotPlaces a b := by
  have hlow : 2 ^ Nat.log 2 a ≤ a := Nat.pow_log_le_self 2 ha.ne'
  have hhigh : b < 2 ^ (Nat.log 2 b + 1) := Nat.lt_pow_succ_log_self (by decide) b
  have hlog : Nat.log 2 a ≤ 53 + Nat.log 2 b := by
    refine Nat.le_of_lt_succ (Nat.log_lt_of_lt_pow ha.ne' (hlt.trans_le ?_))
    calc 2 ^ 53 * b ≤ 2 ^ 53 * 2 ^ (Nat.log 2 b + 1) := Nat.mul_le_mul_left _ hhigh.le
      _ = 2 ^ (53 + Nat.log 2 b).succ := by rw [← pow_add]; rfl
  unfold quotPlaces
  simp only
  split_ifs with hs
  · calc 2 ^ 52 * b ≤ 2 ^ 52 * 2 ^ (Nat.log 2 b + 1) := Nat.mul_le_mul_left _ hhigh.le
      _ = 2 ^ Nat.log 2 a * 2 ^ (53 + Nat.log 2 b - Nat.log 2 a) := by
        rw [← pow_add, ← pow_add]
        congr 1
        omega
      _ ≤ a * 2 ^ (53 + Nat.log 2 b - Nat.log 2 a) := Nat.mul_le_mul_right _ hlow
  · have hle := (Nat.le_div_iff_mul_le hb).mp (Nat.le_of_not_lt hs)
    -- the number of places is not zero, since the quotient itself is below 2 ^ 53
    obtain ⟨k, hk⟩ : ∃ k, 53 + Nat.log 2 b - Nat.log 2 a = k + 1 := by
      refine Nat.exists_eq_succ_of_ne_zero fun hzero => ?_
      rw [hzero, pow_zero, Nat.mul_one] at hle
      exact absurd hlt (Nat.not_lt.mpr hle)
    have hdouble : a * 2 ^ (k + 1) = a * 2 ^ k * 2 := by rw [pow_succ, Nat.mul_assoc]
    rw [hk, hdouble] at hle
    rw [hk, Nat.add_sub_cancel]
    omega

/-- The quotient of two natural numbers. -/
def quot (a b : ℕ) : Binary64 := ⟨roundHalfEven (a * 2 ^ quotPlaces a b) b, quotPlaces a b⟩

/-- Whether the number is an integer. -/
def isInteger (x : Binary64) : Bool := x.significand % 2 ^ x.places = 0

/-- The integer part. -/
def truncate (x : Binary64) : ℕ := x.significand / 2 ^ x.places

theorem quot_mul {b : ℕ} (hb : 0 < b) (c : ℕ) :
    quot (b * c) b = ⟨c * 2 ^ quotPlaces (b * c) b, quotPlaces (b * c) b⟩ := by
  rw [quot, Nat.mul_assoc, roundHalfEven_mul hb]

theorem truncate_quot_mul {b : ℕ} (hb : 0 < b) (c : ℕ) : (quot (b * c) b).truncate = c := by
  rw [quot_mul hb, truncate, Nat.mul_div_cancel _ (Nat.two_pow_pos _)]

/-- **The rounded quotient is an integer** exactly when the division has no remainder. The two
numbers may have a common factor, such as that of a unit. -/
theorem isInteger_quot {u a b : ℕ} (hu : 0 < u) (hb : 0 < b) (hlt : a < 2 ^ 53) :
    (quot (u * a) (u * b)).isInteger = true ↔ b ∣ a := by
  have hub : 0 < u * b := Nat.mul_pos hu hb
  constructor
  · intro h
    rcases Nat.eq_zero_or_pos a with rfl | ha
    · exact dvd_zero b
    have hratio : u * a < 2 ^ 53 * (u * b) := by
      calc u * a < u * 2 ^ 53 := Nat.mul_lt_mul_of_pos_left hlt hu
        _ = 2 ^ 53 * u := Nat.mul_comm _ _
        _ ≤ 2 ^ 53 * (u * b) := Nat.mul_le_mul_left _ (Nat.le_mul_of_pos_right u hb)
    obtain ⟨c, hc⟩ := Nat.dvd_of_mod_eq_zero (of_decide_eq_true h)
    have hplaces := le_mul_quotPlaces (Nat.mul_pos hu ha) hub hratio
    obtain ⟨hup, hdown⟩ := roundHalfEven_bounds (a := u * a * 2 ^ quotPlaces (u * a) (u * b)) hub
    simp only [quot] at hc
    rw [hc] at hup hdown
    have hp : 0 < 2 ^ quotPlaces (u * a) (u * b) := Nat.two_pow_pos _
    generalize 2 ^ quotPlaces (u * a) (u * b) = p at hplaces hup hdown hp
    by_contra hn
    have hne : a ≠ b * c := fun heq => hn ⟨c, heq⟩
    -- a quotient that is off by at most one half of its last bit is off by less than 1 / b
    have hsmall : 2 * p ≤ b := by
      refine Nat.le_of_mul_le_mul_left ?_ hu
      have hcomm : u * b * (p * c) = b * c * (u * p) := by ring
      have hcomm' : u * a * p = a * (u * p) := by ring
      have hcomm'' : u * (2 * p) = 2 * (u * p) := by ring
      rw [hcomm, hcomm'] at hup hdown
      rw [hcomm'']
      rcases Nat.lt_or_gt_of_ne hne with hlt | hgt
      · have := Nat.mul_le_mul_right (u * p) (Nat.succ_le_of_lt hlt)
        rw [Nat.succ_mul] at this
        omega
      · have := Nat.mul_le_mul_right (u * p) (Nat.succ_le_of_lt hgt)
        rw [Nat.succ_mul] at this
        omega
    have hge : 2 ^ 53 * (u * p) ≤ a * (u * p) := by
      calc 2 ^ 53 * (u * p) = 2 ^ 52 * (u * (2 * p)) := by ring
        _ ≤ 2 ^ 52 * (u * b) := Nat.mul_le_mul_left _ (Nat.mul_le_mul_left _ hsmall)
        _ ≤ u * a * p := hplaces
        _ = a * (u * p) := by ring
    exact absurd hlt (Nat.not_lt_of_le (Nat.le_of_mul_le_mul_right hge (Nat.mul_pos hu hp)))
  · rintro ⟨c, rfl⟩
    rw [← Nat.mul_assoc, quot_mul hub, isInteger]
    simp

end Binary64
