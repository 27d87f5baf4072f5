import Mathlib

/-!
# The proleptic Gregorian calendar

Dates of the years 1 to 9999 and their ordinals, the day 1 January of year 1 having ordinal 1. A
year is cut into periods of 400, 100 and 4 years; the remaining arithmetic is that of the lengths
of the months.

## Main definitions

* `Gregorian.Date`: a date, with the proof that it exists.
* `Gregorian.Date.toOrdinal`, `Gregorian.Date.ofOrdinal`: its ordinal, and the date with an ordinal.

## Main results

* `Gregorian.Date.toOrdinal_strictMono`: the ordinals follow the order of the dates.
* `Gregorian.Date.toOrdinal_ofOrdinal`: the ordinal of the date with an ordinal.
-/

namespace Gregorian

/-! ### Years and months -/

/-- Leap years. -/
def isLeap (y : ℕ) : Bool := y % 4 = 0 && (y % 100 ≠ 0 || y % 400 = 0)

/-- The number of days before 1 January of a year. -/
def daysBeforeYear (y : ℕ) : ℕ := (y - 1) * 365 + (y - 1) / 4 - (y - 1) / 100 + (y - 1) / 400

/-- The length of a month. -/
def daysInMonth (leap : Bool) : ℕ → ℕ
  | 2 => if leap then 29 else 28
  | 4 | 6 | 9 | 11 => 30
  | _ => 31

/-- The number of days of the year before a month. -/
def daysBeforeMonth (leap : Bool) : ℕ → ℕ
  | 0 => 0
  | 1 => 0
  | m + 2 => daysBeforeMonth leap (m + 1) + daysInMonth leap (m + 1)

/-- The length of a year. -/
def daysInYear (leap : Bool) : ℕ := if leap then 366 else 365

theorem isLeap_iff {y : ℕ} : isLeap y = true ↔ y % 4 = 0 ∧ (y % 100 ≠ 0 ∨ y % 400 = 0) := by
  simp [isLeap]

theorem daysBeforeYear_succ {y : ℕ} (hy : 1 ≤ y) :
    daysBeforeYear (y + 1) = daysBeforeYear y + daysInYear (isLeap y) := by
  obtain ⟨z, rfl⟩ := Nat.exists_eq_add_of_le' hy
  have hle : z / 100 ≤ z * 365 := by omega
  -- every quotient grows by one exactly where the year is a multiple
  have hdiv (k : ℕ) : (z + 1) / k = z / k + if (z + 1) % k = 0 then 1 else 0 := by
    simp only [Nat.succ_div, Nat.dvd_iff_mod_eq_zero]
  have h₀ : (z + 1) % 400 = 0 → (z + 1) % 100 = 0 := by omega
  have h₁ : (z + 1) % 100 = 0 → (z + 1) % 4 = 0 := by omega
  simp only [daysBeforeYear, daysInYear, Nat.add_sub_cancel, hdiv, isLeap_iff]
  generalize z / 4 = a, z / 100 = c, z / 400 = e at hle ⊢
  by_cases h400 : (z + 1) % 400 = 0
  · rw [if_pos h400, if_pos (h₀ h400), if_pos (h₁ (h₀ h400)),
      if_pos ⟨h₁ (h₀ h400), .inr h400⟩]
    omega
  by_cases h100 : (z + 1) % 100 = 0
  · rw [if_neg h400, if_pos h100, if_pos (h₁ h100),
      if_neg fun h => h.2.elim (fun hn => hn h100) h400]
    omega
  rw [if_neg h400, if_neg h100]
  by_cases h4 : (z + 1) % 4 = 0
  · rw [if_pos h4, if_pos ⟨h4, .inl h100⟩]
    omega
  · rw [if_neg h4, if_neg fun h => h4 h.1]
    omega

theorem daysBeforeYear_mono {y z : ℕ} (h : y ≤ z) : daysBeforeYear y ≤ daysBeforeYear z := by
  induction z, h using Nat.le_induction with
  | base => exact le_rfl
  | succ z hz ih =>
    rcases Nat.eq_zero_or_pos z with rfl | hpos
    · exact ih
    · rw [daysBeforeYear_succ hpos]
      omega

theorem daysBeforeMonth_succ (leap : Bool) {m : ℕ} (hm : 1 ≤ m) :
    daysBeforeMonth leap (m + 1) = daysBeforeMonth leap m + daysInMonth leap m := by
  obtain ⟨m, rfl⟩ := Nat.exists_eq_add_of_le' hm
  rfl

theorem daysBeforeMonth_mono (leap : Bool) {m k : ℕ} (hm : 1 ≤ m) (h : m ≤ k) :
    daysBeforeMonth leap m ≤ daysBeforeMonth leap k := by
  induction k, h using Nat.le_induction with
  | base => exact le_rfl
  | succ k hk ih =>
    rw [daysBeforeMonth_succ leap (hm.trans hk)]
    omega

theorem daysBeforeMonth_thirteen (leap : Bool) : daysBeforeMonth leap 13 = daysInYear leap := by
  cases leap <;> rfl

/-- The year of a day that is counted from 0. -/
def yearOf (n : ℕ) : ℕ :=
  let r := n % 146097
  let century := min (r / 36524) 3
  let r' := r - century * 36524
  let r'' := r' % 1461
  400 * (n / 146097) + 100 * century + 4 * (r' / 1461) + min (r'' / 365) 3 + 1

theorem yearOf_pos (n : ℕ) : 1 ≤ yearOf n := Nat.le_add_left 1 _

/-- The days before a year that is given by its place in the periods of 400, 100 and 4 years. -/
theorem daysBeforeYear_periods (q : ℕ) {c f y : ℕ} (hc : c ≤ 3) (hf : f ≤ 24) (hy : y ≤ 3) :
    daysBeforeYear (400 * q + 100 * c + 4 * f + y + 1) =
      146097 * q + 36524 * c + 1461 * f + 365 * y := by
  have h₄ : (400 * q + 100 * c + 4 * f + y) / 4 = 100 * q + 25 * c + f := by omega
  have h₁ : (400 * q + 100 * c + 4 * f + y) / 100 = 4 * q + c := by omega
  have h₀ : (400 * q + 100 * c + 4 * f + y) / 400 = q := by omega
  rw [daysBeforeYear, Nat.add_sub_cancel, h₄, h₁, h₀]
  omega

/-- The last year of a period of four is a leap year, except for three centuries out of four. -/
theorem isLeap_periods (q : ℕ) {c f : ℕ} (hf : f < 24 ∨ f = 24 ∧ c = 3) :
    isLeap (400 * q + 100 * c + 4 * f + 3 + 1) = true :=
  isLeap_iff.mpr ⟨by omega, by omega⟩

theorem yearOf_spec (n : ℕ) :
    daysBeforeYear (yearOf n) ≤ n ∧ n < daysBeforeYear (yearOf n) + daysInYear (isLeap (yearOf n)) := by
  unfold yearOf
  simp only
  generalize hq : n / 146097 = q
  generalize hr : n % 146097 = r
  generalize hc : min (r / 36524) 3 = c
  generalize hs : r - c * 36524 = s
  generalize hf : s / 1461 = f
  generalize ht : s % 1461 = t
  generalize hy : min (t / 365) 3 = y
  have hc' : c ≤ 3 ∧ c * 36524 ≤ r ∧ (c < 3 → r < (c + 1) * 36524) := by omega
  have hf' : f ≤ 24 := by omega
  have hy' : y ≤ 3 ∧ y * 365 ≤ t ∧ (y < 3 → t < (y + 1) * 365) := by omega
  have hn : n = 146097 * q + 36524 * c + 1461 * f + t := by omega
  rw [daysBeforeYear_periods q hc'.1 hf' hy'.1]
  refine ⟨by omega, ?_⟩
  by_cases hleap : y = 3 ∧ (f < 24 ∨ f = 24 ∧ c = 3)
  · rw [hleap.1, isLeap_periods q hleap.2]
    change n < _ + 366
    omega
  · have hle : 365 ≤ daysInYear (isLeap (400 * q + 100 * c + 4 * f + y + 1)) := by
      unfold daysInYear
      split_ifs <;> omega
    omega

/-- The month and the day in it of a day of the year that is counted from 0, looking at `k` more
months from month `m` on. -/
def monthDayFrom (leap : Bool) : ℕ → ℕ → ℕ → ℕ × ℕ
  | 0, m, n => (m, n + 1)
  | k + 1, m, n =>
    if n < daysInMonth leap m then (m, n + 1)
    else monthDayFrom leap k (m + 1) (n - daysInMonth leap m)

/-- The month and the day in it of a day of the year that is counted from 0. -/
def monthDay (leap : Bool) (n : ℕ) : ℕ × ℕ := monthDayFrom leap 11 1 n

theorem monthDayFrom_spec (leap : Bool) : ∀ (k m n : ℕ), 1 ≤ m → m + k = 12 →
    daysBeforeMonth leap m + n < daysInYear leap →
    let r := monthDayFrom leap k m n
    m ≤ r.1 ∧ r.1 ≤ 12 ∧ 1 ≤ r.2 ∧ r.2 ≤ daysInMonth leap r.1 ∧
      daysBeforeMonth leap r.1 + r.2 = daysBeforeMonth leap m + n + 1
  | 0, m, n, _, hk, hn => by
    obtain rfl : m = 12 := by omega
    have hyear := daysBeforeMonth_succ leap (m := 12) (by decide)
    rw [daysBeforeMonth_thirteen] at hyear
    simp only [monthDayFrom]
    omega
  | k + 1, m, n, hm, hk, hn => by
    simp only [monthDayFrom]
    split_ifs with hlt
    · simp only
      omega
    · have hnext := daysBeforeMonth_succ leap hm
      obtain ⟨h₁, h₂, h₃, h₄, h₅⟩ := monthDayFrom_spec leap k (m + 1) (n - daysInMonth leap m)
        (by omega) (by omega) (by omega)
      exact ⟨by omega, h₂, h₃, h₄, by omega⟩

/-! ### Dates -/

/-- A date. -/
@[ext]
structure Date where
  year : ℕ
  month : ℕ
  day : ℕ
  year_pos : 1 ≤ year
  year_le : year ≤ 9999
  month_pos : 1 ≤ month
  month_le : month ≤ 12
  day_pos : 1 ≤ day
  day_le : day ≤ daysInMonth (isLeap year) month
deriving DecidableEq

/-- The ordinal of the last date. -/
def lastOrdinal : ℕ := 3652059

theorem daysBeforeYear_tenThousand : daysBeforeYear 10000 = lastOrdinal := by decide

namespace Date

/-- The date with three fields, if there is one. -/
def ofFields? (y m d : ℕ) : Option Date :=
  if h : (1 ≤ y ∧ y ≤ 9999) ∧ (1 ≤ m ∧ m ≤ 12) ∧ 1 ≤ d ∧ d ≤ daysInMonth (isLeap y) m then
    some ⟨y, m, d, h.1.1, h.1.2, h.2.1.1, h.2.1.2, h.2.2.1, h.2.2.2⟩
  else none

theorem ofFields?_eq_some {y m d : ℕ} {x : Date} :
    ofFields? y m d = some x ↔ y = x.year ∧ m = x.month ∧ d = x.day := by
  unfold ofFields?
  constructor
  · intro h
    split_ifs at h with hv
    obtain rfl := Option.some_inj.mp h
    exact ⟨rfl, rfl, rfl⟩
  · rintro ⟨rfl, rfl, rfl⟩
    rw [dif_pos ⟨⟨x.year_pos, x.year_le⟩, ⟨x.month_pos, x.month_le⟩, x.day_pos, x.day_le⟩]

/-- Dates are compared year first, then month, then day. -/
instance : LinearOrder Date :=
  LinearOrder.lift' (fun d => toLex (d.year, toLex (d.month, d.day))) fun a b h => by
    obtain ⟨hy, h⟩ := Prod.mk.inj (toLex_inj.mp h)
    obtain ⟨hm, hd⟩ := Prod.mk.inj (toLex_inj.mp h)
    exact Date.ext hy hm hd

theorem lt_iff {a b : Date} : a < b ↔ a.year < b.year ∨ a.year = b.year ∧
    (a.month < b.month ∨ a.month = b.month ∧ a.day < b.day) := by
  change toLex (a.year, toLex (a.month, a.day)) < toLex (b.year, toLex (b.month, b.day)) ↔ _
  rw [Prod.Lex.toLex_lt_toLex, Prod.Lex.toLex_lt_toLex]

/-- The ordinal of a date. -/
def toOrdinal (d : Date) : ℕ :=
  daysBeforeYear d.year + daysBeforeMonth (isLeap d.year) d.month + d.day

theorem daysBeforeMonth_add_day_le (d : Date) :
    daysBeforeMonth (isLeap d.year) d.month + d.day ≤
      daysBeforeMonth (isLeap d.year) (d.month + 1) := by
  rw [daysBeforeMonth_succ _ d.month_pos]
  have := d.day_le
  omega

theorem toOrdinal_bounds (d : Date) : daysBeforeYear d.year < d.toOrdinal ∧
    d.toOrdinal ≤ daysBeforeYear (d.year + 1) := by
  have hpos := d.day_pos
  have hmonth := d.daysBeforeMonth_add_day_le
  have hyear := daysBeforeMonth_mono (isLeap d.year) (Nat.le_add_left 1 d.month)
    (Nat.add_le_add_right d.month_le 1)
  rw [daysBeforeMonth_thirteen] at hyear
  rw [daysBeforeYear_succ d.year_pos, toOrdinal]
  omega

theorem toOrdinal_pos (d : Date) : 1 ≤ d.toOrdinal := by
  have := d.toOrdinal_bounds
  omega

theorem toOrdinal_le (d : Date) : d.toOrdinal ≤ lastOrdinal := by
  have hbounds := d.toOrdinal_bounds
  have hlast := daysBeforeYear_mono (Nat.add_le_add_right d.year_le 1)
  rw [← daysBeforeYear_tenThousand]
  exact hbounds.2.trans hlast

/-- **The ordinals follow the order of the dates.** -/
theorem toOrdinal_strictMono : StrictMono toOrdinal := by
  intro a b h
  rcases lt_iff.mp h with hy | ⟨hy, hm | ⟨hm, hd⟩⟩
  · have ha := a.toOrdinal_bounds
    have hb := b.toOrdinal_bounds
    have := daysBeforeYear_mono (y := a.year + 1) hy
    omega
  · have ha := a.daysBeforeMonth_add_day_le
    have hb := b.day_pos
    have := daysBeforeMonth_mono (isLeap a.year) (m := a.month + 1) (by omega) hm
    unfold toOrdinal
    rw [← hy]
    omega
  · unfold toOrdinal
    rw [← hy, ← hm]
    omega

theorem toOrdinal_injective : Function.Injective toOrdinal := toOrdinal_strictMono.injective

theorem toOrdinal_le_iff {a b : Date} : a.toOrdinal ≤ b.toOrdinal ↔ a ≤ b :=
  toOrdinal_strictMono.le_iff_le

/-- The date with an ordinal. -/
def ofOrdinal (n : ℕ) (h : 1 ≤ n ∧ n ≤ lastOrdinal) : Date :=
  have hspec := yearOf_spec (n - 1)
  have hmonth := monthDayFrom_spec (isLeap (yearOf (n - 1))) 11 1
    (n - 1 - daysBeforeYear (yearOf (n - 1))) le_rfl rfl (by
      change 0 + _ < _
      omega)
  { year := yearOf (n - 1)
    month := (monthDay (isLeap (yearOf (n - 1))) (n - 1 - daysBeforeYear (yearOf (n - 1)))).1
    day := (monthDay (isLeap (yearOf (n - 1))) (n - 1 - daysBeforeYear (yearOf (n - 1)))).2
    year_pos := yearOf_pos _
    year_le := by
      by_contra hgt
      have hlast := daysBeforeYear_mono (Nat.succ_le_of_lt (Nat.lt_of_not_le hgt))
      have h₁ := hspec.1
      rw [daysBeforeYear_tenThousand] at hlast
      omega
    month_pos := hmonth.1
    month_le := hmonth.2.1
    day_pos := hmonth.2.2.1
    day_le := hmonth.2.2.2.1 }

theorem toOrdinal_ofOrdinal (n : ℕ) (h : 1 ≤ n ∧ n ≤ lastOrdinal) :
    (ofOrdinal n h).toOrdinal = n := by
  have hspec := yearOf_spec (n - 1)
  have hmonth := (monthDayFrom_spec (isLeap (yearOf (n - 1))) 11 1
    (n - 1 - daysBeforeYear (yearOf (n - 1))) le_rfl rfl (by
      change 0 + _ < _
      omega)).2.2.2.2
  change daysBeforeYear (yearOf (n - 1)) + daysBeforeMonth (isLeap (yearOf (n - 1)))
    (monthDayFrom _ 11 1 _).1 + (monthDayFrom _ 11 1 _).2 = n
  have hone : daysBeforeMonth (isLeap (yearOf (n - 1))) 1 = 0 := rfl
  omega

end Date

end Gregorian
