import Takler.Core.RepeatDates

/-!
# Repeats over dates stay on their grid

The value of a repeat is a date of the grid start, start + step, … up to the end, whatever is
called. The rest of what callers rely on fails at both ends of the calendar: `strptime` needs four
digits for a year, and an increment computes the next date before it compares it with the end.

## Main definitions

* `RepeatObject.Sane`: what the schema leaves in an object.
* `RepeatObject.lastGrid`: the last date of the grid.

## Main results

* `RepeatObject.advance_increment`: the ordinals of the trees follow the dates.
* `RepeatObject.onGrid_call`, `RepeatObject.onGrid_run`: the value is a date of the grid.
* `repeatDate_promises_iff`: the promises are kept after any calls exactly when the years have four
  digits and the step after the last value is still a date.
-/

namespace Takler

open Gregorian

variable {P : Platform}

/-! ### Reading and writing -/

theorem strptime_eq_ok {text : String} {x : Date} :
    strptime P text = .ok x ↔ DateText.read P.digits text.toList = some x := by
  unfold strptime
  split
  · rename_i y hy
    rw [hy, Except.ok.injEq, Option.some_inj]
  · rename_i hnone
    simp [hnone]

/-- The text of a date from year 1000 on is read back. -/
theorem strptime_strftime {x : Date} (hx : 1000 ≤ x.year) : strptime P (strftime P x) = .ok x := by
  rw [strptime_eq_ok, strftime, String.toList_ofList, DateText.write_eq _ hx]
  exact DateText.read_write x

theorem strptime_write (x : Date) :
    strptime P (String.ofList (DateText.write true x)) = .ok x := by
  rw [strptime_eq_ok, String.toList_ofList]
  exact DateText.read_write x

/-- The number of a date is read back exactly from year 1000 on. -/
theorem strptime_number {x : Date} :
    strptime P (intText (DateText.number x)) = .ok x ↔ 1000 ≤ x.year := by
  rw [strptime_eq_ok]
  have htext : (intText (DateText.number x)).toList = Nat.toDigits 10 (DateText.number x) :=
    String.toList_ofList
  rw [htext]
  constructor
  · intro h
    by_contra hlt
    exact DateText.read_toDigits_number_ne (Nat.lt_of_not_le hlt) h
  · exact fun hx => DateText.read_toDigits_number hx

theorem isEightDigits_strftime {x : Date} (hx : 1000 ≤ x.year) :
    isEightDigits (strftime P x) = true := by
  have hdigit (n : ℕ) : (Nat.digitChar (n % 10)).isDigit = true := by
    rw [Nat.isDigit_digitChar]
    exact decide_eq_true (Nat.mod_lt n (by decide))
  rw [isEightDigits, strftime, String.toList_ofList, DateText.write_eq _ hx]
  simp [DateText.write, DateText.padded4, DateText.padded2, hdigit]

theorem checkDate_strftime {x : Date} (hx : 1000 ≤ x.year) :
    RepeatDateDefinition.checkDate P (strftime P x) = .ok () := by
  rw [RepeatDateDefinition.checkDate, if_pos (isEightDigits_strftime hx)]
  exact Except.bind_eq_ok.mpr ⟨x, strptime_strftime hx, rfl⟩

/-- A date that the schema accepts is written with four digits for the year. -/
theorem checkDate_eq_ok {text : String} (h : RepeatDateDefinition.checkDate P text = .ok ()) :
    ∃ x, strptime P text = .ok x ∧ text.toList = DateText.write true x := by
  unfold RepeatDateDefinition.checkDate at h
  split_ifs at h with height
  simp only [isEightDigits, Bool.and_eq_true, decide_eq_true_eq, List.all_eq_true] at height
  obtain ⟨x, hx, -⟩ := Except.bind_eq_ok.mp h
  exact ⟨x, hx, DateText.eq_write_of_read height.1 height.2 (strptime_eq_ok.mp hx)⟩

theorem timedelta_eq_ok {n days : ℕ} : timedelta n = .ok days ↔ days = n ∧ n ≤ 999999999 := by
  unfold timedelta
  split_ifs with h
  · rw [Except.ok.injEq, eq_comm]
    exact ⟨fun heq => ⟨heq, h⟩, fun heq => heq.1⟩
  · exact iff_of_false (by simp) fun heq => h heq.2
  · exact iff_of_false (by simp) fun heq => h heq.2

/-! ### Objects of accepted definitions -/

/-- What is left of the checks of the schema in an object. -/
structure RepeatObject.Sane (o : RepeatObject) : Prop where
  name_ne : o.name ≠ ""
  start_le : o.startDate ≤ o.endDate
  step_pos : 0 < o.stepDay
  step_le : o.stepDay ≤ 999999999

/-- The schema passes its checks on to the object. -/
theorem RepeatDateDefinition.Accepted.sane {d : RepeatDateDefinition} {o : RepeatObject}
    (h : d.Accepted P) (hbuild : d.build P = .ok o) : o.Sane ∧ o.value = o.startDate := by
  obtain ⟨-, hname, hstep, hdates⟩ := h
  obtain ⟨_, hs, hdates⟩ := Except.bind_eq_ok.mp hdates
  obtain ⟨_, he, hdates⟩ := Except.bind_eq_ok.mp hdates
  obtain ⟨x, hx, hxtext⟩ := checkDate_eq_ok hs
  obtain ⟨y, hy, hytext⟩ := checkDate_eq_ok he
  have hle : x ≤ y := by
    by_contra hlt
    rw [hxtext, hytext, if_pos (DateText.write_lt (not_le.mp hlt))] at hdates
    cases hdates
  obtain ⟨x', hx', hbuild⟩ := Except.bind_eq_ok.mp hbuild
  obtain ⟨y', hy', hbuild⟩ := Except.bind_eq_ok.mp hbuild
  obtain ⟨days, hdays, hbuild⟩ := Except.bind_eq_ok.mp hbuild
  obtain rfl := Except.ok.inj (hx.symm.trans hx')
  obtain rfl := Except.ok.inj (hy.symm.trans hy')
  obtain rfl := Except.ok.inj hbuild
  obtain ⟨rfl, hsmall⟩ := timedelta_eq_ok.mp hdays
  exact ⟨⟨hname, hle, by simpa using hstep, hsmall⟩, rfl⟩

namespace RepeatObject

variable {o : RepeatObject}

/-! ### Increments -/

theorem addDays_eq_ok {x y : Date} {days : ℕ} :
    addDays x days = .ok y ↔ y.toOrdinal = x.toOrdinal + days := by
  unfold addDays
  split_ifs with h
  · rw [Except.ok.injEq]
    constructor
    · rintro rfl
      exact Date.toOrdinal_ofOrdinal _ h
    · intro hy
      exact Date.toOrdinal_injective ((Date.toOrdinal_ofOrdinal _ h).trans hy.symm)
  · refine iff_of_false (by simp) fun hy => h ?_
    rw [← hy]
    exact ⟨y.toOrdinal_pos, y.toOrdinal_le⟩

theorem increment_next {x : Date} (hx : x.toOrdinal = o.value.toOrdinal + o.stepDay)
    (hle : x ≤ o.endDate) : o.increment = .ok (true, { o with value := x }) := by
  exact Except.bind_eq_ok.mpr ⟨x, addDays_eq_ok.mpr hx, if_pos hle⟩

theorem increment_past {x : Date} (hx : x.toOrdinal = o.value.toOrdinal + o.stepDay)
    (hlt : o.endDate < x) : o.increment = .ok (false, o) := by
  exact Except.bind_eq_ok.mpr ⟨x, addDays_eq_ok.mpr hx, if_neg (not_le.mpr hlt)⟩

theorem increment_overflow (h : lastOrdinal < o.value.toOrdinal + o.stepDay) :
    o.increment = .error (.overflow "date value out of range") := by
  rw [increment, addDays, dif_neg fun hle => absurd hle.2 (Nat.not_le.mpr h)]
  rfl

theorem ofOrdinal_exists {n : ℕ} (hpos : 1 ≤ n) (hle : n ≤ lastOrdinal) :
    ∃ x : Date, x.toOrdinal = n := ⟨_, Date.toOrdinal_ofOrdinal n ⟨hpos, hle⟩⟩

/-- What an increment does. -/
theorem increment_cases (o : RepeatObject) :
    (∃ x, x.toOrdinal = o.value.toOrdinal + o.stepDay ∧ x ≤ o.endDate ∧
      o.increment = .ok (true, { o with value := x })) ∨
    (∃ x, x.toOrdinal = o.value.toOrdinal + o.stepDay ∧ o.endDate < x ∧
      o.increment = .ok (false, o)) ∨
    (lastOrdinal < o.value.toOrdinal + o.stepDay ∧
      o.increment = .error (.overflow "date value out of range")) := by
  by_cases hlast : o.value.toOrdinal + o.stepDay ≤ lastOrdinal
  · have hpos := o.value.toOrdinal_pos
    obtain ⟨x, hx⟩ := ofOrdinal_exists (by omega) hlast
    rcases le_or_gt x o.endDate with hle | hlt
    · exact .inl ⟨x, hx, hle, increment_next hx hle⟩
    · exact .inr (.inl ⟨x, hx, hlt, increment_past hx hlt⟩)
  · exact .inr (.inr ⟨Nat.lt_of_not_le hlast, increment_overflow (Nat.lt_of_not_le hlast)⟩)

/-- The ordinals that the trees keep. -/
def toRepeatDate (o : RepeatObject) (h : o.Sane) : RepeatDate where
  name := o.name
  startDate := o.startDate.toOrdinal
  endDate := o.endDate.toOrdinal
  step := o.stepDay
  start_le := Date.toOrdinal_le_iff.mpr h.start_le
  end_le := o.endDate.toOrdinal_le
  step_pos := h.step_pos

/-- **The ordinals follow the dates**: an increment of the object is the one of the trees. -/
theorem advance_increment (h : o.Sane) (p : NodePath) (s : State)
    (hs : (s.node p).repeatValue = o.value.toOrdinal) :
    Program.exec ((o.toRepeatDate h).advance p) s = match o.increment with
      | .ok (advanced, o') => (.ok advanced, if advanced = true then { s with
          node := Function.update s.node p { s.node p with repeatValue := o'.value.toOrdinal } }
          else s)
      | .error _ => (.error (.overflow "date value out of range"), s) := by
  have hmax : maxOrdinal = lastOrdinal := rfl
  unfold RepeatDate.advance
  simp only [Program.exec_bind, Program.exec_get, hs, toRepeatDate]
  rcases o.increment_cases with ⟨x, hx, hle, heq⟩ | ⟨x, hx, hlt, heq⟩ | ⟨hlast, heq⟩
  · have hdate := x.toOrdinal_le
    rw [heq, ← hx, if_neg (by omega), if_pos (Date.toOrdinal_le_iff.mpr hle)]
    rfl
  · have hdate := x.toOrdinal_le
    rw [heq, ← hx, if_neg (by omega), if_neg (not_le.mpr (Date.toOrdinal_strictMono hlt))]
    rfl
  · rw [heq, if_pos (by omega)]
    rfl

/-! ### The grid -/

theorem onGrid_iff {x : Date} : o.OnGrid x ↔
    ¬ (x < o.startDate ∨ o.endDate < x) ∧
      o.stepDay ∣ x.toOrdinal - o.startDate.toOrdinal := by
  rw [not_or, not_lt, not_lt]
  constructor
  · rintro ⟨⟨k, hk⟩, hle⟩
    refine ⟨⟨Date.toOrdinal_le_iff.mp (by omega), hle⟩, k, ?_⟩
    rw [hk, Nat.add_sub_cancel_left, Nat.mul_comm]
  · rintro ⟨⟨hge, hle⟩, k, hk⟩
    have hge := Date.toOrdinal_le_iff.mpr hge
    exact ⟨⟨k, by rw [Nat.mul_comm k, ← hk]; omega⟩, hle⟩

/-- What a change accepts. -/
theorem change_eq_ok (hpos : 0 < o.stepDay) {a : DateArg} {o' : RepeatObject} :
    o.change P a = .ok o' ↔ ∃ x, a.toDate P = .ok x ∧ o.OnGrid x ∧ o' = { o with value := x } := by
  unfold change
  cases ha : a.toDate P with
  | error e => simp [bind, Except.bind]
  | ok x =>
    have hsmall : x.toOrdinal - o.startDate.toOrdinal < 2 ^ 53 := by
      have hle : x.toOrdinal ≤ 3652059 := x.toOrdinal_le
      omega
    have hgrid := Binary64.isInteger_quot (u := dayMicroseconds) (by decide) hpos hsmall
    simp only [bind, Except.bind, Except.ok.injEq, exists_eq_left', onGrid_iff, ← hgrid]
    by_cases hrange : x < o.startDate ∨ o.endDate < x
    · simp [hrange]
    rw [if_neg hrange, if_neg hpos.ne']
    by_cases hint : (Binary64.quot (dayMicroseconds * (x.toOrdinal - o.startDate.toOrdinal))
        (dayMicroseconds * o.stepDay)).isInteger = true
    · rw [if_pos hint]
      constructor
      · exact fun h => ⟨⟨hrange, hint⟩, (Except.ok.inj h).symm⟩
      · rintro ⟨-, rfl⟩
        rfl
    · simp [hint]

/-- **The value stays on the grid**, whatever is called. -/
theorem onGrid_call (h : o.Sane) (hgrid : o.OnGrid o.value) (c : RepeatCall) :
    ∃ x, o.call P c = { o with value := x } ∧ o.OnGrid x := by
  cases c with
  | increment =>
    rcases o.increment_cases with ⟨x, hx, hle, heq⟩ | ⟨x, hx, hlt, heq⟩ | ⟨hlast, heq⟩
    · obtain ⟨⟨k, hk⟩, -⟩ := hgrid
      refine ⟨x, by rw [call, heq], ⟨k + 1, ?_⟩, hle⟩
      rw [hx, hk, Nat.succ_mul, Nat.add_assoc]
    · exact ⟨o.value, by rw [call, heq], hgrid⟩
    · exact ⟨o.value, by rw [call, heq], hgrid⟩
  | reset => exact ⟨o.startDate, rfl, ⟨0, by simp⟩, h.start_le⟩
  | change a =>
    cases hc : o.change P a with
    | ok o' =>
      obtain ⟨x, -, hx, rfl⟩ := (change_eq_ok h.step_pos).mp hc
      exact ⟨x, by rw [call, hc], hx⟩
    | error e => exact ⟨o.value, by rw [call, hc], hgrid⟩

theorem onGrid_run (h : o.Sane) (calls : List RepeatCall) : o.OnGrid o.value →
    ∃ x, o.run P calls = { o with value := x } ∧ o.OnGrid x := by
  induction calls generalizing o with
  | nil => exact fun hgrid => ⟨o.value, rfl, hgrid⟩
  | cons c calls ih =>
    intro hgrid
    obtain ⟨x, hcall, hx⟩ := onGrid_call (P := P) h hgrid c
    obtain ⟨y, hrun, hy⟩ := ih (o := { o with value := x }) ⟨h.name_ne, h.start_le, h.step_pos,
      h.step_le⟩ hx
    refine ⟨y, ?_, hy⟩
    rw [run, List.foldl_cons, hcall]
    exact hrun

/-- The ordinal of the last date of the grid. -/
def lastGrid (o : RepeatObject) : ℕ :=
  o.startDate.toOrdinal +
    (o.endDate.toOrdinal - o.startDate.toOrdinal) / o.stepDay * o.stepDay

theorem lastGrid_le (h : o.Sane) : o.lastGrid ≤ o.endDate.toOrdinal := by
  have hle := Date.toOrdinal_le_iff.mpr h.start_le
  have := Nat.div_mul_le_self (o.endDate.toOrdinal - o.startDate.toOrdinal) o.stepDay
  unfold lastGrid
  omega

theorem OnGrid.le_lastGrid (h : o.Sane) {x : Date} (hx : o.OnGrid x) :
    x.toOrdinal ≤ o.lastGrid := by
  obtain ⟨⟨k, hk⟩, hle⟩ := hx
  have hle := Date.toOrdinal_le_iff.mpr hle
  have hk' : k ≤ (o.endDate.toOrdinal - o.startDate.toOrdinal) / o.stepDay :=
    (Nat.le_div_iff_mul_le h.step_pos).mpr (by omega)
  have := Nat.mul_le_mul_right o.stepDay hk'
  unfold lastGrid
  omega

/-- The last date of the grid. -/
theorem exists_lastGrid (h : o.Sane) : ∃ x, x.toOrdinal = o.lastGrid ∧ o.OnGrid x := by
  have hle := lastGrid_le h
  have hpos := o.startDate.toOrdinal_pos
  obtain ⟨x, hx⟩ := ofOrdinal_exists (n := o.lastGrid) (by unfold lastGrid; omega)
    (hle.trans o.endDate.toOrdinal_le)
  exact ⟨x, hx, ⟨_, hx⟩, Date.toOrdinal_le_iff.mp (by omega)⟩

/-! ### Round trips -/

theorem step_eq (o : RepeatObject) : o.step = o.stepDay :=
  Binary64.truncate_quot_mul (by decide) o.stepDay

theorem year_le_of_le {x y : Date} (h : x ≤ y) : x.year ≤ y.year := by
  by_contra hlt
  exact absurd (Date.lt_iff.mpr (.inl (Nat.lt_of_not_le hlt))) (not_lt.mpr h)

theorem init_strftime (h : o.Sane) (hyear : 1000 ≤ o.startDate.year) :
    init P o.name (strftime P o.startDate) (strftime P o.endDate) o.step =
      .ok { o with value := o.startDate } := by
  have hend : 1000 ≤ o.endDate.year := hyear.trans (year_le_of_le h.start_le)
  refine Except.bind_eq_ok.mpr ⟨_, strptime_strftime hyear, Except.bind_eq_ok.mpr
    ⟨_, strptime_strftime hend, Except.bind_eq_ok.mpr ⟨_, timedelta_eq_ok.mpr ⟨rfl, ?_⟩, ?_⟩⟩⟩
  · rw [step_eq]
    exact h.step_le
  · rw [step_eq]
    rfl

theorem setValue_eq_ok {a : DateArg} {o' : RepeatObject} : o.setValue P a = .ok o' ↔
    ∃ x, a.toDate P = .ok x ∧ { o with value := x } = o' := by
  unfold setValue
  rw [Except.bind_eq_ok]
  exact exists_congr fun x => and_congr_right fun _ => ⟨Except.ok.inj, congrArg Except.ok⟩

/-- The number of a date restores it exactly when its year has four digits. -/
theorem setValue_number {x : Date} : o.setValue P (.int (DateText.number x)) =
    .ok { o with value := x } ↔ 1000 ≤ x.year := by
  rw [setValue_eq_ok, ← strptime_number (P := P)]
  constructor
  · rintro ⟨y, hy, heq⟩
    obtain rfl : y = x := congrArg RepeatObject.value heq
    exact hy
  · exact fun hx => ⟨x, hx, rfl⟩

/-- The object survives a round trip when the years have four digits. -/
theorem fromDict_toDict (h : o.Sane) (hyear : 1000 ≤ o.startDate.year)
    (hvalue : 1000 ≤ o.value.year) : fromDict P (o.toDict P) true = .ok o :=
  Except.bind_eq_ok.mpr ⟨_, init_strftime h hyear, (if_pos rfl).trans (setValue_number.mpr hvalue)⟩

theorem runtime_accepted (h : o.Sane) (hyear : 1000 ≤ o.startDate.year)
    (hgrid : o.OnGrid o.value) (hge : o.startDate ≤ o.value) :
    (o.toDict P).toRuntime.Accepted P := by
  have hend : 1000 ≤ o.endDate.year := hyear.trans (year_le_of_le h.start_le)
  have hvalue : 1000 ≤ o.value.year := hyear.trans (year_le_of_le hge)
  refine ⟨⟨rfl, h.name_ne, ?_, ?_⟩, ?_⟩
  · change 0 < (o.step : ℤ)
    rw [step_eq]
    exact_mod_cast h.step_pos
  · have horder : ¬ (strftime P o.endDate).toList < (strftime P o.startDate).toList := by
      rw [strftime, strftime, String.toList_ofList, String.toList_ofList, DateText.write_eq _ hyear,
        DateText.write_eq _ hend]
      rcases h.start_le.eq_or_lt with heq | hlt
      · rw [heq]
        exact lt_irrefl _
      · exact (DateText.write_lt hlt).asymm
    change RepeatDateDefinition.dates P (RuntimeRepeat.toRepeatDateDefinition _) = _
    simp only [RepeatDateDefinition.dates, RepeatDict.toRuntime, toDict, checkDate_strftime hyear,
      checkDate_strftime hend]
    exact if_neg horder
  · have hmod : ((o.value.toOrdinal : ℤ) - o.startDate.toOrdinal) % o.stepDay = 0 := by
      obtain ⟨⟨k, hk⟩, -⟩ := hgrid
      rw [hk]
      push_cast
      rw [add_sub_cancel_left, Int.mul_emod_left]
    simp only [RuntimeRepeat.current, RepeatDict.toRuntime, toDict, strptime_strftime hyear,
      strptime_strftime hend, strptime_number.mpr hvalue, step_eq]
    exact if_neg (not_or.mpr ⟨not_not.mpr ⟨hge, hgrid.2⟩, not_not.mpr hmod⟩)

/-- Where the years have four digits and the step after the last value is a date, an object on the
grid keeps what is promised. -/
theorem promises (h : o.Sane) (hyear : 1000 ≤ o.startDate.year)
    (hlast : o.lastGrid + o.stepDay ≤ lastOrdinal) (hgrid : o.OnGrid o.value) : o.Promises P := by
  have hstart {x : Date} (hx : o.OnGrid x) : o.startDate ≤ x := by
    obtain ⟨⟨k, hk⟩, -⟩ := hx
    exact Date.toOrdinal_le_iff.mp (by omega)
  have hyears {x : Date} (hx : o.OnGrid x) : 1000 ≤ x.year :=
    hyear.trans (year_le_of_le (hstart hx))
  refine ⟨⟨hgrid, hstart hgrid⟩, fun x hx hnext => increment_next hnext hx.2, fun hnone => ?_,
    fun x hx a ha => (change_eq_ok h.step_pos).mpr ⟨x, ?_, hx, rfl⟩,
    fun a o' hc => (change_eq_ok h.step_pos).mp hc, fromDict_toDict h hyear (hyears hgrid),
    runtime_accepted h hyear hgrid (hstart hgrid), ?_⟩
  · -- the date after the last value exists and is past the end
    have hle := hgrid.le_lastGrid h
    have hpos := o.value.toOrdinal_pos
    obtain ⟨x, hx⟩ := ofOrdinal_exists (n := o.value.toOrdinal + o.stepDay)
      (hpos.trans (Nat.le_add_right _ _)) ((Nat.add_le_add_right hle _).trans hlast)
    refine increment_past hx (lt_of_not_ge fun hend => hnone x ⟨?_, hend⟩ hx)
    obtain ⟨⟨k, hk⟩, -⟩ := hgrid
    exact ⟨k + 1, by rw [hx, hk, Nat.succ_mul, Nat.add_assoc]⟩
  · simp only [encodings, List.mem_cons, List.not_mem_nil, or_false] at ha
    rcases ha with rfl | rfl | rfl
    · rfl
    · rw [DateArg.toDate]
      exact strptime_number.mpr (hyears hx)
    · rw [DateArg.toDate]
      exact strptime_write x
  · exact (setValue_number (x := o.value)).mpr (hyears hgrid)

end RepeatObject

/-! ### What is promised of a repeat -/

/-- Only the ten digits of ASCII. -/
def asciiDigits : DigitTable where
  digit c := if c.isDigit then some (c.toNat - 48) else none
  digit_lt c d h := by
    split_ifs at h with hc
    obtain ⟨e, he, rfl⟩ := DateText.exists_digitChar hc
    rw [Option.some_inj, Nat.toNat_digitChar_sub_48_of_lt_ten he] at h
    exact h ▸ he
  ascii d hd := by
    rw [Nat.isDigit_digitChar, decide_eq_true hd, if_pos rfl,
      Nat.toNat_digitChar_sub_48_of_lt_ten hd]

/-- A platform that writes years as they are. -/
def plainPlatform : Platform where
  digits := asciiDigits
  padsYear := false
  strptimeMessage text := "time data '" ++ text ++ "' does not match format '%Y%m%d'"

/-- A repeat over every day of a range. -/
def dayRange (startDate endDate : String) : RepeatDateDefinition where
  typeId := "takler.repeat.date"
  name := "DAY"
  startDate := startDate
  endDate := endDate
  step := 1

/-- **A repeat keeps its promises after any calls** exactly when the first year has four digits and
the step after the last date of the grid does not leave the calendar. -/
theorem repeatDate_promises_iff {d : RepeatDateDefinition} {o : RepeatObject} (h : d.Accepted P)
    (hbuild : d.build P = .ok o) :
    (∀ calls, ∃ x, o.run P calls = { o with value := x } ∧
      RepeatObject.Promises P { o with value := x }) ↔
      1000 ≤ o.startDate.year ∧ o.lastGrid + o.stepDay ≤ lastOrdinal := by
  obtain ⟨hsane, hvalue⟩ := h.sane hbuild
  have hgrid : o.OnGrid o.value := ⟨⟨0, by rw [hvalue]; simp⟩, by rw [hvalue]; exact hsane.start_le⟩
  constructor
  · intro hall
    constructor
    · -- the number of the first date is not read back
      obtain ⟨x, hx, hpromises⟩ := hall []
      have hfirst : x = o.startDate := (congrArg RepeatObject.value hx).symm.trans hvalue
      subst hfirst
      exact RepeatObject.setValue_number.mp hpromises.runtime.2
    · -- an increment at the last date of the grid raises
      obtain ⟨x, hx, hxgrid⟩ := RepeatObject.exists_lastGrid hsane
      have hchange : o.change P (.date x) = .ok { o with value := x } :=
        (RepeatObject.change_eq_ok hsane.step_pos).mpr ⟨x, rfl, hxgrid, rfl⟩
      obtain ⟨y, hy, hpromises⟩ := hall [.change (.date x)]
      have hrun : o.run P [.change (.date x)] = { o with value := x } := by
        rw [RepeatObject.run, List.foldl_cons, List.foldl_nil, RepeatObject.call, hchange]
      obtain rfl : x = y := congrArg RepeatObject.value (hrun.symm.trans hy)
      by_contra hover
      have hraise := RepeatObject.increment_overflow (o := { o with value := x })
        (by rw [hx]; exact Nat.lt_of_not_le hover)
      have hquiet := hpromises.last fun z hz heq => by
        have hz : z.toOrdinal ≤ o.lastGrid := RepeatObject.OnGrid.le_lastGrid hsane hz
        have heq : z.toOrdinal = x.toOrdinal + o.stepDay := heq
        have := hsane.step_pos
        omega
      rw [hraise] at hquiet
      cases hquiet
  · rintro ⟨hyear, hlast⟩ calls
    obtain ⟨x, hx, hxgrid⟩ := RepeatObject.onGrid_run (P := P) hsane calls hgrid
    exact ⟨x, hx, RepeatObject.promises ⟨hsane.name_ne, hsane.start_le, hsane.step_pos,
      hsane.step_le⟩ hyear hlast hxgrid⟩

/-- A new year. -/
theorem newYear_promises : ∃ o, (dayRange "20191231" "20200102").Accepted plainPlatform ∧
    (dayRange "20191231" "20200102").build plainPlatform = .ok o ∧
    ∀ calls, ∃ x, o.run plainPlatform calls = { o with value := x } ∧
      RepeatObject.Promises plainPlatform { o with value := x } := by
  have haccepted : (dayRange "20191231" "20200102").Accepted plainPlatform :=
    ⟨rfl, by decide, by decide, rfl⟩
  obtain ⟨o, ho⟩ : ∃ o, (dayRange "20191231" "20200102").build plainPlatform = .ok o := ⟨_, rfl⟩
  refine ⟨o, haccepted, ho, (repeatDate_promises_iff haccepted ho).mpr ?_⟩
  obtain rfl := Except.ok.inj ho
  decide

/-- On the last day of the calendar an increment raises, and a value of the year 999 is taken for a
date of the year 9990 when it is restored. -/
theorem repeatDate_breaks_promises :
    (∃ o, (dayRange "99991231" "99991231").Accepted plainPlatform ∧
      (dayRange "99991231" "99991231").build plainPlatform = .ok o ∧
      o.increment = .error (.overflow "date value out of range")) ∧
    ∃ o o', (dayRange "09990101" "09990131").Accepted plainPlatform ∧
      (dayRange "09990101" "09990131").build plainPlatform = .ok o ∧
      o.setValue plainPlatform (.int (o.toDict plainPlatform).value) = .ok o' ∧
      o.value.year = 999 ∧ o'.value.year = 9990 := by
  refine ⟨⟨_, ⟨rfl, by decide, by decide, rfl⟩, rfl,
    RepeatObject.increment_overflow (by decide +kernel)⟩, ?_⟩
  exact ⟨_, _, ⟨rfl, by decide, by decide, rfl⟩, rfl, rfl, rfl, rfl⟩

end Takler
