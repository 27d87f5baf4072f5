import Takler.Core.Node
import Takler.Lib.Binary64
import Takler.Lib.DateText

/-!
# Repeats over dates

The trees of the other modules keep the value of a repeat as a day ordinal. Here is the object
behind it: `RepeatDate` holds dates, and takes and gives them as numbers and texts. A value is
written with `strftime` and read with `strptime`, which needs four digits for the year.

## Main definitions

* `RepeatDateDefinition`, `RuntimeRepeat`: the schemas.
* `RepeatObject`: an object of the class `RepeatDate`, with `increment`, `change`, `reset`,
  `toDict` and `fromDict`.
* `RepeatObject.run`: calls in a row.
* `RepeatObject.Promises`: what callers rely on.
-/

namespace Takler

open Gregorian

/-! ### Texts of dates -/

/-- What the platform decides. -/
structure Platform where
  /-- The characters that `\d` matches. -/
  digits : DigitTable
  /-- Whether `strftime` fills up a year to four digits. -/
  padsYear : Bool
  /-- The message of the `ValueError` of `strptime`. -/
  strptimeMessage : String → String

/-- What the calls below raise. -/
inductive RepeatErr
  | valueError (message : String)
  | overflow (message : String)
  | zeroDivision (message : String)
deriving DecidableEq

variable (P : Platform)

/-- `datetime.strptime(text, "%Y%m%d").date()`. -/
def strptime (text : String) : Except RepeatErr Date :=
  match DateText.read P.digits text.toList with
  | some x => .ok x
  | none => .error (.valueError (P.strptimeMessage text))

/-- `x.strftime("%Y%m%d")`. -/
def strftime (x : Date) : String := String.ofList (DateText.write P.padsYear x)

/-- `str` of an integer. -/
def intText : ℤ → String
  | .ofNat n => String.ofList (Nat.toDigits 10 n)
  | .negSucc n => String.ofList ('-' :: Nat.toDigits 10 (n + 1))

/-- A date in a message. -/
def isoText (x : Date) : String :=
  String.ofList (DateText.padded4 x.year ++ '-' :: DateText.padded2 x.month ++
    '-' :: DateText.padded2 x.day)

/-! ### Schemas -/

/-- The fields of `RepeatDateDefinition`. -/
structure RepeatDateDefinition where
  typeId : String
  name : String
  startDate : String
  endDate : String
  step : ℤ
deriving DecidableEq

/-- The match of `[0-9]{8}`. -/
def isEightDigits (text : String) : Bool :=
  text.toList.length = 8 && text.toList.all Char.isDigit

namespace RepeatDateDefinition

/-- One turn of the loop of `dates`. -/
def checkDate (text : String) : Except RepeatErr Unit :=
  if isEightDigits text then do
    let _ ← strptime P text
    pure ()
  else .error (.valueError "invalid date")

/-- The validator `dates`. -/
def dates (d : RepeatDateDefinition) : Except RepeatErr Unit := do
  checkDate P d.startDate
  checkDate P d.endDate
  if d.endDate.toList < d.startDate.toList then .error (.valueError "invalid date range")
  else pure ()

/-- The schema accepts the fields. -/
def Accepted (d : RepeatDateDefinition) : Prop :=
  d.typeId = "takler.repeat.date" ∧ d.name ≠ "" ∧ 0 < d.step ∧ d.dates P = .ok ()

end RepeatDateDefinition

/-- The fields of `RuntimeRepeat`. -/
structure RuntimeRepeat extends RepeatDateDefinition where
  value : ℤ
deriving DecidableEq

/-- The validator `current`. -/
def RuntimeRepeat.current (r : RuntimeRepeat) : Except RepeatErr Unit := do
  let start ← strptime P r.startDate
  let last ← strptime P r.endDate
  let value ← strptime P (intText r.value)
  if ¬ (start ≤ value ∧ value ≤ last) ∨
      ((value.toOrdinal : ℤ) - start.toOrdinal) % r.step ≠ 0 then
    .error (.valueError "invalid repeat runtime")
  else pure ()

/-- The schema accepts the fields. -/
def RuntimeRepeat.Accepted (r : RuntimeRepeat) : Prop :=
  r.toRepeatDateDefinition.Accepted P ∧ r.current P = .ok ()

/-! ### The object -/

/-- The microseconds of a day. -/
def dayMicroseconds : ℕ := 86400000000

/-- `timedelta(days=days)`, as its days. -/
def timedelta (days : ℕ) : Except RepeatErr ℕ :=
  if days ≤ 999999999 then .ok days
  else if days < 2 ^ 31 then
    .error (.overflow ("days=" ++ intText days ++ "; must have magnitude <= 999999999"))
  else .error (.overflow "Python int too large to convert to C int")

/-- A date plus a number of days. -/
def addDays (x : Date) (days : ℕ) : Except RepeatErr Date :=
  if h : 1 ≤ x.toOrdinal + days ∧ x.toOrdinal + days ≤ lastOrdinal then
    .ok (Date.ofOrdinal (x.toOrdinal + days) h)
  else .error (.overflow "date value out of range")

/-- What a value may be given as. -/
inductive DateArg
  | date (x : Date)
  | int (n : ℤ)
  | str (text : String)

/-- The date that is meant. -/
def DateArg.toDate : DateArg → Except RepeatErr Date
  | .date x => .ok x
  | .int n => strptime P (intText n)
  | .str text => strptime P text

/-- An object of the class `RepeatDate`. -/
@[ext]
structure RepeatObject where
  name : String
  startDate : Date
  endDate : Date
  /-- The days of `step_day`. -/
  stepDay : ℕ
  value : Date
deriving DecidableEq

/-- What `to_dict` gives. -/
structure RepeatDict where
  name : String
  startDate : String
  endDate : String
  step : ℕ
  value : ℕ
  typeId : String
deriving DecidableEq

namespace RepeatObject

/-- `RepeatDate.__init__`. -/
def init (name startDate endDate : String) (step : ℕ) : Except RepeatErr RepeatObject := do
  let first ← strptime P startDate
  let last ← strptime P endDate
  let days ← timedelta step
  return { name := name, startDate := first, endDate := last, stepDay := days, value := first }

/-- The property `step`. -/
def step (o : RepeatObject) : ℕ :=
  (Binary64.quot (dayMicroseconds * o.stepDay) dayMicroseconds).truncate

/-- The setter of `value`. -/
def setValue (a : DateArg) (o : RepeatObject) : Except RepeatErr RepeatObject := do
  let x ← a.toDate P
  return { o with value := x }

/-- `RepeatDate.increment`. -/
def increment (o : RepeatObject) : Except RepeatErr (Bool × RepeatObject) := do
  let x ← addDays o.value o.stepDay
  if x ≤ o.endDate then return (true, { o with value := x })
  else return (false, o)

/-- `RepeatDate.change`. -/
def change (a : DateArg) (o : RepeatObject) : Except RepeatErr RepeatObject := do
  let x ← a.toDate P
  if x < o.startDate ∨ o.endDate < x then
    .error (.valueError ("value must be in range [" ++ isoText o.startDate ++ ", " ++
      isoText o.endDate ++ "], but current is " ++ isoText x))
  else if o.stepDay = 0 then .error (.zeroDivision "division by zero")
  else if (Binary64.quot (dayMicroseconds * (x.toOrdinal - o.startDate.toOrdinal))
      (dayMicroseconds * o.stepDay)).isInteger then
    return { o with value := x }
  else .error (.valueError ("value must be in multiply step " ++ intText o.step ++ " from " ++
    isoText o.startDate ++ ", but current is " ++ isoText x))

/-- `RepeatDate.reset`. -/
def reset (o : RepeatObject) : RepeatObject := { o with value := o.startDate }

/-- `RepeatDate.to_dict`. -/
def toDict (o : RepeatObject) : RepeatDict where
  name := o.name
  startDate := strftime P o.startDate
  endDate := strftime P o.endDate
  step := o.step
  value := DateText.number o.value
  typeId := "takler.repeat.date"

/-- `RepeatDate.from_dict`; the value is taken over when the status is serialised. -/
def fromDict (d : RepeatDict) (status : Bool) : Except RepeatErr RepeatObject := do
  let o ← init P d.name d.startDate d.endDate d.step
  if status then o.setValue P (.int d.value)
  else return o

end RepeatObject

/-- The object that the builder makes of a definition. -/
def RepeatDateDefinition.build (d : RepeatDateDefinition) : Except RepeatErr RepeatObject :=
  RepeatObject.init P d.name d.startDate d.endDate d.step.toNat

/-- What `to_dict` gives, as the schema of the checkpoint takes it. -/
def RepeatDict.toRuntime (d : RepeatDict) : RuntimeRepeat where
  typeId := d.typeId
  name := d.name
  startDate := d.startDate
  endDate := d.endDate
  step := d.step
  value := d.value

/-! ### Calls -/

/-- The calls that change a value. -/
inductive RepeatCall
  | increment
  | reset
  | change (a : DateArg)

namespace RepeatObject

/-- The object after a call; one that raises leaves it alone. -/
def call (o : RepeatObject) : RepeatCall → RepeatObject
  | .increment =>
    match o.increment with
    | .ok r => r.2
    | .error _ => o
  | .reset => o.reset
  | .change a =>
    match o.change P a with
    | .ok o' => o'
    | .error _ => o

/-- The object after calls. -/
def run (o : RepeatObject) (calls : List RepeatCall) : RepeatObject := calls.foldl (call P) o

/-- The date is one of the grid. -/
def OnGrid (o : RepeatObject) (x : Date) : Prop :=
  (∃ k, x.toOrdinal = o.startDate.toOrdinal + k * o.stepDay) ∧ x ≤ o.endDate

/-- The ways to give a date. -/
def encodings (x : Date) : List DateArg :=
  [.date x, .int (DateText.number x), .str (String.ofList (DateText.write true x))]

/-- What callers rely on. -/
structure Promises (o : RepeatObject) : Prop where
  /-- The value is start + k * step and lies within the range. -/
  grid : o.OnGrid o.value ∧ o.startDate ≤ o.value
  /-- A next value is taken. -/
  next : ∀ x, o.OnGrid x → x.toOrdinal = o.value.toOrdinal + o.stepDay →
    o.increment = .ok (true, { o with value := x })
  /-- At the last value nothing happens. -/
  last : (∀ x, o.OnGrid x → x.toOrdinal ≠ o.value.toOrdinal + o.stepDay) →
    o.increment = .ok (false, o)
  /-- A date of the grid can be set, however it is given. -/
  change_grid : ∀ x, o.OnGrid x → ∀ a ∈ encodings x, o.change P a = .ok { o with value := x }
  /-- Nothing else can. -/
  change_only : ∀ a o', o.change P a = .ok o' →
    ∃ x, a.toDate P = .ok x ∧ o.OnGrid x ∧ o' = { o with value := x }
  /-- The object survives `to_dict` and `from_dict`. -/
  dict : fromDict P (o.toDict P) true = .ok o
  /-- The schema of the checkpoint accepts it, and its value can be restored. -/
  runtime : (o.toDict P).toRuntime.Accepted P ∧
    o.setValue P (.int (o.toDict P).toRuntime.value) = .ok o

end RepeatObject

end Takler
