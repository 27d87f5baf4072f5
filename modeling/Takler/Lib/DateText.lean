import Mathlib
import Takler.Lib.Calendar

/-!
# Dates as compact texts

A date is written as its year, month and day without separators. The reader takes four digits for
the year, and for the month and the day the first alternative that lets the rest be read: two
digits where they make sense, else one. It therefore reads texts of fewer than eight digits as
well. Which characters are digits besides the ten of ASCII is left open (`DigitTable`).

## Main definitions

* `DigitTable`: the digits of a character set.
* `DateText.read`: the date that a text stands for.
* `DateText.write`, `DateText.number`: the text and the number of a date.

## Main results

* `DateText.read_write`, `DateText.eq_write_of_read`: among the texts of eight digits, that of a
  date is the one that is read as the date.
* `DateText.read_toDigits_number`: the number of a date from year 1000 on is read back.
* `DateText.read_toDigits_number_ne`: that of an earlier date is not.
* `DateText.write_lt`: the texts are in the order of the dates.
-/

open Gregorian

/-- The characters that are decimal digits, the ten of ASCII among them. -/
structure DigitTable where
  digit : Char → Option ℕ
  digit_lt : ∀ c d, digit c = some d → d < 10
  ascii : ∀ d, d < 10 → digit (Nat.digitChar d) = some d

namespace DateText

/-! ### Reading -/

/-- The digits from `lo` to `hi`, as a character class. -/
def digitIn (lo hi : ℕ) : List Char → List (ℕ × List Char)
  | c :: cs => if 48 + lo ≤ c.toNat ∧ c.toNat ≤ 48 + hi then [(c.toNat - 48, cs)] else []
  | [] => []

/-- Any digit. -/
def anyDigit (T : DigitTable) : List Char → List (ℕ × List Char)
  | c :: cs => (T.digit c).toList.map fun d => (d, cs)
  | [] => []

/-- One digit after the other. -/
def followed (f g : List Char → List (ℕ × List Char)) (cs : List Char) : List (ℕ × List Char) :=
  (f cs).flatMap fun x => (g x.2).map fun y => (10 * x.1 + y.1, y.2)

/-- The readings of a year, of which there is at most one. -/
def readYear (T : DigitTable) : List Char → List (ℕ × List Char) :=
  followed (followed (followed (anyDigit T) (anyDigit T)) (anyDigit T)) (anyDigit T)

/-- The readings of a month, in the order in which they are tried. -/
def readMonth (cs : List Char) : List (ℕ × List Char) :=
  followed (digitIn 1 1) (digitIn 0 2) cs ++ followed (digitIn 0 0) (digitIn 1 9) cs ++
    digitIn 1 9 cs

/-- A digit after a blank. -/
def spacedDigit : List Char → List (ℕ × List Char)
  | c :: cs => if c = ' ' then digitIn 1 9 cs else []
  | [] => []

/-- The readings of a day, in the order in which they are tried. -/
def readDay (T : DigitTable) (cs : List Char) : List (ℕ × List Char) :=
  followed (digitIn 3 3) (digitIn 0 1) cs ++ followed (digitIn 1 2) (anyDigit T) cs ++
    followed (digitIn 0 0) (digitIn 1 9) cs ++ digitIn 1 9 cs ++ spacedDigit cs

/-- The readings of the three fields. -/
def readFields (T : DigitTable) (cs : List Char) : List ((ℕ × ℕ × ℕ) × List Char) :=
  (readYear T cs).flatMap fun y => (readMonth y.2).flatMap fun m => (readDay T m.2).map fun d =>
    ((y.1, m.1, d.1), d.2)

/-- The date that a text stands for: the first reading has to take the whole text, and there has to
be such a date. -/
def read (T : DigitTable) (cs : List Char) : Option Date :=
  match (readFields T cs).head? with
  | some ((y, m, d), []) => Date.ofFields? y m d
  | _ => none

/-! ### Writing -/

/-- Two digits. -/
def padded2 (n : ℕ) : List Char := [Nat.digitChar (n / 10 % 10), Nat.digitChar (n % 10)]

/-- Four digits. -/
def padded4 (n : ℕ) : List Char := padded2 (n / 100) ++ padded2 n

/-- The text of a date. Not every platform fills up the year to four digits. -/
def write (pad : Bool) (x : Date) : List Char :=
  (if pad then padded4 x.year else Nat.toDigits 10 x.year) ++ padded2 x.month ++ padded2 x.day

/-- The text of a date read as a number. -/
def number (x : Date) : ℕ := 10000 * x.year + 100 * x.month + x.day

/-! ### Digits -/

variable {T : DigitTable}

theorem digitIn_digitChar {lo hi d : ℕ} (hd : d < 10) (cs : List Char) :
    digitIn lo hi (Nat.digitChar d :: cs) = if lo ≤ d ∧ d ≤ hi then [(d, cs)] else [] := by
  rw [digitIn, Nat.toNat_digitChar_of_lt_ten hd]
  simp

theorem anyDigit_digitChar {d : ℕ} (hd : d < 10) (cs : List Char) :
    anyDigit T (Nat.digitChar d :: cs) = [(d, cs)] := by
  simp [anyDigit, T.ascii d hd]

theorem length_of_mem_digitIn {lo hi : ℕ} {cs : List Char} {x : ℕ × List Char}
    (h : x ∈ digitIn lo hi cs) : x.2.length + 1 = cs.length := by
  cases cs with
  | nil => cases h
  | cons c cs =>
    rw [digitIn] at h
    split_ifs at h
    · rw [List.mem_singleton.mp h, List.length_cons]
    · cases h

theorem length_of_mem_anyDigit {cs : List Char} {x : ℕ × List Char} (h : x ∈ anyDigit T cs) :
    x.2.length + 1 = cs.length := by
  cases cs with
  | nil => cases h
  | cons c cs =>
    obtain ⟨d, -, rfl⟩ := List.mem_map.mp h
    rfl

/-- What reads two digits takes two characters. -/
theorem length_of_mem_followed {f g : List Char → List (ℕ × List Char)}
    (hf : ∀ cs x, x ∈ f cs → x.2.length + 1 = cs.length)
    (hg : ∀ cs x, x ∈ g cs → x.2.length + 1 = cs.length) {cs : List Char} {x : ℕ × List Char}
    (h : x ∈ followed f g cs) : x.2.length + 2 = cs.length := by
  obtain ⟨y, hy, hx⟩ := List.mem_flatMap.mp h
  obtain ⟨z, hz, rfl⟩ := List.mem_map.mp hx
  have h₁ := hf cs y hy
  have h₂ := hg y.2 z hz
  simp only
  omega

theorem followed_digitIn {lo hi lo' hi' a b : ℕ} (ha : a < 10) (hb : b < 10) (cs : List Char) :
    followed (digitIn lo hi) (digitIn lo' hi') (Nat.digitChar a :: Nat.digitChar b :: cs) =
      if (lo ≤ a ∧ a ≤ hi) ∧ lo' ≤ b ∧ b ≤ hi' then [(10 * a + b, cs)] else [] := by
  rw [followed, digitIn_digitChar ha]
  by_cases h : lo ≤ a ∧ a ≤ hi
  · by_cases h' : lo' ≤ b ∧ b ≤ hi' <;> simp [h, h', digitIn_digitChar hb]
  · simp [h]

theorem followed_anyDigit {lo hi a b : ℕ} (ha : a < 10) (hb : b < 10) (cs : List Char) :
    followed (digitIn lo hi) (anyDigit T) (Nat.digitChar a :: Nat.digitChar b :: cs) =
      if lo ≤ a ∧ a ≤ hi then [(10 * a + b, cs)] else [] := by
  rw [followed, digitIn_digitChar ha]
  by_cases h : lo ≤ a ∧ a ≤ hi <;> simp [h, anyDigit_digitChar hb]

theorem padded2_lt {n : ℕ} (hn : n < 100) :
    padded2 n = [Nat.digitChar (n / 10), Nat.digitChar (n % 10)] := by
  rw [padded2, Nat.mod_eq_of_lt (by omega : n / 10 < 10)]

theorem padded2_mod (n : ℕ) : padded2 (n % 100) = padded2 n := by
  have htens : n % 100 / 10 % 10 = n / 10 % 10 := by omega
  rw [padded2, padded2, htens, Nat.mod_mod_of_dvd _ (by decide)]

theorem readYear_padded4 {y : ℕ} (hy : y < 10000) (cs : List Char) :
    readYear T (padded4 y ++ cs) = [(y, cs)] := by
  have h₁ : y / 100 / 10 % 10 < 10 := Nat.mod_lt _ (by decide)
  have h₂ : y / 100 % 10 < 10 := Nat.mod_lt _ (by decide)
  have h₃ : y / 10 % 10 < 10 := Nat.mod_lt _ (by decide)
  have h₄ : y % 10 < 10 := Nat.mod_lt _ (by decide)
  simp only [readYear, padded4, padded2, followed, List.cons_append, List.nil_append,
    anyDigit_digitChar h₁, anyDigit_digitChar h₂, anyDigit_digitChar h₃, anyDigit_digitChar h₄,
    List.flatMap_cons, List.flatMap_nil, List.map_cons, List.map_nil, List.append_nil]
  congr 2
  omega

/-- A month that is written with two digits is read with both first. -/
theorem readMonth_padded2 {m : ℕ} (hpos : 1 ≤ m) (hm : m ≤ 12) (cs : List Char) :
    ∃ l, readMonth (padded2 m ++ cs) = (m, cs) :: l := by
  have h₁ : m / 10 < 10 := by omega
  have h₂ : m % 10 < 10 := by omega
  have hval : 10 * (m / 10) + m % 10 = m := Nat.div_add_mod m 10
  rw [padded2_lt (by omega), List.cons_append, List.cons_append, List.nil_append, readMonth,
    followed_digitIn h₁ h₂, followed_digitIn h₁ h₂, hval]
  by_cases hten : 10 ≤ m
  · rw [if_pos (by omega)]
    exact ⟨_, rfl⟩
  · rw [if_neg (by omega), if_pos (by omega)]
    exact ⟨_, rfl⟩

/-- So is a day. -/
theorem readDay_padded2 {d : ℕ} (hpos : 1 ≤ d) (hd : d ≤ 31) (cs : List Char) :
    ∃ l, readDay T (padded2 d ++ cs) = (d, cs) :: l := by
  have h₁ : d / 10 < 10 := by omega
  have h₂ : d % 10 < 10 := by omega
  have hval : 10 * (d / 10) + d % 10 = d := Nat.div_add_mod d 10
  rw [padded2_lt (by omega), List.cons_append, List.cons_append, List.nil_append, readDay,
    followed_digitIn h₁ h₂, followed_digitIn h₁ h₂, followed_anyDigit h₁ h₂, hval]
  rcases (by omega : 30 ≤ d ∨ 10 ≤ d ∧ d < 30 ∨ d < 10) with h | h | h
  · rw [if_pos (by omega)]
    exact ⟨_, rfl⟩
  · rw [if_neg (by omega), if_pos (by omega)]
    exact ⟨_, rfl⟩
  · rw [if_neg (by omega), if_neg (by omega), if_pos (by omega)]
    exact ⟨_, rfl⟩

theorem daysInMonth_le (leap : Bool) (m : ℕ) : daysInMonth leap m ≤ 31 := by
  unfold daysInMonth
  cases leap <;> split <;> decide

/-- **The text of a date is read back.** -/
theorem read_write (x : Date) : read T (write true x) = some x := by
  obtain ⟨l, hm⟩ := readMonth_padded2 x.month_pos x.month_le (padded2 x.day)
  obtain ⟨l', hd⟩ := readDay_padded2 (T := T) x.day_pos (x.day_le.trans (daysInMonth_le _ _)) []
  have hy := readYear_padded4 (T := T) (Nat.lt_succ_of_le x.year_le) (padded2 x.month ++ padded2 x.day)
  rw [List.append_nil] at hd
  have hread : (readFields T (write true x)).head? = some ((x.year, x.month, x.day), []) := by
    rw [write, if_pos rfl, List.append_assoc, readFields, hy]
    simp [hm, hd]
  rw [read, hread]
  exact Date.ofFields?_eq_some.mpr ⟨rfl, rfl, rfl⟩

/-! ### Numbers -/

theorem toDigits_add {n m : ℕ} (hn : 0 < n) (hm : m < 100) :
    Nat.toDigits 10 (100 * n + m) = Nat.toDigits 10 n ++ padded2 m := by
  have hsplit : 100 * n + m = 10 * (10 * n + m / 10) + m % 10 := by omega
  rw [padded2_lt hm, hsplit, ← Nat.toDigits_append_toDigits (by decide) (by omega) (by omega),
    ← Nat.toDigits_append_toDigits (by decide) hn (by omega),
    Nat.toDigits_of_lt_base (by omega : m / 10 < 10),
    Nat.toDigits_of_lt_base (by omega : m % 10 < 10), List.append_assoc]
  rfl

/-- A number starts with a digit other than zero. -/
theorem exists_toDigits_eq_cons {n : ℕ} (hn : 0 < n) :
    ∃ d cs, 0 < d ∧ d < 10 ∧ Nat.toDigits 10 n = Nat.digitChar d :: cs := by
  induction n using Nat.strong_induction_on with
  | h n ih =>
    by_cases hlt : n < 10
    · exact ⟨n, [], hn, hlt, Nat.toDigits_of_lt_base hlt⟩
    · obtain ⟨d, cs, hpos, hd, heq⟩ := ih (n / 10) (by omega) (by omega)
      refine ⟨d, cs ++ [Nat.digitChar (n % 10)], hpos, hd, ?_⟩
      rw [Nat.toDigits_of_base_le (by decide) (by omega), heq]
      rfl

theorem toDigits_number (x : Date) :
    Nat.toDigits 10 (number x) = Nat.toDigits 10 x.year ++ padded2 x.month ++ padded2 x.day := by
  have hday := x.day_le.trans (daysInMonth_le _ _)
  have hmonth := x.month_le
  have hyear := x.year_pos
  have hsplit : number x = 100 * (100 * x.year + x.month) + x.day := by
    unfold number
    omega
  rw [hsplit, toDigits_add (by omega) (by omega), toDigits_add hyear (by omega)]

theorem toDigits_year {y : ℕ} (hy : 1000 ≤ y) (hlt : y < 10000) :
    Nat.toDigits 10 y = padded4 y := by
  have hsplit : y = 100 * (10 * (y / 1000) + y / 100 % 10) + y % 100 := by omega
  rw [padded4, ← padded2_mod y, padded2_lt (by omega : y / 100 < 100)]
  nth_rewrite 1 [hsplit]
  rw [toDigits_add (by omega) (by omega), ← Nat.toDigits_append_toDigits (by decide) (by omega)
    (by omega), Nat.toDigits_of_lt_base (by omega : y / 1000 < 10),
    Nat.toDigits_of_lt_base (by omega : y / 100 % 10 < 10)]
  have hthousands : y / 100 / 10 = y / 1000 := by omega
  rw [hthousands]
  rfl

/-- From year 1000 on the year needs no filling up. -/
theorem write_eq (pad : Bool) {x : Date} (hx : 1000 ≤ x.year) : write pad x = write true x := by
  cases pad with
  | true => rfl
  | false =>
    rw [write, write, toDigits_year hx (Nat.lt_succ_of_le x.year_le)]
    rfl

/-- **The number of a date from year 1000 on is read back.** -/
theorem read_toDigits_number {x : Date} (hx : 1000 ≤ x.year) :
    read T (Nat.toDigits 10 (number x)) = some x := by
  rw [toDigits_number]
  exact (congrArg (read T) (write_eq false hx)).trans (read_write x)

/-- What is read of a text that starts with a digit other than zero has four digits. -/
theorem year_of_read {d : ℕ} (hpos : 0 < d) (hd : d < 10) {cs : List Char} {x : Date}
    (h : read T (Nat.digitChar d :: cs) = some x) : 1000 ≤ x.year := by
  unfold read at h
  split at h
  · rename_i y m e heq
    obtain ⟨hy, -, -⟩ := Date.ofFields?_eq_some.mp h
    obtain ⟨a, ha, hrest⟩ := List.mem_flatMap.mp (List.mem_of_head? heq)
    obtain ⟨b, -, hrest⟩ := List.mem_flatMap.mp hrest
    obtain ⟨c, -, hc⟩ := List.mem_map.mp hrest
    have hya : a.1 = y := congrArg (fun z => z.1.1) hc
    rw [← hy, ← hya]
    simp only [readYear, followed, anyDigit_digitChar hd, List.mem_flatMap, List.mem_map,
      List.mem_singleton] at ha
    obtain ⟨_, ⟨_, ⟨_, rfl, _, _, rfl⟩, _, _, rfl⟩, _, _, rfl⟩ := ha
    simp only
    omega
  · cases h

/-- **The number of an earlier date is not**: it is taken for another date or refused. -/
theorem read_toDigits_number_ne {x : Date} (hx : x.year < 1000) :
    read T (Nat.toDigits 10 (number x)) ≠ some x := by
  intro h
  obtain ⟨d, cs, hpos, hd, heq⟩ := exists_toDigits_eq_cons x.year_pos
  rw [toDigits_number, heq] at h
  exact absurd (year_of_read hpos hd h) (Nat.not_le.mpr hx)

/-! ### Texts of eight digits -/

theorem exists_digitChar {c : Char} (h : c.isDigit = true) : ∃ d, d < 10 ∧ c = Nat.digitChar d := by
  simp only [Char.isDigit, Bool.and_eq_true, decide_eq_true_eq, ge_iff_le, UInt32.le_iff_toNat_le]
    at h
  obtain ⟨hlo, hhi⟩ := h
  have hlo : 48 ≤ c.toNat := hlo
  have hhi : c.toNat ≤ 57 := hhi
  refine ⟨c.toNat - 48, by omega, Char.toNat_inj.mp ?_⟩
  rw [Nat.toNat_digitChar_of_lt_ten (by omega)]
  omega

theorem exists_padded2 {a b : Char} (ha : a.isDigit = true) (hb : b.isDigit = true) :
    ∃ n, n < 100 ∧ [a, b] = padded2 n := by
  obtain ⟨d, hd, rfl⟩ := exists_digitChar ha
  obtain ⟨e, he, rfl⟩ := exists_digitChar hb
  have htens : (10 * d + e) / 10 = d := by omega
  have hones : (10 * d + e) % 10 = e := by omega
  refine ⟨10 * d + e, by omega, ?_⟩
  rw [padded2_lt (by omega), htens, hones]

/-- Eight digits are a year, a month and a day. -/
theorem exists_fields {cs : List Char} (hlen : cs.length = 8) (h : ∀ c ∈ cs, c.isDigit = true) :
    ∃ y m d, y < 10000 ∧ m < 100 ∧ d < 100 ∧ cs = padded4 y ++ padded2 m ++ padded2 d := by
  match cs, hlen with
  | [a, b, c, d, e, f, g, i], _ =>
    simp only [List.mem_cons, List.not_mem_nil, or_false, forall_eq_or_imp, forall_eq] at h
    obtain ⟨ha, hb, hc, hd, he, hf, hg, hi⟩ := h
    obtain ⟨y, hy, hy'⟩ := exists_padded2 ha hb
    obtain ⟨z, hz, hz'⟩ := exists_padded2 hc hd
    obtain ⟨m, hm, hm'⟩ := exists_padded2 he hf
    obtain ⟨k, hk, hk'⟩ := exists_padded2 hg hi
    refine ⟨100 * y + z, m, k, by omega, hm, hk, ?_⟩
    have hcentury : (100 * y + z) / 100 = y := by omega
    have hrest : padded2 (100 * y + z) = padded2 z := by
      rw [← padded2_mod (100 * y + z), Nat.mul_add_mod, padded2_mod]
    rw [padded4, hcentury, hrest, ← hy', ← hz', ← hm', ← hk']
    rfl

/-- Any other reading of a month of two digits takes one digit only. -/
theorem mem_readMonth_padded2 {m : ℕ} (hm : m < 100) {cs : List Char} {x : ℕ × List Char}
    (hx : x ∈ readMonth (padded2 m ++ cs)) : x = (m, cs) ∨ x.2.length = cs.length + 1 := by
  have h₁ : m / 10 < 10 := by omega
  have h₂ : m % 10 < 10 := by omega
  rw [padded2_lt hm, List.cons_append, List.cons_append, List.nil_append, readMonth,
    followed_digitIn h₁ h₂, followed_digitIn h₁ h₂, Nat.div_add_mod m 10, List.mem_append,
    List.mem_append] at hx
  rcases hx with (hx | hx) | hx
  · split_ifs at hx
    · exact .inl (List.mem_singleton.mp hx)
    · cases hx
  · split_ifs at hx
    · exact .inl (List.mem_singleton.mp hx)
    · cases hx
  · have := length_of_mem_digitIn hx
    simp only [List.length_cons] at this
    exact .inr (by omega)

theorem mem_readDay_padded2 {d : ℕ} (hd : d < 100) {cs : List Char} {x : ℕ × List Char}
    (hx : x ∈ readDay T (padded2 d ++ cs)) : x = (d, cs) ∨ x.2.length = cs.length + 1 := by
  have h₁ : d / 10 < 10 := by omega
  have h₂ : d % 10 < 10 := by omega
  rw [padded2_lt hd, List.cons_append, List.cons_append, List.nil_append, readDay,
    followed_digitIn h₁ h₂, followed_digitIn h₁ h₂, followed_anyDigit h₁ h₂, Nat.div_add_mod d 10,
    List.mem_append, List.mem_append, List.mem_append, List.mem_append] at hx
  rcases hx with (((hx | hx) | hx) | hx) | hx
  · split_ifs at hx
    · exact .inl (List.mem_singleton.mp hx)
    · cases hx
  · split_ifs at hx
    · exact .inl (List.mem_singleton.mp hx)
    · cases hx
  · split_ifs at hx
    · exact .inl (List.mem_singleton.mp hx)
    · cases hx
  · have := length_of_mem_digitIn hx
    simp only [List.length_cons] at this
    exact .inr (by omega)
  · -- a digit is no blank
    have hblank : Nat.digitChar (d / 10) ≠ ' ' := fun h => by
      have := congrArg Char.toNat h
      rw [Nat.toNat_digitChar_of_lt_ten h₁] at this
      have : 48 + d / 10 = 32 := this
      omega
    rw [spacedDigit, if_neg hblank] at hx
    cases hx

/-- A day takes at most two characters. -/
theorem length_of_mem_readDay {cs : List Char} {x : ℕ × List Char} (hx : x ∈ readDay T cs)
    (hend : x.2 = []) : cs.length ≤ 2 := by
  have hone {lo hi : ℕ} (l : List Char) (y : ℕ × List Char) (hy : y ∈ digitIn lo hi l) :
      y.2.length + 1 = l.length := length_of_mem_digitIn hy
  have hany (l : List Char) (y : ℕ × List Char) (hy : y ∈ anyDigit T l) :
      y.2.length + 1 = l.length := length_of_mem_anyDigit hy
  have hzero : x.2.length = 0 := by rw [hend, List.length_nil]
  rw [readDay, List.mem_append, List.mem_append, List.mem_append, List.mem_append] at hx
  rcases hx with (((hx | hx) | hx) | hx) | hx
  · have := length_of_mem_followed hone hone hx
    omega
  · have := length_of_mem_followed hone hany hx
    omega
  · have := length_of_mem_followed hone hone hx
    omega
  · have := hone _ _ hx
    omega
  · cases cs with
    | nil => cases hx
    | cons c cs =>
      rw [spacedDigit] at hx
      split_ifs at hx
      · have := hone _ _ hx
        rw [List.length_cons]
        omega
      · cases hx

/-- **A text of eight digits that is read is the text of the date.** -/
theorem eq_write_of_read {cs : List Char} (hlen : cs.length = 8)
    (hdigit : ∀ c ∈ cs, c.isDigit = true) {x : Date} (h : read T cs = some x) :
    cs = write true x := by
  obtain ⟨y, m, d, hy, hm, hd, rfl⟩ := exists_fields hlen hdigit
  unfold read at h
  split at h
  · rename_i y' m' d' heq
    obtain ⟨rfl, rfl, rfl⟩ := Date.ofFields?_eq_some.mp h
    obtain ⟨a, ha, hrest⟩ := List.mem_flatMap.mp (List.mem_of_head? heq)
    rw [List.append_assoc, readYear_padded4 hy, List.mem_singleton] at ha
    subst ha
    obtain ⟨b, hb, hrest⟩ := List.mem_flatMap.mp hrest
    obtain ⟨c, hc, hfields⟩ := List.mem_map.mp hrest
    simp only [Prod.mk.injEq] at hfields
    obtain ⟨⟨hyear, hmonth, hday⟩, hend⟩ := hfields
    have hb' : b = (m, padded2 d) := by
      rcases mem_readMonth_padded2 hm hb with hb' | hlong
      · exact hb'
      · -- three characters are left for the day, which takes at most two
        have hshort : b.2.length ≤ 2 := length_of_mem_readDay hc hend
        rw [hlong] at hshort
        exact absurd hshort (by simp [padded2])
    subst hb'
    have hc' : c = (d, []) := by
      rw [← List.append_nil (padded2 d)] at hc
      rcases mem_readDay_padded2 hd hc with hc' | hlong
      · exact hc'
      · rw [hend] at hlong
        cases hlong
    subst hc'
    rw [write, if_pos rfl, ← hyear, ← hmonth, ← hday]
  · cases h

/-! ### Order -/

theorem digitChar_lt {a b : ℕ} (h : a < b) (hb : b < 10) : Nat.digitChar a < Nat.digitChar b := by
  have ha := Nat.toNat_digitChar_of_lt_ten (h.trans hb)
  have hb := Nat.toNat_digitChar_of_lt_ten hb
  change (Nat.digitChar a).toNat < (Nat.digitChar b).toNat
  omega

theorem padded2_append_lt {a b : ℕ} (h : a < b) (hb : b < 100) (l l' : List Char) :
    padded2 a ++ l < padded2 b ++ l' := by
  rw [padded2_lt (h.trans hb), padded2_lt hb]
  simp only [List.cons_append, List.nil_append, List.cons_lt_cons_iff]
  by_cases hten : a / 10 = b / 10
  · rw [hten]
    exact .inr ⟨rfl, .inl (digitChar_lt (by omega) (by omega))⟩
  · exact .inl (digitChar_lt (by omega) (by omega))

/-- **The texts of dates are in the order of the dates.** -/
theorem write_lt {x y : Date} (h : x < y) : write true x < write true y := by
  have hday (z : Date) := z.day_le.trans (daysInMonth_le _ _)
  have hyear := y.year_le
  have hmonth := y.month_le
  simp only [write, if_true, padded4, List.append_assoc]
  rcases Date.lt_iff.mp h with hy | ⟨hy, hm | ⟨hm, hd⟩⟩
  · by_cases hcentury : x.year / 100 = y.year / 100
    · rw [hcentury, ← padded2_mod x.year, ← padded2_mod y.year]
      exact List.append_left_lt (padded2_append_lt (by omega) (by omega) _ _)
    · exact padded2_append_lt (by omega) (by omega) _ _
  · rw [hy]
    exact List.append_left_lt (List.append_left_lt (padded2_append_lt hm (by omega) _ _))
  · rw [hy, hm]
    have hlast := padded2_append_lt hd (Nat.lt_of_le_of_lt (hday y) (by decide)) [] []
    rw [List.append_nil, List.append_nil] at hlast
    exact List.append_left_lt (List.append_left_lt (List.append_left_lt hlast))

end DateText
