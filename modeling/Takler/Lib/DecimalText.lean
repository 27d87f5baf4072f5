import Takler.Lib.Json

/-!
# Decimal digits with leading zeros

A text of digits is determined by its length and the number that it writes. A number that is written
with leading zeros up to the length of a text of digits is that text again.

## Main results

* `Json.eq_of_readNat_eq`: texts of one length that write one number are equal.
* `Json.padded_readNat`: the digits of the number of a text, with leading zeros.
-/

open CodePoints (char)

namespace Json

/-- The digits of a number, with zeros before them up to a width. -/
def padded (width n : ℕ) : CodePoints :=
  List.replicate (width - (natText n).length) (char '0') ++ natText n

private theorem foldl_digits (t : CodePoints) : ∀ n : ℕ,
    t.foldl (fun n c => 10 * n + (c.val - 48)) n = 10 ^ t.length * n + readNat t := by
  induction t with
  | nil => simp [readNat]
  | cons c t ih =>
    intro n
    rw [readNat, List.foldl_cons, List.foldl_cons, ih, ih (10 * 0 + _), List.length_cons,
      Nat.pow_succ, Nat.mul_zero, Nat.zero_add, Nat.mul_add, Nat.mul_assoc, Nat.add_assoc]

theorem readNat_cons (c : Fin 0x110000) (t : CodePoints) :
    readNat (c :: t) = 10 ^ t.length * (c.val - 48) + readNat t := by
  rw [readNat, List.foldl_cons, foldl_digits]
  simp

theorem isDigit_iff {c : Fin 0x110000} : isDigit c = true ↔ 48 ≤ c.val ∧ c.val ≤ 57 := by
  simp [isDigit]

theorem readNat_lt {t : CodePoints} (h : t.all isDigit = true) : readNat t < 10 ^ t.length := by
  induction t with
  | nil => simp [readNat]
  | cons c t ih =>
    obtain ⟨hc, ht⟩ := List.all_cons.symm.trans h |> Bool.and_eq_true_iff.mp
    have hlt : 10 ^ t.length * (c.val - 48) ≤ 10 ^ t.length * 9 :=
      Nat.mul_le_mul_left _ (by have := isDigit_iff.mp hc; omega)
    have := ih ht
    rw [readNat_cons, List.length_cons, Nat.pow_succ]
    omega

/-- Texts of digits of one length that write one number are equal. -/
theorem eq_of_readNat_eq {t u : CodePoints} (hlength : t.length = u.length)
    (ht : t.all isDigit = true) (hu : u.all isDigit = true) (h : readNat t = readNat u) : t = u := by
  induction t generalizing u with
  | nil => exact (List.eq_nil_of_length_eq_zero hlength.symm).symm
  | cons c t ih =>
    cases u with
    | nil => exact absurd hlength (by simp)
    | cons d u =>
      obtain ⟨hc, ht⟩ := List.all_cons.symm.trans ht |> Bool.and_eq_true_iff.mp
      obtain ⟨hd, hu⟩ := List.all_cons.symm.trans hu |> Bool.and_eq_true_iff.mp
      have hlength : t.length = u.length := Nat.succ.inj hlength
      rw [readNat_cons, readNat_cons, hlength] at h
      have hlt := readNat_lt ht
      have hlu := readNat_lt hu
      rw [hlength] at hlt
      -- the first digit is the quotient by the power of ten
      have hhead : c.val - 48 = d.val - 48 := by
        have hpos : 0 < 10 ^ u.length := Nat.pow_pos (by decide)
        have hdiv := congrArg (· / 10 ^ u.length) h
        simpa [Nat.mul_add_div hpos, Nat.div_eq_of_lt hlt, Nat.div_eq_of_lt hlu] using hdiv
      have hcd : c = d := Fin.ext (by
        have := isDigit_iff.mp hc
        have := isDigit_iff.mp hd
        omega)
      rw [hhead] at h
      rw [hcd, ih hlength ht hu (Nat.add_left_cancel h)]

theorem all_isDigit_natText (n : ℕ) : (natText n).all isDigit = true :=
  List.all_eq_true.mpr fun _ hc => isDigit_of_mem_natText hc

/-- A number has no more digits than a text that writes it. -/
theorem length_natText_le {n k : ℕ} (hk : 0 < k) (h : n < 10 ^ k) : (natText n).length ≤ k := by
  rcases Nat.eq_zero_or_pos n with rfl | hn
  · exact hk
  · obtain ⟨c, t, ht, hc, hdigit⟩ := natText_eq_cons hn
    have hread := readNat_natText n
    rw [ht, readNat_cons] at hread
    have hpos : 1 ≤ c.val - 48 := by
      have := isDigit_iff.mp hdigit
      have : c.val ≠ 48 := fun h => hc (Fin.ext h)
      omega
    have hle : 10 ^ t.length ≤ n := calc
      10 ^ t.length = 10 ^ t.length * 1 := (Nat.mul_one _).symm
      _ ≤ 10 ^ t.length * (c.val - 48) := Nat.mul_le_mul_left _ hpos
      _ ≤ n := by omega
    rw [ht, List.length_cons]
    exact (Nat.pow_lt_pow_iff_right (by decide)).mp (hle.trans_lt h)

theorem readNat_zeros (k : ℕ) (t : CodePoints) :
    readNat (List.replicate k (char '0') ++ t) = readNat t := by
  induction k with
  | zero => rfl
  | succ k ih =>
    rw [List.replicate_succ, List.cons_append, readNat_cons, ih]
    have hzero : (char '0').val - 48 = 0 := rfl
    rw [hzero, Nat.mul_zero, Nat.zero_add]

/-- The number of a text of digits, with leading zeros, is the text. -/
theorem padded_readNat {t : CodePoints} (hne : t ≠ []) (h : t.all isDigit = true) :
    padded t.length (readNat t) = t := by
  have hle := length_natText_le (List.length_pos_iff.mpr hne) (readNat_lt h)
  refine eq_of_readNat_eq ?_ ?_ h ?_
  · rw [padded, List.length_append, List.length_replicate]
    omega
  · rw [padded, List.all_append, all_isDigit_natText, Bool.and_true]
    exact List.all_eq_true.mpr fun c hc => (List.eq_of_mem_replicate hc) ▸ rfl
  · rw [padded, readNat_zeros, readNat_natText]

end Json
