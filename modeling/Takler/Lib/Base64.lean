import Mathlib
import Takler.Lib.CodePoints

/-!
# Base64 without padding

Three bytes are written as four characters of an alphabet of 64, and one or two bytes at the end as
two or three. The alphabet is the one for URLs. The reader takes characters whose last bits are not
those that the writer leaves; a text is in canonical form if it is what the writer writes.

## Main definitions

* `Base64.sextets`, `Base64.octets`: from bytes to groups of six bits and back.
* `Base64.urlsafeEncode`, `Base64.urlsafeDecode`.

## Main results

* `Base64.urlsafeDecode_encode`.
-/

namespace Base64

/-- Groups of six bits. -/
def sextets : List UInt8 → List (Fin 64)
  | a :: b :: c :: rest =>
    .ofNat _ (a.toNat / 4) :: .ofNat _ (a.toNat % 4 * 16 + b.toNat / 16) ::
      .ofNat _ (b.toNat % 16 * 4 + c.toNat / 64) :: .ofNat _ (c.toNat % 64) :: sextets rest
  | [a, b] =>
    [.ofNat _ (a.toNat / 4), .ofNat _ (a.toNat % 4 * 16 + b.toNat / 16),
      .ofNat _ (b.toNat % 16 * 4)]
  | [a] => [.ofNat _ (a.toNat / 4), .ofNat _ (a.toNat % 4 * 16)]
  | [] => []

/-- Bytes. The last bits of an incomplete group are ignored; one character is no byte. -/
def octets : List (Fin 64) → Option (List UInt8)
  | w :: x :: y :: z :: rest => (octets rest).map fun bytes =>
    .ofNat (w.val * 4 + x.val / 16) :: .ofNat (x.val % 16 * 16 + y.val / 4) ::
      .ofNat (y.val % 4 * 64 + z.val) :: bytes
  | [w, x, y] => some [.ofNat (w.val * 4 + x.val / 16), .ofNat (x.val % 16 * 16 + y.val / 4)]
  | [w, x] => some [.ofNat (w.val * 4 + x.val / 16)]
  | [_] => none
  | [] => some []

theorem val_ofNat {n : ℕ} (h : n < 64) : (Fin.ofNat 64 n).val = n := Nat.mod_eq_of_lt h

theorem ofNat_eq {n : ℕ} {b : UInt8} (h : n = b.toNat) : UInt8.ofNat n = b := by
  rw [h, UInt8.ofNat_toNat]

@[simp] theorem octets_sextets (bytes : List UInt8) : octets (sextets bytes) = some bytes := by
  induction bytes using sextets.induct with
  | case1 a b c rest ih =>
    have ha := a.toNat_lt
    have hb := b.toNat_lt
    have hc := c.toNat_lt
    rw [sextets, octets, ih, Option.map_some, val_ofNat (by omega), val_ofNat (by omega),
      val_ofNat (by omega), val_ofNat (by omega), ofNat_eq (b := a) (by omega),
      ofNat_eq (b := b) (by omega), ofNat_eq (b := c) (by omega)]
  | case2 a b =>
    have ha := a.toNat_lt
    have hb := b.toNat_lt
    rw [sextets, octets, val_ofNat (by omega), val_ofNat (by omega), val_ofNat (by omega),
      ofNat_eq (b := a) (by omega), ofNat_eq (b := b) (by omega)]
  | case3 a =>
    have ha := a.toNat_lt
    rw [sextets, octets, val_ofNat (by omega), val_ofNat (by omega), ofNat_eq (b := a) (by omega)]
  | case4 => rfl

/-- The alphabet for URLs. -/
def urlsafe (i : Fin 64) : Fin 0x110000 :=
  .ofNat _ (if i.val < 26 then i.val + 65
    else if i.val < 52 then i.val + 71
    else if i.val < 62 then i.val - 4
    else if i.val = 62 then 45 else 95)

/-- The place of a character in the alphabet for URLs. -/
def urlsafeIndex (c : Fin 0x110000) : Option (Fin 64) :=
  if 65 ≤ c.val ∧ c.val ≤ 90 then some (.ofNat _ (c.val - 65))
  else if 97 ≤ c.val ∧ c.val ≤ 122 then some (.ofNat _ (c.val - 71))
  else if 48 ≤ c.val ∧ c.val ≤ 57 then some (.ofNat _ (c.val + 4))
  else if c.val = 45 then some 62
  else if c.val = 95 then some 63
  else none

@[simp] theorem urlsafeIndex_urlsafe : ∀ i, urlsafeIndex (urlsafe i) = some i := by decide

/-- `base64.urlsafe_b64encode(bytes).decode().rstrip("=")`. -/
def urlsafeEncode (bytes : List UInt8) : CodePoints := (sextets bytes).map urlsafe

/-- `base64.urlsafe_b64decode` of a text of the alphabet and the padding it lacks. -/
def urlsafeDecode (t : CodePoints) : Option (List UInt8) := (t.mapM urlsafeIndex).bind octets

theorem mapM_urlsafeIndex (l : List (Fin 64)) :
    (l.map urlsafe).mapM urlsafeIndex = some l := by
  induction l with
  | nil => rfl
  | cons i l ih =>
    rw [List.map_cons, List.mapM_cons, urlsafeIndex_urlsafe, ih]
    rfl

@[simp] theorem urlsafeDecode_encode (bytes : List UInt8) :
    urlsafeDecode (urlsafeEncode bytes) = some bytes := by
  rw [urlsafeDecode, urlsafeEncode, mapM_urlsafeIndex, Option.bind_some, octets_sextets]

theorem urlsafeEncode_ne_nil {bytes : List UInt8} (h : bytes ≠ []) : urlsafeEncode bytes ≠ [] := by
  intro hnil
  have hdecode := urlsafeDecode_encode bytes
  rw [hnil] at hdecode
  exact h (Option.some.inj hdecode).symm

end Base64
