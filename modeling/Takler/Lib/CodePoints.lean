import Mathlib

/-!
# Texts as sequences of code points

A text may hold any code point, surrogates included, and is therefore not a `String` here. The
module has the whitespace and the line breaks of Unicode, and the encoding as UTF-8 in which a
surrogate is encoded like any other code point. That encoding is injective.

## Main definitions

* `CodePoints.strip`, `CodePoints.splitlines`.
* `CodePoints.encode`: UTF-8.

## Main results

* `CodePoints.encode_injective`.
-/

/-- A text. -/
abbrev CodePoints := List (Fin 0x110000)

namespace CodePoints

instance neZero_codePoints : NeZero 0x110000 := ⟨by decide⟩

instance lawfulBEq_codePoint : LawfulBEq (Fin 0x110000) := inferInstance

instance lawfulBEq_codePoints : LawfulBEq CodePoints := inferInstance

/-- The code points of a string. -/
def ofString (s : String) : CodePoints := s.toList.map fun c => Fin.ofNat 0x110000 c.toNat

instance : Coe String CodePoints := ⟨ofString⟩

/-- Whitespace. -/
def isSpace (c : Fin 0x110000) : Bool :=
  (9 ≤ c.val && c.val ≤ 13) || (28 ≤ c.val && c.val ≤ 32) || c.val = 0x85 || c.val = 0xa0 ||
    c.val = 0x1680 || (0x2000 ≤ c.val && c.val ≤ 0x200a) || c.val = 0x2028 || c.val = 0x2029 ||
    c.val = 0x202f || c.val = 0x205f || c.val = 0x3000

/-- Line breaks. -/
def isLineBreak (c : Fin 0x110000) : Bool :=
  (10 ≤ c.val && c.val ≤ 13) || (28 ≤ c.val && c.val ≤ 30) || c.val = 0x85 || c.val = 0x2028 ||
    c.val = 0x2029

/-- `str.strip`. -/
def strip (t : CodePoints) : CodePoints := (t.dropWhile isSpace).rdropWhile isSpace

/-- The lines from a point on where a line has begun. A carriage return before a line feed ends no
line of its own. -/
def splitlinesFrom (line : CodePoints) : CodePoints → List CodePoints
  | [] => if line = [] then [] else [line]
  | c :: rest =>
    if c.val = 13 ∧ rest.head?.map Fin.val = some 10 then splitlinesFrom line rest
    else if isLineBreak c then line :: splitlinesFrom [] rest
    else splitlinesFrom (line ++ [c]) rest

/-- `str.splitlines`. -/
def splitlines (t : CodePoints) : List CodePoints := splitlinesFrom [] t

/-- A property of the elements of a closed list is decided by going through the list. -/
theorem forall_mem_of_all {α : Type*} {P : α → Prop} [DecidablePred P] {l : List α}
    (h : l.all (fun x => decide (P x)) = true) : ∀ x ∈ l, P x := fun x hx =>
  of_decide_eq_true (List.all_eq_true.mp h x hx)

/-- The parts of a text have no separator. -/
theorem notMem_of_mem_splitOn {a : Fin 0x110000} {t l : CodePoints} (h : l ∈ t.splitOn a) :
    a ∉ l := by
  induction t generalizing l with
  | nil =>
    rw [List.splitOn_nil, List.mem_singleton] at h
    rw [h]
    exact List.not_mem_nil
  | cons c t ih =>
    rw [List.splitOn_cons_eq_if_modifyHead] at h
    split_ifs at h with hc
    · rcases List.mem_cons.mp h with rfl | h
      · exact List.not_mem_nil
      · exact ih h
    · obtain ⟨x, xs, hx⟩ := List.exists_cons_of_ne_nil (List.splitOn_ne_nil a t)
      rw [hx, List.modifyHead_cons] at h
      rw [hx] at ih
      have hca : a ≠ c := fun hac => hc (by rw [hac]; exact beq_self_eq_true c)
      rcases List.mem_cons.mp h with rfl | h
      · exact fun hmem => (List.mem_cons.mp hmem).elim hca (ih List.mem_cons_self)
      · exact ih (List.mem_cons_of_mem x h)

/-! ### UTF-8 -/

/-- The bytes of a code point. -/
def encodeOne (c : ℕ) : List UInt8 :=
  if c < 0x80 then [.ofNat c]
  else if c < 0x800 then [.ofNat (0xc0 + c / 64), .ofNat (0x80 + c % 64)]
  else if c < 0x10000 then
    [.ofNat (0xe0 + c / 4096), .ofNat (0x80 + c / 64 % 64), .ofNat (0x80 + c % 64)]
  else [.ofNat (0xf0 + c / 262144), .ofNat (0x80 + c / 4096 % 64), .ofNat (0x80 + c / 64 % 64),
    .ofNat (0x80 + c % 64)]

/-- The bytes of a text. -/
def encode (t : CodePoints) : List UInt8 := t.flatMap fun c => encodeOne c.val

/-- Take continuation bytes. -/
def decodeRest : ℕ → ℕ → List UInt8 → ℕ × List UInt8
  | n + 1, c, b :: x => decodeRest n (64 * c + (b.toNat - 0x80)) x
  | _, c, x => (c, x)

/-- Take a code point; its first byte tells how many follow. -/
def decodeOne : List UInt8 → ℕ × List UInt8
  | [] => (0, [])
  | b :: x =>
    if b.toNat < 0x80 then (b.toNat, x)
    else if b.toNat < 0xe0 then decodeRest 1 (b.toNat - 0xc0) x
    else if b.toNat < 0xf0 then decodeRest 2 (b.toNat - 0xe0) x
    else decodeRest 3 (b.toNat - 0xf0) x

theorem decodeRest_succ (n c : ℕ) (b : UInt8) (x : List UInt8) :
    decodeRest (n + 1) c (b :: x) = decodeRest n (64 * c + (b.toNat - 0x80)) x := rfl

theorem decodeRest_zero (c : ℕ) (x : List UInt8) : decodeRest 0 c x = (c, x) := by
  unfold decodeRest
  rfl

theorem toNat_ofNat {n : ℕ} (hn : n < 256) : (UInt8.ofNat n).toNat = n := by
  rw [UInt8.toNat_ofNat']
  exact Nat.mod_eq_of_lt hn

theorem decodeOne_encodeOne {c : ℕ} (hc : c < 0x110000) (x : List UInt8) :
    decodeOne (encodeOne c ++ x) = (c, x) := by
  unfold encodeOne
  split_ifs with h₁ h₂ h₃
  · rw [List.cons_append, List.nil_append, decodeOne, toNat_ofNat (by omega), if_pos h₁]
  · rw [List.cons_append, decodeOne, toNat_ofNat (by omega), if_neg (by omega), if_pos (by omega),
      List.cons_append, decodeRest_succ, toNat_ofNat (by omega), List.nil_append, decodeRest_zero]
    exact congrArg (·, x) (by omega)
  · rw [List.cons_append, decodeOne, toNat_ofNat (by omega), if_neg (by omega), if_neg (by omega),
      if_pos (by omega), List.cons_append, decodeRest_succ, toNat_ofNat (by omega),
      List.cons_append, decodeRest_succ, toNat_ofNat (by omega), List.nil_append, decodeRest_zero]
    exact congrArg (·, x) (by omega)
  · rw [List.cons_append, decodeOne, toNat_ofNat (by omega), if_neg (by omega), if_neg (by omega),
      if_neg (by omega), List.cons_append, decodeRest_succ, toNat_ofNat (by omega),
      List.cons_append, decodeRest_succ, toNat_ofNat (by omega), List.cons_append, decodeRest_succ,
      toNat_ofNat (by omega), List.nil_append, decodeRest_zero]
    exact congrArg (·, x) (by omega)

theorem encodeOne_ne_nil (c : ℕ) : encodeOne c ≠ [] := by
  unfold encodeOne
  split_ifs <;> simp

theorem encode_injective : Function.Injective encode := by
  intro s t h
  induction s generalizing t with
  | nil =>
    cases t with
    | nil => rfl
    | cons d t => exact absurd (List.append_eq_nil_iff.mp h.symm).1 (encodeOne_ne_nil d.val)
  | cons c s ih =>
    cases t with
    | nil => exact absurd (List.append_eq_nil_iff.mp h).1 (encodeOne_ne_nil c.val)
    | cons d t =>
      have hone := congrArg decodeOne h
      simp only [encode, List.flatMap_cons] at hone
      rw [decodeOne_encodeOne c.isLt, decodeOne_encodeOne d.isLt] at hone
      obtain ⟨hcd, hst⟩ := Prod.mk.inj hone
      rw [Fin.ext hcd, ih hst]

@[simp] theorem encode_append (s t : CodePoints) : encode (s ++ t) = encode s ++ encode t :=
  List.flatMap_append

/-- `bytes.decode("ascii")`. -/
def decodeAscii (x : List UInt8) : Option CodePoints :=
  if x.all fun b => b.toNat < 0x80 then some (x.map fun b => .ofNat _ b.toNat) else none

theorem encode_map_ascii {x : List UInt8} (h : ∀ b ∈ x, b.toNat < 0x80) :
    encode (x.map fun b => .ofNat _ b.toNat) = x := by
  induction x with
  | nil => rfl
  | cons b x ih =>
    obtain ⟨hb, hx⟩ := List.forall_mem_cons.mp h
    have hval : (Fin.ofNat 0x110000 b.toNat).val = b.toNat := Nat.mod_eq_of_lt (by omega)
    rw [List.map_cons, encode, List.flatMap_cons, ← encode, ih hx, hval, encodeOne, if_pos hb,
      UInt8.ofNat_toNat, List.singleton_append]

/-- A text in ASCII is read from its encoding, and from nothing else. -/
theorem decodeAscii_eq_some {x : List UInt8} {t : CodePoints} :
    decodeAscii x = some t ↔ encode t = x ∧ ∀ c ∈ t, c.val < 0x80 := by
  have hmem : x.all (fun b => b.toNat < 0x80) = true ↔ ∀ b ∈ x, b.toNat < 0x80 := by
    simp only [List.all_eq_true, decide_eq_true_eq]
  constructor
  · intro h
    rw [decodeAscii] at h
    split_ifs at h with hx
    rw [hmem] at hx
    rw [← Option.some.inj h]
    refine ⟨encode_map_ascii hx, fun c hc => ?_⟩
    obtain ⟨b, hb, rfl⟩ := List.mem_map.mp hc
    exact Nat.lt_of_le_of_lt (Nat.mod_le _ _) (hx b hb)
  · rintro ⟨rfl, ht⟩
    have hx : ∀ b ∈ encode t, b.toNat < 0x80 := by
      intro b hb
      obtain ⟨c, hc, hb⟩ := List.mem_flatMap.mp hb
      rw [encodeOne, if_pos (ht c hc)] at hb
      rw [List.mem_singleton.mp hb, toNat_ofNat (by have := ht c hc; omega)]
      exact ht c hc
    rw [decodeAscii, if_pos (hmem.mpr hx), encode_injective (encode_map_ascii hx)]

end CodePoints
