import Takler.Lib.Base64
import Takler.Lib.Json

/-!
# Cursors of the query service

A cursor (`server/query_service.py`) is a snapshot and an index with a code that only the service
can compute: the code is taken over both and the owner, without a mark between them, and the text is
base64 without padding.

The same key is used for other messages, and the cursors of full snapshots have the same form. So
what the service has put under its key is a set of messages of several kinds, and a cursor is not
forged if its code is the code of one of them. Since an owner has a fixed length and no dot, and an
index ends with a digit, a message determines of which kind it is and what it is about.

## Main definitions

* `cursor`, `parseCursor`: `_cursor` and `_parse_cursor`.
* `KeyedMessage`: what the service computes codes of.
* `Unforged`: a cursor with a code that the service has computed.

## Main results

* `parseCursor_eq_some`: the cursors that are taken, and what they are taken for.
* `KeyedMessage.eq_cursor_of_message`: messages of cursors are messages of nothing else.
* `parseCursor_binding`: a cursor is read as what it was issued for, and by its owner only.
-/

open CodePoints (char encode decodeAscii)
open Base64 (urlsafeIndex urlsafeEncode urlsafeDecode)

namespace Takler.Query

open Json (isDigit natText readNat)

/-- The code of a message. -/
abbrev Digest := {tag : List UInt8 // tag.length = 32}

/-- The digits of `hexdigest`. -/
def isHex (c : Fin 0x110000) : Bool := isDigit c || (97 ≤ c.val && c.val ≤ 102)

/-- The result of `hexdigest`. -/
abbrev HexDigest := {t : CodePoints // t.length = 64 ∧ t.all isHex = true}

/-- The results of `secrets.token_urlsafe`. -/
abbrev SnapshotId := {t : CodePoints // t ≠ [] ∧ t.all (fun c => (urlsafeIndex c).isSome) = true}

/-- `str.isdecimal` in ASCII. -/
def isDecimal (t : CodePoints) : Bool := !t.isEmpty && t.all isDigit

section Cursor

variable (mac : List UInt8 → Digest)

/-- `QueryService._cursor`. -/
def cursor (snapshotId : CodePoints) (index : ℕ) (owner : CodePoints) : CodePoints :=
  let payload := encode (snapshotId ++ char '.' :: natText index)
  urlsafeEncode (payload ++ 46 :: (mac (payload ++ encode owner)).1)

/-- `QueryService._parse_cursor`. -/
def parseCursor (cursor owner : CodePoints) : Option (CodePoints × ℕ) :=
  if cursor = [] ∨ cursor.all (fun c => (urlsafeIndex c).isSome) = false then none
  else (urlsafeDecode cursor).bind fun raw =>
    if urlsafeEncode raw ≠ cursor then none
    else if raw.length < 34 ∨ (raw.drop (raw.length - 33)).take 1 ≠ [46] then none
    else
      let payload := raw.take (raw.length - 33)
      let tag := raw.drop (raw.length - 32)
      if tag ≠ (mac (payload ++ encode owner)).1 then none
      else (decodeAscii payload).bind fun text =>
        match text.splitOn (char '.') with
        | [snapshotId, index] =>
          if snapshotId = [] ∨ isDecimal index = false then none
          else some (snapshotId, readNat index)
        | _ => none

/-- The code in a cursor. -/
def tagOf (cursor : CodePoints) : Option (List UInt8) :=
  (urlsafeDecode cursor).map fun raw => raw.drop (raw.length - 32)

end Cursor

/-- What the service computes codes of. -/
inductive KeyedMessage
  /-- A cursor of `QueryService` or of `FullSnapshotService`. -/
  | cursor (snapshotId : SnapshotId) (index : ℕ) (owner : HexDigest)
  /-- The array of `_owner` or of `_query_id`, without its brackets. -/
  | selection (items : CodePoints)
  /-- A field that is sent apart from its record. -/
  | blob (snapshotId path pointer : CodePoints) (digest : HexDigest)

/-- The message that goes under the key. -/
def KeyedMessage.message : KeyedMessage → List UInt8
  | cursor snapshotId index owner =>
    encode (snapshotId.1 ++ char '.' :: natText index) ++ encode owner.1
  | selection items => encode (char '[' :: items ++ [char ']'])
  | blob snapshotId path pointer digest =>
    encode (snapshotId ++ char ':' :: path ++ char ':' :: pointer ++ char ':' :: digest.1)

/-- The service has computed the code of every message that a cursor has the code of. -/
def Unforged (mac : List UInt8 → Digest) (keyed : Set KeyedMessage) (cursor : CodePoints) : Prop :=
  ∀ message, tagOf cursor = some (mac message).1 → ∃ k ∈ keyed, k.message = message

/-! ### Reading a cursor -/

variable {mac : List UInt8 → Digest}

theorem append_tag {raw : List UInt8} (hlen : 34 ≤ raw.length)
    (hdot : (raw.drop (raw.length - 33)).take 1 = [46]) :
    raw = raw.take (raw.length - 33) ++ 46 :: raw.drop (raw.length - 32) := by
  have hdrop : raw.drop (raw.length - 33) = 46 :: raw.drop (raw.length - 32) := by
    have hsplit := List.take_append_drop 1 (raw.drop (raw.length - 33))
    rw [hdot, List.drop_drop, show raw.length - 33 + 1 = raw.length - 32 by omega] at hsplit
    exact hsplit.symm
  rw [← hdrop, List.take_append_drop]

theorem take_append_tag (payload : List UInt8) (tag : Digest) :
    (payload ++ 46 :: tag.1).take ((payload ++ 46 :: tag.1).length - 33) = payload ∧
      ((payload ++ 46 :: tag.1).drop ((payload ++ 46 :: tag.1).length - 33)).take 1 = [46] ∧
        (payload ++ 46 :: tag.1).drop ((payload ++ 46 :: tag.1).length - 32) = tag.1 := by
  have hlen : (payload ++ 46 :: tag.1).length = payload.length + 33 := by
    rw [List.length_append, List.length_cons, tag.2]
  have hdrop : (payload ++ 46 :: tag.1).drop (payload.length + 1) = tag.1 := by
    rw [List.drop_append, List.drop_of_length_le (by omega),
      show payload.length + 1 - payload.length = 1 by omega]
    rfl
  rw [hlen, show payload.length + 33 - 33 = payload.length by omega,
    show payload.length + 33 - 32 = payload.length + 1 by omega]
  exact ⟨List.take_left, by rw [List.drop_left]; rfl, hdrop⟩

theorem tagOf_cursor (snapshotId : CodePoints) (index : ℕ) (owner : CodePoints) :
    tagOf (cursor mac snapshotId index owner) =
      some (mac (encode (snapshotId ++ char '.' :: natText index) ++ encode owner)).1 := by
  rw [tagOf, cursor, Base64.urlsafeDecode_encode, Option.map_some,
    (take_append_tag _ (mac _)).2.2]

theorem all_urlsafeIndex (bytes : List UInt8) :
    (urlsafeEncode bytes).all (fun c => (urlsafeIndex c).isSome) = true := by
  rw [List.all_eq_true]
  intro c hc
  obtain ⟨i, -, rfl⟩ := List.mem_map.mp hc
  rw [Base64.urlsafeIndex_urlsafe]
  rfl

theorem isDecimal_eq_true {t : CodePoints} :
    isDecimal t = true ↔ t ≠ [] ∧ ∀ c ∈ t, isDigit c = true := by
  simp [isDecimal]

theorem isDecimal_natText (n : ℕ) : isDecimal (natText n) = true :=
  isDecimal_eq_true.mpr ⟨Json.natText_ne_nil n, fun _ hc => Json.isDigit_of_mem_natText hc⟩

theorem dot_notMem_of_isDecimal {t : CodePoints} (h : isDecimal t = true) : char '.' ∉ t :=
  fun hmem => absurd ((isDecimal_eq_true.mp h).2 _ hmem) (by decide)

theorem val_of_isDigit {c : Fin 0x110000} (h : isDigit c = true) : c.val < 0x80 := by
  simp only [isDigit, Bool.and_eq_true, decide_eq_true_eq] at h
  omega

theorem splitOn_dot {t s index : CodePoints} :
    t.splitOn (char '.') = [s, index] ↔
      t = s ++ char '.' :: index ∧ char '.' ∉ s ∧ char '.' ∉ index := by
  have hjoin : [char '.'].intercalate [s, index] = s ++ char '.' :: index := by
    rw [List.intercalate_cons_cons, List.intercalate_singleton, List.append_assoc,
      List.singleton_append]
  constructor
  · intro h
    refine ⟨?_, CodePoints.notMem_of_mem_splitOn (h ▸ List.mem_cons_self),
      CodePoints.notMem_of_mem_splitOn (h ▸ List.mem_cons_of_mem _ List.mem_cons_self)⟩
    rw [← hjoin, ← h, List.intercalate_splitOn]
  · rintro ⟨rfl, hs, hindex⟩
    rw [← hjoin]
    exact List.splitOn_intercalate _ (by simp [hs, hindex]) (by simp)

/-- The cursors that are taken: those of the form that the service writes, but for zeros before the
index. -/
theorem parseCursor_eq_some {c owner s : CodePoints} {i : ℕ} :
    parseCursor mac c owner = some (s, i) ↔
      ∃ index, isDecimal index = true ∧ readNat index = i ∧ s ≠ [] ∧ char '.' ∉ s ∧
        (∀ d ∈ s, d.val < 0x80) ∧
          c = urlsafeEncode (encode (s ++ char '.' :: index) ++
            46 :: (mac (encode (s ++ char '.' :: index) ++ encode owner)).1) := by
  constructor
  · intro h
    rw [parseCursor] at h
    split_ifs at h with hform
    obtain ⟨raw, hraw, h⟩ := Option.bind_eq_some_iff.mp h
    split_ifs at h with hcanonical hshort
    dsimp only at h
    split_ifs at h with htag
    obtain ⟨text, htext, h⟩ := Option.bind_eq_some_iff.mp h
    obtain ⟨hencode, hascii⟩ := CodePoints.decodeAscii_eq_some.mp htext
    split at h
    · next s' index hsplit =>
      split_ifs at h with hs
      obtain ⟨rfl, rfl⟩ := Prod.mk.inj (Option.some.inj h)
      obtain ⟨rfl, hdot, -⟩ := splitOn_dot.mp hsplit
      rw [not_or, Bool.not_eq_false] at hs
      rw [not_or, not_lt, not_not] at hshort
      rw [not_not] at hcanonical htag
      refine ⟨index, hs.2, rfl, hs.1, hdot, fun d hd => hascii d (List.mem_append_left _ hd), ?_⟩
      rw [hencode, ← htag, ← append_tag hshort.1 hshort.2, hcanonical]
    · cases h
  · rintro ⟨index, hindex, rfl, hs, hdot, hascii, rfl⟩
    have hparts := isDecimal_eq_true.mp hindex
    have htext : decodeAscii (encode (s ++ char '.' :: index)) = some (s ++ char '.' :: index) := by
      refine CodePoints.decodeAscii_eq_some.mpr ⟨rfl, ?_⟩
      simp only [List.forall_mem_append, List.forall_mem_cons]
      exact ⟨hascii, by decide, fun d hd => val_of_isDigit (hparts.2 d hd)⟩
    generalize htag : mac (encode (s ++ char '.' :: index) ++ encode owner) = tag
    obtain ⟨htake, hdot', hdrop⟩ := take_append_tag (encode (s ++ char '.' :: index)) tag
    have hne : urlsafeEncode (encode (s ++ char '.' :: index) ++ 46 :: tag.1) ≠ [] :=
      Base64.urlsafeEncode_ne_nil (by simp)
    have hpayload : encode (s ++ char '.' :: index) ≠ [] := fun h =>
      absurd (CodePoints.encode_injective (h.trans rfl : _ = encode [])) (by simp)
    have hlen : ¬ (encode (s ++ char '.' :: index) ++ 46 :: tag.1).length < 34 := by
      have hpos := List.length_pos_iff.mpr hpayload
      rw [List.length_append, List.length_cons, tag.2]
      omega
    rw [parseCursor, if_neg (not_or.mpr ⟨hne, ne_false_of_eq_true (all_urlsafeIndex _)⟩),
      Base64.urlsafeDecode_encode, Option.bind_some, if_neg (not_not.mpr rfl),
      if_neg (not_or.mpr ⟨hlen, not_not.mpr hdot'⟩)]
    dsimp only
    rw [htake, hdrop, htag, if_neg (not_not.mpr rfl), htext, Option.bind_some,
      splitOn_dot.mpr ⟨rfl, hdot, dot_notMem_of_isDecimal hindex⟩]
    exact if_neg (not_or.mpr ⟨hs, ne_false_of_eq_true hindex⟩)

/-! ### Messages -/

theorem getLast?_hexDigest (digest : HexDigest) :
    ∃ c, digest.1.getLast? = some c ∧ isHex c = true := by
  obtain ⟨t, hlen, hhex⟩ := digest
  have hne : t ≠ [] := fun h => by rw [h] at hlen; cases hlen
  exact ⟨t.getLast hne, List.getLast?_eq_some_getLast hne,
    List.all_eq_true.mp hhex _ (List.getLast_mem hne)⟩

theorem getLast?_index {s index : CodePoints} (h : isDecimal index = true) :
    ∃ c, (s ++ char '.' :: index).getLast? = some c ∧ isDigit c = true := by
  obtain ⟨hne, hdigits⟩ := isDecimal_eq_true.mp h
  refine ⟨index.getLast hne, ?_, hdigits _ (List.getLast_mem hne)⟩
  rw [List.append_cons, List.getLast?_append, List.getLast?_eq_some_getLast hne, Option.some_or]

theorem dot_notMem_snapshotId (s : SnapshotId) : char '.' ∉ s.1 := fun h =>
  absurd (List.all_eq_true.mp s.2.2 _ h) (by decide)

theorem val_snapshotId (s : SnapshotId) : ∀ c ∈ s.1, c.val < 0x80 := by
  intro c hc
  have hindex := List.all_eq_true.mp s.2.2 c hc
  rw [urlsafeIndex] at hindex
  split_ifs at hindex <;> first | omega | cases hindex

/-- The message of a cursor is the message of this cursor only. -/
theorem KeyedMessage.eq_cursor_of_message {k : KeyedMessage} {s index : CodePoints} {owner : HexDigest}
    (hindex : isDecimal index = true) (hdot : char '.' ∉ s)
    (h : k.message = encode (s ++ char '.' :: index) ++ encode owner.1) :
    ∃ s' i, k = .cursor s' i owner ∧ s'.1 = s ∧ natText i = index := by
  rw [← CodePoints.encode_append] at h
  cases k with
  | cursor s' i owner' =>
    rw [message, ← CodePoints.encode_append] at h
    obtain ⟨hpayload, howner⟩ := List.append_inj' (CodePoints.encode_injective h)
      (owner'.2.1.trans owner.2.1.symm)
    have hparts := (List.append_cons_inj_of_notMem hdot (dot_notMem_of_isDecimal hindex)).mp
      hpayload.symm
    exact ⟨s', i, by rw [Subtype.ext howner], hparts.1.symm, hparts.2.2.symm⟩
  | selection items =>
    obtain ⟨c, hc, hhex⟩ := getLast?_hexDigest owner
    have hlast := congrArg List.getLast? (CodePoints.encode_injective h)
    rw [List.getLast?_append, List.getLast?_append, hc] at hlast
    obtain rfl : char ']' = c := Option.some.inj hlast
    exact absurd hhex (by decide)
  | blob s' path pointer digest =>
    rw [message] at h
    have htext := CodePoints.encode_injective h
    rw [List.append_cons] at htext
    obtain ⟨hpayload, -⟩ := List.append_inj' htext (digest.2.1.trans owner.2.1.symm)
    obtain ⟨c, hc, hdigit⟩ := getLast?_index (s := s) hindex
    have hlast := congrArg List.getLast? hpayload
    rw [hc, List.getLast?_append] at hlast
    obtain rfl : char ':' = c := Option.some.inj hlast
    exact absurd hdigit (by decide)

/-- A cursor is read as what it was issued for. A cursor that is not forged is taken from an owner
only if it was issued for this owner, and then it is the text that was issued. -/
theorem parseCursor_binding (keyed : Set KeyedMessage) (c : CodePoints)
    (hunforged : Unforged mac keyed c) :
    (∀ (s : SnapshotId) (i : ℕ) (owner : HexDigest),
      parseCursor mac (cursor mac s.1 i owner.1) owner.1 = some (s.1, i)) ∧
    ∀ (owner : HexDigest) (s : CodePoints) (i : ℕ), parseCursor mac c owner.1 = some (s, i) →
      ∃ s' : SnapshotId, s'.1 = s ∧ KeyedMessage.cursor s' i owner ∈ keyed ∧
        c = cursor mac s i owner.1 := by
  refine ⟨fun s i owner => ?_, fun owner s i h => ?_⟩
  · exact parseCursor_eq_some.mpr ⟨natText i, isDecimal_natText i, Json.readNat_natText i, s.2.1,
      dot_notMem_snapshotId s, val_snapshotId s, rfl⟩
  · obtain ⟨index, hindex, rfl, -, hdot, -, rfl⟩ := parseCursor_eq_some.mp h
    obtain ⟨k, hk, hmessage⟩ := hunforged _ (by
      rw [tagOf, Base64.urlsafeDecode_encode, Option.map_some, (take_append_tag _ (mac _)).2.2])
    obtain ⟨s', i, rfl, rfl, rfl⟩ := KeyedMessage.eq_cursor_of_message hindex hdot hmessage
    rw [Json.readNat_natText]
    exact ⟨s', rfl, hk, rfl⟩

def sampleId : SnapshotId := ⟨[char 's'], by decide⟩

def sampleOwner : HexDigest := ⟨List.replicate 64 (char 'a'), by decide⟩

/-- Codes that tell the message of one cursor from all others. -/
def sampleMac (message : List UInt8) : Digest :=
  if message = (KeyedMessage.cursor sampleId 0 sampleOwner).message then
    ⟨List.replicate 32 1, List.length_replicate⟩
  else ⟨List.replicate 32 0, List.length_replicate⟩

theorem parseCursor_binding_sample :
    Unforged sampleMac {.cursor sampleId 0 sampleOwner}
        (cursor sampleMac sampleId.1 0 sampleOwner.1) ∧
      parseCursor sampleMac (cursor sampleMac sampleId.1 0 sampleOwner.1) sampleOwner.1 =
        some (sampleId.1, 0) ∧
      ∃ s' : SnapshotId, s'.1 = sampleId.1 ∧
        KeyedMessage.cursor s' 0 sampleOwner ∈ ({.cursor sampleId 0 sampleOwner} : Set KeyedMessage) := by
  have hunforged : Unforged sampleMac {.cursor sampleId 0 sampleOwner}
      (cursor sampleMac sampleId.1 0 sampleOwner.1) := by
    intro message htag
    rw [tagOf_cursor] at htag
    have hsame : sampleMac (KeyedMessage.cursor sampleId 0 sampleOwner).message = sampleMac message :=
      Subtype.ext (Option.some.inj htag)
    refine ⟨_, rfl, ?_⟩
    by_contra hne
    rw [sampleMac, if_pos rfl, sampleMac, if_neg (Ne.symm hne)] at hsame
    exact absurd (congrArg Subtype.val hsame) (by decide)
  obtain ⟨hread, hissued⟩ := parseCursor_binding _ _ hunforged
  obtain ⟨s', hs', hmem, -⟩ := hissued _ _ _ (hread sampleId 0 sampleOwner)
  exact ⟨hunforged, hread sampleId 0 sampleOwner, s', hs', hmem⟩

end Takler.Query
