import Mathlib
import Takler.Lib.CodePoints

/-!
# JSON values and their texts

Values are written compactly: no blanks, and only the escapes that JSON asks for. The reader is a
recursive descent that takes blanks and all escapes, pairs of surrogates included; what it makes of
the members of an object is a parameter, since readers differ about repeated keys.

Numbers are integers or floats. A float type comes with its decimal texts.

## Main definitions

* `Json`, `Json.get?`.
* `Json.FloatText`: a type of floats with their texts.
* `Json.render`, `Json.loads`.

## Main results

* `Json.scanNumber_intText`, `Json.readInt_intText`: integers are read back.
* `Json.scanString_escape`: what is written in a string is read back.
-/

namespace CodePoints

/-- The code point of a character. -/
def char (c : Char) : Fin 0x110000 := Fin.ofNat 0x110000 c.toNat

theorem char_val (c : Char) : (char c).val = c.toNat := by
  have h : c.toNat < 0x110000 := by
    rcases c.valid with h | h
    · exact Nat.lt_trans h (by decide)
    · exact h.2
  exact Nat.mod_eq_of_lt h

theorem char_injective : Function.Injective char := fun c d h => by
  have hv := congrArg Fin.val h
  rw [char_val, char_val] at hv
  exact Char.toNat_inj.mp hv

theorem ofString_injective : Function.Injective ofString := fun _ _ h =>
  String.toList_inj.mp (List.map_injective_iff.mpr char_injective h)

@[simp] theorem ofString_inj {s t : String} : ofString s = ofString t ↔ s = t :=
  ofString_injective.eq_iff

end CodePoints

open CodePoints (char char_val ofString)

/-- JSON values over a type of floats. The members of an object have an order. -/
inductive Json (F : Type)
  | null
  | bool (b : Bool)
  | int (n : ℤ)
  | float (x : F)
  | str (t : CodePoints)
  | arr (items : List (Json F))
  | obj (fields : List (CodePoints × Json F))

namespace Json

variable {F : Type}

/-- The member of an object. -/
def get? (v : Json F) (k : CodePoints) : Option (Json F) :=
  match v with
  | obj fields => (fields.find? fun x => x.1 = k).map Prod.snd
  | _ => none

/-- A member of an object, or null. -/
def getD (v : Json F) (k : CodePoints) : Json F := (v.get? k).getD null

/-- Induction over a value: the parts come with their hypotheses. -/
@[elab_as_elim]
theorem induction {P : Json F → Prop} (null : P .null) (bool : ∀ b, P (.bool b))
    (int : ∀ n, P (.int n)) (float : ∀ x, P (.float x)) (str : ∀ t, P (.str t))
    (arr : ∀ items, (∀ v ∈ items, P v) → P (.arr items))
    (obj : ∀ fields, (∀ x ∈ fields, P x.2) → P (.obj fields)) (v : Json F) : P v :=
  @Json.rec F P (fun items => ∀ v ∈ items, P v) (fun fields => ∀ x ∈ fields, P x.2) (fun x => P x.2)
    null bool int float str arr obj (by simp) (fun v vs hv hvs => by simpa using ⟨hv, hvs⟩)
    (by simp) (fun x xs hx hxs => List.forall_mem_cons.mpr ⟨hx, hxs⟩) (fun _ _ h => h) v

/-! ### Numbers -/

def isDigit (c : Fin 0x110000) : Bool := 48 ≤ c.val && c.val ≤ 57

/-- A minus sign. -/
def scanSign : CodePoints → CodePoints × CodePoints
  | [] => ([], [])
  | c :: t => if c = char '-' then ([c], t) else ([], c :: t)

/-- The digits before the point. A zero stands alone. -/
def scanWhole : CodePoints → Option (CodePoints × CodePoints)
  | [] => none
  | c :: t =>
    if c = char '0' then some ([c], t)
    else if isDigit c then some ((c :: t).takeWhile isDigit, (c :: t).dropWhile isDigit)
    else none

/-- The point and the digits after it. -/
def scanFraction : CodePoints → CodePoints × CodePoints
  | [] => ([], [])
  | c :: t =>
    let digits := t.takeWhile isDigit
    if c = char '.' ∧ digits ≠ [] then (c :: digits, t.dropWhile isDigit) else ([], c :: t)

/-- The exponent. -/
def scanExponent : CodePoints → CodePoints × CodePoints
  | [] => ([], [])
  | c :: t =>
    let (sign, u) := match t with
      | [] => ([], [])
      | d :: u => if d = char '+' ∨ d = char '-' then ([d], u) else ([], d :: u)
    let digits := u.takeWhile isDigit
    if (c = char 'e' ∨ c = char 'E') ∧ digits ≠ [] then
      (c :: sign ++ digits, u.dropWhile isDigit)
    else ([], c :: t)

/-- The text of a number, whether it is that of a float, and what follows. -/
def scanNumber (t : CodePoints) : Option (CodePoints × Bool × CodePoints) :=
  let (sign, t) := scanSign t
  (scanWhole t).map fun x =>
    let (fraction, t) := scanFraction x.2
    let (exponent, t) := scanExponent t
    (sign ++ x.1 ++ fraction ++ exponent, fraction ++ exponent ≠ [], t)

/-- What may follow a number without becoming a part of it. -/
def Delimited (rest : CodePoints) : Prop :=
  ∀ c ∈ rest.head?, isDigit c = false ∧ c ≠ char '.' ∧ c ≠ char 'e' ∧ c ≠ char 'E'

/-- A type of floats with their decimal texts. -/
structure FloatText (F : Type) where
  isFinite : F → Bool
  /-- `float.__repr__`. -/
  repr : F → CodePoints
  /-- `float(text)`. -/
  read : CodePoints → F
  read_repr : ∀ x, isFinite x = true → read (repr x) = x
  /-- The text is that of a number with a fraction or an exponent. -/
  scan_repr : ∀ x, isFinite x = true → ∀ rest, Delimited rest →
    scanNumber (repr x ++ rest) = some (repr x, true, rest)

/-- A type without finite floats. -/
def FloatText.noFloats : FloatText Unit where
  isFinite _ := false
  repr _ := []
  read _ := ()
  read_repr _ h := Bool.noConfusion h
  scan_repr _ h := Bool.noConfusion h

/-- Decimal digits. -/
def natText (n : ℕ) : CodePoints := (Nat.toDigits 10 n).map char

def intText : ℤ → CodePoints
  | .ofNat n => natText n
  | .negSucc n => char '-' :: natText (n + 1)

/-- The number that digits write. -/
def readNat (t : CodePoints) : ℕ := t.foldl (fun n c => 10 * n + (c.val - 48)) 0

def readInt : CodePoints → ℤ
  | [] => 0
  | c :: t => if c = char '-' then -(readNat t) else readNat (c :: t)

theorem isDigit_of_mem_natText {n : ℕ} {c : Fin 0x110000} (h : c ∈ natText n) :
    isDigit c = true := by
  obtain ⟨d, hd, rfl⟩ := List.mem_map.mp h
  have hdigit := Nat.isDigit_of_mem_toDigits (by decide) (by decide) hd
  simp only [Char.isDigit, ge_iff_le, Bool.and_eq_true, decide_eq_true_eq, UInt32.le_iff_toNat_le]
    at hdigit
  simp only [isDigit, Bool.and_eq_true, decide_eq_true_eq, char_val]
  exact hdigit

theorem readNat_natText (n : ℕ) : readNat (natText n) = n := by
  unfold readNat natText
  rw [List.foldl_map]
  simp only [char_val]
  exact Nat.ofDigitChars_toDigits (by decide) (by decide)

theorem natText_ne_nil (n : ℕ) : natText n ≠ [] := by
  simp [natText, Nat.toDigits_ne_nil]

theorem digitChar_pos : ∀ n < 10, 0 < n →
    char n.digitChar ≠ char '0' ∧ isDigit (char n.digitChar) = true := by decide

/-- Only the text of zero begins with a zero. -/
theorem natText_eq_cons {n : ℕ} (hn : 0 < n) :
    ∃ c t, natText n = c :: t ∧ c ≠ char '0' ∧ isDigit c = true := by
  induction n using Nat.strongRecOn with
  | ind n ih =>
    by_cases hlt : n < 10
    · obtain ⟨hzero, hdigit⟩ := digitChar_pos n hlt hn
      refine ⟨char n.digitChar, [], ?_, hzero, hdigit⟩
      rw [natText, Nat.toDigits_of_lt_base hlt]
      rfl
    · obtain ⟨c, t, ht, hc⟩ := ih (n / 10) (by omega) (by omega)
      refine ⟨c, t ++ [char (n % 10).digitChar], ?_, hc⟩
      rw [natText, Nat.toDigits_of_base_le (by decide) (by omega), List.map_append]
      rw [natText] at ht
      rw [ht]
      rfl

theorem takeWhile_digits {ds rest : CodePoints} (hds : ∀ c ∈ ds, isDigit c = true)
    (hrest : ∀ c ∈ rest.head?, isDigit c = false) :
    (ds ++ rest).takeWhile isDigit = ds ∧ (ds ++ rest).dropWhile isDigit = rest := by
  rw [List.takeWhile_append_of_pos hds, List.dropWhile_append_of_pos hds]
  cases rest with
  | nil => simp
  | cons c r => simp [hrest c rfl]

theorem scanWhole_natText (n : ℕ) {rest : CodePoints}
    (hrest : ∀ c ∈ rest.head?, isDigit c = false) :
    scanWhole (natText n ++ rest) = some (natText n, rest) := by
  rcases Nat.eq_zero_or_pos n with rfl | hn
  · rfl
  · obtain ⟨c, t, ht, hc, hdigit⟩ := natText_eq_cons hn
    obtain ⟨htake, hdrop⟩ := takeWhile_digits (fun c => isDigit_of_mem_natText (n := n)) hrest
    rw [ht, List.cons_append] at htake hdrop ⊢
    rw [scanWhole, if_neg hc, if_pos hdigit, htake, hdrop]

theorem Delimited.scanFraction {rest : CodePoints} (h : Delimited rest) :
    scanFraction rest = ([], rest) := by
  cases rest with
  | nil => rfl
  | cons c t => exact if_neg fun hc => (h c rfl).2.1 hc.1

theorem Delimited.scanExponent {rest : CodePoints} (h : Delimited rest) :
    scanExponent rest = ([], rest) := by
  cases rest with
  | nil => rfl
  | cons c t => exact if_neg fun hc => hc.1.elim (h c rfl).2.2.1 (h c rfl).2.2.2

theorem scanSign_natText (n : ℕ) (rest : CodePoints) :
    scanSign (natText n ++ rest) = ([], natText n ++ rest) := by
  cases h : natText n with
  | nil => exact absurd h (natText_ne_nil n)
  | cons c t =>
    have hdigit : isDigit c = true := isDigit_of_mem_natText (h ▸ List.mem_cons_self)
    exact if_neg fun hc => absurd (hc ▸ hdigit) (by decide)

theorem scanNumber_intText (n : ℤ) {rest : CodePoints} (h : Delimited rest) :
    scanNumber (intText n ++ rest) = some (intText n, false, rest) := by
  have hdigit : ∀ c ∈ rest.head?, isDigit c = false := fun c hc => (h c hc).1
  cases n with
  | ofNat n =>
    simp only [scanNumber, intText, scanSign_natText, scanWhole_natText n hdigit, Option.map_some,
      h.scanFraction, h.scanExponent, List.nil_append, List.append_nil, ne_eq, not_true_eq_false,
      decide_false]
  | negSucc n =>
    simp only [scanNumber, intText, List.cons_append, scanSign, ↓reduceIte,
      scanWhole_natText (n + 1) hdigit, Option.map_some, h.scanFraction, h.scanExponent,
      List.nil_append, List.append_nil, ne_eq, not_true_eq_false, decide_false]

theorem readInt_intText (n : ℤ) : readInt (intText n) = n := by
  cases n with
  | ofNat n =>
    cases h : natText n with
    | nil => exact absurd h (natText_ne_nil n)
    | cons c t =>
      have hdigit : isDigit c = true := isDigit_of_mem_natText (h ▸ List.mem_cons_self)
      have hc : c ≠ char '-' := fun hc => absurd (hc ▸ hdigit) (by decide)
      rw [intText, h, readInt, if_neg hc, ← h, readNat_natText]
      rfl
  | negSucc n =>
    rw [intText, readInt, if_pos rfl, readNat_natText]
    rfl

/-! ### Strings -/

/-- A hexadecimal digit. -/
def hexDigit (n : ℕ) : Fin 0x110000 := char (Nat.digitChar n)

def hexValue (c : Fin 0x110000) : Option ℕ :=
  if isDigit c then some (c.val - 48)
  else if 97 ≤ c.val ∧ c.val ≤ 102 then some (c.val - 87)
  else if 65 ≤ c.val ∧ c.val ≤ 70 then some (c.val - 55)
  else none

def hexValue4 (a b c d : Fin 0x110000) : Option ℕ := do
  return 4096 * (← hexValue a) + 256 * (← hexValue b) + 16 * (← hexValue c) + (← hexValue d)

/-- The letter after the backslash for a code point that has one. -/
def shortEscapes : List (Fin 0x110000 × Fin 0x110000) :=
  [(34, char '"'), (92, char '\\'), (8, char 'b'), (12, char 'f'), (10, char 'n'), (13, char 'r'),
    (9, char 't')]

/-- How a code point is written in a string. -/
def escape (c : Fin 0x110000) : CodePoints :=
  match shortEscapes.find? fun x => x.1 = c with
  | some x => [char '\\', x.2]
  | none =>
    if c.val < 32 then [char '\\', char 'u', char '0', char '0', hexDigit (c.val / 16),
      hexDigit (c.val % 16)]
    else [c]

/-- A string with its quotes. -/
def renderString (t : CodePoints) : CodePoints := char '"' :: t.flatMap escape ++ [char '"']

/-- What a letter after a backslash stands for. -/
def unescape (c : Fin 0x110000) : Option (Fin 0x110000) :=
  if c = char '/' then some c else (shortEscapes.find? fun x => x.2 = c).map Prod.fst

/-- The string that ends at the next quote, and what follows. -/
def scanString : CodePoints → Option (CodePoints × CodePoints)
  | [] => none
  | c :: t =>
    if c = char '"' then some ([], t)
    else if c = char '\\' then
      match t with
      | [] => none
      | e :: t =>
        if e = char 'u' then
          match t with
          | a :: b :: c :: d :: t =>
            match hexValue4 a b c d with
            | none => none
            | some high =>
              match t with
              | s :: u :: a :: b :: c :: d :: t' =>
                if 0xd800 ≤ high ∧ high ≤ 0xdbff ∧ s = char '\\' ∧ u = char 'u' then
                  match hexValue4 a b c d with
                  | none => none
                  | some low =>
                    if 0xdc00 ≤ low ∧ low ≤ 0xdfff then
                      (scanString t').map fun x =>
                        (Fin.ofNat _ (0x10000 + 1024 * (high - 0xd800) + (low - 0xdc00)) :: x.1,
                          x.2)
                    else
                      (scanString (s :: u :: a :: b :: c :: d :: t')).map fun x =>
                        (Fin.ofNat _ high :: x.1, x.2)
                else
                  (scanString (s :: u :: a :: b :: c :: d :: t')).map fun x =>
                    (Fin.ofNat _ high :: x.1, x.2)
              | t => (scanString t).map fun x => (Fin.ofNat _ high :: x.1, x.2)
          | _ => none
        else
          match unescape e with
          | none => none
          | some y => (scanString t).map fun x => (y :: x.1, x.2)
    else if c.val < 32 then none
    else (scanString t).map fun x => (c :: x.1, x.2)

theorem scanString_quote (t : CodePoints) : scanString (char '"' :: t) = some ([], t) := by
  rw [scanString.eq_def]
  exact if_pos rfl

theorem scanString_unicode {a b c d : Fin 0x110000} {high : ℕ} (h : hexValue4 a b c d = some high)
    (hhigh : high < 0xd800) (t : CodePoints) :
    scanString (char '\\' :: char 'u' :: a :: b :: c :: d :: t) =
      (scanString t).map fun x => (Fin.ofNat _ high :: x.1, x.2) := by
  rw [scanString.eq_def]
  simp only [h, ↓reduceIte]
  rw [if_neg (by decide)]
  split
  · rw [if_neg (by omega)]
  · rfl

theorem scanString_short {e y : Fin 0x110000} (he : e ≠ char 'u') (h : unescape e = some y)
    (t : CodePoints) :
    scanString (char '\\' :: e :: t) = (scanString t).map fun x => (y :: x.1, x.2) := by
  rw [scanString.eq_def]
  simp only [h, he, ↓reduceIte]
  exact if_neg (by decide)

theorem scanString_plain {c : Fin 0x110000} (hquote : c ≠ char '"') (hslash : c ≠ char '\\')
    (hc : ¬ c.val < 32) (t : CodePoints) :
    scanString (c :: t) = (scanString t).map fun x => (c :: x.1, x.2) := by
  rw [scanString.eq_def]
  exact (if_neg hquote).trans ((if_neg hslash).trans (if_neg hc))

theorem unescape_short : ∀ x ∈ shortEscapes, x.2 ≠ char 'u' ∧ unescape x.2 = some x.1 :=
  CodePoints.forall_mem_of_all (by decide)

theorem hexValue4_control : ∀ n < 32,
    hexValue4 (char '0') (char '0') (hexDigit (n / 16)) (hexDigit (n % 16)) = some n := by decide

theorem scanString_escape (c : Fin 0x110000) (t : CodePoints) :
    scanString (escape c ++ t) = (scanString t).map fun x => (c :: x.1, x.2) := by
  unfold escape
  split
  · next x hx =>
    obtain ⟨hu, hshort⟩ := unescape_short x (List.mem_of_find?_eq_some hx)
    have hxc : x.1 = c := by simpa using List.find?_some hx
    rw [List.cons_append, List.singleton_append, scanString_short hu hshort, hxc]
  · next hnone =>
    have hne : ∀ x ∈ shortEscapes, x.1 ≠ c := by simpa using List.find?_eq_none.mp hnone
    split_ifs with hc
    · have hofNat : Fin.ofNat 0x110000 c.val = c := Fin.ofNat_val_eq_self c
      have h := scanString_unicode (hexValue4_control c.val hc) (by omega) t
      rw [hofNat] at h
      exact h
    · exact scanString_plain (fun h => hne _ (List.mem_cons_self) h.symm)
        (fun h => hne _ (List.mem_cons_of_mem _ List.mem_cons_self) h.symm) hc t

/-! ### Values -/

/-- What separates an element from the next one, when there is one. -/
def separator {α : Type} (rest : List α) : CodePoints := if rest.isEmpty then [] else [char ',']

section Text

variable (R : FloatText F)

mutual
/-- The compact text of a value. -/
def render : Json F → CodePoints
  | null => ofString "null"
  | bool b => ofString (if b then "true" else "false")
  | int n => intText n
  | float x => R.repr x
  | str t => renderString t
  | arr items => char '[' :: renderItems items
  | obj fields => char '{' :: renderFields fields

/-- The rest of an array. -/
def renderItems : List (Json F) → CodePoints
  | [] => [char ']']
  | v :: vs => render v ++ separator vs ++ renderItems vs

/-- The rest of an object. -/
def renderFields : List (CodePoints × Json F) → CodePoints
  | [] => [char '}']
  | (k, v) :: fs => renderString k ++ char ':' :: render v ++ separator fs ++ renderFields fs
end

/-- Blanks. -/
def isBlank (c : Fin 0x110000) : Bool := c = char ' ' || c = 9 || c = 10 || c = 13

def skipBlanks (t : CodePoints) : CodePoints := t.dropWhile isBlank

/-- What a reader makes of the members of an object. -/
abbrev PairsHook (F : Type) := List (CodePoints × Json F) → Option (List (CodePoints × Json F))

variable (hook : PairsHook F)

mutual
/-- The value at the beginning of a text, and what follows. The first argument bounds the depth and
the lengths. -/
def parseValue : ℕ → CodePoints → Option (Json F × CodePoints)
  | 0, _ => none
  | _ + 1, [] => none
  | n + 1, c :: t =>
    if c = char '"' then (scanString t).map fun x => (str x.1, x.2)
    else if c = char '{' then
      if (skipBlanks t).head? = some (char '}') then some (obj [], (skipBlanks t).tail)
      else
        (parseFields n (skipBlanks t)).bind fun x => (hook x.1).map fun fields => (obj fields, x.2)
    else if c = char '[' then
      if (skipBlanks t).head? = some (char ']') then some (arr [], (skipBlanks t).tail)
      else (parseItems n (skipBlanks t)).map fun x => (arr x.1, x.2)
    else if (ofString "null").isPrefixOf (c :: t) then some (null, (c :: t).drop 4)
    else if (ofString "true").isPrefixOf (c :: t) then some (bool true, (c :: t).drop 4)
    else if (ofString "false").isPrefixOf (c :: t) then some (bool false, (c :: t).drop 5)
    else
      (scanNumber (c :: t)).map fun x =>
        (if x.2.1 then float (R.read x.1) else int (readInt x.1), x.2.2)

/-- The elements up to the end of an array. -/
def parseItems : ℕ → CodePoints → Option (List (Json F) × CodePoints)
  | 0, _ => none
  | n + 1, t =>
    (parseValue n t).bind fun x =>
      match skipBlanks x.2 with
      | [] => none
      | c :: t =>
        if c = char ']' then some ([x.1], t)
        else if c = char ',' then (parseItems n (skipBlanks t)).map fun y => (x.1 :: y.1, y.2)
        else none

/-- The members up to the end of an object. -/
def parseFields : ℕ → CodePoints → Option (List (CodePoints × Json F) × CodePoints)
  | 0, _ => none
  | _ + 1, [] => none
  | n + 1, q :: t =>
    if q = char '"' then
      (scanString t).bind fun k =>
        match skipBlanks k.2 with
        | [] => none
        | c :: t =>
          if c = char ':' then
            (parseValue n (skipBlanks t)).bind fun x =>
              match skipBlanks x.2 with
              | [] => none
              | c :: t =>
                if c = char '}' then some ([(k.1, x.1)], t)
                else if c = char ',' then
                  (parseFields n (skipBlanks t)).map fun y => ((k.1, x.1) :: y.1, y.2)
                else none
          else none
    else none
end

/-- `json.loads`. -/
def loads (t : CodePoints) : Option (Json F) :=
  (parseValue R hook (t.length + 1) (skipBlanks t)).bind fun x =>
    if skipBlanks x.2 = [] then some x.1 else none

end Text

end Json
