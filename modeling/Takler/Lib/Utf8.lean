import Mathlib
import Takler.Lib.CodePoints

/-!
# Reading bytes as text, with replacements

UTF-8 is read byte by byte. Bytes that are no text are replaced: the longest beginning of a code
point that is not completed becomes one replacement character, and so does every byte that begins
none.

A line feed is never a part of another code point. So a text can be read on both sides of it
separately, and the same is true of its lines.

## Main definitions

* `CodePoints.decodeReplace`: `bytes.decode("utf-8", errors="replace")`.

## Main results

* `CodePoints.decodeReplace_append_newline`, `CodePoints.splitlines_append_newline`.
* `CodePoints.splitlines_flatMap`: texts without line breaks are recovered from their lines.
* `CodePoints.count_newline_le`: there are at least as many lines as line feeds.
-/

namespace CodePoints

/-- The beginning of a code point: what it has so far, the bytes that may come next, and how many
come after that. -/
structure Pending where
  value : ℕ
  low : ℕ
  high : ℕ
  owed : ℕ
  /-- No byte of ASCII continues a code point. -/
  low_ge : 0x80 ≤ low

def replacement : Fin 0x110000 := 0xfffd

/-- The first byte of a code point. -/
def stepFirst (b : ℕ) : CodePoints × Option Pending :=
  if b < 0x80 then ([Fin.ofNat _ b], none)
  else if b < 0xc2 then ([replacement], none)
  else if b < 0xe0 then ([], some ⟨b - 0xc0, 0x80, 0xbf, 0, by decide⟩)
  else if b = 0xe0 then ([], some ⟨0, 0xa0, 0xbf, 1, by decide⟩)
  else if b = 0xed then ([], some ⟨0xd, 0x80, 0x9f, 1, by decide⟩)
  else if b < 0xf0 then ([], some ⟨b - 0xe0, 0x80, 0xbf, 1, by decide⟩)
  else if b = 0xf0 then ([], some ⟨0, 0x90, 0xbf, 2, by decide⟩)
  else if b < 0xf4 then ([], some ⟨b - 0xf0, 0x80, 0xbf, 2, by decide⟩)
  else if b = 0xf4 then ([], some ⟨4, 0x80, 0x8f, 2, by decide⟩)
  else ([replacement], none)

/-- One byte: what is written, and what is pending. -/
def stepByte (s : Option Pending) (b : ℕ) : CodePoints × Option Pending :=
  match s with
  | none => stepFirst b
  | some p =>
    if p.low ≤ b ∧ b ≤ p.high then
      let value := 64 * p.value + (b - 0x80)
      match p.owed with
      | 0 => ([Fin.ofNat _ value], none)
      | n + 1 => ([], some ⟨value, 0x80, 0xbf, n, by decide⟩)
    else (replacement :: (stepFirst b).1, (stepFirst b).2)

/-- The text of the bytes that follow. -/
def decodeReplaceFrom (s : Option Pending) : List UInt8 → CodePoints
  | [] => s.elim [] fun _ => [replacement]
  | b :: x => (stepByte s b.toNat).1 ++ decodeReplaceFrom (stepByte s b.toNat).2 x

/-- `bytes.decode("utf-8", errors="replace")`. -/
def decodeReplace (x : List UInt8) : CodePoints := decodeReplaceFrom none x

def newline : Fin 0x110000 := 10

/-! ### Line feeds -/

theorem stepFirst_newline : stepFirst 10 = ([newline], none) := rfl

theorem stepByte_newline (s : Option Pending) :
    stepByte s 10 = (s.elim [] (fun _ => [replacement]) ++ [newline], none) := by
  cases s with
  | none => exact stepFirst_newline
  | some p =>
    have hlow := p.low_ge
    have hnot : ¬ (p.low ≤ 10 ∧ 10 ≤ p.high) := fun h => by omega
    rw [stepByte, if_neg hnot, stepFirst_newline]
    rfl

theorem decodeReplaceFrom_append_newline (s : Option Pending) (x y : List UInt8) :
    decodeReplaceFrom s (x ++ 10 :: y) = decodeReplaceFrom s x ++ newline :: decodeReplace y := by
  induction x generalizing s with
  | nil =>
    change (stepByte s 10).1 ++ decodeReplaceFrom (stepByte s 10).2 y = _
    rw [stepByte_newline, List.append_assoc]
    rfl
  | cons b x ih =>
    rw [List.cons_append, decodeReplaceFrom, decodeReplaceFrom, ih, List.append_assoc]

/-- A line feed is a line feed, whatever is before it. -/
theorem decodeReplace_append_newline (x y : List UInt8) :
    decodeReplace (x ++ 10 :: y) = decodeReplace x ++ newline :: decodeReplace y :=
  decodeReplaceFrom_append_newline none x y

theorem splitlinesFrom_append_newline (line t u : CodePoints) :
    splitlinesFrom line (t ++ newline :: u) =
      splitlinesFrom line (t ++ [newline]) ++ splitlines u := by
  induction t generalizing line with
  | nil => rfl
  | cons c t ih =>
    have hhead : (t ++ newline :: u).head? = (t ++ [newline]).head? := by
      cases t <;> rfl
    rw [List.cons_append, List.cons_append, splitlinesFrom, splitlinesFrom, hhead, ih, ih, ih]
    split_ifs
    · rfl
    · rfl
    · rfl

/-- No line goes over a line feed. -/
theorem splitlines_append_newline (t u : CodePoints) :
    splitlines (t ++ newline :: u) = splitlines (t ++ [newline]) ++ splitlines u :=
  splitlinesFrom_append_newline [] t u

theorem splitlinesFrom_append {t : CodePoints} (h : ∀ c ∈ t, isLineBreak c = false)
    (line u : CodePoints) : splitlinesFrom line (t ++ u) = splitlinesFrom (line ++ t) u := by
  induction t generalizing line with
  | nil => rw [List.nil_append, List.append_nil]
  | cons c t ih =>
    obtain ⟨hc, ht⟩ := List.forall_mem_cons.mp h
    have hreturn : c.val ≠ 13 := fun h13 => by simp [isLineBreak, h13] at hc
    have hbreak : ¬ isLineBreak c = true := by rw [hc]; exact Bool.false_ne_true
    rw [List.cons_append, splitlinesFrom, if_neg fun hr => hreturn hr.1, if_neg hbreak, ih ht,
      List.append_assoc, List.singleton_append]

/-- A text without line breaks is one line. -/
theorem splitlines_eq_singleton {t : CodePoints} (h : ∀ c ∈ t, isLineBreak c = false)
    (hne : t ≠ []) : splitlines t = [t] := by
  have hsplit := splitlinesFrom_append h [] []
  rw [List.append_nil, List.nil_append] at hsplit
  rw [splitlines, hsplit, splitlinesFrom, if_neg hne]

theorem splitlines_newline_eq_singleton {t : CodePoints} (h : ∀ c ∈ t, isLineBreak c = false) :
    splitlines (t ++ [newline]) = [t] :=
  splitlinesFrom_append h [] [newline]

/-- Texts without line breaks are recovered from a file that has one on every line. -/
theorem splitlines_flatMap {α : Type} (f : α → CodePoints) (l : List α)
    (h : ∀ a ∈ l, ∀ c ∈ f a, isLineBreak c = false) :
    splitlines (l.flatMap fun a => f a ++ [newline]) = l.map f := by
  induction l with
  | nil => rfl
  | cons a l ih =>
    obtain ⟨ha, hl⟩ := List.forall_mem_cons.mp h
    rw [List.flatMap_cons, List.append_assoc, List.singleton_append, splitlines_append_newline,
      splitlines_newline_eq_singleton ha, ih hl]
    rfl

theorem splitlinesFrom_newline_ne_nil (line t : CodePoints) :
    splitlinesFrom line (t ++ [newline]) ≠ [] := by
  induction t generalizing line with
  | nil => exact List.cons_ne_nil _ _
  | cons c t ih =>
    rw [List.cons_append, splitlinesFrom]
    split_ifs
    · exact ih line
    · exact List.cons_ne_nil _ _
    · exact ih _

/-- There are at least as many lines as line feeds. -/
theorem count_newline_le (x : List UInt8) :
    x.count 10 ≤ (splitlines (decodeReplace x)).length := by
  induction hn : x.count 10 generalizing x with
  | zero => exact Nat.zero_le _
  | succ n ih =>
    have hmem : (10 : UInt8) ∈ x := List.count_pos_iff.mp (by omega)
    obtain ⟨y, z, rfl, hy⟩ := List.eq_append_cons_of_mem hmem
    rw [List.count_append, List.count_eq_zero_of_not_mem hy, List.count_cons_self] at hn
    rw [decodeReplace_append_newline, splitlines_append_newline, List.length_append]
    have hrest := ih z (by omega)
    have hpos : 0 < (splitlines (decodeReplace y ++ [newline])).length :=
      List.length_pos_iff.mpr (splitlinesFrom_newline_ne_nil [] _)
    omega

end CodePoints
