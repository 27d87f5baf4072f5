import Takler.Lib.Utf8

/-!
# The tail of a file

`_tail_lines` (`tui/tabs/output.py`) reads a file backwards in blocks until it has seen more line
feeds than it needs lines, and takes the last lines of what it has read. A block may begin in the
middle of a code point or of a line break; then that is before the first line feed of what was
read, and the lines that are asked for come after it.

## Main definitions

* `readBlocks`, `tailLines`: `_tail_lines`.

## Main results

* `tailLines_eq`: the tail is that of the whole file.
-/

namespace Takler.Tui

open CodePoints

def tailBlock : ℕ := 64 * 1024

/-- The loop over the blocks, from a position downwards. The last block that was read is the first
one of the list. -/
def readBlocks (content : List UInt8) (maxLines pos newlineCount : ℕ)
    (blocks : List (List UInt8)) : List (List UInt8) :=
  if 0 < pos ∧ newlineCount ≤ maxLines then
    let readSize := min tailBlock pos
    let chunk := (content.drop (pos - readSize)).take readSize
    readBlocks content maxLines (pos - readSize) (newlineCount + chunk.count 10) (chunk :: blocks)
  else blocks
termination_by pos
decreasing_by
  have hblock : 0 < tailBlock := by decide
  omega

/-- `lines[-n:]`. -/
def sliceFromEnd {α : Type} (n : ℕ) (lines : List α) : List α :=
  if n = 0 then lines else lines.drop (lines.length - n)

/-- `_tail_lines`, with the content of the file. -/
def tailLines (content : List UInt8) (maxLines : ℕ) : List CodePoints :=
  if content.length = 0 then []
  else
    sliceFromEnd maxLines
      (splitlines (decodeReplace (readBlocks content maxLines content.length 0 []).flatten))

/-! ### What is read -/

theorem drop_sub_eq_append (content : List UInt8) {pos size : ℕ} (h : size ≤ pos) :
    content.drop (pos - size) = (content.drop (pos - size)).take size ++ content.drop pos := by
  have hpos : pos - size + size = pos := Nat.sub_add_cancel h
  nth_rewrite 1 [← List.take_append_drop size (content.drop (pos - size))]
  rw [List.drop_drop, hpos]

/-- The blocks are the end of the file, which is the whole file or has enough line feeds. -/
theorem flatten_readBlocks (content : List UInt8) (maxLines pos newlineCount : ℕ)
    (blocks : List (List UInt8)) (hblocks : blocks.flatten = content.drop pos)
    (hcount : newlineCount = blocks.flatten.count 10) :
    ∃ first, (readBlocks content maxLines pos newlineCount blocks).flatten = content.drop first ∧
      (first = 0 ∨ maxLines < (content.drop first).count 10) := by
  induction pos using Nat.strongRecOn generalizing newlineCount blocks with
  | ind pos ih =>
    rw [readBlocks]
    split_ifs with h
    · have hblock : 0 < tailBlock := by decide
      have happend := drop_sub_eq_append content (Nat.min_le_right tailBlock pos)
      refine ih (pos - min tailBlock pos) (by omega) _ _ ?_ ?_
      · rw [List.flatten_cons, hblocks, ← happend]
      · rw [List.flatten_cons, List.count_append, ← hcount, Nat.add_comm]
    · refine ⟨pos, hblocks, ?_⟩
      rw [← hblocks, ← hcount]
      omega

/-! ### The last lines -/

theorem sliceFromEnd_append {α : Type} {n : ℕ} (hn : n ≠ 0) (before after : List α)
    (h : n ≤ after.length) : sliceFromEnd n (before ++ after) = sliceFromEnd n after := by
  have hlength : before.length + after.length - n = before.length + (after.length - n) := by omega
  rw [sliceFromEnd, sliceFromEnd, if_neg hn, if_neg hn, List.length_append, hlength,
    List.drop_append, List.drop_eq_nil_of_le (Nat.le_add_right _ _), List.nil_append,
    Nat.add_sub_cancel_left]

/-- The last lines come after the first of enough line feeds. -/
theorem sliceFromEnd_of_count {n : ℕ} (hn : n ≠ 0) (before after : List UInt8)
    (h : n < after.count 10) :
    sliceFromEnd n (splitlines (decodeReplace (before ++ after))) =
      sliceFromEnd n (splitlines (decodeReplace after)) := by
  have hmem : (10 : UInt8) ∈ after := List.count_pos_iff.mp (Nat.zero_lt_of_lt h)
  obtain ⟨line, rest, rfl, hline⟩ := List.eq_append_cons_of_mem hmem
  rw [List.count_append, List.count_eq_zero_of_not_mem hline, List.count_cons_self,
    Nat.zero_add] at h
  have hlines : n ≤ (splitlines (decodeReplace rest)).length :=
    (Nat.le_of_lt_succ h).trans (count_newline_le rest)
  rw [← List.append_assoc, decodeReplace_append_newline, decodeReplace_append_newline,
    splitlines_append_newline, splitlines_append_newline (decodeReplace line),
    sliceFromEnd_append hn _ _ hlines, sliceFromEnd_append hn _ _ hlines]

/-- **The tail of a file.** It is made of the last lines of the whole file. -/
theorem tailLines_eq (content : List UInt8) {maxLines : ℕ} (h : 1 ≤ maxLines) :
    tailLines content maxLines =
      (splitlines (decodeReplace content)).drop
        ((splitlines (decodeReplace content)).length - maxLines) := by
  have hne : maxLines ≠ 0 := Nat.one_le_iff_ne_zero.mp h
  have hslice : sliceFromEnd maxLines (splitlines (decodeReplace content)) =
      (splitlines (decodeReplace content)).drop
        ((splitlines (decodeReplace content)).length - maxLines) := if_neg hne
  rw [tailLines]
  split_ifs with hempty
  · rw [List.eq_nil_of_length_eq_zero hempty]
    exact List.drop_nil.symm
  · obtain ⟨first, hflatten, hfirst⟩ := flatten_readBlocks content maxLines content.length 0 []
      (List.drop_length).symm rfl
    rw [hflatten, ← hslice]
    rcases hfirst with rfl | hcount
    · rw [List.drop_zero]
    · rw [← sliceFromEnd_of_count hne (content.take first) _ hcount, List.take_append_drop]

/-- Two of three lines, of which the first one is no text. -/
theorem tailLines_eq_sample :
    tailLines [0xff, 10, 97, 13, 10, 98] 2 = [ofString "a", ofString "b"] := by
  rw [tailLines_eq _ (by decide)]
  decide

end Takler.Tui
