import Mathlib
import Takler.Lib.Json

/-!
# How many bytes a JSON text takes

The bytes of an object are those of its members and of the commas between them. The bytes of a
string are those of its text, two quotes, and what its escapes add.

## Main definitions

* `CodePoints.byteLength`: the number of bytes in UTF-8.
* `Json.escapeGrowth`: what the escapes of a text add.

## Main results

* `Json.byteLength_renderFields`: the bytes of an object.
* `Json.byteLength_renderString`: the bytes of a string.
-/

namespace CodePoints

/-- The number of bytes of a text in UTF-8. -/
def byteLength (t : CodePoints) : ℕ := (encode t).length

@[simp] theorem byteLength_nil : byteLength [] = 0 := rfl

@[simp] theorem byteLength_append (s t : CodePoints) :
    byteLength (s ++ t) = byteLength s + byteLength t := by
  rw [byteLength, encode, List.flatMap_append, List.length_append]
  rfl

theorem byteLength_cons (c : Fin 0x110000) (t : CodePoints) :
    byteLength (c :: t) = (encodeOne c.val).length + byteLength t := by
  rw [byteLength, encode, List.flatMap_cons, List.length_append]
  rfl

theorem length_encodeOne_of_lt {c : ℕ} (h : c < 128) : (encodeOne c).length = 1 := by
  rw [encodeOne, if_pos h, List.length_singleton]

theorem byteLength_cons_of_lt {c : Fin 0x110000} (h : c.val < 128) (t : CodePoints) :
    byteLength (c :: t) = byteLength t + 1 := by
  rw [byteLength_cons, length_encodeOne_of_lt h, Nat.add_comm]

theorem byteLength_replicate {c : Fin 0x110000} (h : c.val < 128) (n : ℕ) :
    byteLength (List.replicate n c) = n := by
  induction n with
  | zero => rfl
  | succ n ih => rw [List.replicate_succ, byteLength_cons_of_lt h, ih]

end CodePoints

open CodePoints

namespace Json

variable {F : Type}

/-! ### Strings -/

theorem length_encodeOne_le_escape (c : Fin 0x110000) :
    (encodeOne c.val).length ≤ byteLength (escape c) := by
  unfold escape
  split
  · next x hx =>
    have hc : ∀ x ∈ shortEscapes, x.1.val < 128 ∧ x.2.val < 128 :=
      CodePoints.forall_mem_of_all (by decide)
    have hxc : x.1 = c := by simpa using List.find?_some hx
    obtain ⟨h₁, h₂⟩ := hc x (List.mem_of_find?_eq_some hx)
    rw [← hxc, length_encodeOne_of_lt h₁, byteLength_cons_of_lt (by decide)]
    exact Nat.le_add_left 1 _
  · split_ifs with hc
    · rw [length_encodeOne_of_lt (by omega), byteLength_cons_of_lt (by decide)]
      exact Nat.le_add_left 1 _
    · rw [byteLength_cons]
      exact Nat.le_add_right _ _

/-- What the escapes of a text add to its bytes. -/
def escapeGrowth (t : CodePoints) : ℕ := byteLength (t.flatMap escape) - byteLength t

theorem byteLength_le_escape (t : CodePoints) : byteLength t ≤ byteLength (t.flatMap escape) := by
  induction t with
  | nil => exact Nat.le_refl 0
  | cons c t ih =>
    rw [List.flatMap_cons, byteLength_append, byteLength_cons]
    exact Nat.add_le_add (length_encodeOne_le_escape c) ih

theorem byteLength_renderString (t : CodePoints) :
    byteLength (renderString t) = byteLength t + escapeGrowth t + 2 := by
  have hle := byteLength_le_escape t
  rw [renderString, List.cons_append, byteLength_cons_of_lt (by decide), byteLength_append,
    byteLength_cons_of_lt (by decide), byteLength_nil, escapeGrowth]
  omega

/-- Texts without quotes, backslashes and control characters are written as they are. -/
theorem escapeGrowth_of_plain {t : CodePoints} (h : ∀ c ∈ t, escape c = [c]) :
    escapeGrowth t = 0 := by
  have hmap : t.flatMap escape = t := by
    induction t with
    | nil => rfl
    | cons c t ih =>
      rw [List.flatMap_cons, h c List.mem_cons_self,
        ih fun d hd => h d (List.mem_cons_of_mem c hd)]
      rfl
  rw [escapeGrowth, hmap, Nat.sub_self]

/-! ### Objects -/

variable (R : FloatText F)

/-- The bytes of a member with a comma. -/
def memberBytes (x : CodePoints × Json F) : ℕ :=
  byteLength (renderString x.1) + byteLength (render R x.2) + 2

theorem byteLength_separator {α : Type} (x : α) (rest : List α) :
    byteLength (separator (x :: rest)) = 1 := rfl

theorem byteLength_renderFields_cons (x : CodePoints × Json F) (fs : List (CodePoints × Json F)) :
    byteLength (renderFields R (x :: fs)) = ((x :: fs).map (memberBytes R)).sum := by
  induction fs generalizing x with
  | nil =>
    obtain ⟨k, v⟩ := x
    rw [renderFields, List.map_singleton, List.sum_singleton, byteLength_append,
      byteLength_append, byteLength_append, byteLength_cons_of_lt (by decide), renderFields]
    simp only [memberBytes]
    have hclose : byteLength [char '}'] = 1 := rfl
    have hsep : byteLength (separator ([] : List (CodePoints × Json F))) = 0 := rfl
    omega
  | cons y fs ih =>
    obtain ⟨k, v⟩ := x
    rw [renderFields, byteLength_append, ih, byteLength_append, byteLength_separator,
      byteLength_append, byteLength_cons_of_lt (by decide), List.map_cons (l := y :: fs),
      List.sum_cons (l := List.map _ _)]
    simp only [memberBytes]
    omega

theorem byteLength_render_obj (fs : List (CodePoints × Json F)) :
    byteLength (render R (.obj fs)) =
      if fs = [] then 2 else (fs.map (memberBytes R)).sum + 1 := by
  rw [render, byteLength_cons_of_lt (by decide)]
  cases fs with
  | nil => rfl
  | cons x fs => rw [byteLength_renderFields_cons, if_neg (List.cons_ne_nil x fs)]

/-- What the text of one member adds to an object. -/
theorem byteLength_obj_str (as bs : List (CodePoints × Json F)) (k t : CodePoints) :
    byteLength (render R (.obj (as ++ (k, .str t) :: bs))) =
      byteLength (render R (.obj (as ++ (k, .str []) :: bs))) + byteLength t + escapeGrowth t := by
  have hmember : memberBytes R (k, .str t) = memberBytes R (k, .str []) + byteLength t +
      escapeGrowth t := by
    have hempty : byteLength (renderString []) = 2 := rfl
    simp only [memberBytes, render, byteLength_renderString t, hempty]
    omega
  rw [byteLength_render_obj, byteLength_render_obj, if_neg (by simp), if_neg (by simp),
    List.map_append, List.map_append, List.sum_append, List.sum_append, List.map_cons,
    List.map_cons, List.sum_cons, List.sum_cons, hmember]
  omega

theorem two_le_byteLength_obj (fs : List (CodePoints × Json F)) :
    2 ≤ byteLength (render R (.obj fs)) := by
  rw [byteLength_render_obj]
  cases fs with
  | nil => exact Nat.le_refl 2
  | cons x fs =>
    rw [if_neg (List.cons_ne_nil x fs), List.map_cons, List.sum_cons, memberBytes]
    omega

end Json
