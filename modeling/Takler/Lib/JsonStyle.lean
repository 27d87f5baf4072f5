import Takler.Lib.Json

/-!
# Styles of writing JSON

Writers differ in the escapes they use in strings and in the blanks they put after a separator. A
style is both, with what a reader needs to know about them. The texts of two styles are related
code point by code point: a pass over a text that leaves the marks of JSON alone changes only the
style.

## Main definitions

* `Json.Valid`: values that have a text.
* `Json.Style`, `Json.Style.compact`, `Json.Style.spaced`.
* `Json.Style.text`: the text of a value.
* `Json.Mark`: the code points outside of strings.

## Main results

* `Json.Style.scanString_string`: strings are read back.
* `Json.Style.compact_text`: `Json.render` writes in the compact style.
* `Json.Style.flatMap_text`: a pass over a text.
* `Json.Style.forall_mem_text`: what the code points of a text have in common.
-/

open CodePoints (char ofString)

namespace Json

variable {F : Type}

/-- A value that has a text: floats are finite, and an object has every key once. -/
inductive Valid (R : FloatText F) : Json F → Prop
  | null : Valid R .null
  | bool (b : Bool) : Valid R (.bool b)
  | int (n : ℤ) : Valid R (.int n)
  | float {x : F} (h : R.isFinite x = true) : Valid R (.float x)
  | str (t : CodePoints) : Valid R (.str t)
  | arr {items : List (Json F)} (h : ∀ v ∈ items, Valid R v) : Valid R (.arr items)
  | obj {fields : List (CodePoints × Json F)} (nodup : (fields.map Prod.fst).Nodup)
      (h : ∀ x ∈ fields, Valid R x.2) : Valid R (.obj fields)

theorem Valid.items {R : FloatText F} {items : List (Json F)} (h : Valid R (.arr items)) :
    ∀ v ∈ items, Valid R v := by
  cases h with
  | arr h => exact h

theorem Valid.members {R : FloatText F} {fields : List (CodePoints × Json F)}
    (h : Valid R (.obj fields)) : ∀ x ∈ fields, Valid R x.2 := by
  cases h with
  | obj _ h => exact h

/-- A style of writing. -/
structure Style where
  /-- How a code point is written in a string. -/
  escape : Fin 0x110000 → CodePoints
  /-- What follows a comma and a colon. -/
  gap : CodePoints
  scan_escape : ∀ c t,
    scanString (escape c ++ t) = (scanString t).map fun x => (c :: x.1, x.2)
  blank_gap : ∀ c ∈ gap, isBlank c = true

namespace Style

/-- No blanks. -/
def compact : Style where
  escape := Json.escape
  gap := []
  scan_escape := scanString_escape
  blank_gap := by simp

/-- A blank after every separator. -/
def spaced : Style where
  escape := Json.escape
  gap := [char ' ']
  scan_escape := scanString_escape
  blank_gap := by
    rintro c hc
    rw [List.mem_singleton.mp hc]
    decide

variable (S : Style)

/-- A string with its quotes. -/
def string (t : CodePoints) : CodePoints := char '"' :: t.flatMap S.escape ++ [char '"']

/-- What separates an element from the next one, when there is one. -/
def separator {α : Type} (rest : List α) : CodePoints :=
  if rest.isEmpty then [] else char ',' :: S.gap

section Text

variable (R : FloatText F)

mutual
/-- The text of a value. -/
def text : Json F → CodePoints
  | null => ofString "null"
  | bool b => ofString (if b then "true" else "false")
  | int n => intText n
  | float x => R.repr x
  | str t => S.string t
  | arr items => char '[' :: textItems items
  | obj fields => char '{' :: textFields fields

/-- The rest of an array. -/
def textItems : List (Json F) → CodePoints
  | [] => [char ']']
  | v :: vs => text v ++ S.separator vs ++ textItems vs

/-- The rest of an object. -/
def textFields : List (CodePoints × Json F) → CodePoints
  | [] => [char '}']
  | (k, v) :: fs => S.string k ++ char ':' :: S.gap ++ text v ++ S.separator fs ++ textFields fs
end

end Text

theorem scanString_string (t rest : CodePoints) :
    scanString (t.flatMap S.escape ++ char '"' :: rest) = some (t, rest) := by
  induction t with
  | nil => exact scanString_quote rest
  | cons c t ih => rw [List.flatMap_cons, List.append_assoc, S.scan_escape, ih, Option.map_some]

theorem compact_string (t : CodePoints) : compact.string t = renderString t := rfl

theorem compact_gap : compact.gap = [] := rfl

theorem compact_separator {α : Type} (rest : List α) :
    compact.separator rest = Json.separator rest := rfl

theorem compact_text (R : FloatText F) (v : Json F) : compact.text R v = render R v := by
  induction v using Json.induction with
  | null => rfl
  | bool b => rfl
  | int n => rfl
  | float x => rfl
  | str t => rfl
  | arr items ih =>
    rw [text, render]
    refine congrArg _ ?_
    induction items with
    | nil => rfl
    | cons v vs ihs =>
      obtain ⟨hv, hvs⟩ := List.forall_mem_cons.mp ih
      rw [textItems, renderItems, hv, ihs hvs, compact_separator]
  | obj fields ih =>
    rw [text, render]
    refine congrArg _ ?_
    induction fields with
    | nil => rfl
    | cons x fs ihs =>
      obtain ⟨k, v⟩ := x
      obtain ⟨hv, hfs⟩ := List.forall_mem_cons.mp ih
      rw [textFields, renderFields, hv, ihs hfs, compact_separator, compact_string, compact_gap]
      simp only [List.append_assoc, List.cons_append, List.nil_append]

end Style

/-! ### The code points of a text -/

/-- The code points of numbers. -/
def isNumberMark (c : Fin 0x110000) : Bool :=
  isDigit c || c ∈ ofString "-+.eE"

theorem isNumberMark_of_isDigit {c : Fin 0x110000} (h : isDigit c = true) :
    isNumberMark c = true := by
  rw [isNumberMark, h, Bool.true_or]

theorem isNumberMark_takeWhile {t : CodePoints} {c : Fin 0x110000}
    (h : c ∈ t.takeWhile isDigit) : isNumberMark c = true :=
  isNumberMark_of_isDigit (List.mem_takeWhile_imp h)

theorem isNumberMark_scanSign {t : CodePoints} : ∀ c ∈ (scanSign t).1, isNumberMark c = true := by
  intro c hc
  cases t with
  | nil => cases hc
  | cons d t =>
    rw [scanSign] at hc
    split_ifs at hc with hd
    · rw [List.mem_singleton.mp hc, hd]
      decide
    · cases hc

theorem isNumberMark_scanWhole {t : CodePoints} {x : CodePoints × CodePoints}
    (h : scanWhole t = some x) : ∀ c ∈ x.1, isNumberMark c = true := by
  intro c hc
  cases t with
  | nil => cases h
  | cons d t =>
    rw [scanWhole] at h
    split_ifs at h with hzero hdigit
    · cases h
      rw [List.mem_singleton.mp hc, hzero]
      decide
    · cases h
      exact isNumberMark_takeWhile hc

theorem isNumberMark_scanFraction {t : CodePoints} :
    ∀ c ∈ (scanFraction t).1, isNumberMark c = true := by
  intro c hc
  cases t with
  | nil => cases hc
  | cons d t =>
    rw [scanFraction] at hc
    split_ifs at hc with hd
    · rcases List.mem_cons.mp hc with rfl | hc
      · rw [hd.1]
        decide
      · exact isNumberMark_takeWhile hc
    · cases hc

theorem isNumberMark_scanExponent {t : CodePoints} :
    ∀ c ∈ (scanExponent t).1, isNumberMark c = true := by
  intro c hc
  cases t with
  | nil => cases hc
  | cons d t =>
    have hletter : d = char 'e' ∨ d = char 'E' → isNumberMark d = true := by
      rintro (rfl | rfl) <;> decide
    rw [scanExponent.eq_def] at hc
    dsimp only at hc
    split_ifs at hc with hd
    · rcases List.mem_append.mp hc with hc | hc
      · rcases List.mem_cons.mp hc with rfl | hc
        · exact hletter hd.1
        · cases t with
          | nil => cases hc
          | cons s u =>
            dsimp only at hc
            split_ifs at hc with hs
            · rw [List.mem_singleton.mp hc]
              rcases hs with rfl | rfl <;> decide
            · cases hc
      · exact isNumberMark_takeWhile hc
    · cases hc

theorem isNumberMark_scanNumber {t : CodePoints} {x : CodePoints × Bool × CodePoints}
    (h : scanNumber t = some x) : ∀ c ∈ x.1, isNumberMark c = true := by
  intro c hc
  simp only [scanNumber, Option.map_eq_some_iff] at h
  obtain ⟨y, hy, rfl⟩ := h
  simp only [List.mem_append] at hc
  rcases hc with ((hc | hc) | hc) | hc
  · exact isNumberMark_scanSign c hc
  · exact isNumberMark_scanWhole hy c hc
  · exact isNumberMark_scanFraction c hc
  · exact isNumberMark_scanExponent c hc

/-- The code points of a text outside of its strings. -/
def Mark (c : Fin 0x110000) : Prop :=
  isNumberMark c = true ∨ c ∈ ofString "nultrefas[],:\"\x7b\x7d"

theorem Mark.of_mem {c : Fin 0x110000} (h : c ∈ ofString "nultrefas[],:\"\x7b\x7d") : Mark c :=
  .inr h

theorem delimited_nil : Delimited [] := fun _ hc => by cases hc

theorem mark_intText (n : ℤ) : ∀ c ∈ intText n, Mark c := fun c hc =>
  .inl (isNumberMark_scanNumber (scanNumber_intText n delimited_nil) c hc)

theorem mark_repr {R : FloatText F} {x : F} (h : R.isFinite x = true) : ∀ c ∈ R.repr x, Mark c :=
  fun c hc => .inl (isNumberMark_scanNumber (R.scan_repr x h [] delimited_nil) c hc)

/-- The code points of a word of JSON are marks. -/
theorem mark_word {w : String} (h : (ofString w).all (· ∈ ofString "nultrefas") = true) :
    ∀ c ∈ ofString w, Mark c := by
  intro c hc
  have hmem : c ∈ ofString "nultrefas" := by simpa using List.all_eq_true.mp h c hc
  exact .inr (List.mem_append_left (ofString "[],:\"\x7b\x7d") hmem)

namespace Style

variable {S : Style} {R : FloatText F}

section Members

variable {P : Fin 0x110000 → Prop} (hmark : ∀ c, Mark c → P c) (hgap : ∀ c ∈ S.gap, P c)
  (hescape : ∀ c, ∀ d ∈ S.escape c, P d)

include hmark hescape in
theorem forall_mem_string (t : CodePoints) : ∀ c ∈ S.string t, P c := by
  intro c hc
  simp only [string, List.cons_append, List.mem_cons, List.mem_append, List.mem_flatMap,
    List.not_mem_nil, or_false] at hc
  rcases hc with rfl | ⟨d, -, hd⟩ | rfl
  · exact hmark _ (.of_mem (by decide))
  · exact hescape d c hd
  · exact hmark _ (.of_mem (by decide))

include hmark hgap in
theorem forall_mem_separator {α : Type} (rest : List α) : ∀ c ∈ S.separator rest, P c := by
  intro c hc
  rw [separator] at hc
  split_ifs at hc
  · cases hc
  · rcases List.mem_cons.mp hc with rfl | hc
    · exact hmark _ (.of_mem (by decide))
    · exact hgap c hc

include hmark hgap hescape in
/-- What holds of the marks, of the blanks and of what stands for a code point in a string holds of
all code points of a text. -/
theorem forall_mem_text {v : Json F} (hv : Valid R v) : ∀ c ∈ S.text R v, P c := by
  induction v using Json.induction with
  | null => exact fun c hc => hmark c (mark_word (by decide) c hc)
  | bool b =>
    cases b with
    | false => exact fun c hc => hmark c (mark_word (w := "false") (by decide) c hc)
    | true => exact fun c hc => hmark c (mark_word (w := "true") (by decide) c hc)
  | int n => exact fun c hc => hmark c (mark_intText n c hc)
  | float x =>
    cases hv with
    | float hx => exact fun c hc => hmark c (mark_repr hx c hc)
  | str t => exact forall_mem_string hmark hescape t
  | arr items ih =>
    have h := hv.items
    clear hv
    rw [text]
    refine List.forall_mem_cons.mpr ⟨hmark _ (.of_mem (by decide)), ?_⟩
    induction items with
    | nil => exact List.forall_mem_singleton.mpr (hmark _ (.of_mem (by decide)))
    | cons v vs ihs =>
      obtain ⟨hv, hvs⟩ := List.forall_mem_cons.mp h
      obtain ⟨ihv, ihvs⟩ := List.forall_mem_cons.mp ih
      rw [textItems]
      simp only [List.forall_mem_append]
      exact ⟨⟨ihv hv, forall_mem_separator hmark hgap vs⟩, ihs ihvs hvs⟩
  | obj fields ih =>
    have h := hv.members
    clear hv
    rw [text]
    refine List.forall_mem_cons.mpr ⟨hmark _ (.of_mem (by decide)), ?_⟩
    induction fields with
    | nil => exact List.forall_mem_singleton.mpr (hmark _ (.of_mem (by decide)))
    | cons x fs ihs =>
      obtain ⟨k, v⟩ := x
      obtain ⟨hv, hfs⟩ := List.forall_mem_cons.mp h
      obtain ⟨ihv, ihfs⟩ := List.forall_mem_cons.mp ih
      rw [textFields]
      simp only [List.forall_mem_append, List.forall_mem_cons]
      exact ⟨⟨⟨⟨forall_mem_string hmark hescape k, hmark _ (.of_mem (by decide)), hgap⟩, ihv hv⟩,
        forall_mem_separator hmark hgap fs⟩, ihs ihfs hfs⟩

end Members

section Pass

variable {T : Style} {f : Fin 0x110000 → CodePoints} (hmark : ∀ c, Mark c → f c = [c])
  (hgap : S.gap.flatMap f = T.gap) (hescape : ∀ c, (S.escape c).flatMap f = T.escape c)

include hmark in
theorem flatMap_marks {t : CodePoints} (h : ∀ c ∈ t, Mark c) : t.flatMap f = t := by
  induction t with
  | nil => rfl
  | cons c t ih =>
    obtain ⟨hc, ht⟩ := List.forall_mem_cons.mp h
    rw [List.flatMap_cons, hmark c hc, ih ht, List.singleton_append]

include hmark in
theorem flatMap_cons_mark {c : Fin 0x110000} (hc : Mark c) (t : CodePoints) :
    (c :: t).flatMap f = c :: t.flatMap f := by
  rw [List.flatMap_cons, hmark c hc, List.singleton_append]

include hmark hescape in
theorem flatMap_string (t : CodePoints) : (S.string t).flatMap f = T.string t := by
  have hquote : Mark (char '"') := .of_mem (by decide)
  rw [string, List.cons_append, flatMap_cons_mark hmark hquote, List.flatMap_append,
    List.flatMap_assoc, flatMap_cons_mark hmark hquote, List.flatMap_nil]
  simp only [hescape]
  rfl

include hmark hgap in
theorem flatMap_separator {α : Type} (rest : List α) :
    (S.separator rest).flatMap f = T.separator rest := by
  rw [separator, separator]
  split_ifs
  · rfl
  · rw [flatMap_cons_mark hmark (.of_mem (by decide)), hgap]

include hmark hgap hescape in
/-- A pass that leaves the marks alone changes the style of a text. -/
theorem flatMap_text {v : Json F} (hv : Valid R v) : (S.text R v).flatMap f = T.text R v := by
  induction v using Json.induction with
  | null => exact flatMap_marks hmark (mark_word (by decide))
  | bool b =>
    cases b with
    | false => exact flatMap_marks hmark (mark_word (w := "false") (by decide))
    | true => exact flatMap_marks hmark (mark_word (w := "true") (by decide))
  | int n => exact flatMap_marks hmark (mark_intText n)
  | float x =>
    cases hv with
    | float hx => exact flatMap_marks hmark (mark_repr hx)
  | str t => exact flatMap_string hmark hescape t
  | arr items ih =>
    have h := hv.items
    clear hv
    rw [text, text, flatMap_cons_mark hmark (.of_mem (by decide))]
    refine congrArg _ ?_
    induction items with
    | nil => exact flatMap_cons_mark hmark (.of_mem (by decide)) []
    | cons v vs ihs =>
      obtain ⟨hv, hvs⟩ := List.forall_mem_cons.mp h
      obtain ⟨ihv, ihvs⟩ := List.forall_mem_cons.mp ih
      rw [textItems, textItems, List.flatMap_append, List.flatMap_append, ihv hv,
        flatMap_separator hmark hgap, ihs ihvs hvs]
  | obj fields ih =>
    have h := hv.members
    clear hv
    rw [text, text, flatMap_cons_mark hmark (.of_mem (by decide))]
    refine congrArg _ ?_
    induction fields with
    | nil => exact flatMap_cons_mark hmark (.of_mem (by decide)) []
    | cons x fs ihs =>
      obtain ⟨k, v⟩ := x
      obtain ⟨hv, hfs⟩ := List.forall_mem_cons.mp h
      obtain ⟨ihv, ihfs⟩ := List.forall_mem_cons.mp ih
      simp only [textFields, List.flatMap_append, flatMap_string hmark hescape,
        flatMap_cons_mark hmark (.of_mem (by decide) : Mark (char ':')), hgap, ihv hv,
        flatMap_separator hmark hgap, ihs ihfs hfs]

end Pass

end Style

end Json
