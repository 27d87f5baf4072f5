import Takler.Lib.JsonStyle

/-!
# Reading back JSON texts

What a writer writes for a valid value in some style, the reader reads back, wherever the text
stands. The depth that the reader is given is the length of the text.

## Main definitions

* `Json.keepLast`, `Json.refuseDuplicates`: what readers do with repeated keys.

## Main results

* `Json.readsBack`, `Json.loads_text`, `Json.loads_render`: reading back a valid value.
* `Json.render_injective`.
-/

open CodePoints (char ofString)

namespace Json

variable {F : Type}

/-- A hook that takes objects without repeated keys as they are. -/
def KeepsDistinct (hook : PairsHook F) : Prop :=
  ∀ fields : List (CodePoints × Json F), (fields.map Prod.fst).Nodup → hook fields = some fields

section Read

variable {S : Style} {R : FloatText F} {hook : PairsHook F}

/-- How a number begins. -/
def NumberHead (c : Fin 0x110000) : Prop := c = char '-' ∨ isDigit c = true

theorem numberHead_of_scanNumber {t : CodePoints} {x : CodePoints × Bool × CodePoints}
    (h : scanNumber t = some x) : ∃ c u, t = c :: u ∧ NumberHead c := by
  cases t with
  | nil => cases h
  | cons c u =>
    refine ⟨c, u, rfl, ?_⟩
    by_cases hc : c = char '-'
    · exact .inl hc
    · refine .inr ?_
      simp only [scanNumber, scanSign, if_neg hc, Option.map_eq_some_iff] at h
      obtain ⟨y, hy, -⟩ := h
      rw [scanWhole.eq_def] at hy
      dsimp only at hy
      split_ifs at hy with h₁ h₂
      · rw [h₁]
        decide
      · exact h₂

theorem NumberHead.ne {c d : Fin 0x110000} (h : NumberHead c)
    (hd : ¬ (d = char '-' ∨ isDigit d = true)) : c ≠ d := fun hcd => hd (hcd ▸ h)

theorem isPrefixOf_cons_of_ne {c d : Fin 0x110000} (t u : CodePoints) (h : c ≠ d) :
    (d :: t).isPrefixOf (c :: u) = false := by
  have hdc : (d == c) = false := by simpa using h.symm
  rw [List.isPrefixOf, hdc, Bool.false_and]

theorem parseValue_number {c : Fin 0x110000} (h : NumberHead c) (n : ℕ) (t : CodePoints) :
    parseValue R hook (n + 1) (c :: t) = (scanNumber (c :: t)).map fun x =>
      (if x.2.1 then .float (R.read x.1) else .int (readInt x.1), x.2.2) := by
  rw [parseValue, if_neg (h.ne (by decide)), if_neg (h.ne (by decide)), if_neg (h.ne (by decide)),
    if_neg, if_neg, if_neg]
  all_goals
    rw [Bool.not_eq_true]
    exact isPrefixOf_cons_of_ne _ _ (h.ne (by decide))

theorem scanNumber_repr {x : F} (h : R.isFinite x = true) {rest : CodePoints}
    (hrest : Delimited rest) : ∃ c t, R.repr x = c :: t ∧ NumberHead c ∧
      scanNumber (c :: (t ++ rest)) = some (R.repr x, true, rest) := by
  have hscan := R.scan_repr x h rest hrest
  obtain ⟨c, t, ht, hc⟩ := numberHead_of_scanNumber (R.scan_repr x h [] delimited_nil)
  rw [List.append_nil] at ht
  exact ⟨c, t, ht, hc, by rw [← List.cons_append, ← ht]; exact hscan⟩

theorem numberHead_intText (n : ℤ) : ∃ c t, intText n = c :: t ∧ NumberHead c := by
  obtain ⟨c, t, ht, hc⟩ := numberHead_of_scanNumber
    (scanNumber_intText n delimited_nil)
  exact ⟨c, t, by rw [← ht, List.append_nil], hc⟩

/-- The text of a value begins with neither a blank nor a closing bracket. -/
theorem text_eq_cons {v : Json F} (hv : Valid R v) :
    ∃ c t, S.text R v = c :: t ∧ isBlank c = false ∧ c ≠ char ']' := by
  have hnumber : ∀ {c}, NumberHead c → isBlank c = false ∧ c ≠ char ']' := fun {c} hc => by
    refine ⟨?_, hc.ne (by decide)⟩
    rw [isBlank, decide_eq_false (hc.ne (by decide)), decide_eq_false (hc.ne (by decide)),
      decide_eq_false (hc.ne (by decide)), decide_eq_false (hc.ne (by decide))]
    rfl
  cases hv with
  | null => exact ⟨_, _, rfl, by decide, by decide⟩
  | bool b => cases b <;> exact ⟨_, _, rfl, by decide, by decide⟩
  | int n =>
    obtain ⟨c, t, ht, hc⟩ := numberHead_intText n
    exact ⟨c, t, by rw [Style.text, ht], hnumber hc⟩
  | float h =>
    obtain ⟨c, t, ht, hc, -⟩ := scanNumber_repr h delimited_nil
    exact ⟨c, t, by rw [Style.text, ht], hnumber hc⟩
  | str t => exact ⟨_, _, rfl, by decide, by decide⟩
  | arr h => exact ⟨_, _, rfl, by decide, by decide⟩
  | obj h => exact ⟨_, _, rfl, by decide, by decide⟩

theorem skipBlanks_cons {c : Fin 0x110000} (h : isBlank c = false) (t : CodePoints) :
    skipBlanks (c :: t) = c :: t := by
  rw [skipBlanks, List.dropWhile_cons, h]
  rfl

theorem skipBlanks_blanks {t : CodePoints} (h : ∀ c ∈ t, isBlank c = true) (u : CodePoints) :
    skipBlanks (t ++ u) = skipBlanks u :=
  List.dropWhile_append_of_pos h

theorem skipBlanks_text {v : Json F} (hv : Valid R v) (t : CodePoints) :
    skipBlanks (S.text R v ++ t) = S.text R v ++ t := by
  obtain ⟨c, u, hu, hc, -⟩ := text_eq_cons (S := S) hv
  rw [hu, List.cons_append, skipBlanks_cons hc]

theorem delimited_of_head {c : Fin 0x110000} {t : CodePoints} (h : isDigit c = false)
    (h₁ : c ≠ char '.') (h₂ : c ≠ char 'e') (h₃ : c ≠ char 'E') : Delimited (c :: t) := by
  intro d hd
  cases hd
  exact ⟨h, h₁, h₂, h₃⟩

/-- A value is read back wherever it stands, given enough depth. -/
def ReadsBack (S : Style) (R : FloatText F) (hook : PairsHook F) (v : Json F) : Prop :=
  ∀ n rest, (S.text R v).length ≤ n → Delimited rest →
    parseValue R hook n (S.text R v ++ rest) = some (v, rest)

theorem length_text_pos {v : Json F} (hv : Valid R v) : 0 < (S.text R v).length := by
  obtain ⟨c, t, ht, -⟩ := text_eq_cons hv
  rw [ht]
  exact Nat.succ_pos _

theorem textItems_singleton (v : Json F) :
    S.textItems R [v] = S.text R v ++ [char ']'] := by
  rw [Style.textItems, Style.textItems]
  exact congrArg (· ++ [char ']']) (List.append_nil (S.text R v))

theorem textItems_cons_cons (v w : Json F) (ws : List (Json F)) :
    S.textItems R (v :: w :: ws) =
      S.text R v ++ char ',' :: (S.gap ++ S.textItems R (w :: ws)) := by
  rw [Style.textItems, List.append_assoc]
  rfl

theorem textFields_singleton (k : CodePoints) (v : Json F) :
    S.textFields R [(k, v)] = char '"' :: (k.flatMap S.escape ++
      char '"' :: char ':' :: (S.gap ++ (S.text R v ++ [char '}']))) := by
  rw [Style.textFields, Style.textFields]
  simp [Style.string, Style.separator]

theorem textFields_cons_cons (k : CodePoints) (v : Json F) (g : CodePoints × Json F)
    (gs : List (CodePoints × Json F)) :
    S.textFields R ((k, v) :: g :: gs) = char '"' :: (k.flatMap S.escape ++
      char '"' :: char ':' :: (S.gap ++ (S.text R v ++
        char ',' :: (S.gap ++ S.textFields R (g :: gs))))) := by
  rw [Style.textFields]
  simp [Style.string, Style.separator]

theorem skipBlanks_textItems {v : Json F} (hv : Valid R v) (vs : List (Json F))
    (rest : CodePoints) :
    skipBlanks (S.textItems R (v :: vs) ++ rest) = S.textItems R (v :: vs) ++ rest := by
  rw [Style.textItems, List.append_assoc, List.append_assoc]
  exact skipBlanks_text hv _

theorem skipBlanks_textFields (f : CodePoints × Json F) (fs : List (CodePoints × Json F))
    (rest : CodePoints) :
    skipBlanks (S.textFields R (f :: fs) ++ rest) = S.textFields R (f :: fs) ++ rest := by
  rw [Style.textFields]
  exact skipBlanks_cons (by decide) _

theorem parseItems_textItems {v : Json F} {vs : List (Json F)}
    (hvs : ∀ w ∈ v :: vs, Valid R w ∧ ReadsBack S R hook w) {n : ℕ}
    (hn : (S.textItems R (v :: vs)).length ≤ n) (rest : CodePoints) :
    parseItems R hook n (S.textItems R (v :: vs) ++ rest) = some (v :: vs, rest) := by
  have hread := (hvs v List.mem_cons_self).2
  induction vs generalizing v n with
  | nil =>
    rw [textItems_singleton, List.length_append, List.length_singleton] at hn
    obtain ⟨n, rfl⟩ : ∃ m, n = m + 1 := ⟨n - 1, by omega⟩
    have h := hread n (char ']' :: rest) (by omega)
      (delimited_of_head (by decide) (by decide) (by decide) (by decide))
    rw [textItems_singleton, List.append_assoc, parseItems]
    change (parseValue R hook n (S.text R v ++ char ']' :: rest)).bind _ = _
    rw [h]
    rfl
  | cons w ws ih =>
    obtain ⟨hw, hreadw⟩ := hvs w (List.mem_cons_of_mem v List.mem_cons_self)
    rw [textItems_cons_cons, List.length_append, List.length_cons, List.length_append] at hn
    obtain ⟨n, rfl⟩ : ∃ m, n = m + 1 := ⟨n - 1, by omega⟩
    have hlen := length_text_pos (S := S) (hvs v List.mem_cons_self).1
    have hrest := ih (fun x hx => hvs x (List.mem_cons_of_mem v hx)) (n := n) (by omega) hreadw
    have h := hread n (char ',' :: (S.gap ++ (S.textItems R (w :: ws) ++ rest))) (by omega)
      (delimited_of_head (by decide) (by decide) (by decide) (by decide))
    rw [textItems_cons_cons, List.append_assoc, List.cons_append, List.append_assoc, parseItems, h,
      Option.bind_some]
    dsimp only
    rw [skipBlanks_cons (by decide)]
    dsimp only
    rw [if_neg (by decide), if_pos rfl, skipBlanks_blanks S.blank_gap, skipBlanks_textItems hw,
      hrest, Option.map_some]

theorem parseFields_textFields {k : CodePoints} {v : Json F} {fs : List (CodePoints × Json F)}
    (hfs : ∀ g ∈ (k, v) :: fs, Valid R g.2 ∧ ReadsBack S R hook g.2) {n : ℕ}
    (hn : (S.textFields R ((k, v) :: fs)).length ≤ n) (rest : CodePoints) :
    parseFields R hook n (S.textFields R ((k, v) :: fs) ++ rest) = some ((k, v) :: fs, rest) := by
  obtain ⟨hv, hread⟩ : Valid R v ∧ ReadsBack S R hook v := hfs _ List.mem_cons_self
  induction fs generalizing k v n with
  | nil =>
    rw [textFields_singleton] at hn ⊢
    simp only [List.length_cons, List.length_append] at hn
    obtain ⟨n, rfl⟩ : ∃ m, n = m + 1 := ⟨n - 1, by omega⟩
    have h := hread n (char '}' :: rest) (by omega)
      (delimited_of_head (by decide) (by decide) (by decide) (by decide))
    simp only [List.cons_append, List.append_assoc, List.nil_append]
    rw [parseFields, if_pos rfl, S.scanString_string, Option.bind_some]
    dsimp only
    rw [skipBlanks_cons (by decide)]
    dsimp only
    rw [if_pos rfl, skipBlanks_blanks S.blank_gap, skipBlanks_text hv, h]
    rfl
  | cons g gs ih =>
    obtain ⟨l, w⟩ := g
    obtain ⟨hw, hreadw⟩ := hfs (l, w) (List.mem_cons_of_mem _ List.mem_cons_self)
    rw [textFields_cons_cons] at hn ⊢
    simp only [List.length_cons, List.length_append] at hn
    obtain ⟨n, rfl⟩ : ∃ m, n = m + 1 := ⟨n - 1, by omega⟩
    have hrest := ih (fun x hx => hfs x (List.mem_cons_of_mem _ hx)) (n := n) (by omega) hw hreadw
    have h := hread n (char ',' :: (S.gap ++ (S.textFields R ((l, w) :: gs) ++ rest))) (by omega)
      (delimited_of_head (by decide) (by decide) (by decide) (by decide))
    simp only [List.cons_append, List.append_assoc]
    rw [parseFields, if_pos rfl, S.scanString_string, Option.bind_some]
    dsimp only
    rw [skipBlanks_cons (by decide)]
    dsimp only
    rw [if_pos rfl, skipBlanks_blanks S.blank_gap, skipBlanks_text hv, h, Option.bind_some]
    dsimp only
    rw [skipBlanks_cons (by decide)]
    dsimp only
    rw [if_neg (by decide), if_pos rfl, skipBlanks_blanks S.blank_gap, skipBlanks_textFields,
      hrest, Option.map_some]

/-- Every valid value is read back. -/
theorem readsBack (hhook : KeepsDistinct hook) {v : Json F} (hv : Valid R v) :
    ReadsBack S R hook v := by
  induction v using Json.induction with
  | null =>
    intro n rest hn _
    obtain ⟨n, rfl⟩ : ∃ m, n = m + 1 := ⟨n - 1, by have : 4 ≤ n := hn; omega⟩
    rfl
  | bool b =>
    intro n rest hn _
    obtain ⟨n, rfl⟩ : ∃ m, n = m + 1 := ⟨n - 1, by
      have := (length_text_pos hv).trans_le hn
      omega⟩
    cases b <;> rfl
  | int k =>
    intro n rest hn hrest
    obtain ⟨n, rfl⟩ : ∃ m, n = m + 1 := ⟨n - 1, by
      have := (length_text_pos hv).trans_le hn
      omega⟩
    have hscan := scanNumber_intText k hrest
    obtain ⟨c, t, ht, hc⟩ := numberHead_intText k
    rw [Style.text]
    rw [ht, List.cons_append] at hscan ⊢
    rw [parseValue_number hc, hscan, Option.map_some, ← ht, readInt_intText]
    rfl
  | float x =>
    intro n rest hn hrest
    obtain ⟨n, rfl⟩ : ∃ m, n = m + 1 := ⟨n - 1, by
      have := (length_text_pos hv).trans_le hn
      omega⟩
    cases hv with
    | float hx =>
      obtain ⟨c, t, ht, hc, hscan⟩ := scanNumber_repr hx hrest
      rw [Style.text, ht, List.cons_append, parseValue_number hc, hscan, Option.map_some,
        R.read_repr x hx]
      rfl
  | str t =>
    intro n rest hn _
    obtain ⟨n, rfl⟩ : ∃ m, n = m + 1 := ⟨n - 1, by
      have := (length_text_pos hv).trans_le hn
      omega⟩
    rw [Style.text, Style.string, List.cons_append, List.cons_append, parseValue, if_pos rfl,
      List.append_assoc]
    change (scanString (t.flatMap S.escape ++ char '"' :: rest)).map _ = _
    rw [S.scanString_string, Option.map_some]
  | arr items ih =>
    intro n rest hn _
    cases hv with
    | arr h =>
      rw [Style.text, List.length_cons] at hn
      obtain ⟨n, rfl⟩ : ∃ m, n = m + 1 := ⟨n - 1, by omega⟩
      rw [Style.text, List.cons_append, parseValue, if_neg (by decide), if_neg (by decide), if_pos rfl]
      cases items with
      | nil => rfl
      | cons v vs =>
        have hparse := parseItems_textItems (n := n)
          (fun w hw => ⟨h w hw, ih w hw (h w hw)⟩) (by omega) rest
        rw [skipBlanks_textItems (h v List.mem_cons_self), hparse, if_neg]
        · rfl
        · obtain ⟨c, t, ht, -, hc⟩ := text_eq_cons (h v List.mem_cons_self)
          rw [Style.textItems, ht]
          simpa using hc
  | obj fields ih =>
    intro n rest hn _
    cases hv with
    | obj hnodup h =>
      rw [Style.text, List.length_cons] at hn
      obtain ⟨n, rfl⟩ : ∃ m, n = m + 1 := ⟨n - 1, by omega⟩
      rw [Style.text, List.cons_append, parseValue, if_neg (by decide), if_pos rfl]
      cases fields with
      | nil => rfl
      | cons f fs =>
        obtain ⟨k, v⟩ := f
        have hparse := parseFields_textFields (n := n)
          (fun g hg => ⟨h g hg, ih g hg (h g hg)⟩) (by omega) rest
        rw [skipBlanks_textFields, hparse, if_neg]
        · rw [Option.bind_some, hhook _ hnodup]
          rfl
        · rw [Style.textFields, Style.string]
          exact fun hquote => absurd (Option.some.inj hquote) (by decide)

/-- Reading back what was written in a style. -/
theorem loads_text (hhook : KeepsDistinct hook) {v : Json F} (hv : Valid R v) :
    loads R hook (S.text R v) = some v := by
  have h := readsBack (S := S) hhook hv ((S.text R v).length + 1) [] (by omega) delimited_nil
  have hskip := skipBlanks_text (S := S) hv []
  rw [List.append_nil] at h hskip
  rw [loads, hskip, h]
  rfl

/-- Reading back a compact text. -/
theorem loads_render (hhook : KeepsDistinct hook) {v : Json F} (hv : Valid R v) :
    loads R hook (render R v) = some v := by
  rw [← Style.compact_text]
  exact loads_text hhook hv

end Read

/-- The last member of every key, where the first one stood. -/
def keepLast (fields : List (CodePoints × Json F)) : Option (List (CodePoints × Json F)) :=
  some (fields.foldl (fun done x =>
    if x.1 ∈ done.map Prod.fst then done.map fun y => if y.1 = x.1 then x else y
    else done ++ [x]) [])

theorem keepsDistinct_keepLast : KeepsDistinct (F := F) keepLast := by
  intro fields hnodup
  have step : ∀ rest done : List (CodePoints × Json F), ((done ++ rest).map Prod.fst).Nodup →
      rest.foldl (fun done x =>
        if x.1 ∈ done.map Prod.fst then done.map fun y => if y.1 = x.1 then x else y
        else done ++ [x]) done = done ++ rest := by
    intro rest
    induction rest with
    | nil => exact fun done _ => (List.append_nil done).symm
    | cons x rest ih =>
      intro done h
      have hx : x.1 ∉ done.map Prod.fst := by
        rw [List.map_append, List.map_cons] at h
        exact fun hmem => (List.nodup_append.mp h).2.2 _ hmem _ List.mem_cons_self rfl
      rw [List.append_cons] at h
      rw [List.foldl_cons, if_neg hx, ih _ h, List.append_assoc, List.singleton_append]
  rw [keepLast, step fields [] hnodup, List.nil_append]

end Json
