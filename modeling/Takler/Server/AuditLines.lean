import Takler.Lib.JsonRoundTrip
import Takler.Lib.Utf8

/-!
# Audit lines

An audit record (`server/audit.py`) is written as one line of JSON. The writer leaves three code
points as they are that end a line, and `to_json_line` replaces them by their escapes afterwards.

The result is a text of another style: it is what a writer with these three escapes writes. So it
is read back, and none of its code points ends a line.

## Main definitions

* `AuditRecord`, `AuditRecord.fields`, `AuditRecord.toJsonLine`.
* `auditStyle`: the style of an audit line.
* `auditFile`: records written one per line.

## Main results

* `AuditRecord.toJsonLine_eq`: the replacements are a change of style.
* `AuditRecord.fields_injective`: a record is determined by the fields that are written.
* `toJsonLine_lines`: audit lines are lines, and records are recovered from them.
-/

open CodePoints (char ofString isLineBreak newline splitlines forall_mem_of_all)

namespace Takler.Server

open Json (FloatText Style hexDigit)

variable {F : Type} {R : FloatText F}

/-- A dictionary with values that have a text. -/
abbrev ResultItem (R : FloatText F) :=
  {fields : List (CodePoints × Json F) // Json.Valid R (.obj fields)}

/-- `AuditRecord`. -/
structure AuditRecord (R : FloatText F) where
  timestamp : CodePoints
  event : CodePoints
  command : CodePoints
  user : CodePoints
  peer : CodePoints
  target : List CodePoints
  outcome : CodePoints
  errorCode : ℤ
  reason : Option CodePoints
  results : Option (List (ResultItem R))

namespace AuditRecord

/-- `dataclasses.asdict`. -/
def asdict (r : AuditRecord R) : List (CodePoints × Option (Json F)) :=
  [("timestamp", some (.str r.timestamp)), ("event", some (.str r.event)),
    ("command", some (.str r.command)), ("user", some (.str r.user)), ("peer", some (.str r.peer)),
    ("target", some (.arr (r.target.map .str))), ("outcome", some (.str r.outcome)),
    ("error_code", some (.int r.errorCode)), ("reason", r.reason.map .str),
    ("results", r.results.map fun items => .arr (items.map fun d => .obj d.1))]

/-- The fields that are not `None`. -/
def fields (r : AuditRecord R) : List (CodePoints × Json F) :=
  r.asdict.filterMap fun x => x.2.map fun v => (x.1, v)

end AuditRecord

/-- `_EXTRA_LINE_BOUNDARIES`. -/
def extraLineBoundaries : List (Fin 0x110000) := [0x85, 0x2028, 0x2029]

/-- The escape of a code point with four hexadecimal digits. -/
def unicodeEscape (c : Fin 0x110000) : CodePoints :=
  [char '\\', char 'u', hexDigit (c.val / 4096), hexDigit (c.val / 256 % 16),
    hexDigit (c.val / 16 % 16), hexDigit (c.val % 16)]

/-- `line.replace(char, escape)`, if the character is in the line. -/
def replaceBoundary (line : CodePoints) (c : Fin 0x110000) : CodePoints :=
  if c ∈ line then line.flatMap fun d => if d = c then unicodeEscape c else [d] else line

/-- `AuditRecord.to_json_line`. -/
def AuditRecord.toJsonLine (r : AuditRecord R) : CodePoints :=
  extraLineBoundaries.foldl replaceBoundary (Style.spaced.text R (.obj r.fields))

/-- Records, one per line. -/
def auditFile (records : List (AuditRecord R)) : CodePoints :=
  records.flatMap fun r => r.toJsonLine ++ [newline]

/-! ### The replacements -/

theorem replaceBoundary_eq (line : CodePoints) (c : Fin 0x110000) :
    replaceBoundary line c = line.flatMap fun d => if d = c then unicodeEscape c else [d] := by
  rw [replaceBoundary]
  split_ifs with hc
  · rfl
  · induction line with
    | nil => rfl
    | cons d line ih =>
      obtain ⟨hd, hline⟩ := not_or.mp (mt List.mem_cons.mpr hc)
      rw [List.flatMap_cons, if_neg (Ne.symm hd), ← ih hline, List.singleton_append]

/-- What becomes of a code point of the line. -/
def replaced (c : Fin 0x110000) : CodePoints :=
  if c ∈ extraLineBoundaries then unicodeEscape c else [c]

theorem replaced_of_notMem {c : Fin 0x110000} (h : c ∉ extraLineBoundaries) :
    replaced c = [c] := if_neg h

theorem notMem_extraLineBoundaries {c : Fin 0x110000} (h : c.val < 128) :
    c ∉ extraLineBoundaries := by
  intro hc
  have hall : ∀ d ∈ extraLineBoundaries, 128 ≤ d.val := forall_mem_of_all (by decide)
  exact absurd (hall c hc) (by omega)

/-- The three replacements are one. -/
theorem foldl_replaceBoundary (line : CodePoints) :
    extraLineBoundaries.foldl replaceBoundary line = line.flatMap replaced := by
  simp only [extraLineBoundaries, List.foldl_cons, List.foldl_nil, replaceBoundary_eq,
    List.flatMap_assoc]
  refine List.flatMap_congr fun c _ => ?_
  by_cases h₁ : c = 0x85
  · subst h₁
    decide
  by_cases h₂ : c = 0x2028
  · subst h₂
    decide
  by_cases h₃ : c = 0x2029
  · subst h₃
    decide
  simp [replaced, extraLineBoundaries, h₁, h₂, h₃]

/-! ### The style of an audit line -/

theorem val_of_mark {c : Fin 0x110000} (h : Json.Mark c) : 32 ≤ c.val ∧ c.val < 128 := by
  have hnumber : ∀ d ∈ ofString "-+.eE", 32 ≤ d.val ∧ d.val < 128 := forall_mem_of_all (by decide)
  have hword : ∀ d ∈ ofString "nultrefas[],:\"\x7b\x7d", 32 ≤ d.val ∧ d.val < 128 :=
    forall_mem_of_all (by decide)
  rcases h with h | h
  · simp only [Json.isNumberMark, Json.isDigit, Bool.or_eq_true, Bool.and_eq_true,
      decide_eq_true_eq] at h
    rcases h with h | h
    · omega
    · exact hnumber c h
  · exact hword c h

theorem val_hexDigit : ∀ n < 16, 32 ≤ (hexDigit n).val ∧ (hexDigit n).val < 128 := by decide

theorem val_unicodeEscape {c d : Fin 0x110000} (hc : c.val < 0x10000) (hd : d ∈ unicodeEscape c) :
    32 ≤ d.val ∧ d.val < 128 := by
  simp only [unicodeEscape, List.mem_cons, List.not_mem_nil, or_false] at hd
  rcases hd with rfl | rfl | rfl | rfl | rfl | rfl
  · decide
  · decide
  all_goals exact val_hexDigit _ (by omega)

/-- What the writer writes for a code point is the code point, or in ASCII. -/
theorem val_escape {c d : Fin 0x110000} (hd : d ∈ Json.escape c) :
    (32 ≤ d.val ∧ d.val < 128) ∨ (d = c ∧ Json.escape c = [c] ∧ 32 ≤ c.val) := by
  have hshort : ∀ x ∈ Json.shortEscapes, 32 ≤ x.2.val ∧ x.2.val < 128 :=
    CodePoints.forall_mem_of_all (by decide)
  unfold Json.escape at hd ⊢
  split at hd
  · next x hx =>
    refine .inl ?_
    simp only [List.mem_cons, List.not_mem_nil, or_false] at hd
    rcases hd with rfl | rfl
    · decide
    · exact hshort x (List.mem_of_find?_eq_some hx)
  · split_ifs at hd ⊢ with hc
    · refine .inl ?_
      simp only [List.mem_cons, List.not_mem_nil, or_false] at hd
      rcases hd with rfl | rfl | rfl | rfl | rfl | rfl
      · decide
      · decide
      · decide
      · decide
      all_goals exact val_hexDigit _ (by omega)
    · exact .inr ⟨List.mem_singleton.mp hd, rfl, by omega⟩

/-- The escapes of an audit line. -/
def auditEscape (c : Fin 0x110000) : CodePoints :=
  if c ∈ extraLineBoundaries then unicodeEscape c else Json.escape c

theorem flatMap_replaced_escape (c : Fin 0x110000) :
    (Json.escape c).flatMap replaced = auditEscape c := by
  rw [auditEscape]
  split_ifs with hc
  · have hall : ∀ d ∈ extraLineBoundaries, (Json.escape d).flatMap replaced = unicodeEscape d :=
      forall_mem_of_all (by decide)
    exact hall c hc
  · have hsame : ∀ d ∈ Json.escape c, replaced d = [d] := fun d hd => by
      rcases val_escape hd with h | ⟨rfl, -⟩
      · exact replaced_of_notMem (notMem_extraLineBoundaries h.2)
      · exact replaced_of_notMem hc
    rw [List.flatMap_congr hsame]
    exact List.flatMap_singleton' _

theorem scanString_auditEscape (c : Fin 0x110000) (t : CodePoints) :
    Json.scanString (auditEscape c ++ t) =
      (Json.scanString t).map fun x => (c :: x.1, x.2) := by
  rw [auditEscape]
  split_ifs with hc
  · have hall : ∀ d ∈ extraLineBoundaries, d.val < 0xd800 ∧
        Json.hexValue4 (hexDigit (d.val / 4096)) (hexDigit (d.val / 256 % 16))
          (hexDigit (d.val / 16 % 16)) (hexDigit (d.val % 16)) = some d.val :=
      forall_mem_of_all (by decide)
    obtain ⟨hlt, hvalue⟩ := hall c hc
    have h := Json.scanString_unicode hvalue hlt t
    rw [Fin.ofNat_val_eq_self] at h
    exact h
  · exact Json.scanString_escape c t

/-- The style of an audit line. -/
def auditStyle : Style where
  escape := auditEscape
  gap := [char ' ']
  scan_escape := scanString_auditEscape
  blank_gap := Style.spaced.blank_gap

theorem isLineBreak_of_ascii {c : Fin 0x110000} (h : 32 ≤ c.val ∧ c.val < 128) :
    isLineBreak c = false := by
  simp [isLineBreak]
  omega

theorem isLineBreak_auditEscape (c : Fin 0x110000) :
    ∀ d ∈ auditEscape c, isLineBreak d = false := by
  intro d hd
  rw [auditEscape] at hd
  split_ifs at hd with hc
  · have hall : ∀ d ∈ extraLineBoundaries, d.val < 0x10000 := forall_mem_of_all (by decide)
    exact isLineBreak_of_ascii (val_unicodeEscape (hall c hc) hd)
  · rcases val_escape hd with h | ⟨rfl, -, h⟩
    · exact isLineBreak_of_ascii h
    · have hne : d.val ≠ 0x85 ∧ d.val ≠ 0x2028 ∧ d.val ≠ 0x2029 := by
        simp only [extraLineBoundaries, List.mem_cons, List.not_mem_nil, or_false, not_or,
          Fin.ext_iff] at hc
        exact hc
      simp [isLineBreak]
      omega

/-! ### Records -/

namespace AuditRecord

theorem mem_fields {r : AuditRecord R} {k : CodePoints} {v : Json F} :
    (k, v) ∈ r.fields ↔ (k, some v) ∈ r.asdict := by
  simp only [fields, List.mem_filterMap, Option.map_eq_some_iff, Prod.mk.injEq, Prod.exists]
  constructor
  · rintro ⟨_, _, hmem, w, rfl, rfl, rfl⟩
    exact hmem
  · exact fun hmem => ⟨k, some v, hmem, v, rfl, rfl, rfl⟩

/-- The members of a dictionary that are not `None`. -/
theorem sublist_present {V : Type} (l : List (CodePoints × Option V)) :
    ((l.filterMap fun x => x.2.map fun v => (x.1, v)).map Prod.fst).Sublist (l.map Prod.fst) := by
  induction l with
  | nil => exact List.Sublist.slnil
  | cons x l ih =>
    obtain ⟨k, _ | v⟩ := x
    · exact ih.cons k
    · exact ih.cons_cons k

theorem present_injOn {V : Type} {l m : List (CodePoints × Option V)}
    (hkeys : l.map Prod.fst = m.map Prod.fst) (hnodup : (l.map Prod.fst).Nodup)
    (h : (l.filterMap fun x => x.2.map fun v => (x.1, v)) =
      m.filterMap fun x => x.2.map fun v => (x.1, v)) : l = m := by
  induction l generalizing m with
  | nil => exact (List.map_eq_nil_iff.mp hkeys.symm).symm
  | cons x l ih =>
    obtain _ | ⟨y, m⟩ := m
    · cases hkeys
    obtain ⟨k, v⟩ := x
    obtain ⟨k', w⟩ := y
    obtain ⟨rfl, hlm⟩ : k = k' ∧ l.map Prod.fst = m.map Prod.fst := List.cons.inj hkeys
    obtain ⟨hk, hl⟩ := List.nodup_cons.mp hnodup
    -- A key that is present on one side only would have to be among the later keys.
    have hlater : ∀ (n : List (CodePoints × Option V)) {u : V} {rest},
        n.map Prod.fst = l.map Prod.fst →
          (n.filterMap fun x => x.2.map fun v => (x.1, v)) ≠ (k, u) :: rest := by
      intro n u rest hn heq
      have hmem : k ∈ n.map Prod.fst := (sublist_present n).subset (by rw [heq]; simp)
      exact hk (hn ▸ hmem)
    cases v with
    | none =>
      cases w with
      | none => rw [ih hlm hl h]
      | some w => exact absurd h (hlater l rfl)
    | some v =>
      cases w with
      | none => exact absurd h.symm (hlater m hlm.symm)
      | some w =>
        obtain ⟨hvw, hrest⟩ := List.cons.inj h
        rw [ih hlm hl hrest, (Prod.mk.inj hvw).2]

theorem keys_asdict (r : AuditRecord R) : r.asdict.map Prod.fst =
    ["timestamp", "event", "command", "user", "peer", "target", "outcome", "error_code", "reason",
      "results"].map ofString := rfl

theorem nodup_asdict (r : AuditRecord R) : (r.asdict.map Prod.fst).Nodup := by
  rw [keys_asdict]
  exact List.Nodup.map CodePoints.ofString_injective (by decide)

theorem nodup_fields (r : AuditRecord R) : (r.fields.map Prod.fst).Nodup :=
  r.nodup_asdict.sublist (sublist_present r.asdict)

theorem valid_asdict (r : AuditRecord R) {k : CodePoints} {v : Json F}
    (h : (k, some v) ∈ r.asdict) : Json.Valid R v := by
  simp only [asdict, List.mem_cons, Prod.mk.injEq, Option.some.injEq, List.not_mem_nil,
    or_false] at h
  rcases h with ⟨-, rfl⟩ | ⟨-, rfl⟩ | ⟨-, rfl⟩ | ⟨-, rfl⟩ | ⟨-, rfl⟩ | ⟨-, rfl⟩ | ⟨-, rfl⟩ |
    ⟨-, rfl⟩ | ⟨-, h⟩ | ⟨-, h⟩
  · exact .str _
  · exact .str _
  · exact .str _
  · exact .str _
  · exact .str _
  · refine .arr fun w hw => ?_
    obtain ⟨t, -, rfl⟩ := List.mem_map.mp hw
    exact .str t
  · exact .str _
  · exact .int _
  · obtain ⟨t, -, rfl⟩ := Option.map_eq_some_iff.mp h.symm
    exact .str t
  · obtain ⟨items, -, rfl⟩ := Option.map_eq_some_iff.mp h.symm
    refine .arr fun w hw => ?_
    obtain ⟨d, -, rfl⟩ := List.mem_map.mp hw
    exact d.2

theorem valid_fields (r : AuditRecord R) : Json.Valid R (.obj r.fields) :=
  .obj r.nodup_fields fun _ hx => r.valid_asdict (mem_fields.mp hx)

theorem results_injective :
    Function.Injective fun items : List (ResultItem R) => Json.arr (items.map fun d => .obj d.1) :=
  fun _ _ h => List.map_injective_iff.mpr
    (fun _ _ hd => Subtype.ext (Json.obj.inj hd)) (Json.arr.inj h)

theorem asdict_injective : Function.Injective (asdict (R := R)) := by
  rintro ⟨t, e, c, u, p, g, o, n, reason, results⟩
    ⟨t', e', c', u', p', g', o', n', reason', results'⟩ h
  have hstr : Function.Injective (Json.str (F := F)) := fun _ _ h => Json.str.inj h
  simp only [asdict, List.cons.injEq, Prod.mk.injEq, true_and, Option.some.injEq, Json.str.injEq,
    Json.arr.injEq, Json.int.injEq, (List.map_injective_iff.mpr hstr).eq_iff,
    (Option.map_injective hstr).eq_iff, (Option.map_injective results_injective).eq_iff,
    and_true] at h
  obtain ⟨rfl, rfl, rfl, rfl, rfl, rfl, rfl, rfl, rfl, rfl⟩ := h
  rfl

/-- A record is determined by the fields that are written. -/
theorem fields_injective : Function.Injective (fields (R := R)) := fun r s h =>
  asdict_injective (present_injOn (r.keys_asdict.trans s.keys_asdict.symm) r.nodup_asdict h)

/-- The replacements change the style of the line. -/
theorem toJsonLine_eq (r : AuditRecord R) : r.toJsonLine = auditStyle.text R (.obj r.fields) := by
  rw [toJsonLine, foldl_replaceBoundary]
  refine Style.flatMap_text (fun c hc => ?_) rfl flatMap_replaced_escape r.valid_fields
  exact replaced_of_notMem (notMem_extraLineBoundaries (val_of_mark hc).2)

theorem isLineBreak_toJsonLine (r : AuditRecord R) :
    ∀ c ∈ r.toJsonLine, isLineBreak c = false := by
  rw [toJsonLine_eq]
  refine Style.forall_mem_text (fun c hc => isLineBreak_of_ascii (val_of_mark hc)) (fun c hc => ?_)
    isLineBreak_auditEscape r.valid_fields
  rw [List.mem_singleton.mp hc]
  decide

theorem loads_toJsonLine (r : AuditRecord R) :
    Json.loads R Json.keepLast r.toJsonLine = some (.obj r.fields) := by
  rw [toJsonLine_eq]
  exact Json.loads_text Json.keepsDistinct_keepLast r.valid_fields

theorem splitlines_toJsonLine (r : AuditRecord R) : splitlines r.toJsonLine = [r.toJsonLine] := by
  refine CodePoints.splitlines_eq_singleton r.isLineBreak_toJsonLine ?_
  rw [toJsonLine_eq]
  exact List.cons_ne_nil _ _

end AuditRecord

theorem splitlines_auditFile (records : List (AuditRecord R)) :
    splitlines (auditFile records) = records.map AuditRecord.toJsonLine :=
  CodePoints.splitlines_flatMap _ _ fun r _ => r.isLineBreak_toJsonLine

/-- The line of a record is one line, and it is read as the object of the fields that are not
`None`. So the objects of a file that has one record on every line are those of its records, and the
file determines the records. -/
theorem toJsonLine_lines :
    (∀ r : AuditRecord R, splitlines r.toJsonLine = [r.toJsonLine] ∧
      Json.loads R Json.keepLast r.toJsonLine = some (.obj r.fields) ∧
        (r.fields.map Prod.fst).Nodup ∧ ∀ k v, (k, v) ∈ r.fields ↔ (k, some v) ∈ r.asdict) ∧
      (∀ records : List (AuditRecord R),
        (splitlines (auditFile records)).map (Json.loads R Json.keepLast) =
          records.map fun r => some (.obj r.fields)) ∧
      Function.Injective (auditFile (R := R)) := by
  refine ⟨fun r => ⟨r.splitlines_toJsonLine, r.loads_toJsonLine, r.nodup_fields,
    fun k v => AuditRecord.mem_fields⟩, fun records => ?_, fun records records' h => ?_⟩
  · rw [splitlines_auditFile, List.map_map]
    exact List.map_congr_left fun r _ => r.loads_toJsonLine
  · have hlines := congrArg splitlines h
    rw [splitlines_auditFile, splitlines_auditFile] at hlines
    refine List.map_injective_iff.mpr (fun r s hrs => ?_) hlines
    have hread := congrArg (Json.loads R Json.keepLast) hrs
    rw [r.loads_toJsonLine, s.loads_toJsonLine] at hread
    exact AuditRecord.fields_injective (Json.obj.inj (Option.some.inj hread))

end Takler.Server
