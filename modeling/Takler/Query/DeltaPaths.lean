import Takler.Lib.PrefixReduction
import Takler.Query.Changes

/-!
# The paths of a delta

A delta tells a client which subtrees to drop and which summaries to replace. `_delta_paths`
(`server/query_service.py`) takes the visible invalidated and the visible summary-marked paths from
the journal, reduces the invalidations to those that are not below another one, and leaves out the
summaries that an invalidation covers. It sorts the paths as plain strings. A name with a character
before `/`, such as `-` or `.`, puts a sibling between a path and its descendants, and then a
descendant of an invalidated path is invalidated again or sent as a summary.

## Main definitions

* `visiblePath`, `deltaPaths`: the functions of the source.
* `Invalidated`, `Marked`: the visible paths with a change of each kind.
* `Descendant`: the order of the tree.

## Main results

* `deltaPaths_correct_iff`: the answer is right exactly if no invalidated path stands, in the order
  of strings, between a topmost invalidated path and one of its descendants.
* `deltaPaths_hyphen`: an answer that is wrong.
-/

namespace Takler.Query

open PrefixReduction

/-! ### The source -/

/-- `valid_path`, as a test. -/
def validPath (path : CodePoints) : Bool :=
  path = rootPath ∨
    path.head? = some slash ∧ path.getLast? ≠ some slash ∧
      ∀ segment ∈ path.tail.splitOn slash,
        segment ≠ [] ∧ segment ≠ CodePoints.ofString "." ∧ segment ≠ CodePoints.ofString ".." ∧
          segment.all fun c => 0x1f < c.val

/-- The depth of a path in the tree. -/
def pathDepth (path : CodePoints) : ℤ := if path = rootPath then 0 else path.count slash

/-- `_visible_path`. -/
def visiblePath (path scope : CodePoints) (depth : Option ℤ) : Bool :=
  (path = scope ∨ scope = rootPath ∨ scope ++ [slash] <+: path) ∧
    depth.all fun d => pathDepth path - pathDepth scope ≤ d

/-- The change concerns more than the values of summaries. -/
def QueryChange.invalidates (x : QueryChange) : Bool :=
  x.invalidate ∨ (x.groups ∩ {.definition, .parameters}).Nonempty

/-- The change takes the whole scope with it. -/
def QueryChange.resets (x : QueryChange) (scope : CodePoints) : Bool :=
  x.path = scope ∨ x.path.rdropWhile (· = slash) ++ [slash] <+: scope

/-- The loop over the changes: the summary-marked and the invalidated paths. -/
def collectPaths (scope : CodePoints) (depth : Option ℤ) :
    List QueryChange → List CodePoints × List CodePoints →
      Option (List CodePoints × List CodePoints)
  | [], acc => some acc
  | x :: rest, (paths, invalidations) =>
    if x.invalidates && x.resets scope then none
    else
      collectPaths scope depth rest
        (if .summary ∈ x.groups && visiblePath x.path scope depth then paths.insert x.path
          else paths,
        if x.invalidates && visiblePath x.path scope depth then invalidations.insert x.path
          else invalidations)

/-- `_delta_paths`: the summaries to replace and the subtrees to drop. -/
def deltaPaths (batches : List ChangeBatch) (scope : CodePoints) (depth : Option ℤ) :
    Option (List CodePoints × List CodePoints) := do
  let (paths, invalidations) ←
    collectPaths scope depth (batches.flatMap ChangeBatch.changes) ([], [])
  let reduced := reduce slash (invalidations.insertionSort (· ≤ ·))
  return (paths.filter fun path => !coveredBy slash reduced path, reduced)

/-! ### What it is for -/

section Tree

variable (batches : List ChangeBatch) (scope : CodePoints) (depth : Option ℤ)

/-- A visible path with a change that invalidates it. -/
def Invalidated (p : CodePoints) : Prop :=
  ∃ x ∈ batches.flatMap ChangeBatch.changes,
    x.invalidates ∧ visiblePath x.path scope depth ∧ x.path = p

/-- A visible path whose summary was marked. -/
def Marked (p : CodePoints) : Prop :=
  ∃ x ∈ batches.flatMap ChangeBatch.changes,
    .summary ∈ x.groups ∧ visiblePath x.path scope depth ∧ x.path = p

/-- The second path is a proper descendant of the first one in the tree. -/
def Descendant (p q : CodePoints) : Prop := (p = rootPath ∧ q ≠ rootPath) ∨ p ++ [slash] <+: q

/-- The answer drops disjoint subtrees that hold every invalidated path, and replaces the marked
summaries outside them. -/
structure DeltaCorrect (upserts invalidations : List CodePoints) : Prop where
  antichain : ∀ p ∈ invalidations, ∀ q ∈ invalidations, ¬ Descendant p q
  covered : ∀ p, Invalidated batches scope depth p →
    ∃ a ∈ invalidations, p = a ∨ Descendant a p
  exact : ∀ q, q ∈ upserts ↔
    Marked batches scope depth q ∧ ∀ a ∈ invalidations, ¬ (q = a ∨ Descendant a q)

end Tree

/-! ### Collecting -/

variable {scope : CodePoints} {depth : Option ℤ}

/-- What the loop adds to the paths it starts with. -/
structure Collected (changes : List QueryChange) (scope : CodePoints) (depth : Option ℤ)
    (start result : List CodePoints × List CodePoints) : Prop where
  marked : ∀ p, p ∈ result.1 ↔ p ∈ start.1 ∨ ∃ x ∈ changes,
    FieldGroup.summary ∈ x.groups ∧ visiblePath x.path scope depth ∧ x.path = p
  invalidated : ∀ p, p ∈ result.2 ↔ p ∈ start.2 ∨ ∃ x ∈ changes,
    x.invalidates ∧ visiblePath x.path scope depth ∧ x.path = p
  nodup : start.2.Nodup → result.2.Nodup
  kept : ∀ x ∈ changes, x.invalidates → ¬ x.resets scope

private theorem mem_insert_if {b : Bool} {l : List CodePoints} {p q : CodePoints} :
    q ∈ (if b then l.insert p else l) ↔ q ∈ l ∨ b ∧ p = q := by
  cases b
  · simp
  · simp [or_comm, eq_comm]

theorem collected_of_collectPaths {changes : List QueryChange}
    {start result : List CodePoints × List CodePoints}
    (h : collectPaths scope depth changes start = some result) :
    Collected changes scope depth start result := by
  induction changes generalizing start with
  | nil =>
    obtain rfl := Option.some.inj h
    exact ⟨by simp, by simp, id, by simp⟩
  | cons x rest ih =>
    rw [collectPaths] at h
    by_cases hreset : x.invalidates && x.resets scope
    · rw [if_pos hreset] at h
      cases h
    rw [if_neg hreset] at h
    have hc := ih h
    refine ⟨fun p => ?_, fun p => ?_, fun hn => hc.nodup ?_, ?_⟩
    · rw [hc.marked p, mem_insert_if, List.exists_mem_cons_iff, or_assoc, Bool.and_eq_true,
        decide_eq_true_eq, and_assoc]
    · rw [hc.invalidated p, mem_insert_if, List.exists_mem_cons_iff, or_assoc, Bool.and_eq_true,
        and_assoc]
    · dsimp only
      split_ifs
      · exact hn.insert
      · exact hn
    · rintro y hy hinv hres
      rcases List.mem_cons.mp hy with rfl | hy
      · exact hreset (by rw [hinv, hres]; rfl)
      · exact hc.kept y hy hinv hres

/-- The root is never invalidated by itself: it takes every scope with it. -/
theorem resets_of_path_eq_root {x : QueryChange} (hx : x.path = rootPath)
    (hscope : scope.head? = some slash) : x.resets scope := by
  obtain ⟨t, rfl⟩ : ∃ t, scope = slash :: t := by
    cases scope with
    | nil => cases hscope
    | cons c t => exact ⟨t, by rw [Option.some.inj hscope]⟩
  unfold QueryChange.resets
  refine decide_eq_true (.inr ?_)
  rw [hx]
  exact List.prefix_append [slash] t

theorem head?_of_validPath {path : CodePoints} (h : validPath path) : path.head? = some slash := by
  rcases of_decide_eq_true h with rfl | h
  · rfl
  · exact h.1

theorem descendant_iff_below {p q : CodePoints} (hp : p ≠ rootPath) :
    Descendant p q ↔ Below slash p q :=
  or_iff_right fun h => hp h.1

/-! ### When the answer is right -/

/-- The answer is right exactly if no visible invalidated path stands, in the order of strings,
between a topmost visible invalidated path and one of its invalidated or marked descendants. -/
theorem deltaPaths_correct_iff {batches : List ChangeBatch} {scope : CodePoints} {depth : Option ℤ}
    {upserts invalidations : List CodePoints} (hscope : validPath scope)
    (h : deltaPaths batches scope depth = some (upserts, invalidations)) :
    DeltaCorrect batches scope depth upserts invalidations ↔
      Separated slash {p | Invalidated batches scope depth p}
        {p | Marked batches scope depth p} := by
  unfold deltaPaths at h
  obtain ⟨⟨paths, invs⟩, hcollect, hrest⟩ := Option.bind_eq_some_iff.mp h
  obtain ⟨rfl, rfl⟩ := Prod.mk.inj (Option.some.inj hrest)
  have hc := collected_of_collectPaths hcollect
  have hs : (invs.insertionSort (· ≤ ·)).SortedLT :=
    sortedLT_insertionSort (hc.nodup List.nodup_nil)
  have hmemI : ∀ p, p ∈ invs.insertionSort (· ≤ ·) ↔ Invalidated batches scope depth p := by
    intro p
    rw [List.mem_insertionSort, hc.invalidated p]
    exact or_iff_right List.not_mem_nil
  have hI : {z | z ∈ invs.insertionSort (· ≤ ·)} = {p | Invalidated batches scope depth p} :=
    Set.ext hmemI
  have hroot : ∀ {a q}, a ∈ reduce slash (invs.insertionSort (· ≤ ·)) →
      (Descendant a q ↔ Below slash a q) := by
    intro a q ha
    obtain ⟨x, hx, hinv, -, rfl⟩ := (hmemI a).mp (mem_of_mem_reduce ha)
    refine descendant_iff_below fun hpath => hc.kept x hx hinv ?_
    exact resets_of_path_eq_root hpath (head?_of_validPath hscope)
  have hup : ∀ q, q ∈ paths.filter (fun path =>
      !coveredBy slash (reduce slash (invs.insertionSort (· ≤ ·))) path) ↔
      Marked batches scope depth q ∧
        ¬ coveredBy slash (reduce slash (invs.insertionSort (· ≤ ·))) q := by
    intro q
    rw [List.mem_filter, hc.marked q, or_iff_right List.not_mem_nil, Bool.not_eq_true',
      Bool.not_eq_true]
    rfl
  rw [← hI, ← reduce_correct_iff hs]
  constructor
  · intro hd
    refine ⟨fun a ha b hb hab => hd.antichain a ha b hb ((hroot ha).mpr hab), fun u hu => ?_⟩
    have hiff := (hup u).symm.trans (hd.exact u)
    rw [and_congr_right_iff] at hiff
    have hnot := not_congr (hiff hu)
    push Not at hnot
    refine hnot.trans (exists_congr fun a => and_congr_right fun ha => or_congr_right (hroot ha))
  · rintro ⟨hanti, hexact⟩
    refine ⟨fun a ha b hb hab => hanti a ha b hb ((hroot ha).mp hab), fun p hp => ?_, fun q => ?_⟩
    · obtain ⟨a, ha, hap⟩ := @exists_topmost _ slash p
        {z | z ∈ invs.insertionSort (· ≤ ·)} ((hmemI p).mpr hp)
      have hmem := mem_reduce_of_topmost hs ha
      exact ⟨a, hmem, hap.imp_right (hroot hmem).mpr⟩
    · refine (hup q).trans (and_congr_right fun hq => ?_)
      rw [hexact q hq]
      push Not
      exact forall₂_congr fun a ha => and_congr_right fun _ => not_congr (hroot ha).symm

/-- With one invalidated path nothing stands between, and the answer is right. -/
theorem deltaPaths_correct_one :
    ∃ upserts invalidations,
      deltaPaths [⟨2, [⟨"/f/a", {.definition}, false⟩, ⟨"/f/a/x", {.summary}, false⟩,
        ⟨"/f/b", {.summary}, false⟩], 0, 0⟩] (CodePoints.ofString "/f") none =
          some (upserts, invalidations) ∧
      DeltaCorrect [⟨2, [⟨"/f/a", {.definition}, false⟩, ⟨"/f/a/x", {.summary}, false⟩,
        ⟨"/f/b", {.summary}, false⟩], 0, 0⟩] (CodePoints.ofString "/f") none upserts
          invalidations := by
  refine ⟨["/f/b"], ["/f/a"], by decide +kernel,
    (deltaPaths_correct_iff (by decide +kernel) (by decide +kernel)).mpr ?_⟩
  have hone : ∀ p, Invalidated [⟨2, [⟨"/f/a", {.definition}, false⟩,
      ⟨"/f/a/x", {.summary}, false⟩, ⟨"/f/b", {.summary}, false⟩], 0, 0⟩]
      (CodePoints.ofString "/f") none p → p = CodePoints.ofString "/f/a" := by
    rintro p ⟨x, hx, hinv, -, rfl⟩
    simp only [List.flatMap_cons, List.flatMap_nil, List.append_nil, List.mem_cons,
      List.not_mem_nil, or_false] at hx
    rcases hx with rfl | rfl | rfl
    · rfl
    · exact absurd hinv (by decide)
    · exact absurd hinv (by decide)
  intro p hp q hq hpq r hr hlt
  rw [hone p hp.1, hone r hr] at hlt
  exact absurd hlt (lt_irrefl _)

/-- The name `a-b` stands between `a` and what is below it: the answer invalidates `/f/a` and
`/f/a/x` below it, and replaces the summary of `/f/a/y`. -/
theorem deltaPaths_hyphen :
    (∀ path ∈ (["/f", "/f/a", "/f/a-b", "/f/a/x", "/f/a/y"] : List String),
      validPath (CodePoints.ofString path)) ∧
    deltaPaths [⟨2, [⟨"/f/a", {.definition}, false⟩, ⟨"/f/a-b", {.definition}, false⟩,
        ⟨"/f/a/x", {.definition}, false⟩, ⟨"/f/a/y", {.summary}, false⟩], 0, 0⟩]
        (CodePoints.ofString "/f") none =
      some ([CodePoints.ofString "/f/a/y"],
        [CodePoints.ofString "/f/a", CodePoints.ofString "/f/a-b", CodePoints.ofString "/f/a/x"]) ∧
    ¬ DeltaCorrect [⟨2, [⟨"/f/a", {.definition}, false⟩, ⟨"/f/a-b", {.definition}, false⟩,
        ⟨"/f/a/x", {.definition}, false⟩, ⟨"/f/a/y", {.summary}, false⟩], 0, 0⟩]
        (CodePoints.ofString "/f") none ["/f/a/y"] ["/f/a", "/f/a-b", "/f/a/x"] := by
  refine ⟨by decide +kernel, by decide +kernel, fun h => ?_⟩
  refine h.antichain (CodePoints.ofString "/f/a") (by decide +kernel)
    (CodePoints.ofString "/f/a/x") (by decide +kernel) (.inr ?_)
  decide +kernel

end Takler.Query
