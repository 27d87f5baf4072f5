import Takler.Lib.Json

/-!
# Pure paths

Paths as texts with slashes, as `pathlib.PurePosixPath` has them: a path is its root and the parts
after it, where empty parts and dots are dropped. A path with two slashes at the beginning has a
root of its own.

## Main definitions

* `PosixPath.join`: `posixpath.join` of two texts.
* `PosixPath`, `PosixPath.parse`, `PosixPath.ofSegments`, `PosixPath.str`.
* `PosixPath.parent`, `PosixPath.joinpath`, `PosixPath.parts`.
* `PosixPath.IsPart`, `PosixPath.textOf`: texts that are one part of a path, and their text below
  the root.

## Main results

* `PosixPath.ofSegments_parts`, `PosixPath.parse_textOf`: parts are read from their text.
* `PosixPath.joinpath_absolute`: an absolute text replaces the path it is joined to.
-/

open CodePoints (char)

/-- A path. -/
structure PosixPath where
  root : CodePoints
  tail : List CodePoints
deriving DecidableEq

namespace PosixPath

/-- The separator of paths. -/
def slash : Fin 0x110000 := char '/'

/-- `posixpath.join(path, segment)`. -/
def join (path segment : CodePoints) : CodePoints :=
  if segment.head? = some slash then segment
  else if path = [] ∨ path.getLast? = some slash then path ++ segment
  else path ++ slash :: segment

/-- `posixpath.splitroot`, without the drive. -/
def splitroot (t : CodePoints) : CodePoints × CodePoints :=
  if t.head? ≠ some slash then ([], t)
  else if t[1]? ≠ some slash ∨ t[2]? = some slash then (t.take 1, t.drop 1)
  else (t.take 2, t.drop 2)

/-- The path of a text. -/
def parse (t : CodePoints) : PosixPath where
  root := (splitroot t).1
  tail := ((splitroot t).2.splitOn slash).filter fun part => part ≠ [] ∧ part ≠ [char '.']

/-- `PurePosixPath(first, *rest)`. -/
def ofSegments (first : CodePoints) (rest : List CodePoints) : PosixPath :=
  parse (rest.foldl join first)

/-- `str(path)`. -/
def str (p : PosixPath) : CodePoints :=
  match p.root ++ [slash].intercalate p.tail with
  | [] => [char '.']
  | t => t

/-- `path.parent`. -/
def parent (p : PosixPath) : PosixPath := { p with tail := p.tail.dropLast }

/-- `path.joinpath(segment)`. -/
def joinpath (p : PosixPath) (segment : CodePoints) : PosixPath := ofSegments p.str [segment]

/-- `path.parts`. -/
def parts (p : PosixPath) : List CodePoints := if p.root = [] then p.tail else p.root :: p.tail

/-! ### Paths of parts -/

/-- A text that is one part of a path. -/
structure IsPart (t : CodePoints) : Prop where
  ne_nil : t ≠ []
  ne_dot : t ≠ [char '.']
  slash_notMem : slash ∉ t

/-- The text of parts below the root. -/
def textOf (parts : List CodePoints) : CodePoints := parts.flatMap (slash :: ·)

theorem IsPart.head?_ne {t : CodePoints} (h : IsPart t) : t.head? ≠ some slash := fun hhead =>
  h.slash_notMem (List.mem_of_head? hhead)

theorem IsPart.getLast?_ne {t : CodePoints} (h : IsPart t) : t.getLast? ≠ some slash := fun hlast =>
  h.slash_notMem (List.mem_of_getLast? hlast)

theorem join_part {path part : CodePoints} (hpart : IsPart part) (hne : path ≠ [])
    (hpath : path.getLast? ≠ some slash) : join path part = path ++ slash :: part := by
  rw [join, if_neg hpart.head?_ne, if_neg (not_or.mpr ⟨hne, hpath⟩)]

theorem foldl_join_parts {parts : List CodePoints} (hparts : ∀ part ∈ parts, IsPart part)
    {path : CodePoints} (hne : path ≠ []) (hpath : path.getLast? ≠ some slash) :
    parts.foldl join path = path ++ textOf parts := by
  induction parts generalizing path with
  | nil => rw [List.foldl_nil, textOf, List.flatMap_nil, List.append_nil]
  | cons part parts ih =>
    obtain ⟨hpart, hparts⟩ := List.forall_mem_cons.mp hparts
    have hlast : (path ++ slash :: part).getLast? ≠ some slash := by
      rw [List.append_cons, List.getLast?_append,
        List.getLast?_eq_some_getLast hpart.ne_nil, Option.some_or]
      rw [← List.getLast?_eq_some_getLast hpart.ne_nil]
      exact hpart.getLast?_ne
    rw [List.foldl_cons, join_part hpart hne hpath, ih hparts (by simp) hlast, textOf, textOf,
      List.flatMap_cons, List.append_assoc]

theorem textOf_cons (part : CodePoints) (parts : List CodePoints) :
    textOf (part :: parts) = slash :: [slash].intercalate (part :: parts) := by
  induction parts generalizing part with
  | nil => simp [textOf]
  | cons next parts ih =>
    rw [textOf, List.flatMap_cons, ← textOf, ih next, List.intercalate_cons_cons]
    simp

theorem foldl_join_root {part : CodePoints} {parts : List CodePoints}
    (hparts : ∀ p ∈ part :: parts, IsPart p) :
    (part :: parts).foldl join [slash] = textOf (part :: parts) := by
  obtain ⟨hpart, hparts⟩ := List.forall_mem_cons.mp hparts
  have hfirst : join [slash] part = slash :: part := by
    rw [join, if_neg hpart.head?_ne, if_pos (.inr rfl), List.singleton_append]
  have hlast : (slash :: part).getLast? ≠ some slash := by
    rw [List.getLast?_cons_of_ne_nil hpart.ne_nil]
    exact hpart.getLast?_ne
  rw [List.foldl_cons, hfirst, foldl_join_parts hparts (List.cons_ne_nil _ _) hlast]
  rfl

/-- The text of parts is read as their path. -/
theorem parse_textOf {part : CodePoints} {parts : List CodePoints}
    (hparts : ∀ p ∈ part :: parts, IsPart p) :
    parse (textOf (part :: parts)) = ⟨[slash], part :: parts⟩ := by
  have hroot : splitroot (textOf (part :: parts)) =
      ([slash], [slash].intercalate (part :: parts)) := by
    obtain ⟨c, t, rfl⟩ := List.exists_cons_of_ne_nil (hparts part List.mem_cons_self).ne_nil
    have hc : c ≠ slash := fun hc =>
      (hparts _ List.mem_cons_self).slash_notMem (hc ▸ List.mem_cons_self)
    have hhead : (textOf ((c :: t) :: parts))[1]? ≠ some slash := by
      rw [textOf, List.flatMap_cons]
      simpa using hc
    have hslash : (textOf ((c :: t) :: parts)).head? = some slash := rfl
    rw [splitroot, if_neg (not_not.mpr hslash), if_pos (.inl hhead), textOf_cons]
    rfl
  have hsplit : ([slash].intercalate (part :: parts)).splitOn slash = part :: parts :=
    List.splitOn_intercalate _ (fun p hp => (hparts p hp).slash_notMem) (List.cons_ne_nil _ _)
  have hkeep : (part :: parts).filter (fun p => p ≠ [] ∧ p ≠ [char '.']) = part :: parts :=
    List.filter_eq_self.mpr fun p hp => by
      simpa using ⟨(hparts p hp).ne_nil, (hparts p hp).ne_dot⟩
  rw [parse, hroot]
  dsimp only
  rw [hsplit, hkeep]

theorem str_root_parts (part : CodePoints) (parts : List CodePoints) :
    str ⟨[slash], part :: parts⟩ = textOf (part :: parts) := by
  rw [textOf_cons]
  rfl

theorem ofSegments_parts {part : CodePoints} {parts : List CodePoints}
    (hparts : ∀ p ∈ part :: parts, IsPart p) :
    ofSegments [slash] (part :: parts) = ⟨[slash], part :: parts⟩ := by
  rw [ofSegments, foldl_join_root hparts, parse_textOf hparts]

/-- An absolute text replaces the path that it is joined to. -/
theorem joinpath_absolute (p : PosixPath) {t : CodePoints} (h : t.head? = some slash) :
    p.joinpath t = parse t := by
  rw [joinpath, ofSegments, List.foldl_cons, List.foldl_nil, join, if_pos h]

theorem splitOn_textOf {part : CodePoints} {parts : List CodePoints}
    (hparts : ∀ p ∈ part :: parts, IsPart p) :
    (textOf (part :: parts)).splitOn slash = [] :: part :: parts := by
  have hjoin : textOf (part :: parts) = [slash].intercalate ([] :: part :: parts) := by
    rw [textOf_cons, List.intercalate_cons_cons]
    rfl
  rw [hjoin]
  refine List.splitOn_intercalate _ (fun p hp => ?_) (List.cons_ne_nil _ _)
  rcases List.mem_cons.mp hp with rfl | hp
  · exact List.not_mem_nil
  · exact (hparts p hp).slash_notMem

end PosixPath
