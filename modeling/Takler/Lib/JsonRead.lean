import Takler.Lib.Json

/-!
# Reading documents into data

Readers of parts of a document: objects with a fixed set of members, of which some may be left out,
lists, and values that may be null. A reader of nested objects is a recursion over the value that
has the results for the parts at hand.

## Main definitions

* `Json.members`, `Json.member`, `Json.orDefault`: strict objects.
* `Json.listOf`, `Json.optionOf`.
* `Json.para`: recursion over a value.

## Main results

* `Json.listOf_map`: reading what was written.
* `Json.paraItems_eq`, `Json.paraFields_eq`: the results for the parts.
-/

open CodePoints (ofString)

namespace Json

variable {F α β : Type}

/-! ### Values -/

def text? : Json F → Option CodePoints
  | str t => some t
  | _ => none

def int? : Json F → Option ℤ
  | int n => some n
  | _ => none

def bool? : Json F → Option Bool
  | bool b => some b
  | _ => none

/-- A text or null. -/
def optional (t : Option CodePoints) : Json F := t.elim null str

/-! ### Objects -/

/-- The members of an object that has no others than some. -/
def members (names : List String) : Json F → Option (List (CodePoints × Json F))
  | obj fs => if fs.all fun x => names.any fun name => ofString name = x.1 then some fs else none
  | _ => none

/-- A member by its name. -/
def member (fs : List (CodePoints × α)) (name : String) : Option α :=
  (fs.find? fun x => x.1 = ofString name).map Prod.snd

/-- A member that may be left out. -/
def orDefault (default : β) (read : α → Option β) : Option α → Option β
  | none => some default
  | some v => read v

@[simp] theorem member_nil (name : String) : member ([] : List (CodePoints × α)) name = none := rfl

@[simp] theorem member_cons (key name : String) (v : α) (fs : List (CodePoints × α)) :
    member ((ofString key, v) :: fs) name = if key = name then some v else member fs name := by
  rw [member, List.find?_cons]
  by_cases h : key = name
  · rw [if_pos h, h, decide_eq_true rfl]
    rfl
  · rw [if_neg h, decide_eq_false fun hkey => h (CodePoints.ofString_injective hkey)]
    rfl

@[simp] theorem orDefault_some (default : β) (read : α → Option β) (v : α) :
    orDefault default read (some v) = read v := rfl

@[simp] theorem orDefault_none (default : β) (read : α → Option β) :
    orDefault default read none = some default := rfl

theorem member_append (fs gs : List (CodePoints × α)) (name : String) :
    member (fs ++ gs) name = (member fs name).or (member gs name) := by
  rw [member, member, member, List.find?_append, Option.map_or]

theorem exists_of_member {fs : List (CodePoints × α)} {name : String} {v : α}
    (h : member fs name = some v) : ∃ x ∈ fs, x.2 = v := by
  obtain ⟨x, hx, rfl⟩ := Option.map_eq_some_iff.mp h
  exact ⟨x, List.mem_of_find?_eq_some hx, rfl⟩

theorem member_map (f : α → β) (fs : List (CodePoints × α)) (name : String) :
    member (fs.map fun x => (x.1, f x.2)) name = (member fs name).map f := by
  rw [member, member, List.find?_map, Option.map_map, Option.map_map]
  rfl

theorem members_obj {names : List String} (keys : List String) {fs : List (CodePoints × Json F)}
    (hkeys : fs.map Prod.fst = keys.map ofString) (h : ∀ key ∈ keys, key ∈ names) :
    members names (obj fs) = some fs := by
  refine if_pos (List.all_eq_true.mpr fun x hx => ?_)
  obtain ⟨key, hkey, heq⟩ := List.mem_map.mp (hkeys ▸ List.mem_map_of_mem hx)
  exact List.any_eq_true.mpr ⟨key, h key hkey, decide_eq_true heq⟩

/-! ### Lists and null -/

def listOf (read : Json F → Option β) : Json F → Option (List β)
  | arr vs => vs.mapM read
  | _ => none

def optionOf (read : Json F → Option β) : Json F → Option (Option β)
  | null => some none
  | v => (read v).map some

theorem mapM_map {read : Json F → Option β} {write : β → Json F} {l : List β}
    (h : ∀ x ∈ l, read (write x) = some x) : (l.map write).mapM read = some l := by
  induction l with
  | nil => rfl
  | cons x l ih =>
    obtain ⟨hx, hl⟩ := List.forall_mem_cons.mp h
    rw [List.map_cons, List.mapM_cons, hx, ih hl]
    rfl

theorem length_of_mapM {read : α → Option β} : ∀ {l : List α} {bs : List β},
    l.mapM read = some bs → bs.length = l.length
  | [], _, h => by
    rw [List.mapM_nil] at h
    rw [← Option.some.inj h]
    rfl
  | a :: l, _, h => by
    rw [List.mapM_cons] at h
    obtain ⟨c, -, h⟩ := Option.bind_eq_some_iff.mp h
    obtain ⟨cs, hcs, h⟩ := Option.bind_eq_some_iff.mp h
    rw [← Option.some.inj h, List.length_cons, List.length_cons, length_of_mapM hcs]

theorem exists_of_mem_mapM {read : α → Option β} : ∀ {l : List α} {bs : List β},
    l.mapM read = some bs → ∀ b ∈ bs, ∃ a ∈ l, read a = some b
  | [], _, h, b, hb => by
    obtain rfl := Option.some.inj h
    exact absurd hb List.not_mem_nil
  | a :: l, _, h, b, hb => by
    rw [List.mapM_cons] at h
    obtain ⟨c, hc, h⟩ := Option.bind_eq_some_iff.mp h
    obtain ⟨cs, hcs, h⟩ := Option.bind_eq_some_iff.mp h
    obtain rfl := Option.some.inj h
    rcases List.mem_cons.mp hb with rfl | hb
    · exact ⟨a, List.mem_cons_self, hc⟩
    · obtain ⟨x, hx, hread⟩ := exists_of_mem_mapM hcs b hb
      exact ⟨x, List.mem_cons_of_mem a hx, hread⟩

theorem listOf_map {read : Json F → Option β} {write : β → Json F} {l : List β}
    (h : ∀ x ∈ l, read (write x) = some x) : listOf read (arr (l.map write)) = some l :=
  mapM_map h

/-! ### Recursion -/

section Para

variable (onLeaf : Json F → β) (onArr : List (Json F × β) → β)
  (onObj : List (CodePoints × Json F × β) → β)

mutual
/-- A recursion that sees the parts of a value with their results. -/
def para : Json F → β
  | arr vs => onArr (paraItems vs)
  | obj fs => onObj (paraFields fs)
  | v => onLeaf v

/-- The elements of an array with their results. -/
def paraItems : List (Json F) → List (Json F × β)
  | [] => []
  | v :: vs => (v, para v) :: paraItems vs

/-- The members of an object with their results. -/
def paraFields : List (CodePoints × Json F) → List (CodePoints × Json F × β)
  | [] => []
  | (k, v) :: fs => (k, v, para v) :: paraFields fs
end

theorem paraItems_eq (vs : List (Json F)) :
    paraItems onLeaf onArr onObj vs = vs.map fun v => (v, para onLeaf onArr onObj v) := by
  induction vs with
  | nil => rfl
  | cons v vs ih => rw [paraItems, ih, List.map_cons]

theorem paraFields_eq (fs : List (CodePoints × Json F)) :
    paraFields onLeaf onArr onObj fs =
      fs.map fun x => (x.1, x.2, para onLeaf onArr onObj x.2) := by
  induction fs with
  | nil => rfl
  | cons x fs ih => rw [paraFields, ih, List.map_cons]

end Para

end Json
