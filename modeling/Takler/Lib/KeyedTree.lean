import Mathlib
import Takler.Lib.Fallible

/-!
# Trees whose siblings have keys

A node carries a key, a value and a list of children. A node is addressed by the keys from it up
to a child of the root, so that the address of the parent is the tail and the address of the root
is empty. When siblings have distinct keys (`Distinct`) the addresses found by `find?` are exactly
those of the preorder `walk`, each of them once.

## Main definitions

* `KeyedTree`, `KeyedTree.walk`, `KeyedTree.find?`, `KeyedTree.Distinct`.
* `KeyedTree.mapWith`, `KeyedTree.traverse`: new values for all nodes, without and with failures.

## Main results

* `KeyedTree.mem_walk_iff`, `KeyedTree.nodup_walk`: the walk visits what is found, once.
* `KeyedTree.walk_mapWith`, `KeyedTree.walk_traverse`: the nodes afterwards.
-/

/-- A node with a key and a value, and its children. -/
inductive KeyedTree (κ α : Type*)
  | node (key : κ) (value : α) (children : List (KeyedTree κ α))

namespace KeyedTree

variable {κ α : Type*}

/-- The key of the root. -/
def key : KeyedTree κ α → κ
  | node k _ _ => k

/-- The value of the root. -/
def value : KeyedTree κ α → α
  | node _ v _ => v

/-- The children of the root. -/
def children : KeyedTree κ α → List (KeyedTree κ α)
  | node _ _ cs => cs

/-- The keys of the children of the root. -/
def childKeys (t : KeyedTree κ α) : List κ := t.children.map key

@[simp] theorem key_node (k : κ) (v : α) (cs : List (KeyedTree κ α)) : (node k v cs).key = k := rfl

@[simp] theorem value_node (k : κ) (v : α) (cs : List (KeyedTree κ α)) :
    (node k v cs).value = v := rfl

@[simp] theorem children_node (k : κ) (v : α) (cs : List (KeyedTree κ α)) :
    (node k v cs).children = cs := rfl

/-- Induction over a tree: the children come with their hypotheses. -/
@[elab_as_elim]
theorem induction {P : KeyedTree κ α → Prop}
    (h : ∀ k v cs, (∀ c ∈ cs, P c) → P (node k v cs)) (t : KeyedTree κ α) : P t :=
  @KeyedTree.rec κ α P (fun cs => ∀ c ∈ cs, P c) h (by simp)
    (fun c cs hc hcs => by simpa using ⟨hc, hcs⟩) t

mutual
/-- The nodes of the tree at an address in preorder. -/
def walk (p : List κ) : KeyedTree κ α → List (List κ × KeyedTree κ α)
  | node k v cs => (p, node k v cs) :: walkList p cs

/-- The nodes of the trees below an address, one tree after the other. -/
def walkList (p : List κ) : List (KeyedTree κ α) → List (List κ × KeyedTree κ α)
  | [] => []
  | c :: cs => walk (c.key :: p) c ++ walkList p cs
end

theorem walkList_eq_flatMap (p : List κ) (cs : List (KeyedTree κ α)) :
    walkList p cs = cs.flatMap fun c => walk (c.key :: p) c := by
  induction cs with
  | nil => rfl
  | cons c cs ih => rw [walkList, ih, List.flatMap_cons]

theorem walk_eq_cons (p : List κ) (t : KeyedTree κ α) :
    walk p t = (p, t) :: t.children.flatMap fun c => walk (c.key :: p) c := by
  cases t with
  | node k v cs => rw [walk, walkList_eq_flatMap, children_node]

theorem mem_walk {p : List κ} {t : KeyedTree κ α} {x : List κ × KeyedTree κ α} :
    x ∈ walk p t ↔ x = (p, t) ∨ ∃ c ∈ t.children, x ∈ walk (c.key :: p) c := by
  rw [walk_eq_cons, List.mem_cons, List.mem_flatMap]

theorem suffix_of_mem_walk {t : KeyedTree κ α} : ∀ {p : List κ} {x : List κ × KeyedTree κ α},
    x ∈ walk p t → p <:+ x.1 := by
  induction t using KeyedTree.induction with
  | h k v cs ih =>
    intro p x hx
    rcases mem_walk.mp hx with rfl | ⟨c, hc, hx⟩
    · exact List.suffix_rfl
    · exact (List.suffix_cons c.key p).trans (ih c hc hx)

/-- An address is made of the keys of nodes. -/
theorem exists_key_of_mem_walk {t : KeyedTree κ α} : ∀ {p : List κ} {x : List κ × KeyedTree κ α},
    x ∈ walk p t → ∀ k ∈ x.1, k ∈ p ∨ ∃ y ∈ walk p t, y.2.key = k := by
  induction t using KeyedTree.induction with
  | h k v cs ih =>
    intro p x hx j hj
    rcases mem_walk.mp hx with rfl | ⟨c, hc, hx⟩
    · exact .inl hj
    · rcases ih c hc hx j hj with hj | ⟨y, hy, hk⟩
      · rcases List.mem_cons.mp hj with rfl | hj
        · exact .inr ⟨(c.key :: p, c), mem_walk.mpr (.inr ⟨c, hc, mem_walk.mpr (.inl rfl)⟩), rfl⟩
        · exact .inl hj
      · exact .inr ⟨y, mem_walk.mpr (.inr ⟨c, hc, hy⟩), hk⟩

/-- Siblings have distinct keys, everywhere in the tree. -/
inductive Distinct : KeyedTree κ α → Prop
  | node {k : κ} {v : α} {cs : List (KeyedTree κ α)} (nodup : (cs.map key).Nodup)
      (children : ∀ c ∈ cs, c.Distinct) : Distinct (node k v cs)

theorem Distinct.nodup {t : KeyedTree κ α} (h : t.Distinct) : t.childKeys.Nodup := by
  cases h with
  | node hn _ => exact hn

theorem Distinct.child {t c : KeyedTree κ α} (h : t.Distinct) (hc : c ∈ t.children) :
    c.Distinct := by
  cases h with
  | node _ hs => exact hs c hc

theorem Distinct.of_children {t : KeyedTree κ α} (hn : t.childKeys.Nodup)
    (hs : ∀ c ∈ t.children, c.Distinct) : t.Distinct := by
  cases t with
  | node k v cs => exact .node hn hs

/-! ### Addresses -/

section Find

variable [DecidableEq κ]

/-- The first child with a key. -/
def child? (t : KeyedTree κ α) (k : κ) : Option (KeyedTree κ α) :=
  t.children.find? fun c => c.key = k

/-- The node at an address. -/
def find? (t : KeyedTree κ α) : List κ → Option (KeyedTree κ α)
  | [] => some t
  | k :: up => (t.find? up).bind fun n => n.child? k

@[simp] theorem find?_nil (t : KeyedTree κ α) : t.find? [] = some t := rfl

theorem find?_cons (t : KeyedTree κ α) (k : κ) (up : List κ) :
    t.find? (k :: up) = (t.find? up).bind fun n => n.child? k := rfl

theorem key_of_child? {t c : KeyedTree κ α} {k : κ} (h : t.child? k = some c) : c.key = k := by
  simpa using List.find?_some h

theorem mem_of_child? {t c : KeyedTree κ α} {k : κ} (h : t.child? k = some c) : c ∈ t.children :=
  List.mem_of_find?_eq_some h

theorem child?_eq_none {t : KeyedTree κ α} {k : κ} : t.child? k = none ↔ k ∉ t.childKeys := by
  simp [child?, childKeys]

theorem Distinct.child?_key {t c : KeyedTree κ α} (h : t.Distinct) (hc : c ∈ t.children) :
    t.child? c.key = some c := by
  cases hf : t.child? c.key with
  | none => exact absurd (List.mem_map_of_mem hc) (child?_eq_none.mp hf)
  | some d =>
    rw [List.inj_on_of_nodup_map h.nodup (mem_of_child? hf) hc (key_of_child? hf)]

theorem find?_append (t : KeyedTree κ α) (r p : List κ) :
    t.find? (r ++ p) = (t.find? p).bind fun n => n.find? r := by
  induction r with
  | nil => cases h : t.find? p <;> simp [h]
  | cons k r ih =>
    rw [List.cons_append, find?_cons, ih]
    cases t.find? p with
    | none => rfl
    | some n => rfl

/-- What is found below a child is found in the child. -/
theorem find?_append_singleton (t : KeyedTree κ α) (r : List κ) (k : κ) :
    t.find? (r ++ [k]) = (t.child? k).bind fun c => c.find? r := find?_append t r [k]

/-- What is found is visited. -/
theorem mem_walk_of_find? {t : KeyedTree κ α} : ∀ {p r : List κ} {n : KeyedTree κ α},
    t.find? r = some n → (r ++ p, n) ∈ walk p t := by
  induction t using KeyedTree.induction with
  | h k v cs ih =>
    intro p r n hr
    rw [mem_walk]
    induction r using List.reverseRecOn with
    | nil => exact .inl (by rw [← Option.some.inj hr]; rfl)
    | append_singleton r k _ =>
      rw [find?_append_singleton] at hr
      obtain ⟨c, hc, hr⟩ := Option.bind_eq_some_iff.mp hr
      refine .inr ⟨c, mem_of_child? hc, ?_⟩
      rw [key_of_child? hc, List.append_assoc, List.singleton_append]
      exact ih c (mem_of_child? hc) hr

/-- **The walk visits what is found.** -/
theorem mem_walk_iff {t : KeyedTree κ α} : t.Distinct → ∀ {p q : List κ} {n : KeyedTree κ α},
    (q, n) ∈ walk p t ↔ ∃ r, q = r ++ p ∧ t.find? r = some n := by
  induction t using KeyedTree.induction with
  | h k v cs ih =>
    intro h p q n
    rw [mem_walk]
    constructor
    · rintro (hx | ⟨c, hc, hx⟩)
      · cases hx
        exact ⟨[], rfl, rfl⟩
      · obtain ⟨r, rfl, hr⟩ := (ih c hc (h.child hc)).mp hx
        exact ⟨r ++ [c.key], by simp, by rw [find?_append_singleton, h.child?_key hc]; exact hr⟩
    · rintro ⟨r, rfl, hr⟩
      exact mem_walk.mp (mem_walk_of_find? hr)

theorem mem_walk_nil_iff {t : KeyedTree κ α} (h : t.Distinct) {q : List κ} {n : KeyedTree κ α} :
    (q, n) ∈ walk [] t ↔ t.find? q = some n := by
  simp [mem_walk_iff h]

omit [DecidableEq κ] in
/-- Each address is visited once. -/
theorem nodup_walk {t : KeyedTree κ α} : t.Distinct → ∀ p : List κ,
    ((walk p t).map Prod.fst).Nodup := by
  induction t using KeyedTree.induction with
  | h k v cs ih =>
    intro h p
    rw [walk_eq_cons, List.map_cons, List.map_flatMap, List.nodup_cons]
    constructor
    · intro hp
      obtain ⟨c, -, hp⟩ := List.mem_flatMap.mp hp
      obtain ⟨x, hx, hxp⟩ := List.mem_map.mp hp
      have hlen := (suffix_of_mem_walk hx).length_le
      rw [hxp, List.length_cons] at hlen
      exact absurd hlen (Nat.not_succ_le_self _)
    · refine List.nodup_flatMap.mpr ⟨fun c hc => ih c hc (h.child hc) _, ?_⟩
      refine (List.pairwise_map.mp h.nodup).imp fun {c d} hne => ?_
      rintro q hq hq'
      obtain ⟨x, hx, rfl⟩ := List.mem_map.mp hq
      obtain ⟨y, hy, hxy⟩ := List.mem_map.mp hq'
      have hd := suffix_of_mem_walk hy
      rw [hxy] at hd
      have hcd := List.suffix_of_suffix_length_le (suffix_of_mem_walk hx) hd (by simp)
      exact hne (List.cons.inj (hcd.eq_of_length (by simp))).1

end Find

/-! ### Values computed anew -/

section Traverse

variable {κ α β ε : Type}

mutual
/-- Compute the value of every node from its address and its value. -/
def mapWith (f : List κ → α → β) (p : List κ) : KeyedTree κ α → KeyedTree κ β
  | node k v cs => node k (f p v) (mapWithList f p cs)

/-- The same for the trees below an address. -/
def mapWithList (f : List κ → α → β) (p : List κ) : List (KeyedTree κ α) → List (KeyedTree κ β)
  | [] => []
  | c :: cs => mapWith f (c.key :: p) c :: mapWithList f p cs
end

mutual
/-- Compute the value of every node, in preorder; the first failure is the result. -/
def traverse (f : List κ → α → Except ε β) (p : List κ) :
    KeyedTree κ α → Except ε (KeyedTree κ β)
  | node k v cs => do
    let v' ← f p v
    let cs' ← traverseList f p cs
    return node k v' cs'

/-- The same for the trees below an address. -/
def traverseList (f : List κ → α → Except ε β) (p : List κ) :
    List (KeyedTree κ α) → Except ε (List (KeyedTree κ β))
  | [] => return []
  | c :: cs => do
    let c' ← traverse f (c.key :: p) c
    let cs' ← traverseList f p cs
    return c' :: cs'
end

theorem mapWithList_eq_map (f : List κ → α → β) (p : List κ) (cs : List (KeyedTree κ α)) :
    mapWithList f p cs = cs.map fun c => mapWith f (c.key :: p) c := by
  induction cs with
  | nil => rfl
  | cons c cs ih => rw [mapWithList, ih, List.map_cons]

@[simp] theorem key_mapWith (f : List κ → α → β) (p : List κ) (t : KeyedTree κ α) :
    (mapWith f p t).key = t.key := by
  cases t with
  | node => rw [mapWith, key_node, key_node]

@[simp] theorem value_mapWith (f : List κ → α → β) (p : List κ) (t : KeyedTree κ α) :
    (mapWith f p t).value = f p t.value := by
  cases t with
  | node => rw [mapWith, value_node, value_node]

/-- The nodes are computed from the nodes that were there. -/
theorem walk_mapWith (f : List κ → α → β) (t : KeyedTree κ α) : ∀ p : List κ,
    walk p (mapWith f p t) = (walk p t).map fun x => (x.1, mapWith f x.1 x.2) := by
  induction t using KeyedTree.induction with
  | h k v cs ih =>
    intro p
    rw [walk_eq_cons, walk_eq_cons, mapWith, children_node, children_node, mapWithList_eq_map,
      List.map_cons, List.map_flatMap, List.flatMap_map, mapWith, mapWithList_eq_map]
    refine congrArg _ (List.flatMap_congr fun c hc => ?_)
    rw [key_mapWith, ih c hc]

theorem child?_mapWith [DecidableEq κ] (f : List κ → α → β) (p : List κ) (t : KeyedTree κ α)
    (k : κ) : (mapWith f p t).child? k = (t.child? k).map (mapWith f (k :: p)) := by
  obtain ⟨j, v, cs⟩ := t
  rw [mapWith, child?, child?, children_node, children_node, mapWithList_eq_map]
  induction cs with
  | nil => rfl
  | cons c cs ih =>
    by_cases hc : c.key = k
    · simp [hc]
    · simpa [hc] using ih

/-- What is found is computed from what was found. -/
theorem find?_mapWith [DecidableEq κ] (f : List κ → α → β) (t : KeyedTree κ α) : ∀ q : List κ,
    (mapWith f [] t).find? q = (t.find? q).map (mapWith f q)
  | [] => rfl
  | k :: up => by
    rw [find?_cons, find?_cons, find?_mapWith f t up]
    cases t.find? up with
    | none => rfl
    | some n => exact child?_mapWith f up n k

variable {f : List κ → α → Except ε β} {p : List κ} {t : KeyedTree κ α} {t' : KeyedTree κ β}

theorem traverse_eq_ok (h : traverse f p t = .ok t') :
    t'.key = t.key ∧ f p t.value = .ok t'.value ∧ traverseList f p t.children = .ok t'.children := by
  obtain ⟨k, v, cs⟩ := t
  rw [traverse] at h
  obtain ⟨v', hv, h⟩ := Except.bind_eq_ok.mp h
  obtain ⟨cs', hcs, h⟩ := Except.bind_eq_ok.mp h
  cases h
  exact ⟨rfl, hv, hcs⟩

private theorem forall₂_traverseList : ∀ {cs : List (KeyedTree κ α)} {cs' : List (KeyedTree κ β)},
    traverseList f p cs = .ok cs' →
    List.Forall₂ (fun c c' => traverse f (c.key :: p) c = .ok c') cs cs'
  | [], _, h => by
    cases h
    exact .nil
  | c :: cs, _, h => by
    rw [traverseList] at h
    obtain ⟨c', hc, h⟩ := Except.bind_eq_ok.mp h
    obtain ⟨cs', hcs, h⟩ := Except.bind_eq_ok.mp h
    cases h
    exact .cons hc (forall₂_traverseList hcs)

/-- **The nodes of a traversal**: each is computed from the node at its address. -/
theorem walk_traverse : ∀ {t : KeyedTree κ α} {p : List κ} {t' : KeyedTree κ β},
    traverse f p t = .ok t' →
    List.Forall₂ (fun x x' => x'.1 = x.1 ∧ x'.2.key = x.2.key ∧ f x.1 x.2.value = .ok x'.2.value)
      (walk p t) (walk p t') := by
  intro t
  induction t using KeyedTree.induction with
  | h k v cs ih =>
    intro p t' h
    obtain ⟨hkey, hvalue, hcs⟩ := traverse_eq_ok h
    rw [walk_eq_cons, walk_eq_cons]
    refine .cons ⟨rfl, hkey, hvalue⟩ ?_
    have hrel := forall₂_traverseList hcs
    rw [children_node] at hrel ⊢
    -- the walks of the children, one after the other
    clear h hcs hkey hvalue
    generalize t'.children = cs' at hrel
    induction hrel with
    | nil => exact .nil
    | @cons c c' cs cs' hc _ ihcs =>
      rw [List.flatMap_cons, List.flatMap_cons, (traverse_eq_ok hc).1]
      exact List.rel_append (ih c List.mem_cons_self hc)
        (ihcs fun d hd => ih d (List.mem_cons_of_mem c hd))

end Traverse

end KeyedTree
