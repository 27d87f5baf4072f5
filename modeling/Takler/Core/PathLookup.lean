import Takler.Lib.KeyedTree
import Takler.Lib.PosixPath

/-!
# Paths of nodes

The path of a node is built upwards, from the names on the way to the root (`Node.node_path`). It is
resolved downwards, by `Bunch.find_node`, which splits the text at its slashes, and by
`Node.find_node`, which joins it to the path of a node and goes through the parts. Here texts are
sequences of code points, and both resolvers normalise them as the source does.

A node object is given by the name of its flow and its address below it, from the node upwards.

## Main definitions

* `Place`: a node object.
* `Place.nodePath`, `Bunch.findNode`, `findFrom`: `node_path` and the two `find_node`.
* `ValidName`, `Bunch.Valid`: names as the schema has them, different for siblings.

## Main results

* `follow_reverse`: the loop of `find_node` goes down to a node that is there.
* `findNode_nodePath`: what is found under the path of a node is the node.
-/

open CodePoints (char)

namespace Takler.Paths

open PosixPath (slash textOf IsPart)

variable {α : Type}

/-- A node object. -/
@[ext]
structure Place where
  flow : CodePoints
  address : List CodePoints
deriving DecidableEq

/-- `Bunch`: the flows in the order of the dictionary. -/
structure Bunch (α : Type) where
  flows : List (KeyedTree CodePoints α)
  nodup : (flows.map KeyedTree.key).Nodup

/-- The exceptions of `find_node`, by their types. -/
inductive LookupError
  | invalidNodePath (message : CodePoints)
  | index (message : CodePoints)
deriving DecidableEq

/-- `Node.node_path`: the names from the root down to the node. -/
def Place.nodePath (n : Place) : CodePoints :=
  (PosixPath.ofSegments [slash] (n.flow :: n.address.reverse)).str

/-- The loop of `Node.find_node`, from the node at an address. -/
def follow (t : KeyedTree CodePoints α) : List CodePoints → List CodePoints →
    Option (List CodePoints)
  | p, [] => some p
  | p, token :: rest =>
    if token = [char '.'] then follow t p rest
    else if token = [char '.', char '.'] then
      match p with
      | [] => none
      | _ :: up => follow t up rest
    else if (t.find? (token :: p)).isSome then follow t (token :: p) rest
    else none

/-- `Node.find_node` of a node of a flow. -/
def findFrom (f : KeyedTree CodePoints α) (address : List CodePoints) (path : CodePoints) :
    Except LookupError (Option Place) :=
  let full := (PosixPath.parse (Place.nodePath ⟨f.key, address⟩)).parent.joinpath path
  match full.parts.tail with
  | [] => .error (.index "tuple index out of range")
  | first :: rest =>
    .ok (if first = f.key then (follow f [] rest).map fun q => ⟨f.key, q⟩ else none)

/-- `Bunch.find_flow`. -/
def Bunch.findFlow (b : Bunch α) (name : CodePoints) : Option (KeyedTree CodePoints α) :=
  b.flows.find? fun f => f.key = name

/-- `Node.check_absolute_node_path`. -/
def checkAbsoluteNodePath (path : CodePoints) : Bool :=
  path.head? = some slash && path ≠ [slash]

/-- `Bunch.find_node`. -/
def Bunch.findNode (b : Bunch α) (path : CodePoints) : Except LookupError (Option Place) :=
  if checkAbsoluteNodePath path = false then
    .error (.invalidNodePath ("absolute node path is illegal: " ++ path))
  else
    match (path.splitOn slash)[1]?.bind b.findFlow with
    | none => .ok none
    | some f => findFrom f [] path

/-! ### Names -/

/-- A node name that the schema takes. -/
def ValidName (name : CodePoints) : Prop :=
  name ≠ [] ∧ name ≠ [char '.'] ∧ name ≠ [char '.', char '.'] ∧ char '/' ∉ name ∧
    char ':' ∉ name ∧ 0 ∉ name

instance (name : CodePoints) : Decidable (ValidName name) := inferInstanceAs (Decidable (_ ∧ _))

/-- Every node has a name that the schema takes, and siblings have different names. -/
def Bunch.Valid (b : Bunch α) : Prop :=
  ∀ f ∈ b.flows, f.Distinct ∧ ∀ x ∈ f.walk [], ValidName x.2.key

/-- A node of the bunch. -/
def Bunch.Has (b : Bunch α) (n : Place) : Prop :=
  ∃ f ∈ b.flows, f.key = n.flow ∧ (f.find? n.address).isSome

theorem ValidName.isPart {name : CodePoints} (h : ValidName name) : IsPart name :=
  ⟨h.1, h.2.1, h.2.2.2.1⟩

/-- The names on the way to a node are names of nodes. -/
theorem exists_node_of_mem {f n : KeyedTree CodePoints α} : ∀ {address : List CodePoints},
    f.find? address = some n → ∀ name ∈ address, ∃ x ∈ f.walk [], x.2.key = name
  | k :: up, h, name, hname => by
    rw [KeyedTree.find?_cons] at h
    obtain ⟨u, hu, hk⟩ := Option.bind_eq_some_iff.mp h
    rcases List.mem_cons.mp hname with rfl | hname
    · exact ⟨_, KeyedTree.mem_walk_of_find? (p := []) (r := name :: up) (by
        rw [KeyedTree.find?_cons, hu]; exact hk), KeyedTree.key_of_child? hk⟩
    · exact exists_node_of_mem hu name hname

/-! ### Resolving -/

theorem follow_child {f : KeyedTree CodePoints α} {token : CodePoints} {p : List CodePoints}
    (hdot : token ≠ [char '.']) (hdots : token ≠ [char '.', char '.'])
    (h : (f.find? (token :: p)).isSome = true) (rest : List CodePoints) :
    follow f p (token :: rest) = follow f (token :: p) rest := by
  rw [follow.eq_def]
  exact (if_neg hdot).trans ((if_neg hdots).trans (if_pos h))

/-- The loop goes down to a node that is there. -/
theorem follow_reverse {f n : KeyedTree CodePoints α} {address : List CodePoints}
    (h : f.find? address = some n)
    (hnames : ∀ name ∈ address, name ≠ [char '.'] ∧ name ≠ [char '.', char '.']) :
    ∀ rest, follow f [] (address.reverse ++ rest) = follow f address rest := by
  induction address generalizing n with
  | nil => exact fun rest => rfl
  | cons k up ih =>
    intro rest
    obtain ⟨⟨hdot, hdots⟩, hup⟩ := List.forall_mem_cons.mp hnames
    have hfound := h
    rw [KeyedTree.find?_cons] at h
    obtain ⟨u, hu, -⟩ := Option.bind_eq_some_iff.mp h
    rw [List.reverse_cons, List.append_assoc, ih hu hup, List.singleton_append,
      follow_child hdot hdots (by rw [hfound]; rfl)]

theorem nodePath_eq {n : Place} (h : ∀ name ∈ n.flow :: n.address.reverse, IsPart name) :
    n.nodePath = textOf (n.flow :: n.address.reverse) := by
  rw [Place.nodePath, PosixPath.ofSegments_parts h, PosixPath.str_root_parts]

/-- Whatever node it starts from, `find_node` takes the parts of an absolute path. -/
theorem findFrom_textOf (f : KeyedTree CodePoints α) (address : List CodePoints)
    {rest : List CodePoints} (h : ∀ name ∈ f.key :: rest, IsPart name) :
    findFrom f address (textOf (f.key :: rest)) =
      .ok ((follow f [] rest).map fun q => ⟨f.key, q⟩) := by
  have hparts : ((PosixPath.parse (Place.nodePath ⟨f.key, address⟩)).parent.joinpath
      (textOf (f.key :: rest))).parts.tail = f.key :: rest := by
    rw [PosixPath.joinpath_absolute _ rfl, PosixPath.parse_textOf h]
    rfl
  rw [findFrom, hparts]
  dsimp only
  rw [if_pos rfl]

theorem Bunch.findFlow_key (b : Bunch α) {f : KeyedTree CodePoints α} (hf : f ∈ b.flows) :
    b.findFlow f.key = some f := by
  cases hfound : b.findFlow f.key with
  | none =>
    have hne := List.find?_eq_none.mp hfound f hf
    simp at hne
  | some g =>
    have hkey : g.key = f.key := by simpa using List.find?_some hfound
    rw [List.inj_on_of_nodup_map b.nodup (List.mem_of_find?_eq_some hfound) hf hkey]

theorem Bunch.findNode_textOf (b : Bunch α) {f : KeyedTree CodePoints α} (hf : f ∈ b.flows)
    {rest : List CodePoints} (h : ∀ name ∈ f.key :: rest, IsPart name) :
    b.findNode (textOf (f.key :: rest)) = .ok ((follow f [] rest).map fun q => ⟨f.key, q⟩) := by
  have habsolute : checkAbsoluteNodePath (textOf (f.key :: rest)) = true := by
    obtain ⟨c, t, hkey⟩ := List.exists_cons_of_ne_nil (h _ List.mem_cons_self).ne_nil
    simp [checkAbsoluteNodePath, textOf, hkey]
  rw [Bunch.findNode, if_neg (ne_false_of_eq_true habsolute), PosixPath.splitOn_textOf h]
  have hflow : ([] :: f.key :: rest)[1]?.bind b.findFlow = some f := b.findFlow_key hf
  rw [hflow]
  exact findFrom_textOf f [] h

theorem Bunch.Valid.isPart {b : Bunch α} (hb : b.Valid) {f : KeyedTree CodePoints α}
    (hf : f ∈ b.flows) {address : List CodePoints} (h : (f.find? address).isSome) :
    ∀ name ∈ f.key :: address.reverse, ValidName name := by
  obtain ⟨n, hn⟩ := Option.isSome_iff_exists.mp h
  obtain ⟨-, hnames⟩ := hb f hf
  intro name hname
  rcases List.mem_cons.mp hname with rfl | hname
  · exact hnames ([], f) (KeyedTree.mem_walk.mpr (.inl rfl))
  · obtain ⟨x, hx, rfl⟩ := exists_node_of_mem hn name (List.mem_reverse.mp hname)
    exact hnames x hx

/-- The path of a node is resolved to the node, by the bunch and by every node of its flow, and
different nodes have different paths. -/
theorem findNode_nodePath (b : Bunch α) (hb : b.Valid) :
    (∀ n, b.Has n → b.findNode n.nodePath = .ok (some n) ∧
      ∀ f ∈ b.flows, f.key = n.flow → ∀ m, (f.find? m).isSome →
        findFrom f m n.nodePath = .ok (some n)) ∧
      ∀ n n', b.Has n → b.Has n' → n.nodePath = n'.nodePath → n = n' := by
  have hnames : ∀ n, b.Has n → ∀ name ∈ n.flow :: n.address.reverse, ValidName name := by
    rintro n ⟨f, hf, hkey, hfound⟩
    rw [← hkey]
    exact hb.isPart hf hfound
  have hparts : ∀ n, b.Has n → ∀ name ∈ n.flow :: n.address.reverse, IsPart name :=
    fun n hn name hname => (hnames n hn name hname).isPart
  refine ⟨fun n hn => ?_, fun n n' hn hn' h => ?_⟩
  · obtain ⟨g, hg, hkey, hfound⟩ := hn
    have hvalid := hb.isPart hg hfound
    have hpart := fun name hname => (hvalid name hname).isPart
    obtain ⟨u, hu⟩ := Option.isSome_iff_exists.mp hfound
    have hfollow : follow g [] n.address.reverse = some n.address := by
      have hdown := follow_reverse hu (fun name hname =>
        have hname := hvalid name (List.mem_cons_of_mem _ (List.mem_reverse.mpr hname))
        ⟨hname.2.1, hname.2.2.1⟩) []
      rw [List.append_nil] at hdown
      exact hdown
    rw [nodePath_eq (hkey ▸ hpart), ← hkey]
    refine ⟨?_, fun f hf hfkey m _ => ?_⟩
    · rw [b.findNode_textOf hg hpart, hfollow, Option.map_some, hkey]
    · obtain rfl := List.inj_on_of_nodup_map b.nodup hf hg hfkey
      rw [findFrom_textOf f m hpart, hfollow, Option.map_some, hkey]
  · rw [nodePath_eq (hparts n hn), nodePath_eq (hparts n' hn')] at h
    have hparse := congrArg PosixPath.parse h
    rw [PosixPath.parse_textOf (hparts n hn), PosixPath.parse_textOf (hparts n' hn')] at hparse
    obtain ⟨hflow, haddress⟩ := List.cons.inj (PosixPath.mk.inj hparse).2
    exact Place.ext hflow (List.reverse_injective haddress)

/-- A flow with one task. -/
def sampleBunch : Bunch Unit where
  flows := [.node "f" () [.node "a" () []]]
  nodup := by decide

theorem findNode_nodePath_sample : sampleBunch.Valid ∧ sampleBunch.Has ⟨"f", ["a"]⟩ ∧
    sampleBunch.findNode (Place.nodePath ⟨"f", ["a"]⟩) = .ok (some ⟨"f", ["a"]⟩) := by
  have hvalid : sampleBunch.Valid := by
    intro f hf
    obtain rfl := List.mem_singleton.mp hf
    refine ⟨.of_children (by decide) fun c hc => ?_, fun x hx => ?_⟩
    · obtain rfl := List.mem_singleton.mp hc
      exact .of_children (by decide) fun c hc => by cases hc
    · simp only [KeyedTree.walk, KeyedTree.walkList, List.append_nil, List.mem_cons,
        List.not_mem_nil, or_false] at hx
      rcases hx with rfl | rfl
      · decide
      · decide
  have hhas : sampleBunch.Has ⟨"f", ["a"]⟩ := ⟨_, List.mem_singleton.mpr rfl, rfl, by decide⟩
  exact ⟨hvalid, hhas, ((findNode_nodePath sampleBunch hvalid).1 _ hhas).1⟩

end Takler.Paths
