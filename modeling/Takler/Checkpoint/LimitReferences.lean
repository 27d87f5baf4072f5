import Takler.Checkpoint.Occupancy

/-!
# The references of in-limits

In a tree the reference of an in-limit is followed along objects, and in a checkpoint its text is
normalised and looked up among the keys of the rows. This module compares the two. The keys of the
rows are the texts of the places, `normpath` takes the steps of `find_node` as long as a path stays
in its flow, and climbing by `dirname` meets the parents of a node, from the nearest on.

The two sides do not find the same references: next to the flows a relative path is normalised to a
text with two slashes, which no row has, and `find_node` does not find the bunch. Where both find
one, it is the same.

## Main results

* `keysUp_text`: a checkpoint is climbed as the tree is, and then to the bunch.
* `normComps_goAlong`: `normpath` goes where `find_node` goes.
* `resolve_agrees`: where both sides find a limit, they find the same one.
-/

namespace Takler.Occupancy

open Live (PathText goAlong follow)

/-! ### Places and rows -/

namespace Layout

variable {L : Layout}

theorem mem_of_flow? {n : String} {f : KeyedTree String NodeDoc} (h : L.flow? n = some f) :
    f ∈ L.flows ∧ f.key = n :=
  ⟨List.mem_of_find?_eq_some h, by simpa using List.find?_some h⟩

theorem flow?_key {f : KeyedTree String NodeDoc} (hf : f ∈ L.flows) : L.flow? f.key = some f := by
  obtain ⟨g, hg⟩ := Option.isSome_iff_exists.mp
    (List.find?_isSome (p := fun g => decide (KeyedTree.key g = f.key)).mpr ⟨f, hf, by simp⟩)
  have hgf : L.flow? f.key = some g := hg
  obtain ⟨hmem, hkey⟩ := mem_of_flow? hgf
  rw [hgf, List.inj_on_of_nodup_map L.nodup hmem hf hkey]

theorem mem_places {p : Place} : p ∈ L.places ↔ (L.at? p).isSome := by
  unfold places
  cases p with
  | root => simp [at?]
  | node n a =>
    simp only [List.mem_cons, reduceCtorEq, false_or, List.mem_flatMap, List.mem_map,
      Place.node.injEq, at?, Option.isSome_iff_exists, Option.bind_eq_some_iff,
      Option.map_eq_some_iff]
    constructor
    · rintro ⟨f, hf, ⟨q, t⟩, hx, rfl, rfl⟩
      exact ⟨t.value, f, flow?_key hf, t,
        (KeyedTree.mem_walk_nil_iff (L.distinct f hf)).mp hx, rfl⟩
    · rintro ⟨d, f, hf, t, ht, -⟩
      obtain ⟨hmem, rfl⟩ := mem_of_flow? hf
      exact ⟨f, hmem, (a, t), (KeyedTree.mem_walk_nil_iff (L.distinct f hmem)).mpr ht, rfl, rfl⟩

theorem named_of_mem_places {n : String} {a : List String} (h : .node n a ∈ L.places) :
    (n ≠ "" ∧ n ≠ "." ∧ n ≠ "..") ∧ ∀ k ∈ a, k ≠ "" ∧ k ≠ "." ∧ k ≠ ".." := by
  obtain ⟨d, hd⟩ := Option.isSome_iff_exists.mp (mem_places.mp h)
  obtain ⟨f, hf, hd⟩ := Option.bind_eq_some_iff.mp hd
  obtain ⟨t, ht, -⟩ := Option.map_eq_some_iff.mp hd
  obtain ⟨hmem, rfl⟩ := mem_of_flow? hf
  have hwalk : (a, t) ∈ f.walk [] := (KeyedTree.mem_walk_nil_iff (L.distinct f hmem)).mpr ht
  refine ⟨L.named f hmem ([], f) (KeyedTree.mem_walk.mpr (.inl rfl)), fun k hk => ?_⟩
  rcases KeyedTree.exists_key_of_mem_walk hwalk k hk with h | ⟨y, hy, rfl⟩
  · cases h
  · exact L.named f hmem y hy

/-- The nodes above a node are there. -/
theorem tail_mem_places {n k : String} {a : List String} (h : .node n (k :: a) ∈ L.places) :
    .node n a ∈ L.places := by
  obtain ⟨d, hd⟩ := Option.isSome_iff_exists.mp (mem_places.mp h)
  obtain ⟨f, hf, hd⟩ := Option.bind_eq_some_iff.mp hd
  obtain ⟨t, ht, -⟩ := Option.map_eq_some_iff.mp hd
  rw [KeyedTree.find?_cons] at ht
  obtain ⟨u, hu, -⟩ := Option.bind_eq_some_iff.mp ht
  exact mem_places.mpr (by simp [at?, hf, hu])

theorem root_mem_places : .root ∈ L.places := List.mem_cons_self

theorem text_injOn {p q : Place} (hp : p ∈ L.places) (hq : q ∈ L.places) (h : p.text = q.text) :
    p = q := by
  cases p with
  | root =>
    cases q with
    | root => rfl
    | node n a =>
      obtain ⟨hn, -⟩ := List.cons.inj (List.cons.inj h).2
      exact ((named_of_mem_places hq).1.1 hn.symm).elim
  | node n a =>
    cases q with
    | root =>
      obtain ⟨hn, -⟩ := List.cons.inj (List.cons.inj h).2
      exact ((named_of_mem_places hp).1.1 hn).elim
    | node m b =>
      obtain ⟨rfl, hab⟩ := List.cons.inj (List.cons.inj h).2
      rw [List.reverse_injective hab]

/-- The rows that are written for the places of a tree. -/
theorem get?_map_text {α : Type} (row : Place → α) {p : Place} (hp : p ∈ L.places) :
    Rows.get? (L.places.map fun q => (q.text, row q)) p.text = some (row p) := by
  obtain ⟨x, hx⟩ := Option.isSome_iff_exists.mp (List.find?_isSome
    (p := fun x : PathText × α => decide (x.1 = p.text)).mpr
      ⟨(p.text, row p), List.mem_map_of_mem (f := fun q => (q.text, row q)) hp, by simp⟩)
  obtain ⟨q, hq, rfl⟩ := List.mem_map.mp (List.mem_of_find?_eq_some hx)
  have hqp : q.text = p.text := by simpa using List.find?_some hx
  have hxp : q = p := text_injOn hq hp hqp
  unfold Rows.get?
  rw [hx, Option.map_some, hxp]

theorem exists_of_get?_map_text {α : Type} {row : Place → α} {t : PathText} {r : α}
    (h : Rows.get? (L.places.map fun q => (q.text, row q)) t = some r) :
    ∃ p ∈ L.places, p.text = t ∧ row p = r := by
  obtain ⟨x, hx, rfl⟩ := Option.map_eq_some_iff.mp h
  obtain ⟨p, hp, rfl⟩ := List.mem_map.mp (List.mem_of_find?_eq_some hx)
  exact ⟨p, hp, by simpa using List.find?_some hx, rfl⟩

theorem rowLimit?_text {p : Place} (hp : p ∈ L.places) (name : String) :
    rowLimit? L.definitions p.text name = L.limit? p name := by
  obtain ⟨d, hd⟩ := Option.isSome_iff_exists.mp (mem_places.mp hp)
  unfold rowLimit? definitions limit?
  rw [get?_map_text _ hp, hd]
  rfl

theorem mem_places_of_hasLimit {name : String} {p : Place} (h : L.hasLimit name p = true) :
    p ∈ L.places := by
  obtain ⟨l, hl⟩ := Option.isSome_iff_exists.mp h
  obtain ⟨d, hd, -⟩ := Option.bind_eq_some_iff.mp hl
  exact mem_places.mpr (by rw [hd]; rfl)

end Layout

/-! ### The climb -/

section Climb

variable {L : Layout}

theorem dirname_flow (n : String) : dirname (Place.node n []).text = Place.root.text := rfl

theorem dirname_below (n k : String) (a : List String) :
    dirname (Place.node n (k :: a)).text = (Place.node n a).text := by
  have h : (Place.node n (k :: a)).text = (Place.node n a).text ++ [k] := by
    simp [Place.text, Live.nodePath]
  unfold dirname
  rw [h, List.dropLast_concat, if_neg (by simp [Place.text, Live.nodePath])]

theorem keysUp_node {n : String} : ∀ {a : List String} {fuel : ℕ}, .node n a ∈ L.places →
    a.length < fuel → keysUp fuel (Place.node n a).text
      = (Place.node n a).lineage.map Place.text ++ [Place.root.text]
  | a, 0, _, hf => by omega
  | [], fuel + 1, h, _ => by
    have hne : (Place.node n []).text ≠ ["", ""] := fun he =>
      nomatch Layout.text_injOn h (q := .root) Layout.root_mem_places he
    have hroot : keysUp fuel ["", ""] = [["", ""]] := by
      cases fuel with
      | zero => rfl
      | succ k => rfl
    rw [keysUp, if_neg hne, dirname_flow]
    exact congrArg _ hroot
  | k :: a, fuel + 1, h, hf => by
    have hne : (Place.node n (k :: a)).text ≠ ["", ""] := fun he =>
      nomatch Layout.text_injOn h (q := .root) Layout.root_mem_places he
    rw [keysUp, if_neg hne, dirname_below,
      keysUp_node (Layout.tail_mem_places h) (by simpa using hf)]
    rfl

/-- The keys above the flow of a place. -/
def topKeys (p : Place) : List PathText := if p = .root then [] else [Place.root.text]

/-- A checkpoint is climbed as the tree is, and then to the bunch. -/
theorem keysUp_text {p : Place} (hp : p ∈ L.places) :
    keysUp p.text.length p.text = p.lineage.map Place.text ++ topKeys p := by
  cases p with
  | root => rfl
  | node n a =>
    refine keysUp_node hp ?_
    simp only [Place.text, Live.nodePath, List.length_cons, List.length_reverse]
    omega

theorem findLimitUp_eq_find? {name : String} : ∀ p : Place,
    L.findLimitUp name p = p.lineage.find? (L.hasLimit name)
  | .root => by
    by_cases h : L.hasLimit name .root = true <;> simp [Layout.findLimitUp, Place.lineage, h]
  | .node n a => by
    unfold Layout.findLimitUp
    dsimp only
    induction a with
    | nil =>
      by_cases h : L.hasLimit name (.node n []) = true <;>
        simp [Layout.findLimitIn, Place.lineage, h]
    | cons k a ih =>
      unfold Layout.findLimitIn
      by_cases h : L.hasLimit name (.node n (k :: a)) = true
      · simp [Place.lineage, h]
      · rw [if_neg h, ih]
        simp [Place.lineage, h]

end Climb

/-! ### Where the texts lead -/

/-- Below a first component `normpath` goes where `find_node` goes. -/
theorem normComps_goAlong {n : String} : ∀ {cs p q : List String}, (∀ k ∈ p, k ≠ "..") →
    goAlong p (PathText.parts cs) = some q →
    normComps true (p ++ [n]) cs = n :: q.reverse
  | [], p, q, _, h => by
    cases h
    simp [normComps]
  | c :: cs, p, q, hp, h => by
    unfold normComps
    by_cases hskip : c = "" ∨ c = "."
    · have hparts : PathText.parts (c :: cs) = PathText.parts cs :=
        List.filter_cons_of_neg (by rcases hskip with rfl | rfl <;> decide)
      rw [if_pos hskip]
      exact normComps_goAlong hp (hparts ▸ h)
    · have hparts : PathText.parts (c :: cs) = c :: PathText.parts cs :=
        List.filter_cons_of_pos (by simpa [not_or] using hskip)
      rw [if_neg hskip]
      rw [hparts] at h
      unfold goAlong at h
      by_cases hup : c = ".."
      · rw [if_pos hup] at h
        cases p with
        | nil => cases h
        | cons k up =>
          have hk : k ≠ ".." := hp k List.mem_cons_self
          rw [if_neg (by simp [hup, hk])]
          exact normComps_goAlong (fun j hj => hp j (List.mem_cons_of_mem k hj)) h
      · rw [if_neg hup] at h
        rw [if_pos (.inl hup)]
        refine normComps_goAlong (p := c :: p) (fun j hj => ?_) h
        rcases List.mem_cons.mp hj with rfl | hj
        · exact hup
        · exact hp j hj

theorem normpath_below {n : String} {rest q : List String}
    (hn : n ≠ "" ∧ n ≠ "." ∧ n ≠ "..") (h : goAlong [] (PathText.parts rest) = some q) :
    normpath ("" :: n :: rest) = Live.nodePath n q := by
  have hslash : leadingSlashes ("" :: n :: rest) = 1 := by
    simp [leadingSlashes, PathText.isAbsolute, hn.1]
  have hcomps : normComps true [] ("" :: n :: rest) = n :: q.reverse := by
    have hrest := normComps_goAlong (n := n) (fun k hk => (List.not_mem_nil hk).elim) h
    simp only [List.nil_append] at hrest
    simp [normComps, hn.1, hn.2.1, hn.2.2, hrest]
  unfold normpath
  rw [hslash]
  dsimp only
  rw [show decide (1 ≠ 0) = true from rfl, hcomps]
  rfl

section Resolve

variable {L : Layout}

/-- What a path from a flow finds is where its text leads. -/
theorem findFrom_eq_some {n : String} {a : List String} {t : PathText} {q : Place}
    (h : L.findFrom n a t = some q) : ∃ rest b,
      (if t.isAbsolute then [] else (n :: a.reverse).dropLast) ++ t.parts = n :: rest ∧
      q = .node n b ∧ goAlong [] rest = some b := by
  unfold Layout.findFrom at h
  dsimp only at h
  generalize hparts : (if t.isAbsolute = true then [] else (n :: a.reverse).dropLast) ++ t.parts
    = parts at h
  cases parts with
  | nil => cases h
  | cons m rest =>
    dsimp only at h
    split_ifs at h with hm
    · obtain ⟨b, hb, rfl⟩ := Option.map_eq_some_iff.mp h
      obtain ⟨f, -, hb⟩ := Option.bind_eq_some_iff.mp hb
      exact ⟨rest, b, by rw [hm], rfl, Live.follow_goAlong hb⟩

theorem findNode_eq_some {t : PathText} {q : Place} (h : L.findNode t = some q) :
    ∃ n rest b, t = "" :: n :: rest ∧ .node n [] ∈ L.places ∧ q = .node n b ∧
      goAlong [] (PathText.parts rest) = some b := by
  unfold Layout.findNode at h
  split_ifs at h with hlegal
  obtain ⟨n, hn, h⟩ := Option.bind_eq_some_iff.mp h
  split_ifs at h with hflow
  have habs : t.isAbsolute = true := by
    by_contra habs
    exact hlegal (.inl habs)
  obtain ⟨m, rest, rfl⟩ := PathText.eq_of_isAbsolute habs
  cases hn
  obtain ⟨rest', b, hparts, rfl, hb⟩ := findFrom_eq_some h
  rw [if_pos habs, List.nil_append] at hparts
  rw [← PathText.tail_of_parts_eq_cons hparts rfl] at hb
  obtain ⟨f, hf⟩ := Option.isSome_iff_exists.mp hflow
  exact ⟨n, rest, b, rfl, Layout.mem_places.mpr (by simp [Layout.at?, hf]), rfl, hb⟩

/-- A path text that leads to a node of the tree is found under its key. -/
theorem referencedPath_of_normpath {owner t : PathText} {q : Place} (hq : q ∈ L.places)
    (h : normpath (if t.isAbsolute then t else dirname owner ++ t) = q.text) :
    referencedPath L.name L.definitions owner t = .ok q.text := by
  have hrow : L.definitions.get? q.text ≠ none := by
    unfold Layout.definitions
    rw [Layout.get?_map_text _ hq]
    exact Option.some_ne_none _
  unfold referencedPath
  dsimp only
  have htarget : (if q.text = ["", L.name] ∧ L.definitions.get? q.text = none then ["", ""]
      else q.text) = q.text := if_neg fun hname => hrow hname.2
  rw [h, htarget, if_neg hrow]

/-- An absolute path that the bunch finds. -/
theorem referencedPath_findNode {owner t : PathText} {q : Place} (hq : q ∈ L.places)
    (h : L.findNode t = some q) : referencedPath L.name L.definitions owner t = .ok q.text := by
  obtain ⟨n, rest, b, rfl, hn, rfl, hb⟩ := findNode_eq_some h
  refine referencedPath_of_normpath hq ?_
  rw [if_pos (show PathText.isAbsolute ("" :: n :: rest) = true from rfl)]
  exact normpath_below (Layout.named_of_mem_places hn).1 hb

/-- An absolute path that is the key of a node. -/
theorem referencedPath_lookup {owner t : PathText} {q : Place} (hlegal : t.isIllegal = false)
    (h : L.lookup t = some q) : referencedPath L.name L.definitions owner t = .ok q.text := by
  unfold Layout.lookup at h
  split at h
  case h_2 => cases h
  case h_1 part n down =>
    split_ifs at h with hpart hnode hname
    · cases h
      have hmem := Layout.mem_places.mpr hnode
      obtain ⟨hn, hdown⟩ := Layout.named_of_mem_places hmem
      have hpart : part = "" := not_not.mp hpart
      subst hpart
      refine referencedPath_of_normpath hmem ?_
      rw [if_pos (show PathText.isAbsolute ("" :: n :: down) = true from rfl)]
      refine normpath_below hn ?_
      rw [Live.goAlong_parts fun k hk => hdown k (List.mem_reverse.mpr hk), List.append_nil]
    · cases h
      obtain ⟨rfl, rfl⟩ := hname
      have hpart : part = "" := not_not.mp hpart
      subst hpart
      have hne : L.name ≠ "" := fun hname => by
        rw [hname] at hlegal
        exact absurd hlegal (by decide)
      have hpath : normpath ["", L.name] = ["", L.name] :=
        normpath_below (q := []) ⟨hne, L.name_ne⟩ rfl
      have hrow : L.definitions.get? ["", L.name] = none := by
        rw [Option.eq_none_iff_forall_ne_some]
        intro d hd
        obtain ⟨p, hp, hpt, -⟩ := Layout.exists_of_get?_map_text hd
        cases p with
        | root => exact hne (List.cons.inj (List.cons.inj hpt).2).1.symm
        | node m a =>
          obtain ⟨rfl, ha⟩ := List.cons.inj (List.cons.inj hpt).2
          rw [List.reverse_eq_nil_iff.mp ha] at hp
          exact hnode (Layout.mem_places.mp hp)
      have hroot : L.definitions.get? ["", ""] ≠ none := fun hnone =>
        Option.some_ne_none _ ((Layout.get?_map_text _ Layout.root_mem_places).symm.trans hnone)
      have htarget : (if ["", L.name] = ["", L.name] ∧ L.definitions.get? ["", L.name] = none
          then ["", ""] else ["", L.name]) = ["", ""] := if_pos ⟨rfl, hrow⟩
      unfold referencedPath
      dsimp only
      rw [if_pos (show PathText.isAbsolute ["", L.name] = true from rfl), hpath, htarget,
        if_neg hroot]
      rfl

theorem normpath_top {t : PathText} (hne : t ≠ []) (hrel : t.isAbsolute = false)
    (hlegal : t.isIllegal = false) : ∃ c cs, normpath ("" :: "" :: t) = "" :: "" :: c :: cs := by
  have hhead : ∃ x rest, t = x :: rest ∧ x ≠ "" := by
    cases t with
    | nil => exact (hne rfl).elim
    | cons x rest =>
      refine ⟨x, rest, rfl, ?_⟩
      rintro rfl
      cases rest with
      | nil => exact absurd hlegal (by decide)
      | cons y ys => cases hrel
  obtain ⟨x, rest, rfl, hx⟩ := hhead
  have hslash : leadingSlashes ("" :: "" :: x :: rest) = 2 := by
    simp [leadingSlashes, PathText.isAbsolute, hx]
  unfold normpath
  rw [hslash]
  dsimp only
  rw [if_neg (by decide)]
  split_ifs with hcomps
  · exact ⟨"", [], rfl⟩
  · obtain ⟨c, cs, hc⟩ := List.exists_cons_of_ne_nil hcomps
    exact ⟨c, cs, by rw [hc]; rfl⟩

/-- Next to the flows no relative path is found in a checkpoint. -/
theorem referencedPath_top {owner t target : PathText} (howner : dirname owner = ["", ""])
    (hne : t ≠ []) (hrel : t.isAbsolute = false) (hlegal : t.isIllegal = false) :
    referencedPath L.name L.definitions owner t ≠ .ok target := by
  obtain ⟨c, cs, hpath⟩ := normpath_top hne hrel hlegal
  have hrow : L.definitions.get? ("" :: "" :: c :: cs) = none := by
    rw [Option.eq_none_iff_forall_ne_some]
    intro d hd
    obtain ⟨p, hp, hpt, -⟩ := Layout.exists_of_get?_map_text hd
    cases p with
    | root => cases hpt
    | node m a => exact (Layout.named_of_mem_places hp).1.1 (List.cons.inj (List.cons.inj hpt).2).1
  unfold referencedPath
  dsimp only
  rw [hrel, if_neg Bool.false_ne_true, howner, List.cons_append, List.cons_append, List.nil_append,
    hpath, if_neg (c := _ ∧ _) (by simp), if_pos hrow]
  exact nofun

/-- A relative path that a node below a flow finds. -/
theorem referencedPath_findFrom {n k : String} {a : List String} {t : PathText} {q : Place}
    (howner : .node n (k :: a) ∈ L.places) (hq : q ∈ L.places) (hrel : t.isAbsolute = false)
    (h : L.findFrom n (k :: a) t = some q) :
    referencedPath L.name L.definitions (Place.node n (k :: a)).text t = .ok q.text := by
  obtain ⟨hn, hnames⟩ := Layout.named_of_mem_places howner
  obtain ⟨rest, b, hparts, rfl, hb⟩ := findFrom_eq_some h
  refine referencedPath_of_normpath hq ?_
  have hup : PathText.parts a.reverse = a.reverse := List.filter_eq_self.mpr fun j hj => by
    have := hnames j (List.mem_cons_of_mem k (List.mem_reverse.mp hj))
    simp [this.1, this.2.1]
  have hbase : (n :: (k :: a).reverse).dropLast = n :: a.reverse := by
    rw [List.reverse_cons, ← List.cons_append, List.dropLast_concat]
  rw [hrel, if_neg Bool.false_ne_true, hbase, List.cons_append, List.cons_inj_right] at hparts
  rw [hrel, if_neg Bool.false_ne_true, dirname_below]
  change normpath ("" :: n :: (a.reverse ++ t)) = _
  refine normpath_below hn ?_
  have hsplit : PathText.parts (a.reverse ++ t) = a.reverse ++ t.parts := by
    unfold PathText.parts at hup ⊢
    rw [List.filter_append, hup]
  rw [hsplit, hparts]
  exact hb

/-- Where both sides find a node, they find the same one. -/
theorem referencedPath_agrees {owner q : Place} {t target : PathText}
    (howner : owner ∈ L.places) (hq : q ∈ L.places) (hlegal : t.isIllegal = false)
    (hlive : (if t.isAbsolute then L.findNode t else L.findAt owner t) = some q ∨
      (if t.isAbsolute then L.lookup t else L.findAt owner t) = some q)
    (hstatic : referencedPath L.name L.definitions owner.text t = .ok target) :
    target = q.text := by
  have key : referencedPath L.name L.definitions owner.text t = .ok q.text := by
    by_cases habs : t.isAbsolute = true
    · rw [if_pos habs, if_pos habs] at hlive
      rcases hlive with hlive | hlive
      · exact referencedPath_findNode hq hlive
      · exact referencedPath_lookup hlegal hlive
    · rw [if_neg habs, if_neg habs, or_self] at hlive
      have hrel : t.isAbsolute = false := by simpa using habs
      cases owner with
      | root =>
        obtain ⟨n, rest, -, rfl, -⟩ := findNode_eq_some hlive
        cases hrel
      | node n a =>
        cases a with
        | nil =>
          have hne : t ≠ [] := by
            rintro rfl
            cases hlive
          exact (referencedPath_top rfl hne hrel hlegal hstatic).elim
        | cons k a => exact referencedPath_findFrom howner hq hrel hlive
  exact Except.ok.inj (hstatic.symm.trans key)

theorem mem_places_of_mem_lineage {p : Place} (hp : p ∈ L.places) :
    ∀ q ∈ p.lineage, q ∈ L.places := by
  cases p with
  | root =>
    intro q hq
    rw [List.mem_singleton.mp hq]
    exact Layout.root_mem_places
  | node n a =>
    induction a with
    | nil =>
      intro q hq
      rw [List.mem_singleton.mp hq]
      exact hp
    | cons k a ih =>
      intro q hq
      rcases List.mem_cons.mp hq with rfl | hq
      · exact hp
      · exact ih (Layout.tail_mem_places hp) q hq

/-- Without a path both sides search the nodes above; a checkpoint only searches further. -/
theorem find?_keysUp {owner q : Place} {name : String} (howner : owner ∈ L.places)
    (h : L.findLimitUp name owner = some q) :
    (keysUp owner.text.length owner.text).find? (fun t => (rowLimit? L.definitions t name).isSome)
      = some q.text := by
  rw [findLimitUp_eq_find?] at h
  have hsame : ∀ p ∈ owner.lineage,
      ((fun t => (rowLimit? L.definitions t name).isSome) ∘ Place.text) p
        = L.hasLimit name p := fun p hp => by
    rw [Function.comp_apply, Layout.rowLimit?_text (mem_places_of_mem_lineage howner p hp)]
    rfl
  rw [keysUp_text howner, List.find?_append, List.find?_map, List.find?_congr_of_mem hsame, h]
  rfl

/-- The node that the reference of an in-limit names. -/
def Finds (L : Layout) (owner : Place) (i : InLimitDoc) (q : Place) : Prop :=
  match i.nodePath with
  | none => L.findLimitUp i.limitName owner = some q
  | some t => (if t.isAbsolute then L.findNode t else L.findAt owner t) = some q ∨
      (if t.isAbsolute then L.lookup t else L.findAt owner t) = some q

theorem finds_of_resolveInLimit {owner q : Place} {i : InLimitDoc}
    (h : L.resolveInLimit owner i = some q) :
    Finds L owner i q ∧ L.hasLimit i.limitName q = true := by
  unfold Layout.resolveInLimit at h
  unfold Finds
  cases hpath : i.nodePath with
  | none =>
    rw [hpath] at h
    dsimp only at h ⊢
    exact ⟨h, List.find?_some ((findLimitUp_eq_find? owner).symm.trans h)⟩
  | some t =>
    rw [hpath] at h
    dsimp only at h ⊢
    obtain ⟨h, hlimit⟩ := Option.filter_eq_some_iff.mp h
    refine ⟨.inl ?_, hlimit⟩
    by_cases habs : t.isAbsolute = true
    · rw [if_pos habs]
      by_cases howner : owner = .root
      · rw [if_neg fun h => h.2 howner] at h
        split_ifs at h with htop
        subst howner
        exact h
      · rwa [if_pos ⟨habs, howner⟩] at h
    · rw [if_neg fun h => habs h.1] at h
      rw [if_neg habs]
      split_ifs at h with htop
      exact h

theorem finds_of_validateReference {owner q : Place} {i : InLimitDoc}
    (h : L.validateReference owner i = some q) :
    Finds L owner i q ∧ L.hasLimit i.limitName q = true := by
  obtain ⟨h, -⟩ := Option.filter_eq_some_iff.mp h
  unfold Finds
  cases hpath : i.nodePath with
  | none =>
    rw [hpath] at h
    dsimp only at h ⊢
    exact ⟨h, List.find?_some ((findLimitUp_eq_find? owner).symm.trans h)⟩
  | some t =>
    rw [hpath] at h
    dsimp only at h ⊢
    split_ifs at h with hlegal habs
    all_goals obtain ⟨h, hlimit⟩ := Option.filter_eq_some_iff.mp h
    · exact ⟨.inr (by rwa [if_pos habs]), hlimit⟩
    · exact ⟨.inr (by rwa [if_neg habs]), hlimit⟩

/-- Where both sides find a limit, they find the same one. -/
theorem resolve_agrees {owner q : Place} {i : InLimitDoc} {k : PathText × String}
    (howner : owner ∈ L.places) (hq : q ∈ L.places) (hlive : Finds L owner i q)
    (hstatic : resolve L.name L.definitions owner.text i = .ok k) : k = (q.text, i.limitName) := by
  obtain ⟨target, htarget, hstatic⟩ := Except.bind_eq_ok.mp hstatic
  split_ifs at hstatic
  cases hstatic
  suffices target = q.text by rw [this]
  unfold resolvePath at htarget
  unfold Finds at hlive
  cases hpath : i.nodePath with
  | none =>
    rw [hpath] at hlive htarget
    dsimp only at hlive htarget
    rw [find?_keysUp howner hlive] at htarget
    exact (Except.ok.inj htarget).symm
  | some t =>
    rw [hpath] at hlive htarget
    dsimp only at hlive htarget
    split_ifs at htarget with hlegal
    obtain ⟨target', hpath', htarget⟩ := Except.bind_eq_ok.mp htarget
    split_ifs at htarget
    cases htarget
    exact referencedPath_agrees howner hq (by simpa using hlegal) hlive hpath'

end Resolve

end Takler.Occupancy
