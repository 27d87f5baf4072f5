import Takler.Live.Replace

/-!
# The bunch after a replacement

What the commit of `replace_flow` makes of a whole bunch. Whatever the nodes of the bunch are bound
to before it, the new flow takes the place of the old one. No reference to the old flow is left, and
all of them have been moved to the new one, if and only if every one of them is written as the path of
the node that it is bound to (`Bunch.Anchored`).

## Main definitions

* `Bunch.WellFormed`: the flows have their own names and identities, and an AST is that of its text.
* `Bunch.Anchored`: what is bound to the old flow is written as its path.
* `Replaced`: the bunch before and after a replacement.

## Main results

* `Bunch.commit_wellFormed`: the new bunch is well-formed.
* `Bunch.commit_replaced`: no reference to the old flow is left.
* `Bunch.anchored_of_commit_replaced`: so only if they were anchored.
-/

namespace Takler.Live

variable (parse : String → Option (Ast PathText))

/-! ### The bunch after a replacement -/

/-- Flows have their own names and numbers, and an AST is that of its text. Nodes may be bound to
anything. -/
structure Bunch.WellFormed (b : Bunch) : Prop where
  root : b.root.Parsed parse
  flows : ∀ f ∈ b.flows, ∀ x ∈ f.tree.walk [], x.2.value.Parsed parse
  names : (b.flows.map Flow.name).Nodup
  serials : ∀ f ∈ b.flows, f.object.serial < b.nextSerial

/-- What nodes of other flows have bound to the old flow is written as its path there. -/
structure Bunch.Anchored (old : Flow) (b : Bunch) : Prop where
  root : b.root.Bound (Live.Anchored old)
  flows : ∀ f ∈ b.flows, f.object ≠ old.object → ∀ x ∈ f.tree.walk [],
    x.2.value.Bound (Live.Anchored old)

instance (old : Flow) (b : Bunch) : Decidable (b.Anchored old) :=
  decidable_of_iff (b.root.Bound (Live.Anchored old) ∧ ∀ f ∈ b.flows, f.object ≠ old.object →
      ∀ x ∈ f.tree.walk [], x.2.value.Bound (Live.Anchored old))
    ⟨fun h => ⟨h.1, h.2⟩, fun h => ⟨h.root, h.flows⟩⟩

/-- The nodes that are reachable from the bunch. -/
def Bunch.nodes (b : Bunch) : List Node :=
  b.root :: b.flows.flatMap fun f => (f.tree.walk []).map fun x => x.2.value

/-- Another flow before and after. -/
structure Flow.Rebound (g old new g' : Flow) : Prop where
  object : g'.object = g.object
  nodes : List.Forall₂ (fun x x' => x'.1 = x.1 ∧ x'.2.key = x.2.key ∧
    x.2.value.Rebound old new x'.2.value) (g.tree.walk []) (g'.tree.walk [])

/-- The bunch before and after a flow was replaced. -/
structure Replaced (b b' : Bunch) (old new : Flow) : Prop where
  mem : old ∈ b.flows
  name : new.name = old.name
  /-- The new flow takes the place of the old one, and the others stay in theirs. -/
  flows : List.Forall₂ (fun g g' => g.object = old.object ∧ g' = new ∨
    g.object ≠ old.object ∧ g.Rebound old new g') b.flows b'.flows
  root : b.root.Rebound old new b'.root
  fresh : ∀ n ∈ b'.nodes, ∀ x ∈ n.referents, x.flow ≠ some old.object
  /-- Nobody held a limit of the old flow. -/
  unreserved : ∀ x ∈ old.tree.walk [], ∀ l ∈ x.2.value.limits, l.value = 0 ∧ l.nodePaths = []
  suspended : new.suspended = old.suspended

variable {parse}
variable {b : Bunch} {c : ReplaceCommand} {old candidate : Flow}

/-- Another flow has another name. -/
theorem Bunch.WellFormed.name_ne (hb : b.WellFormed parse) (hold : old ∈ b.flows) {g : Flow}
    (hg : g ∈ b.flows) (hobject : g.object ≠ old.object) : g.name ≠ old.name := fun hname =>
  hobject (by rw [List.inj_on_of_nodup_map hb.names hg hold hname])

theorem Bunch.mem_of_target {t : PathText} (h : b.target t = .ok old) : old ∈ b.flows := by
  unfold Bunch.target at h
  split_ifs at h
  obtain ⟨found, -, h⟩ := Except.bind_eq_ok.mp h
  cases found with
  | none => cases h
  | some x =>
    dsimp only at h
    split at h
    · next f _ hf =>
      cases h
      obtain ⟨n, -, hn⟩ := Option.bind_eq_some_iff.mp hf
      exact List.mem_of_find?_eq_some hn
    · cases h

/-- The candidate is a new flow with the name of the old one. -/
theorem Bunch.candidate_object (h : b.candidate parse old c = .ok candidate) :
    candidate.object = ⟨b.nextSerial, old.name⟩ := by
  obtain ⟨d, -, h⟩ := Except.bind_eq_ok.mp h
  obtain ⟨⟨root, fs⟩, hbuild, h⟩ := Except.bind_eq_ok.mp h
  obtain ⟨status, hinitial, hobjects⟩ := Bunch.build_objects hbuild
  unfold ReplaceCommand.initial at hinitial
  split at hinitial
  · next t _ ht =>
    split_ifs at hinitial with hname
    rw [not_not] at hname
    have hconstruct : (b.construct d status).map Flow.object = [⟨b.nextSerial, old.name⟩] := by
      simp [Bunch.construct, ht, hname]
    rw [hconstruct] at hobjects
    dsimp only at h
    split at h
    · cases h
      simpa using hobjects
    · cases h
  · cases hinitial

/-- Nothing in the candidate is bound to the old flow. -/
theorem Bunch.candidate_bound (h : b.candidate parse old c = .ok candidate)
    (hold : old.object.serial < b.nextSerial) :
    candidate.Named ∧ ∀ x ∈ candidate.tree.walk [],
      x.2.value.Parsed parse ∧ x.2.value.Bound (Fresh old) := by
  have hobject := Bunch.candidate_object h
  obtain ⟨d, -, h⟩ := Except.bind_eq_ok.mp h
  obtain ⟨⟨root, fs⟩, hbuild, h⟩ := Except.bind_eq_ok.mp h
  dsimp only at h
  split at h
  · next f =>
    cases h
    obtain ⟨hnamed, hbound⟩ := Bunch.build_bound hbuild candidate List.mem_cons_self
    refine ⟨hnamed, fun x hx => ⟨(hbound x hx).1, (hbound x hx).2.imp fun t y hy hstale => ?_⟩⟩
    simp only [List.map_cons, List.map_nil, hobject] at hy
    rcases hy _ hstale with hsame | hname
    · rw [List.mem_singleton.mp hsame] at hold
      exact lt_irrefl _ hold
    · exact hname _ List.mem_cons_self rfl
  · cases h

theorem Flow.withSuspended_find? (f : Flow) (s : Bool) {address : List String}
    {n : KeyedTree String Node} (hn : f.tree.find? address = some n) :
    ∃ n', (f.withSuspended s).tree.find? address = some n' ∧ n'.value.limits = n.value.limits := by
  refine ⟨_, by rw [Flow.withSuspended, KeyedTree.find?_mapWith, hn, Option.map_some], ?_⟩
  rw [KeyedTree.value_mapWith]
  split_ifs <;> rfl

/-- The flag is not about references. -/
theorem Flow.withSuspended_bound {f : Flow} {s : Bool} {P : Option PathText → NodeRef → Prop}
    (h : ∀ x ∈ f.tree.walk [], x.2.value.Parsed parse ∧ x.2.value.Bound P) :
    ∀ x ∈ (f.withSuspended s).tree.walk [], x.2.value.Parsed parse ∧ x.2.value.Bound P := by
  intro x hx
  rw [Flow.withSuspended, KeyedTree.walk_mapWith] at hx
  obtain ⟨y, hy, rfl⟩ := List.mem_map.mp hx
  obtain ⟨hparsed, hbound⟩ := h y hy
  rw [KeyedTree.value_mapWith]
  split_ifs
  · exact ⟨⟨hparsed.trigger, hparsed.completeTrigger⟩,
      hbound.trigger, hbound.completeTrigger, hbound.inLimits⟩
  · exact ⟨hparsed, hbound⟩

theorem Bunch.replaces (hold : old.object.serial < b.nextSerial)
    (h : b.candidate parse old c = .ok candidate) {own : Option Instance}
    (hother : ∀ o, own = some o → o.name ≠ old.name) :
    Replaces old candidate (candidate.withSuspended old.suspended) own where
  name := by rw [Flow.name, Bunch.candidate_object h]
  fresh := fun heq => by
    rw [← heq, Bunch.candidate_object h] at hold
    exact lt_irrefl _ hold
  object := rfl
  limits := candidate.withSuspended_find? old.suspended
  named := (Bunch.candidate_bound h hold).1
  other := hother

theorem Bunch.checkIdle_unreserved (h : b.checkIdle old = .ok ()) :
    ∀ x ∈ old.tree.walk [], ∀ l ∈ x.2.value.limits, l.value = 0 ∧ l.nodePaths = [] := by
  obtain ⟨_, hidle, -⟩ := Except.bind_eq_ok.mp h
  intro x hx l hl
  have hx := Except.forM_eq_ok hidle x hx
  unfold Flow.checkNode at hx
  dsimp only at hx
  split_ifs at hx
  have hl := Except.forM_eq_ok hx l hl
  split_ifs at hl with hfree
  rw [not_or, not_not, not_not] at hfree
  exact hfree

section Commit

variable (hb : b.WellFormed parse) (hold : old ∈ b.flows)
  (hcandidate : b.candidate parse old c = .ok candidate)

include hb hold hcandidate

/-- Seen from a node of another flow. -/
theorem Flow.replaces {g : Flow} (hg : g ∈ b.flows) (hobject : g.object ≠ old.object)
    (address : List String) :
    Replaces old candidate (candidate.withSuspended old.suspended) (Owner.node g address).object :=
  Bunch.replaces (hb.serials old hold) hcandidate fun _ ho =>
    Option.some.inj ho ▸ hb.name_ne hold hg hobject

theorem Bunch.replaces_root :
    Replaces old candidate (candidate.withSuspended old.suspended) (Owner.object .root) :=
  Bunch.replaces (hb.serials old hold) hcandidate fun _ ho => (nomatch ho)

omit hold in
/-- The new flow is no flow of the bunch. -/
theorem Bunch.object_ne_candidate :
    ∀ f ∈ b.flows, f.object ≠ (candidate.withSuspended old.suspended).object := by
  intro f hf heq
  have hserial := hb.serials f hf
  rw [heq, Flow.withSuspended, Bunch.candidate_object hcandidate] at hserial
  exact lt_irrefl _ hserial

omit hold hcandidate in
/-- Another flow after the assignments were made: it is the same object, and its texts are the
same. -/
theorem Flow.rebind_parsed {g g' : Flow} (hg : g ∈ b.flows)
    (h : Flow.rebind parse b old candidate g = .ok g') :
    g'.object = g.object ∧ ∀ x ∈ g'.tree.walk [], x.2.value.Parsed parse := by
  unfold Flow.rebind at h
  split_ifs at h
  · cases h
    exact ⟨rfl, hb.flows g hg⟩
  · obtain ⟨tree, htree, h⟩ := Except.bind_eq_ok.mp h
    cases h
    refine ⟨rfl, fun x' hx' => ?_⟩
    obtain ⟨x, hx, -, -, hrebind⟩ := (KeyedTree.walk_traverse htree).exists_of_mem_right hx'
    exact Node.rebind_parsed (hb.flows g hg x hx) hrebind

/-- Another flow after the assignments were made: what is anchored is moved. -/
theorem Flow.rebind_spec (hanchored : b.Anchored old) {g g' : Flow} (hg : g ∈ b.flows)
    (hobject : g.object ≠ old.object) (h : Flow.rebind parse b old candidate g = .ok g') :
    g.Rebound old (candidate.withSuspended old.suspended) g' ∧
      ∀ x ∈ g'.tree.walk [], x.2.value.Bound (Fresh old) := by
  rw [Flow.rebind, if_neg hobject] at h
  obtain ⟨tree, htree, h⟩ := Except.bind_eq_ok.mp h
  cases h
  have hspec : List.Forall₂ (fun x x' => x'.1 = x.1 ∧ x'.2.key = x.2.key ∧
      x'.2.value.Bound (Fresh old) ∧
      x.2.value.Rebound old (candidate.withSuspended old.suspended) x'.2.value)
      (g.tree.walk []) (tree.walk []) := by
    refine ((List.forall₂_and_left _ _).mpr
      ⟨fun x hx => hx, KeyedTree.walk_traverse htree⟩).imp ?_
    rintro x x' ⟨hx, haddress, hkey, hrebind⟩
    exact ⟨haddress, hkey, Node.rebind_spec (Flow.replaces hb hold hcandidate hg hobject x.1)
      (hb.flows g hg x hx) (hanchored.flows g hg hobject x hx) hrebind⟩
  refine ⟨⟨rfl, hspec.imp fun x x' h => ⟨h.1, h.2.1, h.2.2.2⟩⟩, fun x' hx' => ?_⟩
  obtain ⟨x, -, -, -, hbound, -⟩ := hspec.exists_of_mem_right hx'
  exact hbound

variable {updates : Node × List Flow}
  (hupdates : b.referenceUpdates parse old candidate = .ok updates)

include hupdates

omit hcandidate in
/-- The flows after the commit: each is the new one, or was bound anew. -/
theorem Bunch.commit_flows :
    List.Forall₂ (fun g g' => g ∈ b.flows ∧ (g.object = old.object ∧
        g' = candidate.withSuspended old.suspended ∨
        g.object ≠ old.object ∧ Flow.rebind parse b old candidate g = .ok g'))
      b.flows (b.commit old candidate updates).flows := by
  obtain ⟨root, -, hupdates⟩ := Except.bind_eq_ok.mp hupdates
  obtain ⟨flows, hflows, hupdates⟩ := Except.bind_eq_ok.mp hupdates
  cases hupdates
  refine List.forall₂_map_right_iff.mpr (((List.forall₂_and_left _ _).mpr
    ⟨fun g hg => hg, Except.forall₂_of_mapM hflows⟩).imp ?_)
  rintro g g' ⟨hg, hgg'⟩
  have hsame : g'.object = g.object := (Flow.rebind_parsed hb hg hgg').1
  refine ⟨hg, ?_⟩
  by_cases hobject : g.object = old.object
  · exact .inl ⟨hobject, if_pos (congrArg Instance.name (hsame.trans hobject))⟩
  · have hname : g'.name ≠ old.name := by
      rw [Flow.name, hsame]
      exact hb.name_ne hold hg hobject
    rw [if_neg hname]
    exact .inr ⟨hobject, hgg'⟩

/-- **The bunch stays well-formed.** -/
theorem Bunch.commit_wellFormed : (b.commit old candidate updates).WellFormed parse := by
  have hflows := Bunch.commit_flows hb hold hupdates
  have hobject : candidate.object = ⟨b.nextSerial, old.name⟩ := Bunch.candidate_object hcandidate
  refine ⟨?_, fun g' hg' => ?_, ?_, fun g' hg' => ?_⟩
  · obtain ⟨root, hroot, hupdates⟩ := Except.bind_eq_ok.mp hupdates
    obtain ⟨flows, -, hupdates⟩ := Except.bind_eq_ok.mp hupdates
    cases hupdates
    exact Node.rebind_parsed hb.root hroot
  · obtain ⟨g, -, hg, ⟨-, rfl⟩ | ⟨-, hrebind⟩⟩ := hflows.exists_of_mem_right hg'
    · have hbound := (Bunch.candidate_bound hcandidate (hb.serials old hold)).2
      exact fun x hx => (Flow.withSuspended_bound hbound x hx).1
    · exact (Flow.rebind_parsed hb hg hrebind).2
  · -- the names are the same, in the same order
    have hnames : List.Forall₂ Eq (b.flows.map Flow.name)
        ((b.commit old candidate updates).flows.map Flow.name) := by
      refine List.forall₂_map_left_iff.mpr (List.forall₂_map_right_iff.mpr (hflows.imp ?_))
      rintro g g' ⟨hg, ⟨hg', rfl⟩ | ⟨-, hrebind⟩⟩
      · rw [Flow.name, hg', Flow.name, Flow.withSuspended, hobject]
        rfl
      · rw [Flow.name, Flow.name, (Flow.rebind_parsed hb hg hrebind).1]
    rw [List.forall₂_eq_eq_eq] at hnames
    rw [← hnames]
    exact hb.names
  · obtain ⟨g, -, hg, ⟨-, rfl⟩ | ⟨-, hrebind⟩⟩ := hflows.exists_of_mem_right hg'
    · rw [Flow.withSuspended, hobject]
      exact Nat.lt_succ_self _
    · rw [(Flow.rebind_parsed hb hg hrebind).1]
      exact Nat.lt_succ_of_lt (hb.serials g hg)

/-- The node of the bunch after the commit. -/
theorem Bunch.commit_root (hanchored : b.Anchored old) :
    updates.1.Bound (Fresh old) ∧
      b.root.Rebound old (candidate.withSuspended old.suspended) updates.1 := by
  obtain ⟨root, hroot, hupdates⟩ := Except.bind_eq_ok.mp hupdates
  obtain ⟨flows, -, hupdates⟩ := Except.bind_eq_ok.mp hupdates
  cases hupdates
  exact Node.rebind_spec (Bunch.replaces_root hb hold hcandidate) hb.root hanchored.root hroot

/-- Nothing in the flows is bound to the old flow after the commit. -/
theorem Bunch.commit_fresh (hanchored : b.Anchored old) {g' : Flow}
    (hg' : g' ∈ (b.commit old candidate updates).flows) :
    ∀ x ∈ g'.tree.walk [], x.2.value.Bound (Fresh old) := by
  obtain ⟨g, -, hg, ⟨-, rfl⟩ | ⟨hobject, hrebind⟩⟩ :=
    (Bunch.commit_flows hb hold hupdates).exists_of_mem_right hg'
  · have hbound := (Bunch.candidate_bound hcandidate (hb.serials old hold)).2
    exact fun x hx => (Flow.withSuspended_bound hbound x hx).2
  · exact (Flow.rebind_spec hb hold hcandidate hanchored hg hobject hrebind).2

/-- **The effect of a replacement**, when the references to the old flow are anchored. -/
theorem Bunch.commit_replaced (hanchored : b.Anchored old)
    (hidle : b.checkIdle old = .ok ()) :
    Replaced b (b.commit old candidate updates) old (candidate.withSuspended old.suspended) where
  mem := hold
  name := by
    rw [Flow.name, Flow.withSuspended, Bunch.candidate_object hcandidate]
  flows := (Bunch.commit_flows hb hold hupdates).imp fun g g' ⟨hg, h⟩ =>
    h.imp_right fun ⟨hobject, hrebind⟩ =>
      ⟨hobject, (Flow.rebind_spec hb hold hcandidate hanchored hg hobject hrebind).1⟩
  root := (Bunch.commit_root hb hold hcandidate hupdates hanchored).2
  fresh := by
    intro n hn x hx
    rcases List.mem_cons.mp hn with rfl | hn
    · obtain ⟨t, hne⟩ :=
        (Bunch.commit_root hb hold hcandidate hupdates hanchored).1.exists_of_mem_referents hx
      exact hne
    · obtain ⟨g', hg', hn⟩ := List.mem_flatMap.mp hn
      obtain ⟨y, hy, rfl⟩ := List.mem_map.mp hn
      obtain ⟨t, hne⟩ :=
        (Bunch.commit_fresh hb hold hcandidate hupdates hanchored hg' y hy).exists_of_mem_referents hx
      exact hne
  unreserved := Bunch.checkIdle_unreserved hidle
  suspended := by
    rw [Flow.suspended, Flow.withSuspended, KeyedTree.value_mapWith, if_pos rfl]

/-- **Only anchored references are moved.** The new flow of a replacement is the candidate, since it
stands in the place of the old one; so a reference that was moved refers to a node of it, which it
does by its path. -/
theorem Bunch.anchored_of_commit_replaced {new : Flow}
    (h : Replaced b (b.commit old candidate updates) old new) : b.Anchored old := by
  have hpairs := List.Forall₂.mp (fun _ _ => And.intro)
    (Bunch.commit_flows hb hold hupdates) h.flows
  obtain ⟨root, hroot, hupdates⟩ := Except.bind_eq_ok.mp hupdates
  obtain ⟨flows, hflows, hupdates⟩ := Except.bind_eq_ok.mp hupdates
  cases hupdates
  obtain rfl : new = candidate.withSuspended old.suspended := by
    obtain ⟨g, -, ⟨-, ⟨-, hg⟩ | ⟨hobject, -⟩⟩, ⟨-, hnew⟩ | ⟨hobject', -⟩⟩ :=
      hpairs.exists_of_mem_left hold
    · exact hnew.symm.trans hg
    · exact absurd rfl hobject'
    · exact absurd rfl hobject
    · exact absurd rfl hobject
  have hnew : ∀ f ∈ b.flows, f.object ≠ (candidate.withSuspended old.suspended).object :=
    Bunch.object_ne_candidate hb hcandidate
  refine ⟨Node.anchored_of_rebound (Bunch.replaces_root hb hold hcandidate) hnew (by rintro ⟨⟩)
    hroot h.root, fun g hg hobject x hx => ?_⟩
  obtain ⟨g', -, ⟨-, ⟨heq, -⟩ | ⟨-, hrebind⟩⟩, ⟨heq, -⟩ | ⟨-, hrebound⟩⟩ :=
    hpairs.exists_of_mem_left hg
  · exact absurd heq hobject
  · exact absurd heq hobject
  · exact absurd heq hobject
  rw [Flow.rebind, if_neg hobject] at hrebind
  obtain ⟨tree, htree, hrebind⟩ := Except.bind_eq_ok.mp hrebind
  cases hrebind
  obtain ⟨x', -, ⟨-, -, hrebind⟩, -, -, hrebound⟩ := (List.Forall₂.mp (fun _ _ => And.intro)
    (KeyedTree.walk_traverse htree) hrebound.nodes).exists_of_mem_left hx
  exact Node.anchored_of_rebound (Flow.replaces hb hold hcandidate hg hobject x.1) hnew
    (fun heq => hnew g hg (Option.some.inj heq)) hrebind hrebound

end Commit

end Takler.Live
