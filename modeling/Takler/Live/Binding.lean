import Takler.Live.Objects

/-!
# What references are bound to

A reference keeps the object that its path was bound to, and is not looked up again. `Node.Bound`
says of a node that a property holds of everything its triggers and its in-limits are bound to, and
`Node.Parsed` that the trigger that was parsed is still the one that is written down.

## Main definitions

* `Flow.Named`: names are no directories, so that the path of a node leads to it.
* `Current`: what a new definition may refer to.
* `Node.Parsed`, `Node.Bound`, `Node.referents`: what a node is bound to.

## Main results

* `Bunch.build_bound`: what the nodes of a new definition are bound to.
-/

namespace Takler.Live

/-! ### Objects and texts -/

variable {b : Bunch} {f : Flow} {address : List String} {t : PathText} {x : NodeRef × Node}

/-- The names in a flow are not empty and no directories. -/
def Flow.Named (f : Flow) : Prop :=
  ∀ x ∈ f.tree.walk [], x.2.key ≠ "" ∧ x.2.key ≠ "." ∧ x.2.key ≠ ".."

theorem Flow.Named.of_mem_address (h : f.Named) {n : KeyedTree String Node}
    (hn : f.tree.find? address = some n) :
    ∀ part ∈ address, part ≠ "" ∧ part ≠ "." ∧ part ≠ ".." := by
  intro part hpart
  have hwalk := KeyedTree.mem_walk_of_find? (p := []) hn
  rw [List.append_nil] at hwalk
  obtain hpart | ⟨x, hx, rfl⟩ := KeyedTree.exists_key_of_mem_walk hwalk part hpart
  · cases hpart
  · exact h x hx

/-- The path of a node of a flow leads there. -/
theorem Flow.Named.lookup_eq_some (hf : f.Named) (h : f.lookup t = some x) :
    ∃ rest, t = "" :: f.name :: rest ∧ x.1 = ⟨some f.object, rest.reverse⟩ ∧
      (f.tree.find? rest.reverse).map KeyedTree.value = some x.2 ∧
      goAlong [] (PathText.parts rest) = some rest.reverse := by
  unfold Flow.lookup at h
  split at h
  · next part n rest =>
    split_ifs at h with hn
    obtain ⟨href, hvalue⟩ := Flow.at?_eq_some h
    refine ⟨rest, by rw [hn.1, hn.2], href, hvalue, ?_⟩
    obtain ⟨n, hn, -⟩ := Option.map_eq_some_iff.mp hvalue
    have hparts := goAlong_parts (p := []) fun part hpart =>
      hf.of_mem_address hn part (List.mem_reverse.mpr hpart)
    rwa [List.append_nil] at hparts
  · cases h

theorem Flow.lookup_flow (h : f.lookup t = some x) : x.1.flow = some f.object := by
  unfold Flow.lookup at h
  split at h
  · split_ifs at h
    rw [(Flow.at?_eq_some h).1]
  · cases h

/-- The node is not in a flow that has the name of one of the flows `os` and is another one. -/
def Current (os : List Instance) (x : NodeRef) : Prop :=
  ∀ o, x.flow = some o → o ∈ os ∨ ∀ o' ∈ os, o'.name ≠ o.name

/-- What a path of a node of new flows refers to is in them, or in a flow that has none of their
names. -/
theorem Bunch.findNew_current {fs : List Flow} (hf : f ∈ fs)
    (h : b.findNew fs (.node f address) t = .ok (some x)) : Current (fs.map Flow.object) x.1 := by
  intro o ho
  replace h := Except.mapError_eq_ok.mp h
  split at h
  · split at h
    · next y hy =>
      cases h
      obtain ⟨g, hg, hlookup⟩ := List.exists_of_findSome?_eq_some hy
      rw [Flow.lookup_flow hlookup] at ho
      exact .inl (Option.some.inj ho ▸ List.mem_map_of_mem hg)
    · split at h
      · cases h
      · next hname =>
        obtain ⟨g, -, rest, rfl, hflow, -⟩ := Bunch.findNode_points h
        obtain rfl := Option.some.inj (hflow.symm.trans ho)
        refine .inr fun o' ho' hsame => ?_
        obtain ⟨f, hf, rfl⟩ := List.mem_map.mp ho'
        exact hname ⟨f, hf, congrArg some hsame.symm⟩
  · obtain rfl := Option.some.inj ((Flow.findFrom_points h).symm.trans ho)
    exact .inl (List.mem_map_of_mem hf)

/-! ### Nodes whose references have a property -/

section Bound

variable (parse : String → Option (Ast PathText)) (P : Option PathText → NodeRef → Prop)

/-- The AST of an expression is that of its text. -/
def Expression.Parsed (e : Expression) : Prop :=
  ∀ a ∈ e.ast, parse e.expressionStr = some (a.map Reference.text)

/-- The ASTs of a node are those of its texts. -/
structure Node.Parsed (n : Node) : Prop where
  trigger : ∀ e ∈ n.trigger, e.Parsed parse
  completeTrigger : ∀ e ∈ n.completeTrigger, e.Parsed parse

instance (e : Expression) : Decidable (e.Parsed parse) :=
  inferInstanceAs (Decidable (∀ a ∈ e.ast, _))

instance (n : Node) : Decidable (n.Parsed parse) :=
  decidable_of_iff ((∀ e ∈ n.trigger, e.Parsed parse) ∧ ∀ e ∈ n.completeTrigger, e.Parsed parse)
    ⟨fun h => ⟨h.1, h.2⟩, fun h => ⟨h.trigger, h.completeTrigger⟩⟩

/-- What a reference is bound to has the property. -/
structure Reference.Bound (r : Reference) : Prop where
  target : ∀ x ∈ r.target, P (some r.text) x
  variableOf : ∀ x ∈ r.variableOf, P (some r.text) x

/-- What the references of an expression are bound to has the property. -/
def Expression.Bound (e : Expression) : Prop := ∀ a ∈ e.ast, ∀ r ∈ a.refs, r.Bound P

/-- What an in-limit is bound to has the property. -/
def InLimit.Bound (i : InLimit) : Prop := ∀ x ∈ i.limit, P i.nodePath x

/-- All that a node is bound to has the property. -/
structure Node.Bound (n : Node) : Prop where
  trigger : ∀ e ∈ n.trigger, e.Bound P
  completeTrigger : ∀ e ∈ n.completeTrigger, e.Bound P
  inLimits : ∀ i ∈ n.inLimits, i.Bound P

instance [∀ t x, Decidable (P t x)] (e : Expression) : Decidable (e.Bound P) :=
  decidable_of_iff (∀ a ∈ e.ast, ∀ r ∈ a.refs,
      (∀ x ∈ r.target, P (some r.text) x) ∧ ∀ x ∈ r.variableOf, P (some r.text) x)
    ⟨fun h a ha r hr => ⟨(h a ha r hr).1, (h a ha r hr).2⟩,
      fun h a ha r hr => ⟨(h a ha r hr).target, (h a ha r hr).variableOf⟩⟩

instance [∀ t x, Decidable (P t x)] (n : Node) : Decidable (n.Bound P) :=
  decidable_of_iff ((∀ e ∈ n.trigger, e.Bound P) ∧ (∀ e ∈ n.completeTrigger, e.Bound P) ∧
      ∀ i ∈ n.inLimits, ∀ x ∈ i.limit, P i.nodePath x)
    ⟨fun h => ⟨h.1, h.2.1, h.2.2⟩, fun h => ⟨h.trigger, h.completeTrigger, h.inLimits⟩⟩

/-- Everything that a node is bound to. -/
def Node.referents (n : Node) : List NodeRef :=
  (n.trigger.toList ++ n.completeTrigger.toList).flatMap (fun e => e.ast.toList.flatMap fun a =>
    a.refs.flatMap fun r => r.target.toList ++ r.variableOf.toList) ++
  n.inLimits.flatMap fun i => i.limit.toList

variable {parse P}
variable {Q : Option PathText → NodeRef → Prop} {n : Node}

theorem Expression.Bound.imp {e : Expression} (h : e.Bound P) (hPQ : ∀ t x, P t x → Q t x) :
    e.Bound Q := fun a ha r hr =>
  ⟨fun x hx => hPQ _ x ((h a ha r hr).target x hx),
    fun x hx => hPQ _ x ((h a ha r hr).variableOf x hx)⟩

theorem Node.Bound.imp (h : n.Bound P) (hPQ : ∀ t x, P t x → Q t x) : n.Bound Q :=
  ⟨fun e he => (h.trigger e he).imp hPQ, fun e he => (h.completeTrigger e he).imp hPQ,
    fun i hi x hx => hPQ _ x (h.inLimits i hi x hx)⟩

theorem Node.Bound.exists_of_mem_referents (h : n.Bound P) {x : NodeRef}
    (hx : x ∈ n.referents) : ∃ t, P t x := by
  unfold Node.referents at hx
  rcases List.mem_append.mp hx with hx | hx
  · obtain ⟨e, he, hx⟩ := List.mem_flatMap.mp hx
    obtain ⟨a, ha, hx⟩ := List.mem_flatMap.mp hx
    obtain ⟨r, hr, hx⟩ := List.mem_flatMap.mp hx
    have hbound : e.Bound P := by
      rcases List.mem_append.mp he with he | he
      · exact h.trigger e (Option.mem_toList.mp he)
      · exact h.completeTrigger e (Option.mem_toList.mp he)
    have hr := hbound a (Option.mem_toList.mp ha) r hr
    rcases List.mem_append.mp hx with hx | hx
    · exact ⟨_, hr.target x (Option.mem_toList.mp hx)⟩
    · exact ⟨_, hr.variableOf x (Option.mem_toList.mp hx)⟩
  · obtain ⟨i, hi, hx⟩ := List.mem_flatMap.mp hx
    exact ⟨_, h.inLimits i hi x (Option.mem_toList.mp hx)⟩

end Bound

/-! ### New flows -/

section Build

variable {parse : String → Option (Ast PathText)} {P : Option PathText → NodeRef → Prop}
  {find : PathText → Except String (Option (NodeRef × Node))}

theorem bindNew_eq_ok {t : PathText} {name : Option String} {r : Reference}
    (h : bindNew find t name = .ok r) :
    r.text = t ∧ ∃ x, find t = .ok (some x) ∧ (∀ y ∈ r.target, y = x.1) ∧
      ∀ y ∈ r.variableOf, y = x.1 := by
  unfold bindNew at h
  obtain ⟨found, hfound, h⟩ := Except.bind_eq_ok.mp h
  cases found with
  | none => cases h
  | some x =>
    dsimp only at h
    split at h
    · cases h
      exact ⟨rfl, x, hfound, by simp, by simp⟩
    · split_ifs at h
      cases h
      exact ⟨rfl, x, hfound, by simp, by simp⟩

/-- A parsed expression is bound to what was found. -/
theorem Expression.bindNew_bound {e e' : Expression} (h : e.bindNew parse find = .ok e')
    (hP : ∀ t x, find t = .ok (some x) → P (some t) x.1) : e'.Parsed parse ∧ e'.Bound P := by
  unfold Expression.bindNew at h
  split at h
  · cases h
  · next a ha =>
    obtain ⟨ast, hast, h⟩ := Except.bind_eq_ok.mp h
    cases h
    refine ⟨fun a' ha' => ?_, fun a' ha' r hr => ?_⟩
    · rw [← Option.some.inj ha', Ast.map_of_traverse (fun _ _ _ hr => (bindNew_eq_ok hr).1) hast, ha]
    · rw [← Option.some.inj ha'] at hr
      obtain ⟨t, -, name, hr⟩ := (Ast.forall₂_refs_of_traverse hast).exists_of_mem_right hr
      obtain ⟨rfl, x, hx, htarget, hvariable⟩ := bindNew_eq_ok hr
      exact ⟨fun y hy => htarget y hy ▸ hP _ x hx, fun y hy => hvariable y hy ▸ hP _ x hx⟩

theorem Flow.findLimitUp_flow {f : Flow} {name : String} : ∀ {address : List String}
    {x : NodeRef × Limit}, f.findLimitUp name address = some x → x.1.flow = some f.object
  | [], x, h => by
    obtain ⟨y, hy, h⟩ := Option.bind_eq_some_iff.mp h
    obtain ⟨l, -, rfl⟩ := Option.map_eq_some_iff.mp h
    rw [(Flow.at?_eq_some hy).1]
  | k :: up, x, h => by
    unfold Flow.findLimitUp at h
    split at h
    · next z hz =>
      obtain ⟨y, hy, hz⟩ := Option.bind_eq_some_iff.mp hz
      obtain ⟨l, -, rfl⟩ := Option.map_eq_some_iff.mp hz
      cases h
      rw [(Flow.at?_eq_some hy).1]
    · exact findLimitUp_flow h

theorem Owner.findLimitUp_flow {root : Node} {name : String} {owner : Owner}
    {x : NodeRef × Limit} (h : owner.findLimitUp root name = some x) : x.1.flow = owner.object := by
  cases owner with
  | root =>
    obtain ⟨l, -, rfl⟩ := Option.map_eq_some_iff.mp h
    rfl
  | node f address => exact Flow.findLimitUp_flow h

variable {b : Bunch} {root : Node} {fs : List Flow} {owner : Owner}

/-- An in-limit of a new node is bound to what was found. -/
theorem InLimit.bindNew_bound {i i' : InLimit} (h : i.bindNew b root fs owner = .ok i')
    (hP : ∀ t x, b.findNew fs owner t = .ok (some x) → P (some t) x.1)
    (hown : ∀ x, x.flow = owner.object → P none x) : i'.Bound P := by
  obtain ⟨target, htarget, h⟩ := Except.bind_eq_ok.mp h
  cases target with
  | none => cases h
  | some x =>
    dsimp only at h
    split_ifs at h
    cases h
    intro y hy
    obtain rfl : y = x.1 := by simpa using hy.symm
    unfold InLimit.findNew at htarget
    split at htarget
    · next hpath =>
      rw [hpath]
      exact hown _ (Owner.findLimitUp_flow (Except.ok.inj htarget))
    · next t hpath =>
      rw [hpath]
      split_ifs at htarget
      obtain ⟨found, hfound, htarget⟩ := Except.bind_eq_ok.mp htarget
      obtain ⟨z, rfl, hz⟩ := Option.bind_eq_some_iff.mp (Except.ok.inj htarget)
      obtain ⟨l, -, rfl⟩ := Option.map_eq_some_iff.mp hz
      exact hP t z hfound

/-- A new node whose expressions and in-limits were bound, in this order. -/
theorem Node.bindNew_bound {gs : List Flow} {owner' : Owner} {n n₁ n₂ : Node}
    (hobject : owner'.object = owner.object)
    (hexpressions : n.bindExpressions parse b fs owner = .ok n₁)
    (hlimits : Node.bindInLimits b root gs owner' n₁ = .ok n₂)
    (hP : ∀ t x, b.findNew fs owner t = .ok (some x) → P (some t) x.1)
    (hP' : ∀ t x, b.findNew gs owner' t = .ok (some x) → P (some t) x.1)
    (hown : ∀ x, x.flow = owner.object → P none x) : n₂.Parsed parse ∧ n₂.Bound P := by
  obtain ⟨is, his, hlimits⟩ := Except.bind_eq_ok.mp hlimits
  obtain ⟨tr, htr, hexpressions⟩ := Except.bind_eq_ok.mp hexpressions
  obtain ⟨ct, hct, hexpressions⟩ := Except.bind_eq_ok.mp hexpressions
  cases hexpressions
  cases hlimits
  have hoptional {o o' : Option Expression}
      (ho : o.mapM (Expression.bindNew parse (b.findNew fs owner)) = .ok o') :
      ∀ e ∈ o', e.Parsed parse ∧ e.Bound P := by
    intro e he
    obtain ⟨e₀, -, he⟩ := (Except.option_mapM_eq_ok ho).exists_of_mem_right he
    exact Expression.bindNew_bound he hP
  refine ⟨⟨fun e he => (hoptional htr e he).1, fun e he => (hoptional hct e he).1⟩,
    fun e he => (hoptional htr e he).2, fun e he => (hoptional hct e he).2, fun i hi => ?_⟩
  · obtain ⟨j, -, hj⟩ := (Except.forall₂_of_mapM his).exists_of_mem_right hi
    exact InLimit.bindNew_bound hj hP' (by rwa [hobject])

/-! ### Whole definitions -/

theorem Flow.traverse_eq_ok {bind : Owner → Node → Except String Node} {f f' : Flow}
    (h : f.traverse bind = .ok f') :
    f'.object = f.object ∧ List.Forall₂ (fun x x' => x'.1 = x.1 ∧ x'.2.key = x.2.key ∧
      bind (.node f x.1) x.2.value = .ok x'.2.value) (f.tree.walk []) (f'.tree.walk []) := by
  obtain ⟨tree, htree, h⟩ := Except.bind_eq_ok.mp h
  cases h
  exact ⟨rfl, KeyedTree.walk_traverse htree⟩

theorem Flow.Named.traverse {bind : Owner → Node → Except String Node} {f f' : Flow}
    (hf : f.Named) (h : f.traverse bind = .ok f') : f'.Named := by
  intro x' hx'
  obtain ⟨x, hx, -, hkey, -⟩ := (Flow.traverse_eq_ok h).2.exists_of_mem_right hx'
  rw [hkey]
  exact hf x hx

variable {d : Document} {status : PathText → NodeStatus → NodeStatus}

theorem Bunch.construct_named {f : Flow} (hf : f ∈ b.construct d status) : f.Named := by
  obtain ⟨i, hi, rfl⟩ := List.mem_mapIdx.mp hf
  intro x hx
  rw [KeyedTree.walk_mapWith] at hx
  obtain ⟨y, hy, rfl⟩ := List.mem_map.mp hx
  rw [KeyedTree.key_mapWith]
  exact d.named _ (List.getElem_mem hi) y hy

/-- Flows that were bound, one by one, are the flows as they were constructed. -/
private theorem objects_of_mapM {bind : Owner → Node → Except String Node} {fs fs' : List Flow}
    (h : List.Forall₂ (fun f f' => f.traverse bind = .ok f') fs fs') :
    fs'.map Flow.object = fs.map Flow.object := by
  induction h with
  | nil => rfl
  | cons hf _ ih => rw [List.map_cons, List.map_cons, (Flow.traverse_eq_ok hf).1, ih]

/-- The objects of the flows are those that were constructed. -/
theorem Bunch.build_objects {initial : Except String (PathText → NodeStatus → NodeStatus)}
    (h : b.build parse d initial = .ok (root, fs)) :
    ∃ status, initial = .ok status ∧
      fs.map Flow.object = (b.construct d status).map Flow.object := by
  obtain ⟨status, hstatus, h⟩ := Except.bind_eq_ok.mp h
  obtain ⟨root₁, -, h⟩ := Except.bind_eq_ok.mp h
  obtain ⟨fs₁, hfs₁, h⟩ := Except.bind_eq_ok.mp h
  obtain ⟨root₂, -, h⟩ := Except.bind_eq_ok.mp h
  obtain ⟨fs₂, hfs₂, h⟩ := Except.bind_eq_ok.mp h
  cases h
  exact ⟨status, hstatus, (objects_of_mapM (Except.forall₂_of_mapM hfs₂)).trans
    (objects_of_mapM (Except.forall₂_of_mapM hfs₁))⟩

/-- **What a new definition is bound to**: nodes of its own flows, or of flows that have none of
their names. -/
theorem Bunch.build_bound {initial : Except String (PathText → NodeStatus → NodeStatus)}
    (h : b.build parse d initial = .ok (root, fs)) :
    ∀ f ∈ fs, f.Named ∧ ∀ x ∈ f.tree.walk [],
      x.2.value.Parsed parse ∧ x.2.value.Bound fun _ => Current (fs.map Flow.object) := by
  obtain ⟨status, -, h⟩ := Except.bind_eq_ok.mp h
  obtain ⟨root₁, -, h⟩ := Except.bind_eq_ok.mp h
  obtain ⟨fs₁, hfs₁, h⟩ := Except.bind_eq_ok.mp h
  obtain ⟨root₂, -, h⟩ := Except.bind_eq_ok.mp h
  obtain ⟨fs₂, hfs₂, h⟩ := Except.bind_eq_ok.mp h
  cases h
  replace hfs₁ := Except.forall₂_of_mapM hfs₁
  replace hfs₂ := Except.forall₂_of_mapM hfs₂
  intro f hf
  obtain ⟨f₁, hf₁, hff₁⟩ := hfs₂.exists_of_mem_right hf
  obtain ⟨f₀, hf₀, hff₀⟩ := hfs₁.exists_of_mem_right hf₁
  refine ⟨((Bunch.construct_named hf₀).traverse hff₀).traverse hff₁, fun x hx => ?_⟩
  obtain ⟨x₁, hx₁, haddress₁, -, hlimits⟩ := (Flow.traverse_eq_ok hff₁).2.exists_of_mem_right hx
  obtain ⟨x₀, hx₀, -, -, hexpressions⟩ := (Flow.traverse_eq_ok hff₀).2.exists_of_mem_right hx₁
  rw [objects_of_mapM hfs₂]
  have hobject : f₁.object = f₀.object := (Flow.traverse_eq_ok hff₀).1
  have hown : (Owner.node f₁ x₁.1).object = (Owner.node f₀ x₀.1).object := congrArg some hobject
  refine Node.bindNew_bound hown hexpressions hlimits (fun t y hy => ?_)
    (fun t y hy => Bunch.findNew_current hf₁ hy) fun y hy o ho => .inl ?_
  · rw [objects_of_mapM hfs₁]
    exact Bunch.findNew_current hf₀ hy
  · rw [← Option.some.inj (hy.symm.trans ho), ← hobject]
    exact List.mem_map_of_mem hf₁

end Build

end Takler.Live
