import Takler.Lib.Program
import Takler.Live.Binding

/-!
# Replacing a flow

`replace_flow` (`server/flow_replace.py`) builds a candidate from a definition, computes what the
triggers and in-limits of the other flows have to be bound to when the candidate takes the place of
the old flow, makes sure that the old flow is idle, and then commits. It is a program over the bunch
that raises as the source does; what the source prepares as a list of assignments is here the list
of the nodes with these assignments made.

It goes by the texts of paths, not by the objects that these are bound to. So a node of another
flow is bound to nothing in the old flow any more (`Fresh`), and what was bound to a node of it is
bound to the node at the same path in the new flow (`Node.Rebound`), exactly when whatever is bound
to a node of the old flow is written as the path of that node (`Anchored`).

## Main definitions

* `Bunch.target`, `Bunch.checkIdle`, `Bunch.referenceUpdates`, `replaceFlow`: the source.
* `Anchored`: the text is the path of the node of the old flow to which it is bound.
* `Node.Rebound`: a node before and after another flow is replaced.

## Main results

* `Bunch.resolve_fresh`, `Bunch.resolve_moved`: what a path refers to once the candidate is there.
* `Node.rebind_spec`: the references of a node after a replacement.
* `Node.anchored_of_rebound`: they are moved only if they were anchored.
* `replaceFlow_cases`: a replacement raises and has changed nothing, or has committed.
-/

namespace Takler.Live

/-! ### The target -/

/-- `_target`. -/
def Bunch.target (b : Bunch) (t : PathText) : Except Failure Flow :=
  if ¬ t.isAbsolute ∨ (t.tail.any fun part => part = "" || part = "." || part = "..") ∨
      (t.any fun part => part.toList.any fun c => c = ':' || c = '\x00') then
    .error (.invalidNodePath "invalid replace target path")
  else do
    match ← b.findNode t with
    | none => throw (.nodeNotFound "replace target not found")
    | some (r, _) =>
      match r.path, (t[1]?).bind b.flow? with
      | [], some f => return f
      | _, _ => throw (.nodeType "replace target must be a Flow")

/-- The first loop of `_check_idle`, for one node. -/
def Flow.checkNode (old : Flow) (x : List String × KeyedTree String Node) :
    Except Failure Unit :=
  let path := (nodePath old.name x.1).text
  if x.2.value.status = .active ∨ x.2.value.status = .submitted then
    .error (.flowState ("replace blocked by running node: " ++ path))
  else
    x.2.value.limits.forM fun l =>
      if l.value ≠ 0 ∨ l.nodePaths ≠ [] then
        .error (.flowState ("replace blocked by occupied limit: " ++ path ++ ":" ++ l.name))
      else .ok ()

/-- The second loop of `_check_idle`, for one node. -/
def Flow.checkReservations (old : Flow) (path : PathText) (n : Node) : Except Failure Unit :=
  n.limits.forM fun l =>
    if l.nodePaths.any (PathText.isWithin old.name) then
      .error (.flowState ("replace blocked by reservation: " ++ path.text ++ ":" ++ l.name))
    else .ok ()

/-- `_check_idle`. -/
def Bunch.checkIdle (b : Bunch) (old : Flow) : Except Failure Unit := do
  (old.tree.walk []).forM old.checkNode
  old.checkReservations ["", b.name] b.root
  b.flows.forM fun f =>
    (f.tree.walk []).forM fun x => old.checkReservations (nodePath f.name x.1) x.2.value

/-! ### References to the candidate -/

/-- `resolve`: what a path refers to once the candidate is there, and whether that is in it. -/
def Bunch.resolve (b : Bunch) (old candidate : Flow) (owner : Owner) (t : PathText) :
    Except Failure (Option (NodeRef × Node) × Bool) :=
  if t.isAbsolute then
    if t.isWithin old.name then .ok (candidate.lookup t, true)
    else do return (← b.findNode t, false)
  else do
    match ← owner.findNode b t with
    | some x =>
      if x.1.flow.map Instance.name = some old.name then return (candidate.at? x.1.path, true)
      else return (some x, false)
    | none => return (none, false)

section Rebind

theorem map_filter_eq_none_or {α β : Type} (f : α → β) (p : α → Bool) (o : Option α) :
    (o.filter p).map f = none ∨ (o.filter p).map f = o.map f := by
  cases o with
  | none => exact .inl rfl
  | some a =>
    rw [Option.filter_some]
    split_ifs
    · exact .inr rfl
    · exact .inl rfl

variable (resolve : PathText → Except Failure (Option (NodeRef × Node) × Bool))

/-- `bind` for one path of an expression. -/
def rebind (t : PathText) (variableName : Option String) : Except Failure (Reference × Bool) := do
  let (target, affected) ← resolve t
  if affected ∧ target.isNone then
    throw (.invalidRequest "replacement removes a referenced node")
  else
    match variableName with
    | none => return ({ text := t, target := target.map Prod.fst }, affected)
    | some name =>
      let variableOf := target.filter fun x => name ∈ x.2.variableNames
      if affected ∧ variableOf.isNone then
        throw (.invalidRequest "replacement removes a referenced variable")
      else
        return ({ text := t, target := target.map Prod.fst, variableOf := variableOf.map Prod.fst,
                  kept := map_filter_eq_none_or _ _ _ }, affected)

variable (parse : String → Option (Ast PathText))

/-- The new AST of an expression, when a reference in it is affected. -/
def Expression.rebind (e : Expression) : Except Failure Expression :=
  match parse e.expressionStr with
  | none => .ok e
  | some a => do
    let ast ← a.traverse (Live.rebind resolve)
    if ast.refs.any Prod.snd then return { e with ast := some (ast.map Prod.fst) } else return e

/-- The new limit of an in-limit, when it is affected. -/
def InLimit.rebind (i : InLimit) : Except Failure InLimit :=
  match i.nodePath with
  | none => .ok i
  | some t => do
    let (target, affected) ← resolve t
    if affected then
      match target.bind fun x => (x.2.findLimit i.limitName).map fun l => (x.1, l) with
      | none => throw (.invalidRequest "replacement invalidates an in-limit reference")
      | some (r, l) =>
        if i.tokens > l.limit then
          throw (.invalidRequest "replacement invalidates an in-limit reference")
        else return { i with limit := some r }
    else return i

/-- The assignments of `_reference_updates` to one node. -/
def Node.rebind (n : Node) : Except Failure Node := do
  let inLimits ← n.inLimits.mapM (InLimit.rebind resolve)
  let trigger ← n.trigger.mapM (Expression.rebind resolve parse)
  let completeTrigger ← n.completeTrigger.mapM (Expression.rebind resolve parse)
  return { n with inLimits, trigger, completeTrigger }

end Rebind

/-! ### The references after a replacement -/

/-- A candidate that takes the place of a flow and becomes the flow `new`, seen from a node of the
flow `own`. -/
structure Replaces (old candidate new : Flow) (own : Option Instance) : Prop where
  name : candidate.name = old.name
  fresh : candidate.object ≠ old.object
  object : new.object = candidate.object
  limits : ∀ {address n}, candidate.tree.find? address = some n →
    ∃ n', new.tree.find? address = some n' ∧ n'.value.limits = n.value.limits
  named : candidate.Named
  other : ∀ o, own = some o → o.name ≠ old.name

section Resolve

variable {b : Bunch} {old candidate new : Flow} {owner : Owner} {t : PathText}
  {res : Option (NodeRef × Node) × Bool}

/-- What a relative path refers to is in the flow of the node. -/
theorem Bunch.resolve_relative (h : Replaces old candidate new owner.object)
    (habs : ¬ t.isAbsolute = true) (hres : b.resolve old candidate owner t = .ok res)
    {x : NodeRef × Node} (hx : x ∈ res.1) : ∃ o, owner.object = some o ∧ x.1.flow = some o := by
  rw [Bunch.resolve, if_neg habs] at hres
  obtain ⟨found, hfound, hres⟩ := Except.bind_eq_ok.mp hres
  cases owner with
  | root => simp [Owner.findNode, Bunch.findNode, habs] at hfound
  | node g address =>
    cases found with
    | none =>
      cases hres
      cases hx
    | some y =>
      have hflow : y.1.flow = some g.object := Flow.findFrom_points hfound
      have hne : ¬ y.1.flow.map Instance.name = some old.name := by
        rw [hflow]
        exact fun hname => h.other g.object rfl (Option.some.inj hname)
      dsimp only at hres
      rw [if_neg hne] at hres
      cases hres
      cases hx
      exact ⟨g.object, rfl, hflow⟩

/-- What a path refers to is not in the old flow. -/
theorem Bunch.resolve_fresh (h : Replaces old candidate new owner.object)
    (hres : b.resolve old candidate owner t = .ok res) {x : NodeRef × Node} (hx : x ∈ res.1) :
    x.1.flow ≠ some old.object := by
  intro hold
  by_cases habs : t.isAbsolute = true
  swap
  · obtain ⟨g, hg, hflow⟩ := Bunch.resolve_relative h habs hres hx
    exact h.other g hg (congrArg Instance.name (Option.some.inj (hflow.symm.trans hold)))
  rw [Bunch.resolve, if_pos habs] at hres
  split_ifs at hres with hwithin
  · cases hres
    exact h.fresh (Option.some.inj ((Flow.lookup_flow hx).symm.trans hold))
  · obtain ⟨found, hfound, hres⟩ := Except.bind_eq_ok.mp hres
    cases hres
    obtain rfl : found = some x := hx
    obtain ⟨f, -, rest, rfl, hflow, -⟩ := Bunch.findNode_points hfound
    have hobject : f.object = old.object := Option.some.inj (hflow.symm.trans hold)
    exact hwithin (by simp [PathText.isWithin, Flow.name, hobject])

variable (old) in
/-- What is bound to a node of the old flow is written as the path of that node. -/
def Anchored (text : Option PathText) (x : NodeRef) : Prop :=
  x.flow = some old.object →
    ∃ rest, text = some ("" :: old.name :: rest) ∧ goAlong [] (PathText.parts rest) = some x.path

instance (text : Option PathText) (x : NodeRef) : Decidable (Anchored old text x) :=
  decidable_of_iff (x.flow = some old.object → text.map (List.take 2) = some ["", old.name] ∧
      goAlong [] (PathText.parts ((text.getD []).drop 2)) = some x.path)
    (imp_congr_right fun _ => by rcases text with _ | _ | ⟨_, _ | ⟨_, _⟩⟩ <;> simp [and_assoc])

/-- A path that is anchored in the old flow refers to the node at the same place. -/
theorem Bunch.resolve_moved (h : Replaces old candidate new owner.object)
    (hres : b.resolve old candidate owner t = .ok res) {y : NodeRef}
    (hy : Anchored old (some t) y) (hflow : y.flow = some old.object) :
    res.2 = true ∧ ∀ x ∈ res.1, x.1 = ⟨some candidate.object, y.path⟩ ∧
      (candidate.tree.find? y.path).map KeyedTree.value = some x.2 := by
  obtain ⟨rest, htext, hpath⟩ := hy hflow
  obtain rfl := Option.some.inj htext
  have hwithin : PathText.isWithin old.name ("" :: old.name :: rest) = true := by
    simp [PathText.isWithin]
  unfold Bunch.resolve at hres
  rw [if_pos (by simp [PathText.isAbsolute]), if_pos hwithin] at hres
  cases hres
  refine ⟨rfl, fun x hx => ?_⟩
  have hlookup : candidate.lookup ("" :: old.name :: rest) = some x := hx
  obtain ⟨rest', htext', href, hvalue, hpath'⟩ := h.named.lookup_eq_some hlookup
  obtain ⟨-, rfl⟩ : old.name = candidate.name ∧ rest = rest' := by simpa using htext'
  have hsame : rest.reverse = y.path := Option.some.inj (hpath'.symm.trans hpath)
  rw [← hsame]
  exact ⟨href, hvalue⟩

/-- A path that refers to a node of the new flow is that of the node. -/
theorem Bunch.anchored_of_resolve (h : Replaces old candidate new owner.object)
    (hnew : ∀ f ∈ b.flows, f.object ≠ new.object) (howner : owner.object ≠ some new.object)
    (hres : b.resolve old candidate owner t = .ok res) {x : NodeRef × Node} (hx : x ∈ res.1)
    {y : NodeRef} (hy : x.1 = ⟨some new.object, y.path⟩) : Anchored old (some t) y := by
  intro _
  by_cases habs : t.isAbsolute = true
  swap
  · obtain ⟨o, ho, hflow⟩ := Bunch.resolve_relative h habs hres hx
    rw [hy] at hflow
    exact absurd (ho.trans hflow.symm) howner
  rw [Bunch.resolve, if_pos habs] at hres
  split_ifs at hres
  · cases hres
    obtain ⟨rest, rfl, href, -, hpath⟩ := h.named.lookup_eq_some hx
    rw [href] at hy
    have hsame : rest.reverse = y.path := congrArg NodeRef.path hy
    exact ⟨rest, by rw [h.name], hsame ▸ hpath⟩
  · obtain ⟨found, hfound, hres⟩ := Except.bind_eq_ok.mp hres
    cases hres
    obtain rfl : found = some x := hx
    obtain ⟨f, hf, -, -, hflow, -⟩ := Bunch.findNode_points hfound
    rw [hy] at hflow
    exact absurd (Option.some.inj hflow).symm (hnew f hf)

end Resolve

/-! ### Nodes of other flows -/

section Rebound

variable (old new : Flow)

/-- What was bound to a node of the old flow is bound to the node at the same address of the new
one. -/
def Moved (y y' : Option NodeRef) : Prop :=
  ∀ x ∈ y, x.flow = some old.object →
    y' = some ⟨some new.object, x.path⟩ ∧ (new.tree.find? x.path).isSome

/-- A reference before and after. The variable is looked up whenever it is read. -/
structure Reference.Rebound (r r' : Reference) : Prop where
  text : r'.text = r.text
  target : Moved old new r.target r'.target

/-- An expression before and after. -/
structure Expression.Rebound (e e' : Expression) : Prop where
  written : e'.expressionStr = e.expressionStr
  references : ∀ a ∈ e.ast, ∃ a' ∈ e'.ast,
    a'.map Reference.text = a.map Reference.text ∧
      List.Forall₂ (Reference.Rebound old new) a.refs a'.refs

/-- An in-limit before and after; the new limit has its name and enough tokens. -/
structure InLimit.Rebound (i i' : InLimit) : Prop where
  written : i' = { i with limit := i'.limit }
  limit : Moved old new i.limit i'.limit
  tokens : ∀ x ∈ i.limit, x.flow = some old.object →
    ∃ n l, new.tree.find? x.path = some n ∧ n.value.findLimit i.limitName = some l ∧
      i.tokens ≤ l.limit

/-- A node before and after: only the objects that it is bound to are others. -/
structure Node.Rebound (n n' : Node) : Prop where
  rest : n' = { n with
    inLimits := n'.inLimits, trigger := n'.trigger, completeTrigger := n'.completeTrigger }
  inLimits : List.Forall₂ (InLimit.Rebound old new) n.inLimits n'.inLimits
  trigger : Option.Rel (Expression.Rebound old new) n.trigger n'.trigger
  completeTrigger : Option.Rel (Expression.Rebound old new) n.completeTrigger n'.completeTrigger

end Rebound

section Rebind

variable {parse : String → Option (Ast PathText)} {b : Bunch} {old candidate new : Flow}
  {owner : Owner}

/-- What a node may be bound to when the old flow has gone. -/
def Fresh (old : Flow) (_ : Option PathText) (x : NodeRef) : Prop := x.flow ≠ some old.object

theorem rebind_eq_ok {resolve : PathText → Except Failure (Option (NodeRef × Node) × Bool)}
    {t : PathText} {name : Option String} {r : Reference × Bool}
    (h : rebind resolve t name = .ok r) :
    r.1.text = t ∧ ∃ target, resolve t = .ok (target, r.2) ∧ r.1.target = target.map Prod.fst ∧
      (∀ y ∈ r.1.variableOf, ∃ x ∈ target, y = x.1) ∧ (r.2 = true → target.isSome) := by
  obtain ⟨⟨target, affected⟩, hresolve, h⟩ := Except.bind_eq_ok.mp h
  dsimp only at h
  split_ifs at h with hgone
  have hsome : affected = true → target.isSome = true := fun ha =>
    Option.isSome_iff_ne_none.mpr fun hnone => hgone ⟨ha, by rw [hnone]; rfl⟩
  cases name with
  | none =>
    cases h
    exact ⟨rfl, target, hresolve, rfl, by simp, hsome⟩
  | some name =>
    dsimp only at h
    split_ifs at h
    cases h
    refine ⟨rfl, target, hresolve, rfl, fun y hy => ?_, hsome⟩
    obtain ⟨x, hx, rfl⟩ := Option.map_eq_some_iff.mp hy
    exact ⟨x, (Option.filter_eq_some_iff.mp hx).1, rfl⟩

variable {r : Reference × Bool} {t : PathText} {name : Option String}

theorem rebind_fresh (h : Replaces old candidate new owner.object)
    (hr : rebind (b.resolve old candidate owner) t name = .ok r) :
    r.1.Bound (Fresh old) := by
  obtain ⟨rfl, target, hresolve, htarget, hvariable, -⟩ := rebind_eq_ok hr
  constructor
  · intro y hy
    rw [htarget] at hy
    obtain ⟨x, hx, rfl⟩ := Option.map_eq_some_iff.mp hy
    exact Bunch.resolve_fresh h hresolve hx
  · intro y hy
    obtain ⟨x, hx, rfl⟩ := hvariable y hy
    exact Bunch.resolve_fresh h hresolve hx

/-- A reference that is anchored in the old flow is affected, and moved. -/
theorem rebind_moved (h : Replaces old candidate new owner.object)
    (hr : rebind (b.resolve old candidate owner) t name = .ok r) {y : NodeRef}
    (hy : Anchored old (some t) y) (hflow : y.flow = some old.object) :
    r.2 = true ∧ r.1.target = some ⟨some new.object, y.path⟩ ∧
      (new.tree.find? y.path).isSome := by
  obtain ⟨rfl, target, hresolve, htarget, -, hsome⟩ := rebind_eq_ok hr
  obtain ⟨haffected, hmoved⟩ := Bunch.resolve_moved h hresolve hy hflow
  obtain ⟨x, rfl⟩ := Option.isSome_iff_exists.mp (hsome haffected)
  obtain ⟨href, hvalue⟩ := hmoved x rfl
  refine ⟨haffected, by rw [htarget, Option.map_some, href, h.object], ?_⟩
  obtain ⟨n, hn, -⟩ := Option.map_eq_some_iff.mp hvalue
  obtain ⟨n', hn', -⟩ := h.limits hn
  rw [hn']
  rfl

/-- A reference to the new flow is anchored in the old one. -/
theorem anchored_of_rebind (h : Replaces old candidate new owner.object)
    (hnew : ∀ f ∈ b.flows, f.object ≠ new.object) (howner : owner.object ≠ some new.object)
    (hr : rebind (b.resolve old candidate owner) t name = .ok r) {y : NodeRef}
    (hy : r.1.target = some ⟨some new.object, y.path⟩) : Anchored old (some t) y := by
  obtain ⟨rfl, target, hresolve, htarget, -, -⟩ := rebind_eq_ok hr
  rw [htarget] at hy
  obtain ⟨x, hx, href⟩ := Option.map_eq_some_iff.mp hy
  exact Bunch.anchored_of_resolve h hnew howner hresolve hx href

/-! ### Expressions and in-limits -/

theorem text_of_traverse_rebind
    {resolve : PathText → Except Failure (Option (NodeRef × Node) × Bool)} {a : Ast PathText}
    {ast : Ast (Reference × Bool)} (h : a.traverse (Live.rebind resolve) = .ok ast) :
    ast.map (Reference.text ∘ Prod.fst) = a :=
  Ast.map_of_traverse (fun _ _ _ hr => (rebind_eq_ok hr).1) h

theorem Expression.rebind_parsed {resolve : PathText → Except Failure (Option (NodeRef × Node) × Bool)}
    {e e' : Expression} (he : e.Parsed parse) (hr : e.rebind resolve parse = .ok e') :
    e'.Parsed parse := by
  unfold Expression.rebind at hr
  split at hr
  · exact Except.ok.inj hr ▸ he
  · next a hparse =>
    obtain ⟨ast, hast, hr⟩ := Except.bind_eq_ok.mp hr
    split_ifs at hr
    · cases hr
      intro a' ha'
      rw [← Option.some.inj ha', Ast.map_map, text_of_traverse_rebind hast, hparse]
    · exact Except.ok.inj hr ▸ he

/-- The references of an expression after a replacement. -/
theorem Expression.rebind_spec (h : Replaces old candidate new owner.object) {e e' : Expression}
    (hparsed : e.Parsed parse) (he : e.Bound (Anchored old))
    (hr : e.rebind (b.resolve old candidate owner) parse = .ok e') :
    e'.Bound (Fresh old) ∧ e.Rebound old new e' := by
  unfold Expression.rebind at hr
  split at hr
  · next hparse =>
    -- what does not parse has never been bound
    cases hr
    have hnone : ∀ a ∈ e.ast, False := fun a ha => by simpa [hparse] using hparsed a ha
    exact ⟨fun a ha => (hnone a ha).elim, rfl, fun a ha => (hnone a ha).elim⟩
  · next a hparse =>
    obtain ⟨ast, hast, hr⟩ := Except.bind_eq_ok.mp hr
    have hrefs := Ast.forall₂_refs_of_traverse hast
    have htexts := text_of_traverse_rebind hast
    -- the references before, with those after
    have hpairs : ∀ a₀ ∈ e.ast, List.Forall₂ (fun r r' => r.Bound (Anchored old) ∧
        ∃ name, Live.rebind (b.resolve old candidate owner) r.text name = .ok r')
        a₀.refs ast.refs := by
      intro a₀ ha₀
      have htext : a₀.map Reference.text = a :=
        Option.some.inj ((hparsed a₀ ha₀).symm.trans hparse)
      rw [← htext, Ast.refs_map, List.forall₂_map_left_iff] at hrefs
      exact (List.forall₂_and_left _ _).mpr ⟨he a₀ ha₀, hrefs⟩
    split_ifs at hr with hany
    · cases hr
      refine ⟨fun a' ha' r hr => ?_, rfl, fun a₀ ha₀ => ⟨_, rfl, ?_, ?_⟩⟩
      · rw [← Option.some.inj ha', Ast.refs_map] at hr
        obtain ⟨p, hp, rfl⟩ := List.mem_map.mp hr
        obtain ⟨t, -, name, hp⟩ := hrefs.exists_of_mem_right hp
        exact rebind_fresh h hp
      · rw [Ast.map_map, htexts]
        exact Option.some.inj (hparse.symm.trans (hparsed a₀ ha₀))
      · rw [Ast.refs_map, List.forall₂_map_right_iff]
        exact (hpairs a₀ ha₀).imp fun r r' ⟨hb, name, hr⟩ => ⟨(rebind_eq_ok hr).1,
          fun x hx hflow => (rebind_moved h hr (hb.target x hx) hflow).2⟩
    · -- no reference is affected: none was bound to the old flow
      cases hr
      have hother : ∀ a₀ ∈ e.ast, ∀ r ∈ a₀.refs, ∀ x, Anchored old (some r.text) x →
          x.flow ≠ some old.object := by
        intro a₀ ha₀ r hr x hx hflow
        obtain ⟨r', hr', -, name, hrebind⟩ := (hpairs a₀ ha₀).exists_of_mem_left hr
        exact hany (List.any_eq_true.mpr ⟨r', hr', (rebind_moved h hrebind hx hflow).1⟩)
      refine ⟨fun a₀ ha₀ r hr => ?_, rfl, fun a₀ ha₀ => ⟨a₀, ha₀, rfl, ?_⟩⟩
      · have hb := he a₀ ha₀ r hr
        exact ⟨fun x hx => hother a₀ ha₀ r hr x (hb.target x hx),
          fun x hx => hother a₀ ha₀ r hr x (hb.variableOf x hx)⟩
      · refine List.forall₂_same.mpr fun r hr => ⟨rfl, fun x hx hflow => ?_⟩
        have hx := (he a₀ ha₀ r hr).target x hx
        exact absurd hflow (hother a₀ ha₀ r hr x hx)

/-- The limit of an in-limit after a replacement. -/
theorem InLimit.rebind_spec (h : Replaces old candidate new owner.object) {i i' : InLimit}
    (hi : i.Bound (Anchored old)) (hr : i.rebind (b.resolve old candidate owner) = .ok i') :
    i'.Bound (Fresh old) ∧ i.Rebound old new i' := by
  -- an in-limit that was not bound to the old flow may stay as it is
  have hkept (hother : ∀ x ∈ i.limit, x.flow ≠ some old.object) :
      i.Bound (Fresh old) ∧ i.Rebound old new i :=
    ⟨hother, rfl, fun x hx hflow => absurd hflow (hother x hx),
      fun x hx hflow => absurd hflow (hother x hx)⟩
  unfold InLimit.rebind at hr
  split at hr
  · next hpath =>
    cases hr
    refine hkept fun x hx hflow => ?_
    obtain ⟨rest, htext, -⟩ := hi x hx hflow
    cases hpath.symm.trans htext
  · next t hpath =>
    have hanchored : ∀ x ∈ i.limit, Anchored old (some t) x := fun x hx => hpath ▸ hi x hx
    obtain ⟨⟨target, affected⟩, hresolve, hr⟩ := Except.bind_eq_ok.mp hr
    dsimp only at hr
    split_ifs at hr with haffected
    · split at hr
      · cases hr
      · next r l hlimit =>
        split_ifs at hr with htokens
        cases hr
        obtain ⟨x, rfl, hx⟩ := Option.bind_eq_some_iff.mp hlimit
        obtain ⟨l, hl, heq⟩ := Option.map_eq_some_iff.mp hx
        cases heq
        have hmoved (y : NodeRef) (hy : y ∈ i.limit) (hflow : y.flow = some old.object) :=
          (Bunch.resolve_moved h hresolve (hanchored y hy) hflow).2 x rfl
        refine ⟨fun y hy => ?_, rfl, fun y hy hflow => ?_, fun y hy hflow => ?_⟩
        · cases hy
          rw [hpath]
          exact Bunch.resolve_fresh h hresolve rfl
        · obtain ⟨href, hvalue⟩ := hmoved y hy hflow
          obtain ⟨n, hn, -⟩ := Option.map_eq_some_iff.mp hvalue
          obtain ⟨n', hn', -⟩ := h.limits hn
          exact ⟨by rw [href, h.object], by rw [hn']; rfl⟩
        · obtain ⟨-, hvalue⟩ := hmoved y hy hflow
          obtain ⟨n, hn, hnx⟩ := Option.map_eq_some_iff.mp hvalue
          obtain ⟨n', hn', hlimits⟩ := h.limits hn
          refine ⟨n', l, hn', ?_, not_lt.mp htokens⟩
          rw [Node.findLimit, hlimits, hnx]
          exact hl
    · cases hr
      exact hkept fun x hx hflow =>
        haffected (Bunch.resolve_moved h hresolve (hanchored x hx) hflow).1

/-- The expression of a node, if there is one, after a replacement. -/
theorem Expression.rebind_optional (h : Replaces old candidate new owner.object)
    {o o' : Option Expression} (hparsed : ∀ e ∈ o, e.Parsed parse)
    (ho : ∀ e ∈ o, e.Bound (Anchored old))
    (hr : o.mapM (Expression.rebind (b.resolve old candidate owner) parse) = .ok o') :
    (∀ e ∈ o', e.Bound (Fresh old)) ∧ Option.Rel (Expression.Rebound old new) o o' := by
  cases Except.option_mapM_eq_ok hr with
  | none => exact ⟨fun e he => (nomatch he), .none⟩
  | @some e e' hee' =>
    obtain ⟨hbound, hrebound⟩ := Expression.rebind_spec h (hparsed e rfl) (ho e rfl) hee'
    refine ⟨fun e he => ?_, .some hrebound⟩
    cases he
    exact hbound

theorem Node.rebind_parsed {resolve : PathText → Except Failure (Option (NodeRef × Node) × Bool)}
    {n n' : Node} (hn : n.Parsed parse) (hr : n.rebind resolve parse = .ok n') : n'.Parsed parse := by
  obtain ⟨is, -, hr⟩ := Except.bind_eq_ok.mp hr
  obtain ⟨tr, htr, hr⟩ := Except.bind_eq_ok.mp hr
  obtain ⟨ct, hct, hr⟩ := Except.bind_eq_ok.mp hr
  cases hr
  refine ⟨fun e he => ?_, fun e he => ?_⟩
  · obtain ⟨e₀, he₀, he⟩ := (Except.option_mapM_eq_ok htr).exists_of_mem_right he
    exact Expression.rebind_parsed (hn.trigger e₀ he₀) he
  · obtain ⟨e₀, he₀, he⟩ := (Except.option_mapM_eq_ok hct).exists_of_mem_right he
    exact Expression.rebind_parsed (hn.completeTrigger e₀ he₀) he

/-- **A node of another flow after a replacement**: what is anchored is moved, and nothing is bound
to the old flow any more. -/
theorem Node.rebind_spec (h : Replaces old candidate new owner.object) {n n' : Node}
    (hparsed : n.Parsed parse) (hn : n.Bound (Anchored old))
    (hr : n.rebind (b.resolve old candidate owner) parse = .ok n') :
    n'.Bound (Fresh old) ∧ n.Rebound old new n' := by
  obtain ⟨is, his, hr⟩ := Except.bind_eq_ok.mp hr
  obtain ⟨tr, htr, hr⟩ := Except.bind_eq_ok.mp hr
  obtain ⟨ct, hct, hr⟩ := Except.bind_eq_ok.mp hr
  cases hr
  have hlimits := (List.forall₂_and_left _ _).mpr ⟨hn.inLimits, Except.forall₂_of_mapM his⟩
  obtain ⟨htr, htr'⟩ := Expression.rebind_optional h hparsed.trigger hn.trigger htr
  obtain ⟨hct, hct'⟩ := Expression.rebind_optional h hparsed.completeTrigger hn.completeTrigger hct
  refine ⟨⟨htr, hct, fun i hi => ?_⟩, rfl, ?_, htr', hct'⟩
  · obtain ⟨j, -, hj, hji⟩ := hlimits.exists_of_mem_right hi
    exact (InLimit.rebind_spec h hj hji).1
  · exact hlimits.imp fun i j hij => (InLimit.rebind_spec h hij.1 hij.2).2

/-! ### What is moved was anchored -/

/-- What stays as it is was not bound to the old flow. -/
theorem Replaces.not_moved_self {own : Option Instance} (h : Replaces old candidate new own)
    {y : Option NodeRef} (hmoved : Moved old new y y) : ∀ x ∈ y, x.flow ≠ some old.object := by
  intro x hx hflow
  have heq : x = ⟨some new.object, x.path⟩ := Option.some.inj (hx.symm.trans (hmoved x hx hflow).1)
  have hobject := Option.some.inj ((congrArg NodeRef.flow heq).symm.trans hflow)
  exact h.fresh (h.object.symm.trans hobject)

section Anchored

variable (h : Replaces old candidate new owner.object) (hnew : ∀ f ∈ b.flows, f.object ≠ new.object)
  (howner : owner.object ≠ some new.object)

include h hnew howner

/-- A reference that stays as it is was not bound to the old flow; any other refers to the new one by
its path. -/
theorem Expression.anchored_of_rebound {e e' : Expression}
    (hr : e.rebind (b.resolve old candidate owner) parse = .ok e')
    (hrebound : e.Rebound old new e') : e.Bound (Anchored old) := by
  have htarget : ∀ a ∈ e.ast, ∀ r ∈ a.refs, ∀ x ∈ r.target, Anchored old (some r.text) x := by
    intro a ha r hr' x hx hflow
    obtain ⟨a', ha', -, hrefs⟩ := hrebound.references a ha
    -- an expression that stays as it is has the same references before and after
    have hsame (heq : e' = e) : False := by
      rw [heq] at ha'
      obtain rfl : a = a' := Option.some.inj (ha.symm.trans ha')
      exact h.not_moved_self (List.forall₂_same.mp hrefs r hr').target x hx hflow
    unfold Expression.rebind at hr
    split at hr
    · exact (hsame (Except.ok.inj hr).symm).elim
    · next ast hparse =>
      obtain ⟨ast', hast, hr⟩ := Except.bind_eq_ok.mp hr
      split_ifs at hr
      · cases hr
        obtain rfl := Option.some.inj ha'
        obtain ⟨r', hr'', htext, hmoved⟩ := hrefs.exists_of_mem_left hr'
        rw [Ast.refs_map] at hr''
        obtain ⟨p, hp, rfl⟩ := List.mem_map.mp hr''
        obtain ⟨t, -, name, hp⟩ := (Ast.forall₂_refs_of_traverse hast).exists_of_mem_right hp
        obtain rfl : r.text = t := htext.symm.trans (rebind_eq_ok hp).1
        exact anchored_of_rebind h hnew howner hp (hmoved x hx hflow).1 hflow
      · exact (hsame (Except.ok.inj hr).symm).elim
  refine fun a ha r hr' => ⟨htarget a ha r hr', fun x hx => htarget a ha r hr' x ?_⟩
  -- a variable is that of the node
  rcases r.kept with hnone | hkept
  · cases hnone.symm.trans hx
  · exact hkept ▸ hx

theorem InLimit.anchored_of_rebound {i i' : InLimit}
    (hr : i.rebind (b.resolve old candidate owner) = .ok i') (hrebound : i.Rebound old new i') :
    i.Bound (Anchored old) := by
  intro x hx hflow
  have hmoved := (hrebound.limit x hx hflow).1
  have hsame (heq : i' = i) : False := h.not_moved_self (heq ▸ hrebound).limit x hx hflow
  unfold InLimit.rebind at hr
  split at hr
  · exact (hsame (Except.ok.inj hr).symm).elim
  · next t hpath =>
    rw [hpath]
    obtain ⟨⟨target, affected⟩, hresolve, hr⟩ := Except.bind_eq_ok.mp hr
    dsimp only at hr
    split_ifs at hr
    · split at hr
      · cases hr
      · next z l hlimit =>
        split_ifs at hr
        cases hr
        obtain ⟨y, rfl, hy⟩ := Option.bind_eq_some_iff.mp hlimit
        obtain ⟨l, -, heq⟩ := Option.map_eq_some_iff.mp hy
        cases heq
        exact Bunch.anchored_of_resolve h hnew howner hresolve rfl (Option.some.inj hmoved) hflow
    · exact (hsame (Except.ok.inj hr).symm).elim

theorem Expression.anchored_of_rebound_optional {o o' : Option Expression}
    (hr : o.mapM (Expression.rebind (b.resolve old candidate owner) parse) = .ok o')
    (hrebound : Option.Rel (Expression.Rebound old new) o o') :
    ∀ e ∈ o, e.Bound (Anchored old) := by
  cases Except.option_mapM_eq_ok hr with
  | none => exact fun e he => (nomatch he)
  | @some e e' hee' =>
    intro e₀ he₀
    cases he₀
    cases hrebound with
    | some hrebound => exact e.anchored_of_rebound h hnew howner hee' hrebound

/-- **Only what is anchored is moved.** -/
theorem Node.anchored_of_rebound {n n' : Node}
    (hr : n.rebind (b.resolve old candidate owner) parse = .ok n')
    (hrebound : n.Rebound old new n') : n.Bound (Anchored old) := by
  obtain ⟨is, his, hr⟩ := Except.bind_eq_ok.mp hr
  obtain ⟨tr, htr, hr⟩ := Except.bind_eq_ok.mp hr
  obtain ⟨ct, hct, hr⟩ := Except.bind_eq_ok.mp hr
  cases hr
  refine ⟨Expression.anchored_of_rebound_optional h hnew howner htr hrebound.trigger,
    Expression.anchored_of_rebound_optional h hnew howner hct hrebound.completeTrigger,
    fun i hi => ?_⟩
  obtain ⟨j, -, hij, hrebound⟩ := (List.Forall₂.mp (fun _ _ => And.intro)
    (Except.forall₂_of_mapM his) hrebound.inLimits).exists_of_mem_left hi
  exact i.anchored_of_rebound h hnew howner hij hrebound

end Anchored

end Rebind

section Replace

variable (parse : String → Option (Ast PathText))

/-- `_reference_updates` for one flow. -/
def Flow.rebind (b : Bunch) (old candidate g : Flow) : Except Failure Flow :=
  if g.object = old.object then .ok g
  else do
    let tree ← g.tree.traverse
      (fun address n => n.rebind (b.resolve old candidate (.node g address)) parse) []
    return { g with tree }

/-- `_reference_updates`: the node of the bunch and its flows with the assignments made. -/
def Bunch.referenceUpdates (b : Bunch) (old candidate : Flow) :
    Except Failure (Node × List Flow) := do
  let root ← b.root.rebind (b.resolve old candidate .root) parse
  let flows ← b.flows.mapM (Flow.rebind parse b old candidate)
  return (root, flows)

/-! ### The command -/

/-- The command: the path, what became of the definition when it was decoded, and what `begin`
makes of the statuses of the new nodes when it does not raise. -/
structure ReplaceCommand where
  targetPath : PathText
  definition : Except String Document
  begun : Option (PathText → NodeStatus)

/-- The callback `initialize`. -/
def ReplaceCommand.initial (c : ReplaceCommand) (old : Flow) (d : Document) :
    Except String (PathText → NodeStatus → NodeStatus) :=
  match d.bunch, d.flows with
  | none, [t] =>
    if t.key ≠ old.name then .error "name_mismatch"
    else
      match c.begun with
      | none => .error "initialization_failed"
      | some status => .ok fun path _ => status path
  | _, _ => .error "invalid_structure"

/-- `build_definition` with the bunch as it is. -/
def Bunch.candidate (b : Bunch) (old : Flow) (c : ReplaceCommand) : Except String Flow := do
  let d ← c.definition
  let (_, fs) ← b.build parse d (c.initial old d)
  match fs with
  | [f] => return f
  | _ => throw "invalid_structure"

/-- The exception for a definition error. -/
def replacementFailure (code : String) : Failure :=
  if code ∈ ["unknown_type", "unregistered_type", "unsupported_version", "missing_codec"] then
    .unsupportedValue ("invalid replacement: " ++ code)
  else if code = "expression_syntax" then .expressionSyntax "invalid replacement expression"
  else if code ∈ ["construction_failed", "initialization_failed"] then
    .runtime "replacement preparation failed"
  else .invalidRequest ("invalid replacement: " ++ code)

def Flow.suspended (f : Flow) : Bool := f.tree.value.suspended

/-- Take over the suspended flag of the old flow. -/
def Flow.withSuspended (f : Flow) (suspended : Bool) : Flow where
  object := f.object
  tree := f.tree.mapWith (fun address n => if address = [] then { n with suspended } else n) []

/-- The assignments of the commit; the key of the flow keeps its place in the dictionary. -/
def Bunch.commit (b : Bunch) (old candidate : Flow) (updates : Node × List Flow) : Bunch where
  name := b.name
  root := updates.1
  flows := updates.2.map fun g =>
    if g.name = old.name then candidate.withSuspended old.suspended else g
  nextSerial := b.nextSerial + 1

/-- `replace_flow`. -/
def replaceFlow (c : ReplaceCommand) : Program Bunch Failure Unit := do
  let b ← get
  let old ← MonadExcept.ofExcept (b.target c.targetPath)
  let candidate ← MonadExcept.ofExcept ((b.candidate parse old c).mapError replacementFailure)
  let updates ← MonadExcept.ofExcept (b.referenceUpdates parse old candidate)
  -- the final gate
  let b ← get
  if (b.flow? old.name).map Flow.object ≠ some old.object then
    throw (.flowState "replace target changed during preparation")
  else
    MonadExcept.ofExcept (b.checkIdle old)
    set (b.commit old candidate updates)

variable {parse}

/-- A check raises and has changed nothing, or the program goes on in the same state. -/
private theorem exec_ofExcept_bind {α : Type} (x : Except Failure α)
    (m : α → Program Bunch Failure Unit) (b : Bunch) :
    (∃ e, (MonadExcept.ofExcept x >>= m).exec b = (.error e, b)) ∨
      ∃ a, x = .ok a ∧ (MonadExcept.ofExcept x >>= m).exec b = (m a).exec b := by
  cases x with
  | error e => exact .inl ⟨e, rfl⟩
  | ok a => exact .inr ⟨a, rfl, rfl⟩

/-- Everything is checked before anything is changed. -/
theorem replaceFlow_cases (parse : String → Option (Ast PathText)) (c : ReplaceCommand) (b : Bunch) :
    (∃ e, (replaceFlow parse c).exec b = (.error e, b)) ∨
      ∃ old candidate updates, b.target c.targetPath = .ok old ∧
        b.candidate parse old c = .ok candidate ∧
        b.referenceUpdates parse old candidate = .ok updates ∧
        (b.flow? old.name).map Flow.object = some old.object ∧ b.checkIdle old = .ok () ∧
        (replaceFlow parse c).exec b = (.ok (), b.commit old candidate updates) := by
  rw [replaceFlow, Program.exec_bind_of_ok (Program.exec_get b)]
  obtain h | ⟨old, htarget, h⟩ := exec_ofExcept_bind (b.target c.targetPath) _ b
  · exact .inl h
  rw [h]
  obtain h | ⟨candidate, hcandidate, h⟩ :=
    exec_ofExcept_bind ((b.candidate parse old c).mapError replacementFailure) _ b
  · exact .inl h
  rw [h]
  obtain h | ⟨updates, hupdates, h⟩ :=
    exec_ofExcept_bind (b.referenceUpdates parse old candidate) _ b
  · exact .inl h
  rw [h, Program.exec_bind_of_ok (Program.exec_get b)]
  split_ifs with hsame
  · exact .inl ⟨_, rfl⟩
  obtain h | ⟨_, hidle, h⟩ := exec_ofExcept_bind (b.checkIdle old) _ b
  · exact .inl h
  rw [h]
  exact .inr ⟨old, candidate, updates, htarget, Except.mapError_eq_ok.mp hcandidate, hupdates,
    not_not.mp hsame, hidle, rfl⟩

end Replace

end Takler.Live
