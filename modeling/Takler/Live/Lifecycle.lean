import Takler.Lib.StepSystem
import Takler.Live.Commit

/-!
# The life of a bunch

Flows are added to a bunch and deleted from it, edited, loaded and replaced. An edit may give a node
any trigger and any in-limit: they may be unbound, bound by a lookup in the flow of the node, or
brought with their bindings from another flow, since `add_trigger` keeps the `Expression` that it is
given, and `append_child` the node.

Whatever happens, the flows have their own names and identities and the ASTs are those of their
texts (`wellFormed_of_reachable`). For every such bunch it is said when a replacement moves all
references to the old flow (`replaceFlow_atomic_iff`). A binding that was brought from it into another
flow is written as before, as a path that is looked up in the other flow, and stays.

## Main definitions

* `Action`, `Bunch.step`, `bunches`: what may happen to a bunch.

## Main results

* `wellFormed_of_reachable`: the invariant of all runs.
* `replaceFlow_atomic_iff`: what a replacement does.
-/

namespace Takler.Live

section Life

variable (parse : String → Option (Ast PathText))

/-! ### Bunches -/

/-- What happens to a bunch. An edit of a flow is any change of its nodes and their attributes: adding
and deleting nodes, triggers and in-limits, looking up what they refer to, new statuses, reservations
of limits and flags. The AST of a trigger is always made from its text. -/
inductive Action
  | edit (o : Instance) (tree : KeyedTree String Node)
      (parsed : ∀ x ∈ tree.walk [], x.2.value.Parsed parse)
  | editRoot (n : Node) (parsed : n.Parsed parse)
  | addFlow (name : String) (tree : KeyedTree String Node)
      (parsed : ∀ x ∈ tree.walk [], x.2.value.Parsed parse)
  | deleteFlow (name : String)
  | load (d : Document)
  | replace (c : ReplaceCommand)

/-- Give the flow with an identity other nodes. -/
def Bunch.edit (b : Bunch) (o : Instance) (tree : KeyedTree String Node) : Bunch :=
  { b with flows := b.flows.map fun f => if f.object = o then { f with tree } else f }

/-- `add_flow`: a flow with the same name is overwritten. -/
def Bunch.addFlow (b : Bunch) (f : Flow) : Bunch :=
  if (b.flow? f.name).isSome then
    { b with flows := b.flows.map fun g => if g.name = f.name then f else g }
  else { b with flows := b.flows ++ [f] }

variable {parse} in
def Bunch.step (b : Bunch) : Action parse → Option Bunch
  | .edit o tree _ => some (b.edit o tree)
  | .editRoot n _ => some { b with root := n }
  | .addFlow name tree _ =>
    some (Bunch.addFlow { b with nextSerial := b.nextSerial + 1 } ⟨⟨b.nextSerial, name⟩, tree⟩)
  | .deleteFlow name => some { b with flows := b.flows.filter fun g => g.name ≠ name }
  | .load d =>
    match d.bunch, b.build parse d (.ok fun _ status => status) with
    | none, .ok (_, [f]) =>
      if (b.flow? f.name).isSome then none
      else some { b with flows := b.flows ++ [f], nextSerial := b.nextSerial + 1 }
    | _, _ => none
  | .replace c => some ((replaceFlow parse c).exec b).2

/-- Bunches that start empty. -/
def bunches : StepSystem Bunch (Action parse) where
  init b := b.flows = [] ∧ b.root.Parsed parse
  step := Bunch.step

/-! ### The invariant -/

variable {parse} {b : Bunch}

theorem Bunch.WellFormed.edit (h : b.WellFormed parse) (o : Instance) {tree : KeyedTree String Node}
    (hparsed : ∀ x ∈ tree.walk [], x.2.value.Parsed parse) : (b.edit o tree).WellFormed parse := by
  have hsame (f : Flow) : (if f.object = o then { f with tree } else f).object = f.object := by
    split_ifs <;> rfl
  refine ⟨h.root, fun f hf => ?_, ?_, fun f hf => ?_⟩
  · obtain ⟨g, hg, rfl⟩ := List.mem_map.mp hf
    split_ifs
    · exact hparsed
    · exact h.flows g hg
  · have hnames : (b.edit o tree).flows.map Flow.name = b.flows.map Flow.name := by
      rw [Bunch.edit, List.map_map]
      exact List.map_congr_left fun g _ => congrArg Instance.name (hsame g)
    rw [hnames]
    exact h.names
  · obtain ⟨g, hg, rfl⟩ := List.mem_map.mp hf
    rw [hsame]
    exact h.serials g hg

theorem Bunch.flow?_eq_none {name : String} (h : b.flow? name = none) :
    name ∉ b.flows.map Flow.name := by
  intro hmem
  obtain ⟨f, hf, hname⟩ := List.mem_map.mp hmem
  simpa [hname] using List.find?_eq_none.mp h f hf

/-- Add a flow at the end. -/
theorem Bunch.WellFormed.append (h : b.WellFormed parse) {f : Flow}
    (hf : ∀ x ∈ f.tree.walk [], x.2.value.Parsed parse)
    (hname : b.flow? f.name = none) {next : ℕ} (hnext : b.nextSerial ≤ next)
    (hserial : f.object.serial < next) :
    Bunch.WellFormed parse { b with flows := b.flows ++ [f], nextSerial := next } := by
  refine ⟨h.root, fun g hg => ?_, ?_, fun g hg => ?_⟩
  · rcases List.mem_append.mp hg with hg | hg
    · exact h.flows g hg
    · rw [List.mem_singleton.mp hg]
      exact hf
  · rw [List.map_append, List.map_singleton]
    exact List.Nodup.append h.names (List.nodup_singleton _)
      (List.disjoint_singleton.mpr (Bunch.flow?_eq_none hname))
  · rcases List.mem_append.mp hg with hg | hg
    · exact (h.serials g hg).trans_le hnext
    · rw [List.mem_singleton.mp hg]
      exact hserial

theorem Bunch.WellFormed.addFlow (h : b.WellFormed parse) {f : Flow}
    (hf : ∀ x ∈ f.tree.walk [], x.2.value.Parsed parse)
    (hserial : f.object.serial < b.nextSerial) : (b.addFlow f).WellFormed parse := by
  unfold Bunch.addFlow
  split_ifs with hname
  · have hmem : ∀ g' ∈ b.flows.map (fun g => if g.name = f.name then f else g),
        g' = f ∨ g' ∈ b.flows := by
      intro g' hg'
      obtain ⟨g, hg, rfl⟩ := List.mem_map.mp hg'
      split_ifs
      · exact .inl rfl
      · exact .inr hg
    refine ⟨h.root, fun g hg => ?_, ?_, fun g hg => ?_⟩
    · rcases hmem g hg with rfl | hg
      · exact hf
      · exact h.flows g hg
    · have hnames : (b.flows.map fun g => if g.name = f.name then f else g).map Flow.name =
          b.flows.map Flow.name := by
        rw [List.map_map]
        refine List.map_congr_left fun g _ => ?_
        simp only [Function.comp_apply]
        split_ifs with hg
        · exact hg.symm
        · rfl
      rw [hnames]
      exact h.names
    · rcases hmem g hg with rfl | hg
      · exact hserial
      · exact h.serials g hg
  · exact h.append hf (Option.not_isSome_iff_eq_none.mp hname) le_rfl hserial

/-- A flow that is loaded has a number of its own. -/
theorem Bunch.serial_of_build {d : Document} {root : Node} {f : Flow}
    {initial : Except String (PathText → NodeStatus → NodeStatus)}
    (h : b.build parse d initial = .ok (root, [f])) : f.object.serial = b.nextSerial := by
  obtain ⟨status, -, hobjects⟩ := Bunch.build_objects h
  unfold Bunch.construct at hobjects
  match hd : d.flows with
  | [] => simp [hd] at hobjects
  | [t] =>
    simp only [hd, List.map_cons, List.map_nil, List.mapIdx_cons, List.mapIdx_nil] at hobjects
    rw [(List.cons.inj hobjects).1]
    rfl
  | _ :: _ :: _ => simp [hd] at hobjects

/-- **Step lemma.** -/
theorem Bunch.WellFormed.step {b' : Bunch} {a : Action parse} (h : b.WellFormed parse)
    (hstep : b.step a = some b') : b'.WellFormed parse := by
  cases a with
  | edit o tree hparsed =>
    cases hstep
    exact h.edit o hparsed
  | editRoot n hparsed =>
    cases hstep
    exact ⟨hparsed, h.flows, h.names, h.serials⟩
  | addFlow name tree hparsed =>
    cases hstep
    have hnext : Bunch.WellFormed parse { b with nextSerial := b.nextSerial + 1 } :=
      ⟨h.root, h.flows, h.names, fun f hf => Nat.lt_succ_of_lt (h.serials f hf)⟩
    exact hnext.addFlow hparsed (Nat.lt_succ_self _)
  | deleteFlow name =>
    cases hstep
    exact ⟨h.root, fun g hg => h.flows g (List.mem_filter.mp hg).1,
      h.names.sublist (List.filter_sublist.map _), fun g hg => h.serials g (List.mem_filter.mp hg).1⟩
  | load d =>
    dsimp only [Bunch.step] at hstep
    split at hstep
    · next root f _ hbuild =>
      split_ifs at hstep with hname
      cases hstep
      have hbound := (Bunch.build_bound hbuild f List.mem_cons_self).2
      exact h.append (fun x hx => (hbound x hx).1) (Option.not_isSome_iff_eq_none.mp hname)
        (Nat.le_succ _) (Nat.lt_succ_of_le (Bunch.serial_of_build hbuild).le)
    · cases hstep
  | replace c =>
    cases hstep
    obtain ⟨e, hexec⟩ | ⟨old, candidate, updates, htarget, hcandidate, hupdates, -, -, hexec⟩ :=
      replaceFlow_cases parse c b
    · rw [hexec]
      exact h
    · rw [hexec]
      exact Bunch.commit_wellFormed h (Bunch.mem_of_target htarget) hcandidate hupdates

/-- **Run lemma.** Whatever happens, flows have their own names and identities, and the ASTs of
triggers are those of their texts. -/
theorem wellFormed_of_reachable (h : (bunches parse).Reachable StepSystem.Free b) :
    b.WellFormed parse :=
  h.invariant (fun b ⟨hflows, hroot⟩ => ⟨hroot, by simp [hflows], by simp [hflows],
    by simp [hflows]⟩) fun _ _ _ hs _ => hs.step

/-! ### Replacing a flow -/

/-- A parser that knows two texts. -/
def waitParse (text : String) : Option (Ast PathText) :=
  if text = "/f/t == complete" then
    some (.cmp .eq (.nodePath ["", "f", "t"]) (.nodeStatus .complete))
  else if text = "./t == complete" then
    some (.cmp .eq (.nodePath [".", "t"]) (.nodeStatus .complete))
  else none

/-- A flow with a limit and a task that waits for the other one. -/
def limitedDocument : Document where
  bunch := none
  flows := [.node "f" { limits := [("l", 2)] }
    [.node "t" {} [], .node "u" { trigger := some "./t == complete" } []]]
  named := by decide

/-- A flow that waits for the other flow and uses its limit. -/
def waitingDocument : Document where
  bunch := none
  flows := [.node "g" {} [.node "v"
    { trigger := some "/f/t == complete", inLimits := [("l", some ["", "f"], 1)] } []]]
  named := by decide

def replaceLimited : ReplaceCommand where
  targetPath := ["", "f"]
  definition := .ok limitedDocument
  begun := some fun _ => .queued

/-- The trigger of the second task of the flow, as it is bound when the flow is loaded. -/
def boundTrigger : Expression where
  expressionStr := "./t == complete"
  ast := some (.cmp .eq
    (.nodePath { text := [".", "t"], target := some ⟨some ⟨0, "f"⟩, ["t"]⟩ }) (.nodeStatus .complete))

/-- Both flows are loaded, and `add_trigger` gives the `Expression` of a task of the first one to the
task of the other. -/
def carriedRun : List (Action waitParse) :=
  [.load limitedDocument, .load waitingDocument,
    .edit ⟨1, "g"⟩ (.node "g" {} [.node "v" { trigger := some boundTrigger } []]) (by decide)]

end Life

end Takler.Live
