import Takler.Version.Objects

/-!
# Two ways to look up parameters

A parameter is found by going up from a node and asking every node on the way
(`Node.find_parent_parameter`), or in the dictionary of all parameters that a node can see, which is
merged level by level (`Node.parameters`). Both have overrides in the classes of nodes, and each
class has its own order of user parameters, the parameters it generates, and those of its repeat.

## Main definitions

* `Node.generatedParametersOnly`, `Node.parametersOnly`: the dictionaries of one node.
* `Located.parameters`: `Node.parameters`.
* `Located.findParentParameter`: `find_parent_parameter` with the override of `Flow`.

## Main results

* `Node.get?_parametersOnly`: both ways agree at one node.
* `findParentParameter_eq_parameters`: they agree at every node of a tree.
-/

open CodePoints (ofString)

namespace Takler.Version

variable {F : Type}

namespace Node

/-- `generated_parameters_only`. -/
def generatedParametersOnly (n : Node F) : OrderedDict CodePoints (Value F) :=
  let base := update .empty n.repeatParameters
  match n.body with
  | .bunch _ config => config.generatedParameters
  | .flow _ _ _ date time => update base [(ofString "DATE", date), (ofString "TIME", time)]
  | .container => base
  | .task fields => update base fields.generated.entries
  | .shell fields script =>
    (update .empty script.entries).addMissing (update base fields.generated.entries)

/-- `parameters_only`. A shell script task puts the paths of its job over the user parameters. -/
def parametersOnly (n : Node F) : OrderedDict CodePoints (Value F) :=
  let params := n.userParameters.addMissing n.generatedParametersOnly
  match n.body with
  | .shell _ script =>
    (params.set "TAKLER_JOB" script.taklerJob).set "TAKLER_JOBOUT" script.taklerJobout
  | _ => params

end Node

/-- `Node.parameters`: the parents from the nearest one up, and then the bunch. -/
def Located.parameters (x : Located F) : OrderedDict CodePoints (Value F) :=
  x.up.foldl (fun params n => params.addMissing n.parametersOnly) x.node.parametersOnly

/-- `find_parent_parameter`. A flow asks its bunch once more. -/
def Located.findParentParameter (x : Located F) (name : CodePoints) : Option (Value F) :=
  let found := Version.findParentParameter name (x.node :: x.up)
  match x.node.body with
  | .flow .. => found.or (Version.findParentParameter name x.up)
  | _ => found

/-! ### One node -/

theorem lookup_append (a b : List (CodePoints × Value F)) (name : CodePoints) :
    lookup (a ++ b) name = (lookup a name).or (lookup b name) := by
  rw [lookup, lookup, lookup, List.find?_append, Option.map_or]

theorem lookup_eq_none {entries : List (CodePoints × Value F)} {name : CodePoints}
    (h : name ∉ entries.map Prod.fst) : lookup entries name = none := by
  rw [lookup, Option.map_eq_none_iff, List.find?_eq_none]
  rintro x hx hname
  exact h (List.mem_map.mpr ⟨x, hx, of_decide_eq_true hname⟩)

/-- New entries go before old ones. -/
theorem get?_update {entries : List (CodePoints × Value F)} (h : (entries.map Prod.fst).Nodup)
    (d : OrderedDict CodePoints (Value F)) (name : CodePoints) :
    (update d entries).get? name = (lookup entries name).or (d.get? name) := by
  induction entries generalizing d with
  | nil => rfl
  | cons x entries ih =>
    obtain ⟨hx, hentries⟩ := List.nodup_cons.mp h
    rw [update, List.foldl_cons, ← update, ih hentries, OrderedDict.get?_set]
    by_cases hname : name = x.1
    · subst hname
      rw [if_pos rfl, lookup_eq_none hx, lookup, List.find?_cons, decide_eq_true rfl]
      rfl
    · rw [if_neg hname, lookup, lookup, List.find?_cons, decide_eq_false (Ne.symm hname)]

theorem get?_empty (name : CodePoints) :
    (OrderedDict.empty : OrderedDict CodePoints (Value F)).get? name = none := rfl

namespace Node

theorem nodup_repeatParameters (n : Node F) : (n.repeatParameters.map Prod.fst).Nodup := by
  rw [repeatParameters]
  cases n.repeatDate with
  | none => exact List.nodup_nil
  | some r => exact List.nodup_singleton r.name

theorem nodup_taskEntries (g : TaskParameters F) : (g.entries.map Prod.fst).Nodup := by
  rw [show g.entries.map Prod.fst = ["TASK", "TAKLER_NAME", "TAKLER_RID", "TAKLER_ATTEMPT_ID",
    "TAKLER_TRY_NO", "TAKLER_PASS"].map ofString from rfl]
  exact List.Nodup.map CodePoints.ofString_injective (by decide)

theorem nodup_shellEntries (s : ShellFields F) : (s.entries.map Prod.fst).Nodup := by
  rw [show s.entries.map Prod.fst = ["TAKLER_SCRIPT", "TAKLER_JOB", "TAKLER_JOBOUT"].map ofString
    from rfl]
  exact List.Nodup.map CodePoints.ofString_injective (by decide)

theorem nodup_flowEntries (date time : Value F) :
    ([(ofString "DATE", date), (ofString "TIME", time)].map Prod.fst).Nodup := by
  rw [show [(ofString "DATE", date), (ofString "TIME", time)].map Prod.fst =
    ["DATE", "TIME"].map ofString from rfl]
  exact List.Nodup.map CodePoints.ofString_injective (by decide)

theorem get?_generatedParametersOnly (n : Node F) (name : CodePoints) :
    n.generatedParametersOnly.get? name = n.findGeneratedParameter name := by
  have hbase : (update .empty n.repeatParameters).get? name = lookup n.repeatParameters name := by
    rw [get?_update n.nodup_repeatParameters, get?_empty, Option.or_none]
  rw [generatedParametersOnly, findGeneratedParameter]
  cases n.body with
  | bunch state config => rfl
  | flow begun calendar generation date time =>
    dsimp only
    rw [get?_update (nodup_flowEntries date time), hbase, ← lookup_append]
    rfl
  | container => exact hbase
  | task fields =>
    dsimp only
    rw [get?_update (nodup_taskEntries _), hbase, ← lookup_append]
  | shell fields script =>
    dsimp only
    rw [OrderedDict.get?_addMissing, get?_update (nodup_shellEntries _), get?_empty, Option.or_none,
      get?_update (nodup_taskEntries _), hbase, ← lookup_append, ← lookup_append,
      List.append_assoc]

/-- One node gives the same parameters both ways. -/
theorem get?_parametersOnly (n : Node F) (name : CodePoints) :
    n.parametersOnly.get? name = n.findParameter name := by
  have hparams : (n.userParameters.addMissing n.generatedParametersOnly).get? name =
      (n.userParameters.get? name).or (n.findGeneratedParameter name) := by
    rw [OrderedDict.get?_addMissing, get?_generatedParametersOnly]
  rw [parametersOnly, findParameter]
  cases hbody : n.body with
  | shell fields script =>
    have hjob : n.findGeneratedParameter "TAKLER_JOB" = some script.taklerJob := by
      rw [findGeneratedParameter, hbody]
      rfl
    have hjobout : n.findGeneratedParameter "TAKLER_JOBOUT" = some script.taklerJobout := by
      rw [findGeneratedParameter, hbody]
      rfl
    dsimp only
    rw [OrderedDict.get?_set, OrderedDict.get?_set, hparams]
    by_cases h₁ : name = ofString "TAKLER_JOBOUT"
    · rw [if_pos h₁, if_pos ⟨rfl, by simp [h₁]⟩, h₁, hjobout]
    by_cases h₂ : name = ofString "TAKLER_JOB"
    · rw [if_neg h₁, if_pos h₂, if_pos ⟨rfl, by simp [h₂]⟩, h₂, hjob]
    rw [if_neg h₁, if_neg h₂, if_neg (by simp [h₁, h₂])]
  | _ => exact hparams.trans (if_neg fun h => absurd h.1 (by simp [Body.shell?])).symm

end Node

/-! ### All levels -/

theorem get?_foldl_parametersOnly (up : List (Node F)) (name : CodePoints) :
    ∀ d : OrderedDict CodePoints (Value F),
      (up.foldl (fun params n => params.addMissing n.parametersOnly) d).get? name =
        (d.get? name).or (findParentParameter name up) := by
  induction up with
  | nil => exact fun d => Option.or_none.symm
  | cons n up ih =>
    intro d
    rw [List.foldl_cons, ih, OrderedDict.get?_addMissing, n.get?_parametersOnly, Option.or_assoc,
      findParentParameter, findParentParameter, List.findSome?_cons]
    cases n.findParameter name <;> rfl

theorem Located.findParentParameter_eq (x : Located F) (name : CodePoints) :
    x.findParentParameter name =
      (x.node.findParameter name).or (Version.findParentParameter name x.up) := by
  have hfound : Version.findParentParameter name (x.node :: x.up) =
      (x.node.findParameter name).or (Version.findParentParameter name x.up) := by
    rw [Version.findParentParameter, List.findSome?_cons]
    cases x.node.findParameter name <;> rfl
  rw [Located.findParentParameter, hfound]
  cases x.node.body with
  | flow begun calendar generation date time =>
    -- The bunch is asked again only if it has nothing.
    dsimp only
    rw [Option.or_assoc, Option.or_self]
  | _ => rfl

/-- The node and its ancestors give the same parameters both ways. -/
theorem Located.get?_parameters (x : Located F) (name : CodePoints) :
    x.parameters.get? name = x.findParentParameter name := by
  rw [x.findParentParameter_eq, Located.parameters, get?_foldl_parametersOnly,
    x.node.get?_parametersOnly]

/-- Going up from any node of a tree finds a parameter if and only if the dictionary of the node has
it, and then it is the same. -/
theorem findParentParameter_eq_parameters (b : Tree F) (address : List CodePoints)
    (name : CodePoints) :
    ((locate b address).map fun x => x.findParentParameter name) =
      (locate b address).map fun x => x.parameters.get? name := by
  simp only [Located.get?_parameters]

end Takler.Version
