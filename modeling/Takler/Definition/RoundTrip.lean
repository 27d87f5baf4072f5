import Takler.Definition.Build
import Takler.Lib.DecimalText

/-!
# The definition of what was built

A definition that was accepted and built is exported again as the same definition, with the defaults
filled in. Each attribute is read back from what `export_definition` writes of it; a node of the
tree that was built *represents* its definition, whatever its generation is.

## Main definitions

* `Represents`, `Shows`: nodes and trees that have a definition.
* `Accepted`: the structure that the validators ask for, everywhere in a tree.

## Main results

* `readTree_accepted`: what was read is accepted.
* `shows_of_constructTree`: what is constructed has the definition that it was constructed from.
* `readTree_project`: the projection of a tree with a definition is read as this definition.
* `exportDefinition_buildDefinition`
-/

open CodePoints (ofString char)

namespace Takler.Version.Definition

open Json (member members orDefault listOf optionOf optional)

variable {F : Type} {upper : CodePoints → CodePoints} {isFinite : F → Bool}

/-! ### Attributes that are read back -/

section Items

theorem readValue_json {v : Value F} (h : isDefinable isFinite v = true) :
    readValue v.json = some v := by
  cases v with
  | path t => exact absurd h (by simp [isDefinable])
  | _ => rfl

theorem readParameter_item (p : ParameterDefinition upper isFinite) :
    readParameter upper isFinite (.obj [("name", .str p.name.1), ("value", p.value.1.json)]) =
      some p := by
  have hvalid : isDefinable isFinite p.value.1 = true ∧ upper p.name.1 ∉ reservedNames :=
    ⟨p.value.2, p.allowed_name⟩
  simp [readParameter, members, readValue_json p.value.2, hvalid]

theorem readEvent_item (e : EventDefinition) :
    readEvent (.obj [("name", .str e.name.1), ("initial_value", .bool e.initialValue)] : Json F) =
      some e := by
  simp [readEvent, members, Json.bool?]

theorem readMeter_item (m : MeterDefinition) :
    readMeter (.obj [("name", .str m.name.1), ("min_value", .int m.minValue),
      ("max_value", .int m.maxValue)] : Json F) = some m := by
  simp [readMeter, members, Json.int?, m.bounds]

theorem readLimit_item (l : LimitDefinition) :
    readLimit (.obj [("name", .str l.name.1), ("limit", .int l.limit.1)] : Json F) = some l := by
  simp [readLimit, members]

@[simp] theorem optionOf_text (t : Option CodePoints) :
    optionOf Json.text? (optional t : Json F) = some t := by
  cases t <;> rfl

@[simp] theorem optionOf_name (t : Option Name) :
    optionOf readName (optional (t.map Subtype.val) : Json F) = some t := by
  cases t with
  | none => rfl
  | some t => simp [Json.optional, optionOf]

theorem readInLimit_item (i : InLimitDefinition) :
    readInLimit (.obj [("limit_name", .str i.limitName.1), ("node_path", optional i.nodePath),
      ("tokens", .int i.tokens.1)] : Json F) = some i := by
  simp [readInLimit, members]

/-- The number of a date is written with eight digits again. -/
theorem dateText_readNat (t : DateDigits) : dateText (Json.readNat t.1) = t.1 := by
  have h := t.2
  simp only [isDate, Bool.and_eq_true, decide_eq_true_eq] at h
  have hne : t.1 ≠ [] := fun hnil => by simp [hnil] at h
  calc dateText (Json.readNat t.1) = Json.padded t.1.length (Json.readNat t.1) := by
        rw [h.1.1]
        rfl
    _ = t.1 := Json.padded_readNat hne h.1.2

theorem readTime_item (t : TimeDefinition) :
    readTime (.obj [("time", .str t.1)] : Json F) = some t := by
  have h := t.2
  simp [readTime, members, Json.text?, h]

@[simp] theorem readDefaultStatus_text (s : DefaultStatus) :
    readDefaultStatus (.str s.status.text : Json F) = some s := by
  cases s <;> simp [readDefaultStatus, Json.text?, DefaultStatus.status, NodeStatus.text]

end Items

/-! ### Attributes that are added -/

section Live

def EventDefinition.live (e : EventDefinition) : Event :=
  { name := e.name.1, initialValue := e.initialValue, value := e.initialValue }

def MeterDefinition.live (m : MeterDefinition) : Meter :=
  { name := m.name.1, minValue := m.minValue, maxValue := m.maxValue, value := m.minValue }

def LimitDefinition.live (l : LimitDefinition) : Limit :=
  { name := l.name.1, limit := l.limit.1 }

def InLimitDefinition.live (i : InLimitDefinition) : InLimit :=
  { limitName := i.limitName.1, nodePath := i.nodePath, tokens := i.tokens.1 }

def liveTime (t : TimeDefinition) : TimeAttribute := { time := t.1 }

def RepeatDateDefinition.live (r : RepeatDateDefinition) : Repeat :=
  { name := r.name.1, value := Json.readNat r.startDate.1, start := Json.readNat r.startDate.1,
    stop := Json.readNat r.endDate.1, startDate := Json.natText (Json.readNat r.startDate.1),
    endDate := Json.natText (Json.readNat r.endDate.1), step := r.step.1 }

theorem repeatDate_eq {r : RepeatDateDefinition} {x : Repeat}
    (h : repeatDate r.name.1 r.startDate.1 r.endDate.1 r.step.1 = .ok x) : x = r.live := by
  have hstart : dateNumber r.startDate.1 = .ok (Json.readNat r.startDate.1) := if_pos r.startDate.2
  have hend : dateNumber r.endDate.1 = .ok (Json.readNat r.endDate.1) := if_pos r.endDate.2
  rw [repeatDate, hstart, hend] at h
  change (if _ then _ else _) = _ at h
  split_ifs at h
  · exact nomatch h
  · exact (Except.ok.inj h).symm

theorem readRepeat_definition (r : RepeatDateDefinition) :
    readRepeat (repeatFields r.live : Json F) = some r := by
  have hfields : (repeatFields r.live : Json F) = .obj [("type_id", .str "takler.repeat.date"),
      ("name", .str r.name.1), ("start_date", .str r.startDate.1), ("end_date", .str r.endDate.1),
      ("step", .int r.step.1)] := by
    rw [repeatFields, RepeatDateDefinition.live, dateText_readNat, dateText_readNat]
  rw [hfields, readRepeat, Json.members_obj
    ["type_id", "name", "start_date", "end_date", "step"] rfl fun _ hkey => hkey]
  simp only [Json.member_cons, String.reduceEq, reduceIte, Option.bind_eq_bind, Option.bind_some,
    Json.orDefault_some, Json.text?, readName_str, readDate_str, readIntFrom_int, true_and]
  exact dif_pos r.dates

theorem digitOf_eq {n : ℕ} {a : Fin 0x110000} (h : 48 + n = a.val) : digitOf n = a :=
  Fin.ext (by rw [digitOf, Fin.val_ofNat, h, Nat.mod_eq_of_lt a.isLt])

theorem optionOf_repeat (r : RepeatDateDefinition) :
    optionOf readRepeat (repeatFields r.live : Json F) = some (some r) := by
  change (readRepeat (repeatFields r.live : Json F)).map some = _
  rw [readRepeat_definition, Option.map_some]

/-- The digits of a time are written again. -/
theorem timeAttribute_eq (t : TimeDefinition) : timeAttribute t.1 = .ok (liveTime t) := by
  obtain ⟨t, h⟩ := t
  match t, h with
  | [a, b, c, d, e], h =>
    rw [timeAttribute, if_pos h]
    simp only [isMinute, Bool.and_eq_true, decide_eq_true_eq, Json.isDigit_iff] at h
    obtain ⟨⟨⟨⟨⟨ha, hb⟩, rfl⟩, hd⟩, he⟩, -⟩ := h
    rw [timeText, digitOf_eq (a := a) (by omega), digitOf_eq (a := b) (by omega),
      digitOf_eq (a := d) (by omega), digitOf_eq (a := e) (by omega)]
    rfl

/-- Items that are added to a list one by one, when each of them can be added after the others. -/
theorem foldlM_append {σ α β κ : Type} (get : σ → List β) (put : List β → σ → σ) (key : β → κ)
    (item : α → β) (add : σ → α → Except CodePoints σ)
    (hadd : ∀ s a, key (item a) ∉ (get s).map key → add s a = .ok (put (get s ++ [item a]) s))
    (hget : ∀ l s, get (put l s) = l) (hput : ∀ l m s, put l (put m s) = put l s)
    (hself : ∀ s, put (get s) s = s) : ∀ {xs : List α} {s : σ},
      ((get s).map key ++ xs.map (key ∘ item)).Nodup →
        xs.foldlM add s = .ok (put (get s ++ xs.map item) s) := by
  intro xs
  induction xs with
  | nil =>
    intro s _
    rw [List.map_nil, List.append_nil, hself]
    rfl
  | cons x xs ih =>
    intro s h
    have hx : key (item x) ∉ (get s).map key := fun hmem =>
      List.disjoint_of_nodup_append h hmem List.mem_cons_self
    rw [List.foldlM_cons, hadd s x hx]
    change List.foldlM add (put (get s ++ [item x]) s) xs = _
    rw [ih, hget, hput, List.append_assoc]
    · rfl
    · rw [hget, List.map_append, List.append_assoc]
      exact h

/-- Items with different keys, added to an empty list. -/
theorem foldlM_fill {σ α β κ ι : Type} (get : σ → List β) (put : List β → σ → σ) (key : β → κ)
    (item : α → β) (add : σ → α → Except CodePoints σ)
    (hadd : ∀ s a, key (item a) ∉ (get s).map key → add s a = .ok (put (get s ++ [item a]) s))
    (hget : ∀ l s, get (put l s) = l) (hput : ∀ l m s, put l (put m s) = put l s)
    (hself : ∀ s, put (get s) s = s) {name : α → ι} {f : ι → κ} (hf : Function.Injective f)
    (hname : ∀ a, key (item a) = f (name a)) {xs : List α} {s : σ} (h : (xs.map name).Nodup)
    (hs : get s = []) : xs.foldlM add s = .ok (put (xs.map item) s) := by
  have hkeys : (xs.map (key ∘ item)).Nodup := by
    rw [show key ∘ item = f ∘ name from funext hname, ← List.map_map]
    exact h.map hf
  rw [foldlM_append get put key item add hadd hget hput hself (by rw [hs]; exact hkeys), hs,
    List.nil_append]

variable {n : Node F}

theorem addEvent_eq {e : EventDefinition} (h : e.live.name ∉ n.events.map Event.name) :
    addEvent n e.name.1 e.initialValue = .ok { n with events := n.events ++ [e.live] } := by
  rw [addEvent, appendUnless, if_neg]
  · rfl
  · exact h

theorem addLimit_eq {path : CodePoints} {l : LimitDefinition}
    (h : l.live.name ∉ n.limits.map Limit.name) :
    addLimit path n l.name.1 l.limit.1 = .ok { n with limits := n.limits ++ [l.live] } := by
  rw [addLimit, appendUnless, if_neg]
  · rfl
  · exact h

theorem addInLimit_eq {path : CodePoints} {i : InLimitDefinition}
    (h : (i.live.nodePath, i.live.limitName) ∉ n.inLimits.map fun i => (i.nodePath, i.limitName)) :
    addInLimit path n i.limitName.1 i.nodePath i.tokens.1 =
      .ok { n with inLimits := n.inLimits ++ [i.live] } := by
  rw [addInLimit, appendUnless, if_neg]
  · rfl
  · exact h

theorem addTime_eq (t : TimeDefinition) :
    addTime n t.1 = .ok { n with times := n.times ++ [liveTime t] } := by
  rw [addTime, timeAttribute_eq]
  rfl

theorem foldlM_addEvent {es : List EventDefinition} (h : (es.map EventDefinition.name).Nodup)
    (hn : n.events = []) :
    es.foldlM (fun n e => addEvent n e.name.1 e.initialValue) n =
      .ok { n with events := es.map EventDefinition.live } :=
  foldlM_fill Node.events (fun l (n : Node F) => { n with events := l }) Event.name
    EventDefinition.live _ (fun _ _ => addEvent_eq) (fun _ _ => rfl) (fun _ _ _ => rfl)
    (fun _ => rfl) Subtype.val_injective (fun _ => rfl) h hn

theorem foldlM_addLimit {path : CodePoints} {ls : List LimitDefinition}
    (h : (ls.map LimitDefinition.name).Nodup) (hn : n.limits = []) :
    ls.foldlM (fun n l => addLimit path n l.name.1 l.limit.1) n =
      .ok { n with limits := ls.map LimitDefinition.live } :=
  foldlM_fill Node.limits (fun l (n : Node F) => { n with limits := l }) Limit.name
    LimitDefinition.live _ (fun _ _ => addLimit_eq) (fun _ _ => rfl) (fun _ _ _ => rfl)
    (fun _ => rfl) Subtype.val_injective (fun _ => rfl) h hn

theorem foldlM_addInLimit {path : CodePoints} {is : List InLimitDefinition}
    (h : (is.map fun i => (i.nodePath, i.limitName)).Nodup) (hn : n.inLimits = []) :
    is.foldlM (fun n i => addInLimit path n i.limitName.1 i.nodePath i.tokens.1) n =
      .ok { n with inLimits := is.map InLimitDefinition.live } :=
  foldlM_fill Node.inLimits (fun l (n : Node F) => { n with inLimits := l })
    (fun i => (i.nodePath, i.limitName)) InLimitDefinition.live _ (fun _ _ => addInLimit_eq)
    (fun _ _ => rfl) (fun _ _ _ => rfl) (fun _ => rfl)
    (Function.injective_id.prodMap Subtype.val_injective) (fun _ => rfl) h hn

theorem foldlM_addTime {ts : List TimeDefinition} (h : ts.Nodup) (hn : n.times = []) :
    ts.foldlM (fun n t => addTime n t.1) n = .ok { n with times := ts.map liveTime } :=
  foldlM_fill Node.times (fun l (n : Node F) => { n with times := l }) TimeAttribute.time
    liveTime _ (fun _ t _ => addTime_eq t) (fun _ _ => rfl) (fun _ _ _ => rfl) (fun _ => rfl)
    Subtype.val_injective (fun t => (rfl : _ = (id t).1)) (by simpa using h) hn

theorem addRepeat_eq {r : Option RepeatDateDefinition} {n' : Node F} (hn : n.repeatDate = none)
    (h : addRepeat n r = .ok n') :
    n' = { n with repeatDate := r.map RepeatDateDefinition.live } := by
  cases r with
  | none =>
    obtain rfl := Except.ok.inj h
    rw [Option.map_none, ← hn]
  | some r =>
    obtain ⟨x, hx, h⟩ := Except.bind_eq_ok.mp h
    rw [← Except.ok.inj h, repeatDate_eq hx]
    rfl

theorem foldl_addMeter (ms : List MeterDefinition) (n : Node F) :
    ms.foldl (fun n m => addMeter n m.name.1 m.minValue m.maxValue) n =
      { n with meters := n.meters ++ ms.map MeterDefinition.live } := by
  induction ms generalizing n with
  | nil => rw [List.map_nil, List.append_nil, List.foldl_nil]
  | cons m ms ih =>
    rw [List.foldl_cons, ih, List.map_cons, List.append_cons]
    rfl

theorem foldl_addParameter (ps : List (ParameterDefinition upper isFinite)) (n : Node F) :
    ps.foldl (fun n p => addParameter n p.name.1 p.value.1) n =
      { n with userParameters :=
          ps.foldl (fun d p => d.set p.name.1 p.value.1) n.userParameters } := by
  induction ps generalizing n with
  | nil => rfl
  | cons p ps ih =>
    rw [List.foldl_cons, ih]
    rfl

theorem entries_foldl_set {ps : List (ParameterDefinition upper isFinite)} :
    ∀ {d : OrderedDict CodePoints (Value F)}, (d.keys ++ ps.map fun p => p.name.1).Nodup →
      (ps.foldl (fun d p => d.set p.name.1 p.value.1) d).entries =
        d.entries ++ ps.map fun p => (p.name.1, p.value.1) := by
  induction ps with
  | nil => simp
  | cons p ps ih =>
    intro d h
    have hp : p.name.1 ∉ d.keys := fun hmem =>
      List.disjoint_of_nodup_append h hmem List.mem_cons_self
    rw [List.foldl_cons, ih, OrderedDict.entries_set_of_notMem hp, List.append_assoc]
    · rfl
    · rw [OrderedDict.keys_set_of_notMem hp, List.append_assoc]
      exact h

end Live

/-! ### Nodes with a definition -/

/-- What a node of a type has. -/
def NodeType.Fits : NodeType → Body F → Prop
  | .task, .task _ => True
  | .shell scriptPath, .shell _ script => script.scriptPath = scriptPath
  | .container, .container => True
  | .flow, .flow .. => True
  | _, _ => False

/-- A node that has a definition. -/
structure Represents (d : NodeDefinition upper isFinite) (n : Node F) : Prop where
  extension : n.extension = none
  body : d.1.type.Fits n.body
  userParameters : n.userParameters.entries = d.1.userParameters.map fun p => (p.name.1, p.value.1)
  defaultNodeStatus : n.defaultNodeStatus = d.1.defaultNodeStatus.status
  trigger : n.trigger.map Expression.expressionStr = d.1.trigger.map Subtype.val
  completeTrigger :
    n.completeTrigger.map Expression.expressionStr = d.1.completeTrigger.map Subtype.val
  events : n.events = d.1.events.map EventDefinition.live
  meters : n.meters = d.1.meters.map MeterDefinition.live
  limits : n.limits = d.1.limits.map LimitDefinition.live
  inLimits : n.inLimits = d.1.inLimits.map InLimitDefinition.live
  repeatDate : n.repeatDate = d.1.repeatDate.map RepeatDateDefinition.live
  times : n.times = d.1.times.map liveTime

theorem newNode_eq (type : NodeType) :
    newNode type = ({ body := (newNode (F := F) type).body } : Node F) := by
  cases type <;> rfl

theorem Represents.withBody {d : NodeDefinition upper isFinite} {n : Node F} (h : Represents d n)
    {body : Body F} (hbody : d.1.type.Fits body) : Represents d { n with body } :=
  { h with body := hbody }

theorem represents_setScript {d : NodeDefinition upper isFinite} {n : Node F}
    (hn : n.body = (newNode d.1.type).body)
    (h : ∀ body, d.1.type.Fits body → Represents d { n with body }) :
    Represents d (setScript d.1.type n) := by
  cases htype : d.1.type with
  | shell scriptPath =>
    rw [htype] at hn h
    simp only [setScript, hn, newNode]
    exact h _ rfl
  | _ =>
    rw [htype] at hn h
    exact h n.body (hn ▸ trivial)

theorem represents_of_construct {name : NodeName} {d : NodeDefinition upper isFinite} {n : Node F}
    (h : construct name d = .ok n) : Represents d n := by
  obtain ⟨hparameters, hevents, hmeters, hlimits, hinLimits, htimes⟩ := d.2
  rw [construct, newNode_eq] at h
  simp only [foldl_addParameter] at h
  obtain ⟨_, h₁, h⟩ := Except.bind_eq_ok.mp h
  obtain rfl := Except.ok.inj ((foldlM_addEvent hevents rfl).symm.trans h₁)
  simp only [foldl_addMeter] at h
  obtain ⟨_, h₂, h⟩ := Except.bind_eq_ok.mp h
  obtain rfl := Except.ok.inj ((foldlM_addLimit hlimits rfl).symm.trans h₂)
  obtain ⟨_, h₃, h⟩ := Except.bind_eq_ok.mp h
  obtain rfl := Except.ok.inj ((foldlM_addInLimit hinLimits rfl).symm.trans h₃)
  obtain ⟨_, h₄, h⟩ := Except.bind_eq_ok.mp h
  obtain rfl := addRepeat_eq rfl h₄
  obtain ⟨_, h₅, h⟩ := Except.bind_eq_ok.mp h
  obtain rfl := Except.ok.inj ((foldlM_addTime htimes rfl).symm.trans h₅)
  have hstr (x : Option Name) :
      (x.map fun t => ({ expressionStr := t.1 } : Expression)).map Expression.expressionStr =
        x.map Subtype.val := Option.map_map _ _ x
  have hnames := hparameters.map Subtype.val_injective
  rw [List.map_map] at hnames
  rw [← Except.ok.inj h]
  refine represents_setScript rfl fun body hbody => {
    extension := rfl
    body := hbody
    userParameters := entries_foldl_set (d := OrderedDict.empty) hnames
    defaultNodeStatus := rfl
    trigger := hstr _
    completeTrigger := hstr _
    events := rfl
    meters := rfl
    limits := rfl
    inLimits := rfl
    repeatDate := rfl
    times := rfl }

theorem Represents.setGeneration {d : NodeDefinition upper isFinite} {n : Node F}
    (h : Represents d n) (generation : CodePoints) : Represents d (setGeneration generation n) := by
  have hbody := h.body
  unfold Definition.setGeneration
  split
  · next hn => exact h.withBody (by cases htype : d.1.type <;> simp_all [NodeType.Fits])
  · next hn => exact h.withBody (by cases htype : d.1.type <;> simp_all [NodeType.Fits])
  · next hn => exact h.withBody (by cases htype : d.1.type <;> simp_all [NodeType.Fits])
  · exact h

/-! ### Nodes that are read back -/

section Read

variable {d : NodeDefinition upper isFinite} {n : Node F}

theorem builtinRegistry_of_represents (h : Represents d n) :
    ∃ kind, builtinRegistry n.nodeClass = .ok ⟨d.1.type.typeId, kind⟩ ∧ kind ≠ .bunch ∧
      (kind = .flow ↔ d.1.type = .flow) := by
  have hbody := h.body
  rw [Node.nodeClass, h.extension]
  cases hn : n.body <;> cases htype : d.1.type <;> simp_all [NodeType.Fits, Body.nodeClass,
    builtinRegistry, NodeType.typeId]

theorem scriptFields_eq (h : Represents d n) :
    scriptFields n = match d.1.type with
      | .shell scriptPath => [(ofString "script_path", optional scriptPath)]
      | _ => [] := by
  have hbody := h.body
  rw [scriptFields, h.extension]
  cases hn : n.body <;> cases htype : d.1.type <;> simp_all [NodeType.Fits]

theorem readType_nodeFields (h : Represents d n) (name : CodePoints) (vs : List (Json F)) :
    readType (nodeFields d.1.type.typeId name n vs) = some d.1.type := by
  rw [readType, nodeFields, scriptFields_eq h]
  cases htype : d.1.type <;> cases n.repeatDate <;>
    simp [attributeFields, NodeType.typeId, Json.text?]

theorem members_nodeFields (h : Represents d n) (name : CodePoints) (vs : List (Json F)) :
    members (nodeMembers d.1.type) (.obj (nodeFields d.1.type.typeId name n vs)) =
      some (nodeFields d.1.type.typeId name n vs) := by
  refine Json.members_obj (["type_id", "name", "user_parameters", "default_node_status",
    "children", "trigger", "complete_trigger", "events", "meters", "limits", "in_limits",
    "times"] ++ n.repeatDate.toList.map (fun _ => "repeat") ++ match d.1.type with
      | .shell _ => ["script_path"]
      | _ => []) ?_ fun key hkey => ?_
  · rw [nodeFields, scriptFields_eq h]
    cases d.1.type <;> cases n.repeatDate <;> rfl
  · unfold nodeMembers
    refine List.mem_append.mpr ?_
    rcases List.mem_append.mp hkey with hkey | hkey
    · refine .inl ?_
      rcases List.mem_append.mp hkey with hkey | hkey
      · simp only [List.mem_cons, List.not_mem_nil, or_false] at hkey
        rcases hkey with rfl | rfl | rfl | rfl | rfl | rfl | rfl | rfl | rfl | rfl | rfl | rfl <;>
          simp
      · obtain ⟨_, -, rfl⟩ := List.mem_map.mp hkey
        simp
    · exact .inr hkey

theorem readNode_nodeFields (h : Represents d n) (name : NodeName) (vs : List (Json F)) :
    readNode upper isFinite (nodeFields d.1.type.typeId name.1 n vs) = some (name, d) := by
  have hparameters : listOf (readParameter upper isFinite) (parameterItems n) =
      some d.1.userParameters := by
    rw [parameterItems, h.userParameters, List.map_map]
    exact Json.listOf_map fun p _ => readParameter_item p
  have hevents : listOf readEvent (.arr (n.events.map fun e =>
      .obj [("name", .str e.name), ("initial_value", .bool e.initialValue)]) : Json F) =
      some d.1.events := by
    rw [h.events, List.map_map]
    exact Json.listOf_map fun e _ => readEvent_item e
  have hmeters : listOf readMeter (.arr (n.meters.map fun m => .obj [("name", .str m.name),
      ("min_value", .int m.minValue), ("max_value", .int m.maxValue)]) : Json F) =
      some d.1.meters := by
    rw [h.meters, List.map_map]
    exact Json.listOf_map fun m _ => readMeter_item m
  have hlimits : listOf readLimit (.arr (n.limits.map fun l =>
      .obj [("name", .str l.name), ("limit", .int l.limit)]) : Json F) = some d.1.limits := by
    rw [h.limits, List.map_map]
    exact Json.listOf_map fun l _ => readLimit_item l
  have hinLimits : listOf readInLimit (.arr (n.inLimits.map fun i =>
      .obj [("limit_name", .str i.limitName), ("node_path", optional i.nodePath),
        ("tokens", .int i.tokens)]) : Json F) = some d.1.inLimits := by
    rw [h.inLimits, List.map_map]
    exact Json.listOf_map fun i _ => readInLimit_item i
  have htimes : listOf readTime (.arr (n.times.map fun t => .obj [("time", .str t.time)]) : Json F) =
      some d.1.times := by
    rw [h.times, List.map_map]
    exact Json.listOf_map fun t _ => readTime_item t
  have hrepeat : orDefault none (optionOf readRepeat)
      (member (nodeFields d.1.type.typeId name.1 n vs) "repeat") = some d.1.repeatDate := by
    rw [nodeFields, scriptFields_eq h, h.repeatDate]
    cases htype : d.1.type <;> cases d.1.repeatDate <;> simp [attributeFields, optionOf_repeat]
  have htypeData : member (nodeFields d.1.type.typeId name.1 n vs) "type_data" = none := by
    rw [nodeFields, scriptFields_eq h]
    cases htype : d.1.type <;> cases n.repeatDate <;> simp [attributeFields]
  rw [readNode, readType_nodeFields h, Option.bind_eq_bind, Option.bind_some,
    members_nodeFields h, Option.bind_eq_bind, Option.bind_some]
  simp only [hrepeat, htypeData]
  simp only [nodeFields, attributeFields, List.cons_append, List.nil_append, Json.member_cons,
    String.reduceEq, reduceIte, Option.bind_eq_bind, Option.bind_some, Json.orDefault_some,
    Json.orDefault_none, readNodeName_str, hparameters, h.defaultNodeStatus,
    readDefaultStatus_text, h.trigger, h.completeTrigger, optionOf_name, hevents, hmeters, hlimits, hinLimits,
    htimes]
  exact dif_pos d.2

theorem trees_reading (vs : List (Json F)) :
    (reading upper isFinite (.arr vs)).trees = vs.mapM (readTree upper isFinite) := by
  rw [reading, Json.para, Json.paraItems_eq, List.mapM_map]
  rfl

theorem readTree_obj (fs : List (CodePoints × Json F)) :
    readTree upper isFinite (.obj fs) =
      readTreeFields upper isFinite (fs.map fun x => (x.1, x.2, reading upper isFinite x.2)) := by
  rw [readTree, reading, Json.para, Json.paraFields_eq]

theorem readTree_nodeFields (h : Represents d n) (name : NodeName) {vs : List (Json F)}
    {ts : List (DefinitionTree upper isFinite)}
    (hvs : vs.mapM (readTree upper isFinite) = some ts)
    (hts : acceptsChildren d.1.type ts = true) :
    readTree upper isFinite (.obj (nodeFields d.1.type.typeId name.1 n vs)) =
      some (.node name d ts) := by
  have hchildren : member (nodeFields d.1.type.typeId name.1 n vs) "children" = some (.arr vs) := by
    simp [nodeFields]
  rw [readTree_obj, readTreeFields, List.map_map, List.map_map]
  have hfields : (nodeFields d.1.type.typeId name.1 n vs).map
      ((fun x : CodePoints × Json F × Reading upper isFinite => (x.1, x.2.1)) ∘
        fun x => (x.1, x.2, reading upper isFinite x.2)) =
      nodeFields d.1.type.typeId name.1 n vs := List.map_id _
  rw [hfields, readNode_nodeFields h]
  change (do
    let children ← orDefault [] Reading.trees (member ((nodeFields d.1.type.typeId name.1 n vs).map
      fun x : CodePoints × Json F => (x.1, reading upper isFinite x.2)) "children")
    if acceptsChildren d.1.type children = true then some (KeyedTree.node name d children) else none)
      = _
  rw [Json.member_map, hchildren, Option.map_some, Json.orDefault_some, trees_reading, hvs]
  exact if_pos hts

end Read

/-! ### Trees with a definition -/

/-- A tree that has a definition. -/
inductive Shows : DefinitionTree upper isFinite → Tree F → Prop
  | node {name : NodeName} {d : NodeDefinition upper isFinite} {n : Node F}
      {children : List (DefinitionTree upper isFinite)} {cs : List (Tree F)} :
      Represents d n → List.Forall₂ Shows children cs →
        Shows (.node name d children) (.node name.1 n cs)

theorem constructList_eq_mapM (ts : List (DefinitionTree upper isFinite)) :
    constructList ts = ts.mapM constructTree := by
  induction ts with
  | nil => rfl
  | cons t ts ih =>
    rw [constructList, List.mapM_cons, ih]

/-- What is constructed has the definition that it was constructed from. -/
theorem shows_of_constructTree {t : DefinitionTree upper isFinite} :
    ∀ {live : Tree F}, constructTree t = .ok live → Shows t live := by
  induction t using KeyedTree.induction with
  | h name d children ih =>
    intro live h
    rw [constructTree] at h
    obtain ⟨n, hn, h⟩ := Except.bind_eq_ok.mp h
    obtain ⟨cs, hcs, h⟩ := Except.bind_eq_ok.mp h
    rw [← Except.ok.inj h]
    rw [constructList_eq_mapM] at hcs
    refine .node (represents_of_construct hn) ?_
    exact ((List.forall₂_and_left _ _).mpr ⟨ih, Except.forall₂_of_mapM hcs⟩).imp
      fun _ _ hc => hc.1 hc.2

/-- A generation is no part of a definition. -/
theorem Shows.mapWith {t : DefinitionTree upper isFinite} (generation : CodePoints) :
    ∀ {live : Tree F} (p : List CodePoints), Shows t live →
      Shows t (live.mapWith (fun _ n => setGeneration generation n) p) := by
  induction t using KeyedTree.induction with
  | h name d children ih =>
    rintro _ p (⟨hd, hcs⟩)
    rw [KeyedTree.mapWith, KeyedTree.mapWithList_eq_map]
    refine .node (hd.setGeneration generation) (List.forall₂_map_right_iff.mpr ?_)
    exact ((List.forall₂_and_left _ _).mpr ⟨ih, hcs⟩).imp fun _ _ hc => hc.1 _ hc.2

/-- A tree whose nodes all have the children that their types allow. -/
inductive Accepted : DefinitionTree upper isFinite → Prop
  | node {name : NodeName} {d : NodeDefinition upper isFinite}
      {children : List (DefinitionTree upper isFinite)} :
      acceptsChildren d.1.type children = true → (∀ c ∈ children, Accepted c) →
        Accepted (.node name d children)

theorem projectList_of_forall₂ {ts : List (DefinitionTree upper isFinite)} {cs : List (Tree F)}
    (h : List.Forall₂ (fun t c => ∀ path : String, ∃ v, project path c = .ok v ∧
      readTree upper isFinite v = some t) ts cs) : ∀ (path : String) (i : ℕ),
    ∃ vs, projectList path i cs = .ok vs ∧ vs.mapM (readTree upper isFinite) = some ts := by
  induction h with
  | nil => exact fun _ _ => ⟨[], rfl, rfl⟩
  | cons hc _ ih =>
    intro path i
    obtain ⟨v, hv, hread⟩ := hc (path ++ toString i ++ "]")
    obtain ⟨vs, hvs, hreads⟩ := ih path (i + 1)
    refine ⟨v :: vs, ?_, ?_⟩
    · rw [projectList, hv, hvs]
      rfl
    · rw [List.mapM_cons, hread, hreads]
      rfl

/-- The projection of a tree with a definition is read as this definition. -/
theorem readTree_project {t : DefinitionTree upper isFinite} (ht : Accepted t) :
    ∀ {live : Tree F}, Shows t live → ∀ path : String,
      ∃ v, project path live = .ok v ∧ readTree upper isFinite v = some t := by
  induction t using KeyedTree.induction with
  | h name d children ih =>
    rintro _ (@⟨_, _, n, _, _, hd, hcs⟩) path
    obtain ⟨haccepts, hchildren⟩ := ht
    obtain ⟨kind, hentry, hkind, -⟩ := builtinRegistry_of_represents hd
    have hpairs := ((List.forall₂_and_left _ _).mpr ⟨fun c hc => @ih c hc (hchildren c hc), hcs⟩).imp
      fun _ _ hc => hc.1 hc.2
    obtain ⟨vs, hvs, hreads⟩ := projectList_of_forall₂ hpairs (path ++ ".children[") 0
    refine ⟨_, ?_, readTree_nodeFields hd name hreads haccepts⟩
    have htimes : (n.times.any fun t => !t.isMinute) = false := by
      rw [hd.times, List.any_map]
      exact List.any_eq_false.mpr fun t _ => by simp [liveTime]
    rw [project, hentry]
    change (if kind = .bunch then _ else _) = _
    rw [if_neg hkind, htimes, hvs]
    rfl

theorem accepted_reading (v : Json F) :
    (∀ t ∈ (reading upper isFinite v).tree, Accepted t) ∧
      ∀ ts ∈ (reading upper isFinite v).trees, ∀ t ∈ ts, Accepted t := by
  induction v using Json.induction with
  | arr vs ih =>
    refine ⟨fun t ht => (nomatch ht), fun ts hts t ht => ?_⟩
    rw [trees_reading] at hts
    obtain ⟨v, hv, hread⟩ := Json.exists_of_mem_mapM hts t ht
    exact (ih v hv).1 t hread
  | obj fs ih =>
    refine ⟨fun t ht => ?_, fun ts hts => (nomatch hts)⟩
    have hread : readTree upper isFinite (.obj fs) = some t := ht
    rw [readTree_obj, readTreeFields] at hread
    obtain ⟨⟨name, d⟩, -, hread⟩ := Option.bind_eq_some_iff.mp hread
    obtain ⟨children, hchildren, hread⟩ := Option.bind_eq_some_iff.mp hread
    split_ifs at hread with haccepts
    obtain rfl := Option.some.inj hread
    refine .node haccepts fun c hc => ?_
    cases hmember : member ((fs.map fun x => (x.1, x.2, reading upper isFinite x.2)).map
        fun x => (x.1, x.2.2)) "children" with
    | none =>
      rw [hmember, Json.orDefault_none] at hchildren
      obtain rfl := Option.some.inj hchildren
      exact absurd hc List.not_mem_nil
    | some r =>
      rw [hmember, Json.orDefault_some] at hchildren
      obtain ⟨y, hy, rfl⟩ := Json.exists_of_member hmember
      rw [List.map_map] at hy
      obtain ⟨x, hx, rfl⟩ := List.mem_map.mp hy
      exact (ih x hx).2 children hchildren c hc
  | _ => exact ⟨fun t ht => (nomatch ht), fun ts hts => (nomatch hts)⟩

/-- What was read has the children that the types allow, everywhere. -/
theorem readTree_accepted {v : Json F} {t : DefinitionTree upper isFinite}
    (h : readTree upper isFinite v = some t) : Accepted t := (accepted_reading v).1 t h

/-! ### Documents -/

section Root

/-- The trees of a root are accepted. -/
def DefinitionRoot.Accepted : DefinitionRoot upper isFinite → Prop
  | .bunch b => ∀ t ∈ b.flows, Definition.Accepted t
  | .flow t _ => Definition.Accepted t

theorem accepted_of_readRoot {v : Json F} {r : DefinitionRoot upper isFinite}
    (h : readRoot upper isFinite v = some r) : r.Accepted := by
  rw [readRoot] at h
  obtain ⟨typeId, -, h⟩ := Option.bind_eq_some_iff.mp h
  split_ifs at h
  · obtain ⟨b, hb, rfl⟩ := Option.map_eq_some_iff.mp h
    rw [readBunch] at hb
    obtain ⟨fs, -, hb⟩ := Option.bind_eq_some_iff.mp hb
    obtain ⟨name, -, hb⟩ := Option.bind_eq_some_iff.mp hb
    obtain ⟨ps, -, hb⟩ := Option.bind_eq_some_iff.mp hb
    obtain ⟨flows, hflows, hb⟩ := Option.bind_eq_some_iff.mp hb
    split_ifs at hb
    obtain rfl := Option.some.inj hb
    intro t ht
    cases hmember : member fs "flows" with
    | none =>
      rw [hmember, Json.orDefault_none] at hflows
      obtain rfl := Option.some.inj hflows
      exact absurd ht List.not_mem_nil
    | some v =>
      rw [hmember, Json.orDefault_some] at hflows
      cases v with
      | arr vs =>
        obtain ⟨v, -, hv⟩ := Json.exists_of_mem_mapM hflows t ht
        exact readTree_accepted hv
      | _ => exact nomatch hflows
  · obtain ⟨t, ht, h⟩ := Option.bind_eq_some_iff.mp h
    split_ifs at h
    obtain rfl := Option.some.inj h
    exact readTree_accepted ht

theorem accepted_of_readDocument {v : Json F} {d : DefinitionDocument upper isFinite}
    (h : readDocument upper isFinite v = some d) : d.root.Accepted := by
  rw [readDocument] at h
  obtain ⟨fs, -, h⟩ := Option.bind_eq_some_iff.mp h
  obtain ⟨kind, -, h⟩ := Option.bind_eq_some_iff.mp h
  obtain ⟨version, -, h⟩ := Option.bind_eq_some_iff.mp h
  obtain ⟨root, hroot, h⟩ := Option.bind_eq_some_iff.mp h
  split_ifs at h
  obtain ⟨v, -, hread⟩ := Option.bind_eq_some_iff.mp hroot
  rw [← Option.some.inj h]
  exact accepted_of_readRoot hread

/-- Building starts from what was read. -/
theorem buildDefinition_eq_ok {diagnose : Json F → DefinitionError}
    {checkTypes : Json F → Option DefinitionError} {bind : Tree F → Option DefinitionError}
    {uuid : ℕ → CodePoints} {document : Json F} {root : Tree F}
    (h : buildDefinition upper isFinite diagnose checkTypes bind uuid document = .ok root) :
    ∃ d, readDocument upper isFinite document = some d ∧ constructRoot uuid d.root = .ok root := by
  unfold buildDefinition at h
  split at h
  · exact nomatch h
  obtain ⟨d, hd, h⟩ := Except.bind_eq_ok.mp h
  obtain ⟨r, hr, h⟩ := Except.bind_eq_ok.mp h
  refine ⟨d, ?_, ?_⟩
  · rw [parseDefinition] at hd
    split at hd
    · next hread => rw [hread, Except.ok.inj hd]
    · exact nomatch hd
  · split at h
    · exact nomatch h
    · rw [← Except.ok.inj h]
      exact Except.mapError_eq_ok.mp hr

theorem forall₂_mapIdx {α β γ : Type} {R : α → β → Prop} {S : α → γ → Prop} {as : List α}
    {bs : List β} (h : List.Forall₂ R as bs) : ∀ {f : ℕ → β → γ},
    (∀ i a b, R a b → S a (f i b)) → List.Forall₂ S as (bs.mapIdx f) := by
  induction h with
  | nil => exact fun _ => .nil
  | cons hab _ ih =>
    intro f hf
    rw [List.mapIdx_cons]
    exact .cons (hf 0 _ _ hab) (ih fun i a b => hf (i + 1) a b)

theorem readRoot_bunchFields {b : BunchDefinition upper isFinite} {n : Node F} {vs : List (Json F)}
    (hn : n.userParameters.entries = b.userParameters.map fun p => (p.name.1, p.value.1))
    (hvs : vs.mapM (readTree upper isFinite) = some b.flows) :
    readRoot upper isFinite (.obj (bunchFields "takler.bunch" b.name.1 n vs)) =
      some (.bunch b) := by
  have hparameters : listOf (readParameter upper isFinite) (parameterItems n) =
      some b.userParameters := by
    rw [parameterItems, hn, List.map_map]
    exact Json.listOf_map fun p _ => readParameter_item p
  have hflows : listOf (readTree upper isFinite) (.arr vs) = some b.flows := hvs
  have hname : readBunchName (.str b.name.1 : Json F) = some b.name := dif_pos b.name.2
  have hread : readBunch upper isFinite (.obj (bunchFields "takler.bunch" b.name.1 n vs)) =
      some b := by
    simp [readBunch, members, bunchFields, hname, hparameters, hflows, b.unique_parameters,
      b.unique_flows]
    exact b.types
  rw [readRoot, hread]
  simp [bunchFields, Json.get?, Json.text?]

theorem project_bunch {path : String} {name : CodePoints} {n : Node F} {cs : List (Tree F)}
    {vs : List (Json F)} (hclass : n.nodeClass = .bunch) (hroot : hasRootAttribute n = false)
    (hvs : projectList (path ++ ".flows[") 0 cs = .ok vs) :
    project path (.node name n cs) = .ok (.obj (bunchFields "takler.bunch" name n vs)) := by
  rw [project, hclass]
  change (if hasRootAttribute n = true then _ else _) = _
  rw [if_neg (Bool.eq_false_iff.mp hroot), hvs]
  rfl

theorem readRoot_project_bunch {b : BunchDefinition upper isFinite}
    (hb : ∀ t ∈ b.flows, Accepted t) {uuid : ℕ → CodePoints} {root : Tree F}
    (h : constructRoot uuid (.bunch b) = .ok root) (path : String) :
    ∃ v, project path root = .ok v ∧ readRoot upper isFinite v = some (.bunch b) := by
  obtain ⟨flows, hflows, h⟩ := Except.bind_eq_ok.mp h
  rw [constructList_eq_mapM] at hflows
  have hshows := forall₂_mapIdx (Except.forall₂_of_mapM hflows) (S := Shows)
    (f := fun i t => ensureDefinitionGeneration (uuid i) t)
    fun i _ _ ht => (shows_of_constructTree ht).mapWith (uuid i) []
  have hpairs := ((List.forall₂_and_left _ _).mpr ⟨fun t ht => @readTree_project _ _ _ t (hb t ht),
    hshows⟩).imp fun _ _ hc => hc.1 hc.2
  obtain ⟨vs, hvs, hreads⟩ := projectList_of_forall₂ hpairs (path ++ ".flows[") 0
  have hnames := b.unique_parameters.map Subtype.val_injective
  rw [List.map_map] at hnames
  rw [← Except.ok.inj h, foldl_addParameter]
  exact ⟨_, project_bunch rfl rfl hvs,
    readRoot_bunchFields (entries_foldl_set (d := OrderedDict.empty) hnames) hreads⟩

theorem typeId_of_readType {fs : List (CodePoints × Json F)} {type : NodeType}
    (h : readType fs = some type) :
    (member fs "type_id").bind Json.text? = some (ofString type.typeId) := by
  obtain ⟨typeId, htypeId, h⟩ := Option.bind_eq_some_iff.mp h
  rw [htypeId]
  split_ifs at h with h₁ h₂ h₃ h₄
  · rw [h₁, ← Option.some.inj h]
    rfl
  · obtain ⟨scriptPath, -, h⟩ := Option.bind_eq_some_iff.mp h
    rw [h₂, ← Option.some.inj h]
    rfl
  · rw [h₃, ← Option.some.inj h]
    rfl
  · rw [h₄, ← Option.some.inj h]
    rfl

theorem readRoot_of_readTree {v : Json F} {t : DefinitionTree upper isFinite}
    (h : readTree upper isFinite v = some t) (ht : t.value.1.type = .flow) :
    readRoot upper isFinite v = some (.flow t ht) := by
  cases v with
  | obj fs =>
    have hfields := h
    rw [readTree_obj, readTreeFields, List.map_map] at hfields
    obtain ⟨x, hx, -⟩ := Option.bind_eq_some_iff.mp hfields
    obtain ⟨type, htype, -⟩ := Option.bind_eq_some_iff.mp hx
    have hid := typeId_of_readType htype
    have hne : ofString type.typeId ≠ ofString "takler.bunch" := by
      cases type <;> simp [NodeType.typeId]
    have hget : ((Json.obj fs).get? (ofString "type_id")).bind Json.text? =
        some (ofString type.typeId) := by
      rw [← hid]
      exact congrArg (fun l => (member l "type_id").bind Json.text?) (List.map_id fs).symm
    rw [readRoot, hget, Option.bind_eq_bind, Option.bind_some, if_neg hne, h]
    exact dif_pos ht
  | _ => exact nomatch h

/-- What was constructed is projected to what is read as its definition. -/
theorem project_constructRoot {r : DefinitionRoot upper isFinite} (hr : r.Accepted)
    {uuid : ℕ → CodePoints} {root : Tree F} (h : constructRoot uuid r = .ok root) :
    (∃ entry, builtinRegistry root.value.nodeClass = .ok entry ∧
      (entry.kind = .bunch ∨ entry.kind = .flow)) ∧
    ∃ v, project "$.root" root = .ok v ∧ readRoot upper isFinite v = some r := by
  cases r with
  | bunch b =>
    refine ⟨?_, readRoot_project_bunch hr h "$.root"⟩
    obtain ⟨flows, -, h⟩ := Except.bind_eq_ok.mp h
    rw [← Except.ok.inj h, foldl_addParameter]
    exact ⟨_, rfl, .inl rfl⟩
  | flow t ht =>
    have hshows := shows_of_constructTree h
    obtain ⟨v, hv, hread⟩ := readTree_project hr hshows "$.root"
    refine ⟨?_, v, hv, readRoot_of_readTree hread ht⟩
    obtain ⟨hd, -⟩ := hshows
    obtain ⟨kind, hentry, -, hkind⟩ := builtinRegistry_of_represents hd
    exact ⟨_, hentry, .inr (hkind.mpr ht)⟩

/-- The definition of what was built is the definition that was read. -/
theorem exportDefinition_buildDefinition {diagnose : Json F → DefinitionError}
    {checkTypes : Json F → Option DefinitionError} {bind : Tree F → Option DefinitionError}
    {uuid : ℕ → CodePoints} {document : Json F} {root : Tree F}
    (h : buildDefinition upper isFinite diagnose checkTypes bind uuid document = .ok root) :
    ∃ d, parseDefinition upper isFinite diagnose document = .ok d ∧
      exportDefinition upper isFinite diagnose root = .ok d := by
  obtain ⟨d, hd, hroot⟩ := buildDefinition_eq_ok h
  refine ⟨d, by rw [parseDefinition, hd], ?_⟩
  obtain ⟨⟨entry, hentry, hkind⟩, v, hv, hread⟩ :=
    project_constructRoot (accepted_of_readDocument hd) hroot
  have hkind' : ¬ (entry.kind ≠ .bunch ∧ entry.kind ≠ .flow) := by tauto
  have hdocument : readDocument upper isFinite (documentOf v) = some d := by
    simp [readDocument, documentOf, members, Json.text?, Json.int?, hread]
  rw [exportDefinition, hentry]
  change (if entry.kind ≠ .bunch ∧ entry.kind ≠ .flow then _ else _) = _
  rw [if_neg hkind', hv]
  change parseDefinition upper isFinite diagnose (documentOf v) = _
  rw [parseDefinition, hdocument]

/-- A flow with a limit, and a task with attributes. -/
def sampleDocument : Json Unit :=
  .obj [("kind", .str "takler.definition"), ("schema_version", .int 1), ("root", .obj [
    ("type_id", .str "takler.flow"), ("name", .str "f"),
    ("limits", .arr [.obj [("name", .str "l"), ("limit", .int 2)]]),
    ("children", .arr [.obj [("type_id", .str "takler.shell"), ("name", .str "t"),
      ("events", .arr [.obj [("name", .str "e")]]),
      ("in_limits", .arr [.obj [("limit_name", .str "l")]]),
      ("repeat", .obj [("type_id", .str "takler.repeat.date"), ("name", .str "D"),
        ("start_date", .str "20260101"), ("end_date", .str "20260102")]),
      ("times", .arr [.obj [("time", .str "09:30")]])]])])]

theorem exportDefinition_sampleDocument :
    ∃ root d, parseDefinition id (fun _ => true) (fun _ => { code := "invalid_field" })
        sampleDocument = .ok d ∧
      exportDefinition id (fun _ => true) (fun _ => { code := "invalid_field" }) root = .ok d := by
  have hok : (buildDefinition id (fun _ => true) (fun _ => { code := "invalid_field" })
      (fun _ => none) (fun _ => none) (fun _ => "g") sampleDocument).isOk = true := by
    decide +kernel
  match h : buildDefinition id (fun _ => true) (fun _ => { code := "invalid_field" })
      (fun _ => none) (fun _ => none) (fun _ => "g") sampleDocument with
  | .ok root => exact ⟨root, exportDefinition_buildDefinition h⟩
  | .error e =>
    rw [h] at hok
    exact absurd hok Bool.false_ne_true

end Root

end Takler.Version.Definition
