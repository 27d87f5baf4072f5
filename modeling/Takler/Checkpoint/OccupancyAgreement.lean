import Takler.Checkpoint.LimitReferences

/-!
# Where the two checks of the holders of limits agree

The check of a checkpoint and the check of a tree find the same limits for the same in-limits, as
far as both find one. They differ in two points. In the last step of the climb the check of a
checkpoint goes on from the flow to `/`, and the in-limits of the bunch count for every task in
flight, while a flow object has no parent. And a row of a checkpoint is refused when more is taken
from a limit than it has, while the tree is only compared with its tasks: a force or a smaller limit
may leave more tasks in flight than fit. The two checks agree on every occupancy exactly when the
bunch's in-limits add nothing to what the nodes below it ask for and no limit is asked for more than
it has.

## Main definitions

* `BoundBy`: the in-limits of a tree are bound to what their references find.
* `RootCovered`: the in-limits of the bunch are repeated below it for every task in flight.
* `askedTokens`, `WithinLimits`: the tasks in flight ask for no more than every limit has.

## Main results

* `rowItemsUp_text`: the climb of a checkpoint is that of the tree, and the bunch's in-limits.
* `validateOccupancy_ok_iff`, `validateHolders_ok_iff`: what each of the checks accepts.
-/

namespace Takler.Occupancy

open Live (PathText)

/-! ### The in-limits that count for a task -/

section Agreement

variable {L : Layout} {bound : Binding}

/-- The in-limits are bound to the limits that their references find, when the tree was built or
when they were added to it. -/
def BoundBy (L : Layout) (bound : Binding) : Prop :=
  ∀ p ∈ L.places, ∀ d ∈ L.at? p, List.Forall₂ (fun i x =>
    (L.resolveInLimit p i = some x.1.1 ∨ L.validateReference p i = some x.1.1) ∧
      x.1.2 = i.limitName ∧ x.2 = i.tokens) d.inLimits (bound p)

instance (L : Layout) (bound : Binding) : Decidable (BoundBy L bound) :=
  inferInstanceAs (Decidable (∀ p ∈ L.places, ∀ d ∈ L.at? p, _))

/-- The key of a limit in a checkpoint. -/
def limitKey (k : Place × String) : PathText × String := (k.1.text, k.2)

/-- An item of the tree as one of a checkpoint. -/
def itemKey (x : (Place × String) × ℕ) : (PathText × String) × ℕ := (limitKey x.1, x.2)

theorem BoundBy.hasLimit (h : BoundBy L bound) {p : Place} (hp : p ∈ L.places)
    {x : (Place × String) × ℕ} (hx : x ∈ bound p) : L.hasLimit x.1.2 x.1.1 = true := by
  obtain ⟨d, hd⟩ := Option.isSome_iff_exists.mp (Layout.mem_places.mp hp)
  obtain ⟨i, -, hlive, hname, -⟩ := (h p hp d hd).exists_of_mem_right hx
  rw [hname]
  rcases hlive with hlive | hlive
  · exact (finds_of_resolveInLimit hlive).2
  · exact (finds_of_validateReference hlive).2

theorem resolveRow_eq {p : Place} (hbound : BoundBy L bound) (hp : p ∈ L.places)
    {y : PathText × List ((PathText × String) × ℕ)}
    (h : resolveRow L.name L.definitions (p.text, (L.at? p).getD {}) = .ok y) :
    y = (p.text, (bound p).map itemKey) := by
  obtain ⟨d, hd⟩ := Option.isSome_iff_exists.mp (Layout.mem_places.mp hp)
  obtain ⟨items, hitems, h⟩ := Except.bind_eq_ok.mp h
  cases h
  rw [hd, Option.getD_some] at hitems
  rw [List.forall₂_eq_map ?_ (hbound p hp d hd) (Except.forall₂_of_mapM hitems)]
  rintro i x c ⟨hlive, hname, htokens⟩ hc
  obtain ⟨k, hk, hc⟩ := Except.bind_eq_ok.mp hc
  cases hc
  have hfinds : Finds L p i x.1.1 ∧ L.hasLimit i.limitName x.1.1 = true := by
    rcases hlive with hlive | hlive
    · exact finds_of_resolveInLimit hlive
    · exact finds_of_validateReference hlive
  rw [resolve_agrees hp (Layout.mem_places_of_hasLimit hfinds.2) hfinds.1 hk]
  unfold itemKey limitKey
  rw [hname, htokens]

/-- The rows of resolved in-limits are those of the tree. -/
theorem resolveAll_eq (hbound : BoundBy L bound)
    {resolved : Rows (List ((PathText × String) × ℕ))}
    (h : resolveAll L.name L.definitions = .ok resolved) :
    resolved = L.places.map fun p => (p.text, (bound p).map itemKey) := by
  have hrows := Except.forall₂_of_mapM h
  unfold Layout.definitions at hrows
  rw [List.forall₂_map_left_iff] at hrows
  have hself : List.Forall₂ (fun p q => p = q ∧ p ∈ L.places) L.places L.places := by
    rw [List.forall₂_same]
    exact fun p hp => ⟨rfl, hp⟩
  refine List.forall₂_eq_map ?_ hself hrows
  rintro p q y ⟨rfl, hp⟩ hy
  exact resolveRow_eq hbound hp hy

/-- The climb of a checkpoint adds the in-limits of the bunch to those that the tree finds. -/
theorem rowItemsUp_text {p : Place} (hp : p ∈ L.places) (hroot : p ≠ .root) :
    rowItemsUp (L.places.map fun p => (p.text, (bound p).map itemKey)) p.text
      = (itemsUp bound p ++ bound .root).map itemKey := by
  have hrow : ∀ q ∈ L.places, (Rows.get? (L.places.map fun p => (p.text, (bound p).map itemKey))
      q.text).getD [] = (bound q).map itemKey := fun q hq => by
    rw [Layout.get?_map_text (fun p => (bound p).map itemKey) hq, Option.getD_some]
  unfold rowItemsUp itemsUp
  rw [keysUp_text hp, topKeys, if_neg hroot, List.flatMap_append, List.flatMap_map,
    List.flatMap_singleton, hrow .root Layout.root_mem_places, List.map_append, List.map_flatMap]
  congr 1
  exact List.flatMap_congr fun q hq => hrow q (mem_places_of_mem_lineage hp q hq)

theorem held_itemKey {items : List ((Place × String) × ℕ)} {k : Place × String}
    (hitems : ∀ x ∈ items, x.1.1 ∈ L.places) (hk : k.1 ∈ L.places) :
    held (items.map itemKey) (limitKey k) = held items k := by
  have hsame : ∀ x ∈ items, ((fun y => decide (y.1 = limitKey k)) ∘ itemKey) x
      = decide (x.1 = k) := fun x hx => by
    rw [Function.comp_apply, decide_eq_decide]
    refine ⟨fun h => ?_, fun h => by rw [← h]; rfl⟩
    obtain ⟨htext, hname⟩ := Prod.mk.inj h
    exact Prod.ext (Layout.text_injOn (hitems x hx) hk htext) hname
  unfold held
  rw [List.find?_map, List.find?_congr_of_mem hsame, Option.map_map]
  rfl

theorem held_append_of_covered {κ : Type} [DecidableEq κ] {near far : List (κ × ℕ)}
    (h : ∀ x ∈ far, ∃ y ∈ near, y.1 = x.1) (k : κ) : held (near ++ far) k = held near k := by
  unfold held
  rw [List.find?_append]
  cases hn : near.find? fun x => decide (x.1 = k) with
  | some x => rfl
  | none =>
    have hfar : (far.find? fun x => decide (x.1 = k)) = none := by
      rw [List.find?_eq_none] at hn ⊢
      intro x hx hxk
      obtain ⟨y, hy, hyx⟩ := h x hx
      exact hn y hy (by rw [hyx]; exact hxk)
    rw [hfar]
    rfl

theorem held_isSome {κ : Type} [DecidableEq κ] {items : List (κ × ℕ)} {k : κ} :
    (held items k).isSome ↔ ∃ x ∈ items, x.1 = k := by
  unfold held
  rw [Option.isSome_map, List.find?_isSome]
  simp only [decide_eq_true_eq]

/-! ### The two checks -/

variable {R : Runtime}

theorem inFlightTask_ne_root {p : Place} (h : inFlightTask L R p = true) : p ≠ .root := by
  rintro rfl
  simp [inFlightTask, Layout.at?, L.root_isTask] at h

theorem nodup_places : L.places.Nodup := by
  unfold Layout.places
  rw [List.nodup_cons, List.nodup_flatMap]
  refine ⟨by simp, fun f hf => ?_, ?_⟩
  · have hwalk := KeyedTree.nodup_walk (L.distinct f hf) []
    have hnode := hwalk.map (f := Place.node f.key) fun a b h => (Place.node.inj h).2
    rwa [List.map_map] at hnode
  · refine (List.pairwise_map.mp L.nodup).imp fun {f g} hne => ?_
    rintro q hq hq'
    obtain ⟨x, -, rfl⟩ := List.mem_map.mp hq
    obtain ⟨y, -, hxy⟩ := List.mem_map.mp hq'
    exact hne (Place.node.inj hxy).1.symm

theorem nodup_texts : ((L.places.filter fun p => p ≠ .root).map Place.text).Nodup :=
  (nodup_places.filter _).map_on fun _ hp _ hq h =>
    Layout.text_injOn (List.mem_of_mem_filter hp) (List.mem_of_mem_filter hq) h

theorem any_isTask (p : Place) :
    ((L.at? p).getD {}).isTask = (L.at? p).any fun d => d.isTask := by
  cases L.at? p with
  | none => rfl
  | some d => rfl

/-- The holders when the climb goes on to the bunch. -/
def holdersToRoot (L : Layout) (bound : Binding) (R : Runtime) (k : Place × String) :
    List (PathText × ℕ) :=
  (L.places.filter (inFlightTask L R)).filterMap fun p =>
    (held (itemsUp bound p ++ bound .root) k).map fun tokens => (p.text, tokens)

/-- The holders that a checkpoint expects. -/
theorem rowHolders_eq (hbound : BoundBy L bound) {k : Place × String} (hk : k.1 ∈ L.places) :
    rowHolders (L.capture R) (L.places.map fun p => (p.text, (bound p).map itemKey)) (limitKey k)
      = holdersToRoot L bound R k := by
  have hplaces : ∀ p ∈ L.places, ∀ x ∈ itemsUp bound p ++ bound .root, x.1.1 ∈ L.places := by
    intro p hp x hx
    rcases List.mem_append.mp hx with hx | hx
    · obtain ⟨q, hq, hx⟩ := List.mem_flatMap.mp hx
      exact Layout.mem_places_of_hasLimit
        (hbound.hasLimit (mem_places_of_mem_lineage hp q hq) hx)
    · exact Layout.mem_places_of_hasLimit (hbound.hasLimit Layout.root_mem_places hx)
  unfold rowHolders Layout.capture holdersToRoot
  rw [List.filter_map, List.filterMap_map]
  have hfilter : L.places.filter ((fun x : PathText × NodeRuntime =>
      x.2.isTask && x.2.status.inFlight) ∘ fun p => (p.text, ⟨((L.at? p).getD {}).isTask,
        R.status p, R.generation p, R.usage p⟩)) = L.places.filter (inFlightTask L R) :=
    List.filter_congr fun p _ => by
      rw [Function.comp_apply, any_isTask]
      rfl
  rw [hfilter]
  refine List.filterMap_congr fun p hp => ?_
  obtain ⟨hp, htask⟩ := List.mem_filter.mp hp
  rw [Function.comp_apply]
  dsimp only
  rw [rowItemsUp_text hp (inFlightTask_ne_root htask), held_itemKey (hplaces p hp) hk]

theorem flow_mem_places {p : Place} (hp : p ∈ L.places) : p.flow ∈ L.places := by
  cases p with
  | root => exact hp
  | node n a =>
    refine mem_places_of_mem_lineage hp _ ?_
    exact List.mem_map.mpr ⟨[], List.mem_tails [] a |>.mpr (List.nil_suffix), rfl⟩

theorem text_take {p : Place} : p.text.take 2 = p.flow.text := by
  cases p with
  | root => rfl
  | node n a => rfl

theorem rowGenerations_iff : RowGenerations (L.capture R) ↔ SameGenerations L R := by
  unfold RowGenerations SameGenerations Layout.capture
  rw [List.forall_mem_map]
  refine forall₂_congr fun p hp => ?_
  rw [any_isTask, text_take, Layout.get?_map_text _ (flow_mem_places hp), Option.map_some,
    Option.some_inj]

/-- The occupancy of every limit is that of its expected holders. -/
def Occupied (L : Layout) (R : Runtime) (expected : Place × String → List (PathText × ℕ)) : Prop :=
  ∀ p ∈ L.places, ∀ d ∈ L.at? p, ∀ l ∈ d.limits,
    (R.usage p l.name).Matches (expected (p, l.name))

theorem validateOccupancy_ok_iff : validateOccupancy L bound R = .ok () ↔
    SameGenerations L R ∧ Occupied L R (holders L bound R) := by
  unfold validateOccupancy
  by_cases hgen : SameGenerations L R
  · rw [if_neg (not_not.mpr hgen), if_neg (not_not.mpr nodup_texts)]
    split_ifs with hocc
    · exact ⟨fun _ => ⟨hgen, hocc⟩, fun _ => rfl⟩
    · exact ⟨nofun, fun h => (hocc h.2).elim⟩
  · rw [if_pos hgen]
    exact ⟨nofun, fun h => (hgen h.1).elim⟩

/-- The value of every limit is a number of tokens that the limit has. -/
def Bounded (L : Layout) (R : Runtime) : Prop :=
  ∀ p ∈ L.places, ∀ d ∈ L.at? p, ∀ l ∈ d.limits,
    0 ≤ (R.usage p l.name).value ∧ (R.usage p l.name).value ≤ l.limit

theorem validateRuntimeLimit_ok_iff {l : LimitDef} {u : LimitUsage} :
    validateRuntimeLimit l u = .ok () ↔ 0 ≤ u.value ∧ u.value ≤ l.limit := by
  unfold validateRuntimeLimit
  split_ifs with h₁ h₂
  · exact ⟨nofun, fun h => absurd h.1 (not_le.mpr h₁)⟩
  · exact ⟨nofun, fun h => absurd h.2 (not_le.mpr h₂)⟩
  · exact ⟨fun _ => ⟨not_lt.mp h₁, not_lt.mp h₂⟩, fun _ => rfl⟩

theorem forM_eq_ok {α : Type} {f : α → Except String PUnit} : ∀ {l : List α},
    l.forM f = .ok () ↔ ∀ x ∈ l, f x = .ok ()
  | [] => ⟨fun _ _ hx => absurd hx List.not_mem_nil, fun _ => rfl⟩
  | x :: l => by
    rw [List.forall_mem_cons, ← forM_eq_ok (l := l)]
    change (f x >>= fun _ => l.forM f) = .ok () ↔ _
    cases f x with
    | error e => exact ⟨nofun, fun h => nomatch h.1⟩
    | ok u => exact ⟨fun h => ⟨rfl, h⟩, fun h => h.2⟩

/-- A captured row is found under its key. -/
theorem capture_get? {p : Place} (hp : p ∈ L.places) : (L.capture R).get? p.text =
    some ⟨((L.at? p).getD {}).isTask, R.status p, R.generation p, R.usage p⟩ :=
  Layout.get?_map_text _ hp

theorem validateUsages_ok_iff :
    validateUsages L.definitions (L.capture R) = .ok () ↔ Bounded L R := by
  unfold validateUsages Layout.definitions Bounded
  rw [forM_eq_ok, List.forall_mem_map]
  refine forall₂_congr fun p hp => ?_
  obtain ⟨d, hd⟩ := Option.isSome_iff_exists.mp (Layout.mem_places.mp hp)
  simp only [forM_eq_ok, capture_get? hp, validateRuntimeLimit_ok_iff, hd, Option.getD_some,
    Option.mem_def, Option.some.injEq, forall_eq']

theorem validateHolders_ok_iff (hbound : BoundBy L bound)
    (hresolved : ∃ resolved, resolveAll L.name L.definitions = .ok resolved) :
    validateHolders L.name L.definitions (L.capture R) = .ok () ↔
      Bounded L R ∧ SameGenerations L R ∧ Occupied L R (holdersToRoot L bound R) := by
  obtain ⟨resolved, hresolved⟩ := hresolved
  have hrows := resolveAll_eq hbound hresolved
  unfold validateHolders
  rw [hresolved, ← rowGenerations_iff, ← validateUsages_ok_iff]
  rcases husages : validateUsages L.definitions (L.capture R) with e | ⟨⟨⟩⟩
  · exact ⟨nofun, fun h => nomatch h.1⟩
  rw [eq_self_iff_true, true_and]
  change (if _ then _ else _) = _ ↔ _
  by_cases hgen : RowGenerations (L.capture R)
  · rw [if_neg (not_not.mpr hgen), hrows]
    have hocc : (∀ x ∈ L.definitions, ∀ l ∈ x.2.limits, ∀ r ∈ (L.capture R).get? x.1,
        (r.usage l.name).Matches (rowHolders (L.capture R)
          (L.places.map fun p => (p.text, (bound p).map itemKey)) (x.1, l.name))) ↔
        Occupied L R (holdersToRoot L bound R) := by
      unfold Layout.definitions Occupied
      rw [List.forall_mem_map]
      refine forall₂_congr fun p hp => ?_
      obtain ⟨d, hd⟩ := Option.isSome_iff_exists.mp (Layout.mem_places.mp hp)
      simp only [hd, capture_get? hp, Option.getD_some, Option.mem_def, Option.some.injEq, forall_eq']
      refine forall₂_congr fun l _ => ?_
      rw [← rowHolders_eq hbound (k := (p, l.name)) hp]
      rfl
    split_ifs with h
    · exact ⟨fun _ => ⟨hgen, hocc.mp h⟩, fun _ => rfl⟩
    · exact ⟨nofun, fun h' => (h (hocc.mpr h'.2)).elim⟩
  · rw [if_pos hgen]
    exact ⟨nofun, fun h => (hgen h.1).elim⟩

/-- Every limit that an in-limit of the bunch asks for is asked for, for each task in flight, by
the task itself or by a node above it up to the flow. -/
def RootCovered (L : Layout) (bound : Binding) (R : Runtime) : Prop :=
  ∀ p ∈ L.places, inFlightTask L R p = true → ∀ x ∈ bound .root, ∃ y ∈ itemsUp bound p, y.1 = x.1

instance (L : Layout) (bound : Binding) (R : Runtime) : Decidable (RootCovered L bound R) :=
  inferInstanceAs (Decidable (∀ p ∈ L.places, _ → _))

/-- The tokens that the tasks in flight ask of a limit, each by its nearest in-limit. -/
def askedTokens (L : Layout) (bound : Binding) (R : Runtime) (k : Place × String) : ℕ :=
  ((L.places.filter (inFlightTask L R)).map fun p => (held (itemsUp bound p) k).getD 0).sum

/-- No limit is asked for more than it has. -/
def WithinLimits (L : Layout) (bound : Binding) (R : Runtime) : Prop :=
  ∀ p ∈ L.places, ∀ d ∈ L.at? p, ∀ l ∈ d.limits, askedTokens L bound R (p, l.name) ≤ l.limit

instance (L : Layout) (bound : Binding) (R : Runtime) : Decidable (WithinLimits L bound R) :=
  inferInstanceAs (Decidable (∀ p ∈ L.places, ∀ d ∈ L.at? p, ∀ l ∈ d.limits, _ ≤ _))

theorem sum_holders (k : Place × String) :
    ((holders L bound R k).map Prod.snd).sum = askedTokens L bound R k := by
  unfold holders askedTokens
  induction L.places.filter (inFlightTask L R) with
  | nil => rfl
  | cons p l ih =>
    rw [List.filterMap_cons, List.map_cons, List.sum_cons, ← ih]
    cases held (itemsUp bound p) k with
    | none => exact (Nat.zero_add _).symm
    | some n => rfl

theorem nodup_holders (k : Place × String) : ((holders L bound R k).map Prod.fst).Nodup := by
  have hsub : ((holders L bound R k).map Prod.fst).Sublist
      ((L.places.filter (inFlightTask L R)).map Place.text) := by
    unfold holders
    induction L.places.filter (inFlightTask L R) with
    | nil => exact .slnil
    | cons p l ih =>
      rw [List.filterMap_cons]
      cases held (itemsUp bound p) k with
      | none => exact ih.cons _
      | some n => exact ih.cons_cons _
  exact hsub.nodup ((nodup_places.filter _).map_on fun _ hp _ hq h =>
    Layout.text_injOn (List.mem_of_mem_filter hp) (List.mem_of_mem_filter hq) h)

/-- The occupancy that the tree expects. -/
def expectedUsage (L : Layout) (bound : Binding) (R : Runtime) (p : Place) (name : String) :
    LimitUsage :=
  ⟨((holders L bound R (p, name)).map Prod.snd).sum, (holders L bound R (p, name)).map Prod.fst,
    nodup_holders _⟩

theorem occupied_expectedUsage :
    Occupied L { R with usage := expectedUsage L bound R } (holders L bound R) :=
  fun _ _ _ _ _ _ => ⟨fun _ ht => ht, fun _ ht => ht, rfl⟩

theorem text_mem_holdersToRoot {p : Place} (hp : p ∈ L.places) (htask : inFlightTask L R p = true)
    {x : (Place × String) × ℕ} (hx : x ∈ bound .root) :
    p.text ∈ (holdersToRoot L bound R x.1).map Prod.fst := by
  obtain ⟨tokens, htokens⟩ := Option.isSome_iff_exists.mp
    (held_isSome.mpr ⟨x, List.mem_append_right (itemsUp bound p) hx, rfl⟩)
  exact List.mem_map.mpr ⟨(p.text, tokens), List.mem_filterMap.mpr
    ⟨p, List.mem_filter.mpr ⟨hp, htask⟩, by rw [htokens]; rfl⟩, rfl⟩

theorem exists_item_of_text_mem_holders {p : Place} (hp : p ∈ L.places) {k : Place × String}
    (h : p.text ∈ (holders L bound R k).map Prod.fst) : ∃ y ∈ itemsUp bound p, y.1 = k := by
  obtain ⟨y, hy, hyp⟩ := List.mem_map.mp h
  obtain ⟨q, hq, hqy⟩ := List.mem_filterMap.mp hy
  obtain ⟨n, hn, rfl⟩ := Option.map_eq_some_iff.mp hqy
  rw [Layout.text_injOn (List.mem_of_mem_filter hq) hp hyp] at hn
  exact held_isSome.mp (by rw [hn]; rfl)

theorem RootCovered.holdersToRoot_eq (h : RootCovered L bound R) (k : Place × String) :
    holdersToRoot L bound R k = holders L bound R k :=
  List.filterMap_congr fun p hp => by
    obtain ⟨hp, htask⟩ := List.mem_filter.mp hp
    rw [held_append_of_covered (h p hp htask)]

/-- An occupancy that the tree accepts is within the limits when the tasks ask for no more. -/
theorem Occupied.bounded (h : Occupied L R (holders L bound R)) (hl : WithinLimits L bound R) :
    Bounded L R := by
  intro p hp d hd l hmem
  obtain ⟨-, -, hvalue⟩ := h p hp d hd l hmem
  rw [sum_holders] at hvalue
  rw [hvalue]
  exact ⟨Int.natCast_nonneg _, Int.ofNat_le.mpr (hl p hp d hd l hmem)⟩

end Agreement

/-- A bunch with a limit of one token, and a flow with two tasks; in-limits on the bunch and on the
flow. -/
def boundedLayout (ofRoot ofFlow : List InLimitDoc) : Layout where
  name := "b"
  root := { limits := [⟨"slots", 1⟩], inLimits := ofRoot }
  flows := [.node "f" { inLimits := ofFlow }
    [.node "t" { isTask := true } [], .node "u" { isTask := true } []]]
  name_ne := by decide
  root_isTask := rfl
  nodup := List.nodup_singleton "f"
  distinct := by
    have htask (name : String) :
        KeyedTree.Distinct (.node name ({ isTask := true } : NodeDoc) []) :=
      .of_children List.nodup_nil fun c hc => (List.not_mem_nil hc).elim
    rw [List.forall_mem_singleton]
    exact .of_children (show ["t", "u"].Nodup by decide) (List.forall_mem_cons.mpr
      ⟨htask "t", List.forall_mem_singleton.mpr (htask "u")⟩)
  named := by simp [KeyedTree.walk, KeyedTree.walkList, or_imp, forall_and]
  root_limits_nodup := List.nodup_singleton "slots"
  limits_nodup := by simp [KeyedTree.walk, KeyedTree.walkList, or_imp, forall_and]

/-- An in-limit of the bunch on its own limit. -/
def slotOfRoot : InLimitDoc := ⟨"slots", none, 1⟩

/-- An in-limit of the flow on the limit of the bunch. -/
def slotOfFlow : InLimitDoc := ⟨"slots", some ["", "b"], 1⟩

/-- What the in-limits of the bunch and of the flow are bound to. -/
def boundedBinding (ofRoot ofFlow : List ((Place × String) × ℕ)) : Binding
  | .root => ofRoot
  | .node _ [] => ofFlow
  | .node _ (_ :: _) => []

/-- One token of the limit of the bunch. -/
def oneSlot : (Place × String) × ℕ := ((.root, "slots"), 1)

/-- Tasks of the flow are active, and the limit is taken by some of them. -/
def activeRuntime (active : List Place) (slots : LimitUsage) : Runtime where
  status p := if p ∈ active then .active else .unknown
  generation _ := none
  usage _ _ := slots

end Takler.Occupancy
