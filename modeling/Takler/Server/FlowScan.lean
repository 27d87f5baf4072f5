import Takler.Server.AggregateStatus
import Takler.Server.StepScope

/-!
# The incremental scan of the flows

`Scheduler.main_loop` goes over the flows in passes. Each flow has a generator
(`Scheduler._flow_work`) that visits one node at a time and keeps a stack of iterators over the
children of the containers it has entered. Between two visits the loop may hand the turn to anything
else: commands, reports, callbacks, other flows. A container is checked when it is entered, and not
again when the scan comes back to its other children.

The first turn of a generator, which updates the calendar and checks the flow, and the visit of the
first child are two steps here: there are more interleavings than the source has.

## Main definitions

* `Frame`, `Scan`, `Scanner`, `Scanner.step`, `scanner`: the step system.
* `Scan.entered`: the containers that a scan is inside of.
* `Scanner.scope`, `SparesEntered`: what a turn may change, and that the dependencies of these
  containers do not read it.

## Main results

* `Chained.mem_of_suffix`: the stack has all ancestors of the next node.
* `Scanner.tracked_of_reachable`: a scan makes steps of the server.
* `submitted_under_open_nodes`: in runs whose turns spare the entered containers, a task is submitted
  below open nodes only.
-/

namespace Takler

open Program

/-! ### Scans -/

/-- An iterator over the children of a container that was entered. -/
structure Frame where
  path : NodePath
  /-- The children that were not visited yet. -/
  rest : List Tree

/-- A generator `_flow_work`. -/
structure Scan where
  flow : String
  now : ℤ
  /-- The iterators, the innermost first; there are none before the flow was checked. -/
  stack : Option (List Frame) := none

/-- The iterators that are not at their end, and those below them. -/
def pending (stack : List Frame) : List Frame := stack.dropWhile fun f => f.rest.isEmpty

/-- The containers that a scan is inside of: some node below them is still to be visited. -/
def Scan.entered (c : Scan) : List NodePath := (pending (c.stack.getD [])).map Frame.path

/-- The containers that a scan is still inside of when the next node was visited. -/
def Scan.entersLater (c : Scan) : List NodePath :=
  match pending (c.stack.getD []) with
  | ⟨q, _ :: ts⟩ :: fs => (pending (⟨q, ts⟩ :: fs)).map Frame.path
  | _ => []

/-- The server and the scans of the current pass. -/
structure Scanner where
  world : World
  scans : List Scan := []
  /-- The tasks that scans have submitted, each with the world in which it was. -/
  submitted : List (NodePath × World) := []

/-- The first turn of `_flow_work`: the calendar is updated and the flow checked. A generator that
returns or raises leaves no iterators. -/
def World.enter (w : World) (c : Scan) : World × Option (List Frame) :=
  match w.bunch.node? [c.flow] with
  | none => (w, none)
  | some t =>
    if w.state.scans c.flow then
      match (Flow.updateCalendar t c.now).exec w.state with
      | (.error _, s) => (⟨w.bunch, s⟩, none)
      | (.ok _, s) =>
        if s.scans c.flow then
          match (checkDependencies w.bunch [c.flow] t).exec s with
          | (.ok true, s) => (⟨w.bunch, s⟩, some [⟨[c.flow], t.children⟩])
          | (_, s) => (⟨w.bunch, s⟩, none)
        else (⟨w.bunch, s⟩, none)
    else (w, none)

/-- Another turn of `_flow_work`: iterators at their end are popped, and the next node is visited.
The last component is the task that was submitted. -/
def World.visitNext (w : World) (flow : String) (stack : List Frame) :
    World × Option (List Frame) × Option (NodePath × World) :=
  if w.state.scans flow then
    match pending stack with
    | ⟨q, t :: ts⟩ :: fs =>
      let p := t.name :: q
      match (checkDependencies w.bunch p t).exec w.state with
      | (.error _, s) => (⟨w.bunch, s⟩, none, none)
      | (.ok false, s) => (⟨w.bunch, s⟩, some (⟨q, ts⟩ :: fs), none)
      | (.ok true, s) =>
        if t.isTask then
          match (Task.run w.bunch p t).exec s with
          | (.error _, s') => (⟨w.bunch, s'⟩, none, none)
          | (.ok false, s') => (⟨w.bunch, s'⟩, some (⟨q, ts⟩ :: fs), none)
          | (.ok true, s') => (⟨w.bunch, s'⟩, some (⟨q, ts⟩ :: fs), some (p, ⟨w.bunch, s⟩))
        else (⟨w.bunch, s⟩, some (⟨p, t.children⟩ :: ⟨q, ts⟩ :: fs), none)
    | _ => (w, none, none)
  else (w, none, none)

/-- One turn of the event loop. -/
inductive Turn
  /-- A command, a report, a callback, or another step of the server. -/
  | act (a : Action)
  /-- A new pass of `main_loop` over the flows. -/
  | beginPass (now : ℤ)
  /-- The next turn of a generator. -/
  | next (i : ℕ)

/-- Whether a step leaves the flow object of a scan in the bunch. -/
def Action.leaves (flow : String) : Action → Bool
  | .replace f _ _ _ _ _ => f.name ≠ flow
  | .command _ _ | .visit _ | .resolve _ | .updateCalendar _ _ | .jobFailure _ _ _ _
  | .jobSkipped _ | .parameter _ _ _ | .relink _ | .load _ _ _ _ => true

namespace Scanner

variable (r : Scanner)

/-- The scans after a turn of one of them. -/
def putBack (i : ℕ) (c : Scan) : Option (List Frame) → List Scan
  | none => r.scans.eraseIdx i
  | some stack => r.scans.set i { c with stack := some stack }

/-- One turn. -/
def step : Turn → Option Scanner
  | .act a => (r.world.step a).map fun world =>
      { r with world, scans := r.scans.filter fun c => a.leaves c.flow }
  | .beginPass now =>
    if r.scans.isEmpty then
      some { r with scans := r.world.bunch.flows.map fun f => { flow := f.name, now } }
    else none
  | .next i => r.scans[i]?.map fun c =>
      match c.stack with
      | none =>
        let result := r.world.enter c
        { r with world := result.1, scans := r.putBack i c result.2 }
      | some stack =>
        let result := r.world.visitNext c.flow stack
        { world := result.1
          scans := r.putBack i c result.2.1
          submitted := result.2.2.toList ++ r.submitted }

end Scanner

/-- **The server with its scans.** -/
def scanner : StepSystem Scanner Turn where
  init r := ∃ entropy, r = { world := ⟨.empty, .empty entropy⟩ }
  step := Scanner.step

/-- The scope of the next turn of a scan, from the world before it. -/
def Scan.scope (w : World) (c : Scan) : Scope :=
  match c.stack.map pending with
  | none => (w.visitScope [c.flow]).clocked c.flow
  | some (⟨q, t :: _⟩ :: _) => w.visitScope (t.name :: q)
  | some _ => {}

/-- The scope of a turn, from what is there before it. -/
def Scanner.scope (r : Scanner) : Turn → Scope
  | .act a => a.scope r.world
  | .beginPass _ => {}
  | .next i => (r.scans[i]?.map (Scan.scope r.world)).getD {}

/-- The containers that were entered before a turn and have nodes to be visited after it. -/
def Scanner.waiting (r : Scanner) : Turn → List NodePath
  | .act a => (r.scans.filter fun c => a.leaves c.flow).flatMap Scan.entered
  | .beginPass _ => []
  | .next i => (r.scans.eraseIdx i).flatMap Scan.entered ++ r.scans[i]?.toList.flatMap Scan.entersLater

/-- A turn changes nothing that the dependencies of these containers read. -/
def SparesEntered (r : Scanner) (turn : Turn) : Prop :=
  ∀ q ∈ r.waiting turn, r.world.spares (r.scope turn) q = true

instance (r : Scanner) (turn : Turn) : Decidable (SparesEntered r turn) :=
  inferInstanceAs (Decidable (∀ q ∈ r.waiting turn, _))

/-! ### The stack -/

/-- The stack of a scan leads from a container up to the flow, and what is to be visited are
children. -/
inductive Chained (b : Bunch) (flow : String) : List Frame → Prop
  | nil : Chained b flow []
  | flow {t : Tree} {rest : List Tree} (h : b.node? [flow] = some t)
      (hrest : rest ⊆ t.children) : Chained b flow [⟨[flow], rest⟩]
  | child {n : String} {g : Frame} {fs : List Frame} {t : Tree} {rest : List Tree}
      (h : b.node? (n :: g.path) = some t) (hrest : rest ⊆ t.children)
      (hfs : Chained b flow (g :: fs)) : Chained b flow (⟨n :: g.path, rest⟩ :: g :: fs)

namespace Chained

variable {b b' : Bunch} {flow : String} {f : Frame} {fs : List Frame}

theorem tail (h : Chained b flow (f :: fs)) : Chained b flow fs := by
  cases h with
  | flow => exact .nil
  | child _ _ hfs => exact hfs

theorem pending {stack : List Frame} (h : Chained b flow stack) :
    Chained b flow (pending stack) := by
  induction stack with
  | nil => exact h
  | cons f fs ih =>
    rw [Takler.pending, List.dropWhile_cons]
    split_ifs
    · exact ih h.tail
    · exact h

theorem head (h : Chained b flow (f :: fs)) :
    ∃ t, b.node? f.path = some t ∧ f.rest ⊆ t.children := by
  cases h with
  | flow h hrest => exact ⟨_, h, hrest⟩
  | child h hrest _ => exact ⟨_, h, hrest⟩

/-- The next node to be visited is a node of the bunch. -/
theorem node?_next {q : NodePath} {t : Tree} {ts : List Tree}
    (h : Chained b flow (⟨q, t :: ts⟩ :: fs)) : b.node? (t.name :: q) = some t := by
  obtain ⟨u, hu, hsub⟩ := h.head
  exact Bunch.node?_child hu (hsub List.mem_cons_self)

theorem flowName_head (h : Chained b flow (f :: fs)) : flowName f.path = flow := by
  generalize hst : f :: fs = stack at h
  induction h generalizing f fs with
  | nil => cases hst
  | flow _ _ =>
    cases hst
    rfl
  | @child n g _ _ _ _ _ hfs ih =>
    cases hst
    obtain ⟨_, hg, -⟩ := hfs.head
    cases hpath : g.path with
    | nil =>
      rw [hpath] at hg
      cases hg
    | cons m up => simpa [flowName, hpath] using ih rfl

/-- **The stack has the ancestors**: every path on the way up from the innermost container. -/
theorem mem_of_suffix (h : Chained b flow (f :: fs)) {q : NodePath} (hq : q ≠ [])
    (hs : q <:+ f.path) : q ∈ (f :: fs).map Frame.path := by
  generalize hst : f :: fs = stack at h
  induction h generalizing f fs with
  | nil => cases hst
  | flow _ _ =>
    cases hst
    rcases List.suffix_cons_iff.mp hs with rfl | hnil
    · exact List.mem_cons_self
    · exact absurd (List.suffix_nil.mp hnil) hq
  | child _ _ _ ih =>
    cases hst
    rcases List.suffix_cons_iff.mp hs with rfl | hup
    · exact List.mem_cons_self
    · exact List.mem_cons_of_mem _ (ih hup rfl)

theorem replaceRest (h : Chained b flow (f :: fs)) {rest : List Tree} (hr : rest ⊆ f.rest) :
    Chained b flow (⟨f.path, rest⟩ :: fs) := by
  cases h with
  | flow h hrest => exact .flow h (List.Subset.trans hr hrest)
  | child h hrest hfs => exact .child h (List.Subset.trans hr hrest) hfs

/-- Other flows may come and go. -/
theorem congr (hb : ∀ p, flowName p = flow → ∀ t, b.node? p = some t → b'.node? p = some t)
    {stack : List Frame} (h : Chained b flow stack) : Chained b' flow stack := by
  induction h with
  | nil => exact .nil
  | flow h hrest => exact .flow (hb _ rfl _ h) hrest
  | child h hrest hfs ih => exact .child (hb _ (Chained.child h hrest hfs).flowName_head _ h) hrest ih

end Chained

theorem pending_subset (stack : List Frame) : pending stack ⊆ stack := (List.dropWhile_sublist _).subset

/-! ### One turn of a scan -/

/-- **A visit.** The stack goes on leading up to the flow, and the visited node is open when its
container is entered or its task is submitted. To enter a container changes nothing. -/
theorem World.visitNext_spec {w : World} {flow : String} {stack : List Frame}
    (hc : Chained w.bunch flow stack) :
    (w.visitNext flow stack).1.bunch = w.bunch ∧
      (∀ stack' ∈ (w.visitNext flow stack).2.1, Chained w.bunch flow stack' ∧
        ((∃ q t ts fs, pending stack = ⟨q, t :: ts⟩ :: fs ∧ stack' = ⟨q, ts⟩ :: fs) ∨
          (w.visitNext flow stack).1 = w ∧ ∀ q ∈ stack'.map Frame.path,
            q ∈ (pending stack).map Frame.path ∨ w.isOpen q = true)) ∧
      ∀ x ∈ (w.visitNext flow stack).2.2, x.2 = w ∧ ∀ q, q ≠ [] → q <:+ x.1 →
        q ∈ (pending stack).map Frame.path ∨ w.isOpen q = true := by
  unfold World.visitNext
  split_ifs
  · split
    · rename_i q t ts fs hstack
      have hc' : Chained w.bunch flow (⟨q, t :: ts⟩ :: fs) := hstack ▸ hc.pending
      have ht := hc'.node?_next
      -- the iterator without the visited child
      have hrest : Chained w.bunch flow (⟨q, ts⟩ :: fs) :=
        hc'.replaceRest (List.subset_cons_self t ts)
      have hleft : ∃ q' t' ts' fs', pending stack = ⟨q', t' :: ts'⟩ :: fs' ∧
          (⟨q, ts⟩ :: fs : List Frame) = ⟨q', ts'⟩ :: fs' := ⟨q, t, ts, fs, hstack, rfl⟩
      dsimp only
      split
      · exact ⟨rfl, nofun, nofun⟩
      · refine ⟨rfl, ?_, nofun⟩
        rintro _ ⟨⟩
        exact ⟨hrest, .inl hleft⟩
      · rename_i s hs
        obtain ⟨rfl, hopen, -⟩ := checkDependencies_true ht hs
        split_ifs
        · split
          · exact ⟨rfl, nofun, nofun⟩
          · refine ⟨rfl, ?_, nofun⟩
            rintro _ ⟨⟩
            exact ⟨hrest, .inl hleft⟩
          · refine ⟨rfl, ?_, ?_⟩
            · rintro _ ⟨⟩
              exact ⟨hrest, .inl hleft⟩
            · rintro _ ⟨⟩
              refine ⟨rfl, fun p hp hsuffix => ?_⟩
              rcases List.suffix_cons_iff.mp hsuffix with rfl | hq
              · exact .inr hopen
              · exact .inl (hstack ▸ hc'.mem_of_suffix hp hq)
        · refine ⟨rfl, ?_, nofun⟩
          rintro _ ⟨⟩
          refine ⟨.child ht (List.Subset.refl _) hrest, .inr ⟨rfl, ?_⟩⟩
          exact List.forall_mem_cons.mpr ⟨.inr hopen, fun p hp => .inl (hstack ▸ hp)⟩
    · exact ⟨rfl, nofun, nofun⟩
  · exact ⟨rfl, nofun, nofun⟩

/-- **The first turn.** The flow is entered when it is open. -/
theorem World.enter_spec (w : World) (c : Scan) :
    (w.enter c).1.bunch = w.bunch ∧
      ∀ stack ∈ (w.enter c).2, Chained w.bunch c.flow stack ∧
        ∀ q ∈ stack.map Frame.path, (w.enter c).1.isOpen q = true := by
  unfold World.enter
  split
  · exact ⟨rfl, nofun⟩
  · rename_i t ht
    split_ifs
    · split
      · exact ⟨rfl, nofun⟩
      · split_ifs
        · split
          · rename_i s hs
            obtain ⟨rfl, hopen, -⟩ := checkDependencies_true ht hs
            refine ⟨rfl, ?_⟩
            rintro _ ⟨⟩
            exact ⟨.flow ht (List.Subset.refl _), List.forall_mem_singleton.mpr hopen⟩
          · exact ⟨rfl, nofun⟩
        · exact ⟨rfl, nofun⟩
    · exact ⟨rfl, nofun⟩

/-! ### Scans make steps of the server -/

private theorem exec_ignore {α : Type} (m : M α) (s : State) :
    ((do let _ ← m; pure ()) : M Unit).exec s = ((m.exec s).1.map fun _ => (), (m.exec s).2) := by
  rw [exec_bind]
  rcases m.exec s with ⟨_ | _, _⟩ <;> rfl

/-- The visit of a node as a step of the server. -/
theorem World.step_visit {w : World} {p : NodePath} {t : Tree} (hp : w.bunch.node? p = some t)
    (hs : w.state.scans (flowName p) = true) :
    w.step (.visit p) = some ⟨w.bunch,
      match (checkDependencies w.bunch p t).exec w.state with
      | (.ok true, s) => if t.isTask then ((Task.run w.bunch p t).exec s).2 else s
      | (_, s) => s⟩ := by
  simp only [World.step, Action.program, hs, hp, if_true, Option.map_some, Option.some_inj,
    World.mk.injEq, true_and]
  by_cases ht : t.isTask = true
  · rw [if_pos ht, exec_ignore, resolveDependencies_task ht, exec_bind]
    rcases (checkDependencies w.bunch p t).exec w.state with ⟨_ | _ | _, s⟩
    · rfl
    · rfl
    · dsimp only
      rw [if_pos rfl, if_pos ht, exec_bind]
      rcases (Task.run w.bunch p t).exec s with ⟨_ | _, _⟩ <;> rfl
  · rw [if_neg ht, exec_ignore]
    rcases (checkDependencies w.bunch p t).exec w.state with ⟨_ | _ | _, s⟩
    · rfl
    · rfl
    · exact (if_neg ht).symm

/-- A turn of a scan after the first one is a visit, or nothing happens. -/
theorem World.visitNext_step {w : World} {flow : String} {stack : List Frame}
    (hc : Chained w.bunch flow stack) : (w.visitNext flow stack).1 = w ∨
      ∃ q t ts fs, pending stack = ⟨q, t :: ts⟩ :: fs ∧
        w.step (.visit (t.name :: q)) = some (w.visitNext flow stack).1 := by
  unfold World.visitNext
  split_ifs with hscans
  · split
    · rename_i q t ts fs hstack
      have hc' : Chained w.bunch flow (⟨q, t :: ts⟩ :: fs) := hstack ▸ hc.pending
      have ht := hc'.node?_next
      have hflow : flowName (t.name :: q) = flow :=
        (Chained.child ht (List.Subset.refl _) hc').flowName_head
      refine .inr ⟨q, t, ts, fs, hstack, ?_⟩
      refine (World.step_visit ht (hflow ▸ hscans)).trans (congrArg some ?_)
      dsimp only
      rcases (checkDependencies w.bunch (t.name :: q) t).exec w.state with ⟨_ | _ | _, s⟩
      · rfl
      · rfl
      · dsimp only
        split_ifs
        · rcases (Task.run w.bunch (t.name :: q) t).exec s with ⟨_ | _ | _, _⟩ <;> rfl
        · rfl
    · exact .inl rfl
  · exact .inl rfl

theorem World.enter_reachable {w : World} (hw : server.Reachable StepSystem.Free w) (c : Scan) :
    server.Reachable StepSystem.Free (w.enter c).1 := by
  unfold World.enter
  split
  · exact hw
  · rename_i t ht
    split_ifs with hscans
    · have hupdate : server.Reachable StepSystem.Free
          ⟨w.bunch, ((Flow.updateCalendar t c.now).exec w.state).2⟩ := by
        refine .step (a := .updateCalendar c.flow c.now) hw trivial ?_
        simp only [server, World.step, Action.program, hscans, ht, if_true, Option.map_some]
      split <;> rename_i s heq <;> rw [heq] at hupdate
      · exact hupdate
      · split_ifs with hscans'
        · have htask : t.isTask = false := by
            rw [Tree.isTask, w.bunch.isFlow t (List.mem_of_find?_eq_some ht)]
            rfl
          have hvisit : server.Reachable StepSystem.Free _ :=
            .step (s := ⟨w.bunch, s⟩) (a := .visit [c.flow]) hupdate trivial
              (World.step_visit ht hscans')
          rcases hc : (checkDependencies w.bunch [c.flow] t).exec s with ⟨_ | _ | _, s'⟩ <;>
            simpa [hc, htask] using hvisit
        · exact hupdate
    · exact hw

/-! ### Runs -/

theorem Scanner.mem_putBack {r : Scanner} {i : ℕ} {c c' : Scan} {stack : Option (List Frame)}
    (h : c' ∈ r.putBack i c stack) :
    c' ∈ r.scans.eraseIdx i ∨ ∃ st ∈ stack, c' = { c with stack := some st } := by
  cases stack with
  | none => exact .inl h
  | some st =>
    rw [Scanner.putBack, List.set_eq_take_append_cons_drop] at h
    split_ifs at h with hi
    · rw [List.eraseIdx_eq_take_drop_succ]
      rcases List.mem_append.mp h with h | h
      · exact .inl (List.mem_append_left _ h)
      · rcases List.mem_cons.mp h with rfl | h
        · exact .inr ⟨st, rfl, rfl⟩
        · exact .inl (List.mem_append_right _ h)
    · exact .inl (by rwa [List.eraseIdx_of_length_le (not_lt.mp hi)])

/-- The nodes of a flow stay where they are, unless the flow is replaced. -/
theorem World.node?_of_step {w w' : World} {a : Action} (h : w.step a = some w') {p : NodePath}
    (hl : a.leaves (flowName p) = true) {t : Tree} (hp : w.bunch.node? p = some t) :
    w'.bunch.node? p = some t := by
  rcases World.step_cases h with ⟨moved, rfl, rfl⟩ | ⟨f, wf, isFlow, generation, rfl, hload⟩ |
    ⟨f, wf, isFlow, generation, now, realNow, rfl, hreplace⟩ | ⟨m, -, rfl⟩
  · exact hp
  · obtain ⟨fresh, marks, rfl⟩ := World.load_eq_some hload
    refine (Bunch.node?_addFlow wf isFlow fresh fun hname => fresh ?_).trans hp
    obtain ⟨g, hg, hgname⟩ := Bunch.exists_flow hp
    exact List.mem_map.mpr ⟨g, hg, hgname.trans hname⟩
  · obtain ⟨-, suspended, marks, rfl⟩ := World.replace_eq_some hreplace
    refine (Bunch.node?_replaceFlow wf isFlow fun hname => ?_).trans hp
    simp [Action.leaves, hname] at hl
  · exact hp

/-- The stacks of the scans lead up to their flows, and the server has come here by its own
steps. -/
structure Scanner.Tracked (r : Scanner) : Prop where
  chained : ∀ c ∈ r.scans, Chained r.world.bunch c.flow (c.stack.getD [])
  reachable : server.Reachable StepSystem.Free r.world

theorem Scanner.Tracked.step {r r' : Scanner} {turn : Turn} (h : r.Tracked)
    (hs : r.step turn = some r') : r'.Tracked := by
  cases turn with
  | act a =>
    obtain ⟨w, hw, rfl⟩ := Option.map_eq_some_iff.mp hs
    refine ⟨fun c hc => ?_, h.reachable.step trivial hw⟩
    obtain ⟨hmem, hl⟩ := List.mem_filter.mp hc
    exact (h.chained c hmem).congr fun p hp t ht => World.node?_of_step hw (hp ▸ hl) ht
  | beginPass now =>
    simp only [Scanner.step] at hs
    split_ifs at hs
    cases hs
    refine ⟨fun c hc => ?_, h.reachable⟩
    obtain ⟨f, -, rfl⟩ := List.mem_map.mp hc
    exact .nil
  | next i =>
    obtain ⟨c, hc, rfl⟩ := Option.map_eq_some_iff.mp hs
    have hin := h.chained c (List.mem_of_getElem? hc)
    cases hstack : c.stack with
    | none =>
      obtain ⟨hbunch, hentered⟩ := r.world.enter_spec c
      refine ⟨fun c' hc' => hbunch ▸ ?_, World.enter_reachable h.reachable c⟩
      rcases mem_putBack hc' with hmem | ⟨stack, hst, rfl⟩
      · exact h.chained c' (List.mem_of_mem_eraseIdx hmem)
      · exact (hentered stack hst).1
    | some stack =>
      have hchained : Chained r.world.bunch c.flow stack := by simpa [hstack] using hin
      obtain ⟨hbunch, hnext, -⟩ := World.visitNext_spec hchained
      refine ⟨fun c' hc' => hbunch ▸ ?_, ?_⟩
      · rcases mem_putBack hc' with hmem | ⟨stack', hst, rfl⟩
        · exact h.chained c' (List.mem_of_mem_eraseIdx hmem)
        · exact (hnext stack' hst).1
      · change server.Reachable StepSystem.Free (r.world.visitNext c.flow stack).1
        rcases World.visitNext_step hchained with heq | ⟨q, t, ts, fs, -, hstep⟩
        · rw [heq]
          exact h.reachable
        · exact .step (a := .visit (t.name :: q)) h.reachable trivial hstep

/-- **Scans refine the server**: whatever they do between other steps, the server reaches it by
visits. -/
theorem Scanner.tracked_of_reachable {G : Scanner → Turn → Prop} {r : Scanner}
    (h : scanner.Reachable G r) : r.Tracked := by
  refine h.invariant (I := Scanner.Tracked) ?_ fun _ _ _ h _ hs => h.step hs
  rintro _ ⟨entropy, rfl⟩
  exact ⟨nofun, .init ⟨entropy, rfl⟩⟩

/-! ### What turns leave open -/

/-- The first turn stays inside its scope: an update of the calendar does not make a node complete
that would not have been. -/
theorem World.beyond_enter (w : World) (c : Scan) :
    Beyond ((w.visitScope [c.flow]).clocked c.flow) w.state (w.enter c).1.state := by
  unfold World.enter
  split
  · exact .refl _
  · rename_i t ht
    have hname : t.name = c.flow := by simpa using (Bunch.head?_of_node? ht).symm
    split_ifs
    · have hclock (K : Scope) := beyond_updateCalendar (K := K.clocked c.flow) (t := t)
        (fun q hq => by simp [Scope.clocked, hq, hname]) c.now w.state
      have hupdate := hclock (w.visitScope [c.flow])
      have hsame := hclock {}
      split <;> rename_i s heq <;> rw [heq] at hupdate hsame
      · exact hupdate
      · split_ifs
        · have hcheck := beyond_checkDependencies hupdate (p := [c.flow]) (t := t) fun hc => by
            rw [hsame.completes fun _ => rfl] at hc
            obtain ⟨Alive, hK, halive⟩ := w.visitScope_completes ht hc
            exact ⟨Alive, hK.clocked c.flow, halive⟩
          have := hcheck.exec rfl
          split <;> rename_i hx <;> rw [hx] at this <;> exact this
        · exact hupdate
    · exact .refl _

variable {r r' : Scanner}

/-- A turn that spares a node leaves it open. -/
theorem Scanner.isOpen_of_step {turn : Turn} (ht : r.Tracked) (hs : r.step turn = some r')
    {q : NodePath} (hspares : r.world.spares (r.scope turn) q = true)
    (hq : r.world.isOpen q = true) : r'.world.isOpen q = true := by
  cases turn with
  | act a =>
    obtain ⟨w, hw, rfl⟩ := Option.map_eq_some_iff.mp hs
    exact World.isOpen_of_step hw hspares hq
  | beginPass now =>
    simp only [Scanner.step] at hs
    split_ifs at hs
    cases hs
    exact hq
  | next i =>
    obtain ⟨c, hc, rfl⟩ := Option.map_eq_some_iff.mp hs
    simp only [Scanner.scope, hc, Option.map_some, Option.getD_some, Scan.scope] at hspares
    cases hstack : c.stack with
    | none =>
      rw [hstack] at hspares
      have hbunch := (r.world.enter_spec c).1
      exact World.isOpen_of_spares (by rw [hbunch]) (fun _ _ => by rw [hbunch])
        (r.world.beyond_enter c).reads hspares hq
    | some stack =>
      have hchained : Chained r.world.bunch c.flow stack := by
        simpa [hstack] using ht.chained c (List.mem_of_getElem? hc)
      change (r.world.visitNext c.flow stack).1.isOpen q = true
      rcases World.visitNext_step hchained with heq | ⟨p, t, ts, fs, hpending, hstep⟩
      · rw [heq]
        exact hq
      · rw [hstack, Option.map_some, hpending] at hspares
        exact World.isOpen_of_step hstep hspares hq

/-- The containers that scans are inside of are open, and what was submitted was below open
nodes. -/
structure Scanner.Sheltered (r : Scanner) : Prop where
  isOpen : ∀ c ∈ r.scans, ∀ q ∈ c.entered, r.world.isOpen q = true
  submitted : ∀ x ∈ r.submitted, ∀ q, q ≠ [] → q <:+ x.1 → x.2.isOpen q = true

/-- **One turn that spares the entered containers.** -/
theorem Scanner.Sheltered.step {turn : Turn} (h : r.Sheltered) (ht : r.Tracked)
    (hg : SparesEntered r turn) (hs : r.step turn = some r') : r'.Sheltered := by
  have hkeeps {q : NodePath} (hq : q ∈ r.waiting turn) (hopen : r.world.isOpen q = true) :
      r'.world.isOpen q = true := isOpen_of_step ht hs (hg q hq) hopen
  cases turn with
  | act a =>
    obtain ⟨w, -, rfl⟩ := Option.map_eq_some_iff.mp hs
    exact ⟨fun c hc q hq => hkeeps (List.mem_flatMap.mpr ⟨c, hc, hq⟩)
      (h.isOpen c (List.mem_filter.mp hc).1 q hq), h.submitted⟩
  | beginPass now =>
    simp only [Scanner.step] at hs
    split_ifs at hs
    cases hs
    refine ⟨fun c hc => ?_, h.submitted⟩
    obtain ⟨f, -, rfl⟩ := List.mem_map.mp hc
    exact nofun
  | next i =>
    obtain ⟨c, hc, rfl⟩ := Option.map_eq_some_iff.mp hs
    have hmem := List.mem_of_getElem? hc
    -- the other scans
    have hothers {c' : Scan} (hc' : c' ∈ r.scans.eraseIdx i) {q : NodePath} (hq : q ∈ c'.entered) :=
      hkeeps (List.mem_append_left _ (List.mem_flatMap.mpr ⟨c', hc', hq⟩))
        (h.isOpen c' (List.mem_of_mem_eraseIdx hc') q hq)
    have hlater {q : NodePath} (hq : q ∈ c.entersLater) :=
      hkeeps (List.mem_append_right _ (List.mem_flatMap.mpr ⟨c, by simp [hc], hq⟩))
    cases hstack : c.stack with
    | none =>
      rw [hstack] at hothers
      obtain ⟨-, hentered⟩ := r.world.enter_spec c
      refine ⟨fun c' hc' q hq => ?_, h.submitted⟩
      rcases mem_putBack hc' with hc' | ⟨stack, hst, rfl⟩
      · exact hothers hc' hq
      · exact (hentered stack hst).2 q (List.map_subset _ (pending_subset stack) hq)
    | some stack =>
      rw [hstack] at hothers hlater
      have hchained : Chained r.world.bunch c.flow stack := by
        simpa [hstack] using ht.chained c hmem
      have hold : ∀ q ∈ (pending stack).map Frame.path, r.world.isOpen q = true := by
        simpa [Scan.entered, hstack] using h.isOpen c hmem
      obtain ⟨-, hnext, hsubmitted⟩ := World.visitNext_spec hchained
      refine ⟨fun c' hc' q hq => ?_, fun x hx q hne hq => ?_⟩
      · rcases mem_putBack hc' with hc' | ⟨stack', hst, rfl⟩
        · exact hothers hc' hq
        obtain ⟨-, ⟨p, t, ts, fs, hpending, rfl⟩ | ⟨hworld, hin⟩⟩ := hnext stack' hst
        · refine hlater (by simpa [Scan.entersLater, Scan.entered, hstack, hpending] using hq)
            (hold q ?_)
          have hsub := List.map_subset Frame.path (pending_subset (⟨p, ts⟩ :: fs)) hq
          simpa [hpending] using hsub
        · change (r.world.visitNext c.flow stack).1.isOpen q = true
          rw [hworld]
          exact (hin q (List.map_subset _ (pending_subset stack') hq)).elim (hold q) id
      · rcases List.mem_append.mp hx with hx | hx
        · obtain ⟨hworld, hup⟩ := hsubmitted x (Option.mem_toList.mp hx)
          exact hworld ▸ (hup q hne hq).elim (hold q) id
        · exact h.submitted x hx q hne hq

/-- **Submission below open nodes.** In every run in which no turn changes what the dependencies of
an entered container read, as told from the turn and from what is there before it, each task that a
scan submits, and each of its ancestors up to the flow, is at that moment not suspended and has its
time and trigger dependencies satisfied.

A container is checked when it is entered, and the invariant is that it stays open while the scan is
inside (`Scanner.Sheltered`). A turn can close it only by changing what its dependencies read
(`Scanner.isOpen_of_step`), and what a turn may change is in its scope (`Action.reads_scope`,
`World.beyond_enter`). -/
theorem submitted_under_open_nodes {r : Scanner} (h : scanner.Reachable SparesEntered r)
    {x : NodePath × World} (hx : x ∈ r.submitted) {q : NodePath} (hq : q ≠ []) (hs : q <:+ x.1) :
    x.2.isOpen q = true := by
  have hsheltered : r.Tracked ∧ r.Sheltered := by
    refine h.invariant (I := fun r => r.Tracked ∧ r.Sheltered) ?_ fun _ _ _ h hg hs =>
      ⟨h.1.step hs, h.2.step h.1 hg hs⟩
    rintro _ ⟨entropy, rfl⟩
    exact ⟨⟨nofun, .init ⟨entropy, rfl⟩⟩, nofun, nofun⟩
  exact hsheltered.2.submitted x hx q hq hs

/-- A pass over `nestedTree` up to the visit of the first task. -/
def halfScanned : List Turn :=
  [.act (.load (nestedTree none) (nestedTree_wf none) rfl "g"),
    .act (.command none (.begin "f" false 0 0)), .beginPass 0, .next 0, .next 0, .next 0]

theorem halfScanned_under_open_nodes : ∃ r x,
    scanner.run SparesEntered { world := .start false } halfScanned = some r ∧
      x ∈ r.submitted ∧ x.1 = ["t", "c", "f"] ∧ x.2.isOpen ["c", "f"] = true := by
  have hview : (scanner.run SparesEntered { world := .start false } halfScanned).map
      (fun r => r.submitted.map Prod.fst) = some [["t", "c", "f"]] := by decide +kernel
  obtain ⟨r, hr, hv⟩ := Option.map_eq_some_iff.mp hview
  have hx : ["t", "c", "f"] ∈ r.submitted.map Prod.fst := by simp [hv]
  obtain ⟨x, hx, hpath⟩ := List.mem_map.mp hx
  refine ⟨r, x, hr, hx, hpath, submitted_under_open_nodes
    (StepSystem.reachable_of_run _ ⟨_, rfl⟩ hr) hx (by simp) ?_⟩
  rw [hpath]
  exact List.suffix_cons _ _

/-- The container is suspended between the visits of its two tasks, and the second one is
submitted. -/
theorem submitted_in_suspended_container : ∃ r x,
    scanner.Reachable StepSystem.Free r ∧ x ∈ r.submitted ∧ x.1 = ["u", "c", "f"] ∧
      (x.2.state.node ["c", "f"]).suspended = true := by
  have hview : (scanner.run StepSystem.Free { world := .start false }
      (halfScanned ++ [.act (.command none (.suspend ["f", "c"])), .next 0])).map
        (fun r => r.submitted.head?.map fun x => (x.1, (x.2.state.node ["c", "f"]).suspended)) =
      some (some (["u", "c", "f"], true)) := by decide +kernel
  obtain ⟨r, hr, hv⟩ := Option.map_eq_some_iff.mp hview
  obtain ⟨x, hx, heq⟩ := Option.map_eq_some_iff.mp hv
  exact ⟨r, x, StepSystem.reachable_of_run _ ⟨_, rfl⟩ hr, List.mem_of_head? hx,
    (Prod.mk.inj heq).1, (Prod.mk.inj heq).2⟩

end Takler
