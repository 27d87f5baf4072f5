import Takler.Core.Scope
import Takler.Server.FlowScan

/-!
# The sliced scan and the direct scan

`Scheduler._process_flow` updates the calendar of a flow and calls `resolve_dependencies`, which
goes down the tree by recursion. `Scheduler._flow_work` is a generator that does the same one node
at a time, with a stack of iterators and a look at the service before every node. Exhausted without
anything in between, it does the same as the direct scan: the stack stands for the children that are
still to be resolved, and as long as the service runs the looks change nothing.

What starting a task does is a parameter here, with all hooks of the task; `Task.run` is the one of
the built-in tasks. The limit of the interpreter on recursion is left out.

## Main definitions

* `resolveWith`, `processFlow`: the direct scan.
* `flowStart`, `flowTurn`, `flowWork`: the generator, and its exhaustion.
* `resolveFrames`: what a stack of iterators stands for.

## Main results

* `exec_flowTurn`: a turn and the turns after it resolve what the stack stands for.
* `flowWork_eq_processFlow`: the two scans have the same outcome and leave the same state.
* `visitNext_eq_flowTurn`: the turns are those of the interleaved scan.
-/

namespace Takler

open Program

section Scans

variable (b : Bunch) (run : NodePath → Tree → M Bool)

mutual
/-- `resolve_dependencies` with a way to start a task. -/
def resolveWith (p : NodePath) : Tree → M Bool
  | .node d cs =>
    if d.kind.isTask then do
      if ← checkDependencies b p (.node d cs) then do
        let _ ← run p (.node d cs)
        return true
      else return false
    else do
      if ← checkDependencies b p (.node d cs) then do
        resolveAllWith p cs
        return true
      else return false

/-- Resolve the children one after the other. -/
def resolveAllWith (p : NodePath) : List Tree → M Unit
  | [] => pure ()
  | c :: cs => do
    let _ ← resolveWith (c.name :: p) c
    resolveAllWith p cs
end

/-- The service is neither stopping nor halted. -/
def State.running (s : State) : Bool := s.haltCauses.isEmpty && !s.serviceStopping

/-- `_process_flow`. -/
def processFlow (t : Tree) (now : ℤ) : M Unit := do
  let s ← get
  when (s.scans t.name) do
    Flow.updateCalendar t now
    let s ← get
    when s.running do
      let _ ← resolveWith b run [t.name] t

/-- `_flow_work` from the head of its loop to the next `yield`, or to its end. -/
def flowTurn (name : String) : List Frame → M (Option (List Frame))
  | [] => return none
  | ⟨_, []⟩ :: fs => do
    let s ← get
    if s.scans name then flowTurn name fs else return none
  | ⟨q, t :: ts⟩ :: fs => do
    let s ← get
    if s.scans name then
      if t.isTask then do
        let _ ← resolveWith b run (t.name :: q) t
        return some (⟨q, ts⟩ :: fs)
      else if ← checkDependencies b (t.name :: q) t then
        return some (⟨t.name :: q, t.children⟩ :: ⟨q, ts⟩ :: fs)
      else return some (⟨q, ts⟩ :: fs)
    else return none

/-- `_flow_work` from its start to the first `yield`, or to its end. -/
def flowStart (t : Tree) (now : ℤ) : M (Option (List Frame)) := do
  let s ← get
  if s.scans t.name then do
    Flow.updateCalendar t now
    let s ← get
    if s.running then do
      if ← checkDependencies b [t.name] t then flowTurn b run t.name [⟨[t.name], t.children⟩]
      else return none
    else return none
  else return none

/-- At most `n` more turns of the generator; whether it came to its end. -/
def exhaust (name : String) : ℕ → Option (List Frame) → M Bool
  | _, none => return true
  | 0, some _ => return false
  | n + 1, some stack => do exhaust name n (← flowTurn b run name stack)

/-- `_flow_work` with at most `n` turns after the first one. -/
def flowWork (t : Tree) (now : ℤ) (n : ℕ) : M Bool := do
  exhaust b run t.name n (← flowStart b run t now)

end Scans

/-! ### What a stack stands for -/

variable {b : Bunch} {run : NodePath → Tree → M Bool}

theorem exhaust_none (name : String) (n : ℕ) : exhaust b run name n none = pure true := by
  cases n <;> rfl

theorem resolveWith_eq (p : NodePath) (t : Tree) (ht : t.isTask = false) :
    resolveWith b run p t = (do
      if ← checkDependencies b p t then do
        resolveAllWith b run p t.children
        return true
      else return false) := by
  cases t with
  | node d cs =>
    rw [resolveWith, if_neg (by rw [show d.kind.isTask = false from ht]; exact Bool.false_ne_true)]
    rfl

/-- The built-in start of a task gives the scan of the source. -/
theorem resolveWith_run (t : Tree) :
    ∀ p, resolveWith b (Task.run b) p t = resolveDependencies b p t := by
  induction t using Tree.induction with
  | h d cs ih =>
    intro p
    have hchildren : ∀ l : List Tree, (∀ c ∈ l, c ∈ cs) →
        resolveAllWith b (Task.run b) p l = resolveChildren b p l := by
      intro l hl
      induction l with
      | nil => rw [resolveAllWith, resolveChildren]
      | cons c l ihl =>
        rw [resolveAllWith, resolveChildren, ih c (hl c List.mem_cons_self),
          ihl fun e he => hl e (List.mem_cons_of_mem c he)]
    rw [resolveWith, resolveDependencies, hchildren cs fun _ hc => hc]

variable (b run) in
/-- Resolve what is left of all iterators, the innermost first. -/
def resolveFrames : List Frame → M Unit
  | [] => pure ()
  | f :: fs => do
    resolveAllWith b run f.path f.rest
    resolveFrames fs

theorem resolveFrames_end (q : NodePath) (fs : List Frame) :
    resolveFrames b run (⟨q, []⟩ :: fs) = resolveFrames b run fs := by
  rw [resolveFrames, resolveAllWith, pure_bind]

theorem resolveFrames_next (q : NodePath) (t : Tree) (ts : List Tree) (fs : List Frame) :
    resolveFrames b run (⟨q, t :: ts⟩ :: fs) = (do
      let _ ← resolveWith b run (t.name :: q) t
      resolveFrames b run (⟨q, ts⟩ :: fs)) := by
  rw [resolveFrames, resolveFrames, resolveAllWith, bind_assoc]

/-- A container is checked, and its children go on the stack. -/
theorem resolveFrames_container (q : NodePath) (t : Tree) (ts : List Tree) (fs : List Frame)
    (ht : t.isTask = false) :
    resolveFrames b run (⟨q, t :: ts⟩ :: fs) = (do
      if ← checkDependencies b (t.name :: q) t then
        resolveFrames b run (⟨t.name :: q, t.children⟩ :: ⟨q, ts⟩ :: fs)
      else resolveFrames b run (⟨q, ts⟩ :: fs)) := by
  rw [resolveFrames_next, resolveWith_eq _ _ ht, bind_assoc]
  refine bind_congr fun passed => ?_
  cases passed
  · rw [if_neg Bool.false_ne_true, if_neg Bool.false_ne_true, pure_bind]
  · rw [if_pos rfl, if_pos rfl, bind_assoc]
    simp only [pure_bind]
    rfl

/-- The nodes that are still to be looked at. -/
def pendingNodes (stack : List Frame) : ℕ :=
  (stack.map fun f => (Tree.walkList f.path f.rest).length).sum

theorem pendingNodes_next (q : NodePath) (t : Tree) (ts : List Tree) (fs : List Frame) :
    pendingNodes (⟨q, t :: ts⟩ :: fs) =
      pendingNodes (⟨t.name :: q, t.children⟩ :: ⟨q, ts⟩ :: fs) + 1 := by
  cases t with
  | node d cs =>
    simp only [pendingNodes, List.map_cons, List.sum_cons, Tree.walkList, Tree.walk,
      List.length_append, List.length_cons, Tree.children]
    omega

theorem pendingNodes_skip (q : NodePath) (t : Tree) (ts : List Tree) (fs : List Frame) :
    pendingNodes (⟨q, ts⟩ :: fs) < pendingNodes (⟨q, t :: ts⟩ :: fs) := by
  rw [pendingNodes_next]
  simp only [pendingNodes, List.map_cons, List.sum_cons]
  omega

/-! ### The two scans -/

theorem State.SameService.scans {s s' : State} (h : s.SameService s') (flow : String) :
    s'.scans flow = s.scans flow := by
  rw [State.scans, State.scans, h.begun, h.haltCauses, h.serviceStopping]

section Equal

variable (hrun : ∀ p t, Within State.SameService (run p t))
include hrun

theorem service_resolveWith (t : Tree) : ∀ p, Within State.SameService (resolveWith b run p t) := by
  induction t using Tree.induction with
  | h d cs ih =>
    intro p
    have hchildren : ∀ l : List Tree, (∀ c ∈ l, c ∈ cs) →
        Within State.SameService (resolveAllWith b run p l) := by
      intro l hl
      induction l with
      | nil =>
        rw [resolveAllWith]
        exact .pure _
      | cons c l ihl =>
        rw [resolveAllWith]
        exact (ih c (hl c List.mem_cons_self) _).bind fun _ =>
          ihl fun e he => hl e (List.mem_cons_of_mem c he)
    rw [resolveWith]
    refine .ite ((service_checkDependencies _ _ _).bind fun _ => .ite ?_ (.pure _))
      ((service_checkDependencies _ _ _).bind fun _ => .ite ?_ (.pure _))
    · exact (hrun _ _).bind fun _ => .pure _
    · exact (hchildren cs fun _ hc => hc).bind fun _ => .pure _

/-- A turn and the turns after it resolve what the stack stands for, as long as the service runs. -/
theorem exec_flowTurn (name : String) (n : ℕ) : ∀ (stack : List Frame) (s : State),
    pendingNodes stack ≤ n → s.scans name = true →
    (do exhaust b run name n (← flowTurn b run name stack)).exec s =
      (do resolveFrames b run stack; return true : M Bool).exec s := by
  induction n using Nat.strong_induction_on with
  | _ n ihn =>
    intro stack
    induction stack with
    | nil =>
      intro s _ _
      rw [flowTurn, resolveFrames, pure_bind, pure_bind, exhaust_none]
    | cons f fs ih =>
      intro s hn hs
      obtain ⟨q, rest⟩ := f
      cases rest with
      | nil =>
        rw [flowTurn, resolveFrames_end, bind_assoc, exec_bind_of_ok (exec_get s), if_pos hs]
        exact ih s (by simpa [pendingNodes, Tree.walkList] using hn) hs
      | cons t ts =>
        have hskip := pendingNodes_skip q t ts fs
        have hnext := pendingNodes_next q t ts fs
        obtain ⟨m, rfl⟩ : ∃ m, n = m + 1 := ⟨n - 1, by omega⟩
        -- Whatever is on the stack after the visit, the turns that are left resolve it.
        have hgo : ∀ (stack : List Frame) (u : State), pendingNodes stack ≤ m →
            s.SameService u → (exhaust b run name (m + 1) (some stack)).exec u =
              (do resolveFrames b run stack; return true : M Bool).exec u :=
          fun stack u hm hu => ihn m (Nat.lt_succ_self m) stack u hm ((hu.scans name).trans hs)
        rw [flowTurn, bind_assoc, exec_bind_of_ok (exec_get s), if_pos hs]
        by_cases ht : t.isTask = true
        · rw [if_pos ht, resolveFrames_next, bind_assoc, bind_assoc]
          refine exec_bind_congr fun r u hu => ?_
          rw [pure_bind]
          have hsame := service_resolveWith (b := b) hrun t (t.name :: q) s
          rw [hu] at hsame
          exact hgo _ u (by omega) hsame
        · rw [if_neg ht, resolveFrames_container _ _ _ _ (Bool.eq_false_of_not_eq_true ht),
            bind_assoc, bind_assoc]
          refine exec_bind_congr fun passed u hu => ?_
          have hsame := service_checkDependencies b (t.name :: q) t s
          rw [hu] at hsame
          cases passed with
          | false =>
            rw [if_neg Bool.false_ne_true, if_neg Bool.false_ne_true, pure_bind]
            exact hgo _ u (by omega) hsame
          | true =>
            rw [if_pos rfl, if_pos rfl, pure_bind]
            exact hgo _ u (by omega) hsame

/-- **The sliced scan is the direct scan.** With a turn for every node of the flow the generator
comes to its end; it returns or raises the same and leaves the same state, with the submissions
and the marks in the same order. -/
theorem flowWork_eq_processFlow {t : Tree} (ht : t.isTask = false) (now : ℤ) {n : ℕ}
    (hn : (t.descendants [t.name]).length ≤ n) (s : State) :
    (flowWork b run t now n).exec s =
      (do processFlow b run t now; return true : M Bool).exec s := by
  rw [flowWork, flowStart, processFlow]
  simp only [bind_assoc]
  rw [exec_bind_of_ok (exec_get s), exec_bind_of_ok (exec_get s)]
  by_cases hs : s.scans t.name = true
  · rw [if_pos hs, when, if_pos hs]
    simp only [bind_assoc]
    refine exec_bind_congr fun _ u hu => ?_
    have hsame := service_updateCalendar t now s
    rw [hu] at hsame
    have hscans : u.scans t.name = true := (hsame.scans t.name).trans hs
    have hrunning : u.running = true := by
      rw [State.scans, Bool.and_assoc, Bool.and_eq_true] at hscans
      exact hscans.2
    rw [exec_bind_of_ok (exec_get u), exec_bind_of_ok (exec_get u), if_pos hrunning, when,
      if_pos hrunning, resolveWith_eq _ _ ht]
    simp only [bind_assoc]
    refine exec_bind_congr fun passed v hv => ?_
    have hsame' := service_checkDependencies b [t.name] t u
    rw [hv] at hsame'
    cases passed with
    | false =>
      rw [if_neg Bool.false_ne_true, if_neg Bool.false_ne_true]
      simp only [pure_bind, exhaust_none]
    | true =>
      rw [if_pos rfl, if_pos rfl, exec_flowTurn hrun t.name n [⟨[t.name], t.children⟩] v
        (by simpa [pendingNodes, Tree.descendants] using hn)
        ((hsame'.scans t.name).trans hscans)]
      simp only [resolveFrames, bind_assoc, pure_bind]
  · rw [if_neg hs, when, if_neg hs, pure_bind, pure_bind, exhaust_none]

end Equal

/-- A begun flow with a container of two tasks. -/
theorem flowWork_eq_processFlow_nested : ∃ w, server.Reachable StepSystem.Free w ∧
    w.state.scans "f" = true ∧ nestedTree none ∈ w.bunch.flows ∧
      (flowWork w.bunch (Task.run w.bunch) (nestedTree none) 0 3).exec w.state =
        (do processFlow w.bunch (Task.run w.bunch) (nestedTree none) 0; return true :
          M Bool).exec w.state := by
  have hview : (server.run StepSystem.Free (.start false)
      [.load (nestedTree none) (nestedTree_wf none) rfl "g",
        .command none (.begin "f" false 0 0)]).map
      (fun w => (w.state.scans "f", w.bunch.flows)) = some (true, [nestedTree none]) := rfl
  obtain ⟨w, hw, hv⟩ := Option.map_eq_some_iff.mp hview
  refine ⟨w, StepSystem.reachable_of_run _ (World.start_init false) hw, (Prod.mk.inj hv).1,
    (Prod.mk.inj hv).2 ▸ List.mem_singleton_self _, ?_⟩
  exact flowWork_eq_processFlow (fun p t => service_run w.bunch p t) rfl 0 (by decide) w.state

/-! ### The interleaved scan -/

/-- The turns that the server interleaves with its other steps are those of the generator. -/
theorem visitNext_eq_flowTurn (w : World) (flow : String) (stack : List Frame) :
    (w.visitNext flow stack).1 =
        ⟨w.bunch, ((flowTurn w.bunch (Task.run w.bunch) flow stack).exec w.state).2⟩ ∧
      (w.visitNext flow stack).2.1 =
        ((flowTurn w.bunch (Task.run w.bunch) flow stack).exec w.state).1.toOption.join := by
  induction stack with
  | nil =>
    rw [flowTurn, World.visitNext]
    split_ifs <;> exact ⟨rfl, rfl⟩
  | cons f fs ih =>
    obtain ⟨q, rest⟩ := f
    cases rest with
    | nil =>
      rw [flowTurn, exec_bind_of_ok (exec_get _)]
      by_cases hs : w.state.scans flow = true
      · rw [if_pos hs]
        rw [World.visitNext, if_pos hs] at ih ⊢
        exact ih
      · rw [if_neg hs, World.visitNext, if_neg hs]
        exact ⟨rfl, rfl⟩
    | cons t ts =>
      rw [flowTurn, exec_bind_of_ok (exec_get _), World.visitNext]
      by_cases hs : w.state.scans flow = true
      · have hpending : pending (⟨q, t :: ts⟩ :: fs) = ⟨q, t :: ts⟩ :: fs := rfl
        rw [if_pos hs, if_pos hs, hpending]
        dsimp only
        by_cases ht : t.isTask = true
        · rw [if_pos ht, resolveWith_run, resolveDependencies_task ht, exec_bind, exec_bind]
          rcases (checkDependencies w.bunch (t.name :: q) t).exec w.state with ⟨e | passed, u⟩
          · exact ⟨rfl, rfl⟩
          cases passed with
          | false => exact ⟨rfl, rfl⟩
          | true =>
            simp only [if_pos ht, if_pos, exec_bind]
            rcases (Task.run w.bunch (t.name :: q) t).exec u with ⟨e | started, v⟩
            · exact ⟨rfl, rfl⟩
            · cases started <;> exact ⟨rfl, rfl⟩
        · rw [if_neg ht, exec_bind]
          rcases (checkDependencies w.bunch (t.name :: q) t).exec w.state with ⟨e | passed, u⟩
          · exact ⟨rfl, rfl⟩
          cases passed with
          | false => exact ⟨rfl, rfl⟩
          | true =>
            simp only [if_neg ht]
            exact ⟨rfl, rfl⟩
      · rw [if_neg hs, if_neg hs]
        exact ⟨rfl, rfl⟩

end Takler
