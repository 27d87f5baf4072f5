import Takler.Core.TriggerTyping
import Takler.Server.Scheduler

/-!
# Triggers over runs of the server

In a run that loads only flows whose triggers are conditions, every trigger evaluates in every
state, and no trigger stops a pass of the dependency scan. A definition with a path alone as a
trigger is loaded as well, and then a pass stops in the middle of the tree.

## Main definitions

* `LoadsTyped`: the steps after which all triggers are conditions.

## Main results

* `triggersTyped_of_reachable`: the triggers of every state of such a run are conditions.
-/

namespace Takler

open Program

/-- A flow is loaded or replaced only when afterwards every trigger is a condition. -/
def LoadsTyped (w : World) : Action → Prop
  | .load f wf isFlow _ =>
    if fresh : f.name ∉ w.bunch.flows.map Tree.name then
      (w.bunch.addFlow f wf isFlow fresh).TriggersTyped
    else True
  | .replace f wf isFlow _ _ _ => (w.bunch.replaceFlow f wf isFlow).TriggersTyped
  | _ => True

instance (w : World) : ∀ a : Action, Decidable (LoadsTyped w a)
  | .load f wf isFlow _ => inferInstanceAs (Decidable
      (if fresh : f.name ∉ w.bunch.flows.map Tree.name then
        (w.bunch.addFlow f wf isFlow fresh).TriggersTyped else True))
  | .replace f wf isFlow _ _ _ =>
    inferInstanceAs (Decidable (w.bunch.replaceFlow f wf isFlow).TriggersTyped)
  | .command _ _ | .visit _ | .resolve _ | .updateCalendar _ _ | .jobFailure _ _ _ _
  | .jobSkipped _ | .parameter _ _ _ | .relink _ => .isTrue trivial

theorem triggersTyped_of_reachable {w : World} (h : server.Reachable LoadsTyped w) :
    w.bunch.TriggersTyped := by
  refine StepSystem.Reachable.invariant (I := fun w => w.bunch.TriggersTyped) ?_ ?_ h
  · rintro _ ⟨entropy, rfl⟩ x hx
    exact absurd hx List.not_mem_nil
  · intro w a w' hw hg hs
    rcases World.step_cases hs with ⟨moved, rfl, rfl⟩ |
      ⟨f, wf, isFlow, g, rfl, hl⟩ | ⟨f, wf, isFlow, g, now, realNow, rfl, hr⟩ | ⟨m, hm, rfl⟩
    · exact hw
    · obtain ⟨fresh, marks, rfl⟩ := World.load_eq_some hl
      simpa only [LoadsTyped, dif_pos fresh] using hg
    · obtain ⟨-, suspended, marks, rfl⟩ := World.replace_eq_some hr
      exact hg
    · exact hw

/-- **Triggers evaluate.** In a run that loads only conditions as triggers, in every state every
trigger and every complete trigger evaluates to a truth value; and a pass of
`resolve_dependencies` over a flow is stopped, if at all, by a service that stops, by a task or a
repeat that cannot change, by a recorded path that cannot be forgotten or by a time without a
calendar, and never by a trigger.

The types of the operands are those of the definition and not of the state, so that a trigger that
is a condition when its flow is loaded stays one whatever the server does. -/
theorem triggers_evaluate {w : World} (h : server.Reachable LoadsTyped w) :
    (∀ p t, w.bunch.node? p = some t →
      (∃ r, w.state.evaluateTrigger w.bunch p t = .ok r) ∧
      ∃ r, w.state.evaluateCompleteTrigger w.bunch p t = .ok r) ∧
    ∀ f ∈ w.bunch.flows, ∀ e,
      ((resolveDependencies w.bunch [f.name] f).exec w.state).1 = .error e → ScanError e := by
  have hb := triggersTyped_of_reachable h
  refine ⟨fun p t ht => hb.evaluate ht w.state, fun f hf e he => ?_⟩
  exact (resolveDependencies_raises hb (Bunch.node?_flow hf)).error he

/-- Three tasks: the second has the trigger, and the third none. -/
def triggerTree (trigger : Ast NodePath) : Tree :=
  .node { name := "f", kind := .flow }
    [.node { name := "a", kind := .task, events := [{ name := "ready", initialValue := false }] } [],
      .node { name := "b", kind := .task, trigger := some trigger } [],
      .node { name := "c", kind := .task } []]

theorem triggerTree_wf (trigger : Ast NodePath) : (triggerTree trigger).WF :=
  of_decide_eq_true rfl

/-- The trigger `/f/a == complete and /f/a:ready == set`. -/
def readyTrigger : Ast NodePath :=
  .and (.cmp .eq (.nodePath ["a", "f"]) (.nodeStatus .complete))
    (.cmp .eq (.variablePath ["a", "f"] "ready") (.integer 1))

/-- A flow with the trigger is loaded and begun. -/
def triggerRun (trigger : Ast NodePath) : List Action :=
  [.load (triggerTree trigger) (triggerTree_wf trigger) rfl "g",
    .command none (.begin "f" false 0 0)]

theorem readyTrigger_evaluates : ∃ w,
    server.run LoadsTyped (.start false) (triggerRun readyTrigger) = some w ∧
      w.bunch.flows = [triggerTree readyTrigger] ∧
      ∀ e, ((resolveDependencies w.bunch ["f"] (triggerTree readyTrigger)).exec w.state).1 =
        .error e → ScanError e := by
  have hview : (server.run LoadsTyped (.start false) (triggerRun readyTrigger)).map
      (fun w => w.bunch.flows) = some [triggerTree readyTrigger] := by rfl
  obtain ⟨w, hw, hv⟩ := Option.map_eq_some_iff.mp hview
  have hf : triggerTree readyTrigger ∈ w.bunch.flows := hv ▸ List.mem_singleton_self _
  exact ⟨w, hw, hv,
    (triggers_evaluate (StepSystem.reachable_of_run _ (World.start_init false) hw)).2 _ hf⟩

/-- The accepted trigger `/f/a` has no value as a condition: the pass runs the first task, stops
at the second, and leaves the third queued. -/
theorem path_trigger_stops_scan :
    ((server.run StepSystem.Free (.start false)
      (triggerRun (.nodePath ["a", "f"]))).map fun w =>
        let r := (resolveDependencies w.bunch ["f"] (triggerTree (.nodePath ["a", "f"]))).exec w.state
        (r.1, (r.2.node ["a", "f"]).status, (r.2.node ["c", "f"]).status)) =
      some (.error (.notImplemented "AstBase.evaluate is not implemented"),
        .submitted, .queued) := by
  rfl

end Takler
