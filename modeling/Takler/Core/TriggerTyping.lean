import Takler.Core.Frame

/-!
# Triggers that can be evaluated

The parser accepts texts whose syntax trees cannot be evaluated: a path alone or a sum is an
operand and no condition, a comparison is no operand, and statuses and numbers have no common
order. `Ast.isCondition` is a check of a syntax tree that rules these out. A tree that passes it
evaluates to a truth value in every state, and a pass of the dependency scan over a bunch of
such triggers is never stopped by one.

## Main definitions

* `OperandType`, `Ast.operandType`, `Ast.isCondition`: the check.
* `Bunch.TriggersTyped`: all triggers of a bunch pass it.

## Main results

* `Ast.evaluate_of_isCondition`: what passes the check evaluates.
* `resolveDependencies_raises`: what can stop a pass of the dependency scan.
-/

namespace Takler

open Program

/-- The two types of operands. -/
inductive OperandType
  | status
  | int
deriving DecidableEq

/-- The values of a type. -/
def Value.HasType : Value → OperandType → Prop
  | .status _, .status | .int _, .int => True
  | _, _ => False

/-- The variables that are numbers have numbers. -/
def Valuation.Typed {ρ : Type} (v : Valuation ρ) (isNumber : ρ → String → Bool) : Prop :=
  ∀ ref name, isNumber ref name = true → (v.variableValue ref name).HasType .int

namespace Ast

variable {ρ : Type} (isNumber : ρ → String → Bool)

/-- The type of an operand, given which variables are numbers. -/
def operandType : Ast ρ → Option OperandType
  | nodePath _ | nodeStatus _ => some .status
  | integer _ => some .int
  | variablePath ref name => if isNumber ref name then some .int else none
  | add left right =>
    if left.operandType = some .int ∧ right.operandType = some .int then some .int else none
  | cmp _ _ _ | and _ _ | or _ _ => none

/-- Whether a syntax tree is a condition: comparisons of operands, which have an order only
within one type, under connectives. -/
def isCondition : Ast ρ → Bool
  | cmp op left right =>
    match left.operandType isNumber, right.operandType isNumber with
    | some a, some b => op = .eq || a = b
    | _, _ => false
  | and left right | or left right => left.isCondition && right.isCondition
  | nodePath _ | variablePath _ _ | integer _ | nodeStatus _ | add _ _ => false

variable {isNumber} {v : Valuation ρ}

/-- An operand has a value of its type. -/
theorem value_of_operandType (hv : v.Typed isNumber) : ∀ {e : Ast ρ} {τ : OperandType},
    e.operandType isNumber = some τ → ∃ x, e.value v = .ok x ∧ x.HasType τ
  | nodePath _, _, h => by
    cases h
    exact ⟨_, rfl, trivial⟩
  | nodeStatus _, _, h => by
    cases h
    exact ⟨_, rfl, trivial⟩
  | integer _, _, h => by
    cases h
    exact ⟨_, rfl, trivial⟩
  | variablePath ref name, _, h => by
    rw [operandType] at h
    split_ifs at h with hn
    cases h
    exact ⟨_, rfl, hv ref name hn⟩
  | add left right, _, h => by
    rw [operandType] at h
    split_ifs at h with hn
    cases h
    obtain ⟨x, hx, hxt⟩ := value_of_operandType hv hn.1
    obtain ⟨y, hy, hyt⟩ := value_of_operandType hv hn.2
    cases x <;> cases hxt
    cases y <;> cases hyt
    rename_i m n
    exact ⟨.int (m + n), by rw [value, hx, hy]; rfl, trivial⟩

theorem compare_of_hasType (op : CmpOp) {x y : Value} {a b : OperandType} (hx : x.HasType a)
    (hy : y.HasType b) (h : op = .eq ∨ a = b) : ∃ r, Value.compare op x y = .ok r := by
  cases x <;> cases a <;> cases hx <;> cases y <;> cases b <;> cases hy <;>
    simp_all [Value.compare]

/-- **A condition evaluates to a truth value.** -/
theorem evaluate_of_isCondition (hv : v.Typed isNumber) : ∀ {e : Ast ρ},
    e.isCondition isNumber = true → ∃ r, e.evaluate v = .ok r
  | cmp op left right, h => by
    rw [isCondition] at h
    split at h
    · rename_i a b ha hb
      obtain ⟨x, hx, hxt⟩ := value_of_operandType hv ha
      obtain ⟨y, hy, hyt⟩ := value_of_operandType hv hb
      obtain ⟨r, hr⟩ := compare_of_hasType op hxt hyt (by simpa using h)
      exact ⟨r, by rw [evaluate, hx, hy]; exact hr⟩
    · cases h
  | and left right, h => by
    rw [isCondition, Bool.and_eq_true] at h
    obtain ⟨l, hl⟩ := evaluate_of_isCondition hv h.1
    obtain ⟨r, hr⟩ := evaluate_of_isCondition hv h.2
    rw [evaluate, hl, hr]
    cases l
    · exact ⟨false, rfl⟩
    · exact ⟨r, rfl⟩
  | or left right, h => by
    rw [isCondition, Bool.and_eq_true] at h
    obtain ⟨l, hl⟩ := evaluate_of_isCondition hv h.1
    obtain ⟨r, hr⟩ := evaluate_of_isCondition hv h.2
    rw [evaluate, hl, hr]
    cases l
    · exact ⟨r, rfl⟩
    · exact ⟨true, rfl⟩

end Ast

/-! ### Triggers of a bunch -/

/-- Whether a variable of a node is an event or a meter. -/
def Bunch.isNumber (b : Bunch) (p : NodePath) (name : String) : Bool :=
  (b.node? p).any fun t =>
    (t.defn.events.any fun e => e.name = name) || t.defn.meters.any fun m => m.name = name

/-- Every trigger of every node is a condition over events, meters and statuses. -/
def Bunch.TriggersTyped (b : Bunch) : Prop :=
  ∀ x ∈ b.nodes, ∀ ast ∈ x.2.defn.triggers, ast.isCondition b.isNumber = true

instance (b : Bunch) : Decidable b.TriggersTyped :=
  inferInstanceAs (Decidable (∀ x ∈ b.nodes, ∀ ast ∈ x.2.defn.triggers,
    ast.isCondition b.isNumber = true))

theorem State.valuation_typed (s : State) (b : Bunch) : (s.valuation b).Typed b.isNumber := by
  intro p name h
  cases hb : b.node? p with
  | none => simp [Bunch.isNumber, hb] at h
  | some t =>
    simp only [State.valuation, State.variableValue, hb]
    by_cases he : (t.defn.events.any fun e => e.name = name) = true
    · rw [if_pos he]
      trivial
    · have hm : (t.defn.meters.any fun m => m.name = name) = true := by
        simpa [Bunch.isNumber, hb, he] using h
      rw [if_neg he, if_pos hm]
      trivial

/-! ### The dependency scan -/

/-- What a pass of the dependency scan may be stopped by: the state of the service or of a task, a
repeat at the end of the calendar, a recorded path that the index cannot forget, or a time of a flow
without a calendar. No trigger raises these. -/
def ScanError : Err → Prop
  | .flowState _ | .overflow _ | .artifactPath _ => True
  | .typeError message => message = "'NoneType' object has no attribute 'hour'"
  | _ => False

section Raises

theorem raises_modifyTask (p : NodePath) (f : TaskState → TaskState) :
    Raises ScanError (modifyTask p f) := Raises.modify _

theorem raises_notify (p : NodePath) (groups : List FieldGroup) (invalidate : Bool) :
    Raises ScanError (notifyQueryChange p groups invalidate) := Raises.modify _

theorem raises_draw : Raises ScanError draw :=
  Raises.get.bind fun _ => Raises.bind (fun _ _ => trivial) fun _ => Raises.pure _

theorem raises_updateLimits (p : NodePath) : Raises ScanError (updateLimits p) :=
  (effect_updateLimits p).raises

theorem raises_setNodeStatusOnly (p : NodePath) (t : Tree) (st : NodeStatus) :
    Raises ScanError (setNodeStatusOnly p t st) := (effect_setNodeStatusOnly p t st).raises

theorem raises_clearPaths (p : NodePath) : Raises ScanError (clearPaths p) := by
  have hclear (path : TaskState → Option String) (clear : TaskState → TaskState) :
      Raises ScanError (clearPath p path clear) := by
    refine Raises.get.bind fun _ => ?_
    split
    · exact .pure _
    · exact .ite (.throw trivial) (raises_modifyTask p clear)
  exact (hclear _ _).bind fun _ => (hclear _ _).bind fun _ => hclear _ _

theorem raises_resetAttempt (p : NodePath) (kind : NodeKind) :
    Raises ScanError (resetAttempt p kind) :=
  .bind (raises_modifyTask p _) fun _ => Raises.get.bind fun _ =>
    .bind (.when (raises_notify p _ _)) fun _ => .bind (raises_modifyTask p _) fun _ =>
      .bind (raises_clearPaths p) fun _ => .when (raises_modifyTask p _)

theorem raises_requeue (resetRepeat : Bool) {t : Tree} : ∀ {p : NodePath},
    Raises ScanError (requeue p t resetRepeat) := by
  induction t using Tree.induction with
  | h d cs ih =>
    intro p
    rw [requeue]
    refine .ite ?_ (Raises.get.bind fun _ => .ite (.throw trivial) ?_)
    · exact .bind (.when (raises_modifyTask p _)) fun _ => Raises.get.bind fun _ =>
        .ite (.throw trivial) (.bind (.when (raises_notify p _ _)) fun _ =>
          .bind (raises_resetAttempt p _) fun _ =>
            .bind (effect_nodeRequeue p _ resetRepeat).raises fun _ => raises_updateLimits p)
    · have hchildren : ∀ l : List Tree, (∀ c ∈ l, c ∈ cs) →
          Raises ScanError (requeueChildren p l resetRepeat) := by
        intro l hl
        induction l with
        | nil =>
          rw [requeueChildren]
          exact .pure _
        | cons c l ihl =>
          rw [requeueChildren]
          exact .bind (ih c (hl c List.mem_cons_self)) fun _ =>
            ihl fun e he => hl e (List.mem_cons_of_mem c he)
      exact .bind (effect_nodeRequeue p _ resetRepeat).raises fun _ =>
        .bind (hchildren cs fun _ hc => hc) fun _ =>
          .when (.forM fun x => raises_setNodeStatusOnly x.1 x.2 _)

theorem raises_adoptComputed (p : NodePath) (t : Tree) : Raises ScanError (adoptComputed p t) :=
  Raises.get.bind fun _ => .bind (Raises.get.bind fun _ => .when (raises_setNodeStatusOnly p t _))
    fun _ => .pure _

theorem raises_advanceRepeat (p : NodePath) (t : Tree) : Raises ScanError (advanceRepeat p t) := by
  unfold advanceRepeat
  split
  · exact .pure _
  · refine .bind (Raises.get.bind fun _ => .ite (.throw trivial) (.ite
      (.bind (Raises.modify _) fun _ => .pure _) (.pure _))) fun _ => .ite ?_ (.pure _)
    exact .bind (raises_notify p _ _) fun _ => .bind (raises_requeue false) fun _ => .pure _

theorem raises_swim (b : Bunch) : ∀ p : NodePath,
    Raises ScanError (swimStatusChange b p) ∧ Raises ScanError (swimStatusChangeOnly b p)
  | [] => by
    rw [swimStatusChange, swimStatusChangeOnly]
    exact ⟨.pure _, .pure _⟩
  | n :: up => by
    obtain ⟨hup, hupOnly⟩ := raises_swim b up
    rw [swimStatusChange, swimStatusChangeOnly]
    cases hb : b.node? (n :: up) with
    | none => exact ⟨.pure _, .pure _⟩
    | some t =>
      have hadopt := raises_adoptComputed (n :: up) t
      refine ⟨hadopt.bind fun _ => .ite (.bind (raises_advanceRepeat _ t) fun _ => .ite
        (.ite hupOnly (hadopt.bind fun _ => hup)) hup) hup, .ite hupOnly (hadopt.bind fun _ => hup)⟩

theorem raises_handleStatusChange (b : Bunch) (p : NodePath) (t : Tree) :
    Raises ScanError (handleStatusChange b p t) :=
  .bind (.when (raises_updateLimits p)) fun _ => (raises_swim b p).1

theorem raises_setNodeStatus (b : Bunch) (p : NodePath) (t : Tree) (st : NodeStatus) :
    Raises ScanError (setNodeStatus b p t st) :=
  Raises.get.bind fun _ => .ite (.pure _) (.bind (raises_setNodeStatusOnly p t st) fun _ =>
    raises_handleStatusChange b p t)

theorem raises_requireRunning : Raises ScanError requireRunning :=
  Raises.get.bind fun _ => .ite (.throw trivial) (.ite (.throw trivial) (.pure _))

theorem raises_requireLimitCapacity (p : NodePath) : Raises ScanError (requireLimitCapacity p) :=
  Raises.get.bind fun _ => .ite (.pure _) (.throw trivial)

theorem raises_abort (b : Bunch) (p : NodePath) (t : Tree) (reason : String) :
    Raises ScanError (Task.abort b p t reason) :=
  .bind (raises_modifyTask p _) fun _ => .bind (raises_notify p _ _) fun _ =>
    .bind (.bind raises_draw fun _ => raises_modifyTask p _) fun _ =>
      .bind (raises_setNodeStatus b p t _) fun _ => .bind (raises_modifyTask p _) fun _ =>
        raises_handleStatusChange b p t

theorem raises_submit (p : NodePath) : Raises ScanError (Shell.submit p) :=
  raises_requireRunning.bind fun _ => Raises.get.bind fun _ => raises_draw.bind fun _ =>
    .bind (raises_modifyTask p _) fun _ => .bind (.bind (raises_modifyTask p _) fun _ =>
      Raises.modify _) fun _ => .bind (.when (Raises.modify _)) fun _ => .pure _

theorem raises_run (b : Bunch) (p : NodePath) (t : Tree) : Raises ScanError (Task.run b p t) := by
  refine raises_requireRunning.bind fun _ => Raises.get.bind fun _ => .ite (.throw trivial)
    ((raises_requireLimitCapacity p).bind fun _ => ?_)
  refine .bind (raises_draw.bind fun _ => Raises.get.bind fun _ =>
    .bind (raises_modifyTask p _) fun _ => .bind (raises_notify p _ _) fun _ =>
      .bind (raises_clearPaths p) fun _ => raises_modifyTask p _) fun _ =>
      .bind (raises_notify p _ _) fun _ => .bind (.tryCatch ?_ fun e he => ?_) fun _ =>
        .bind ?_ fun _ => .ite (.bind ?_ fun _ => .pure _) (.pure _)
  · exact raises_requireRunning.bind fun _ => raises_requireRunning.bind fun _ =>
      raises_requireLimitCapacity p
  · exact .bind (raises_modifyTask p _) fun _ => .throw he
  · refine .ite ((raises_submit p).bind fun error => ?_) (.pure _)
    cases error with
    | none => exact .pure _
    | some e => exact .bind (raises_abort b p t _) fun _ => .pure _
  · exact raises_draw.bind fun _ => .bind (raises_modifyTask p _) fun _ =>
      .bind (raises_setNodeStatus b p t _) fun _ => raises_handleStatusChange b p t

theorem raises_liftEval {α : Type} {e : Except Err α} (h : ∀ x, e = .error x → ScanError x) :
    Raises ScanError (liftEval e) := by
  cases e with
  | ok a => exact .pure a
  | error x => exact .throw (h x rfl)

theorem anyFree_error {n : NodeState} {c : Calendar} : ∀ {ds : List TimeDef} {x : Err},
    anyFree n c ds = .error x → ScanError x
  | [], _, h => by cases h
  | d :: ds, x, h => by
    rw [anyFree, TimeDef.isFree] at h
    split_ifs at h with hf
    · cases h
    · cases hc : c.flowTime with
      | none =>
        rw [hc] at h
        cases h
        rfl
      | some time =>
        simp only [hc] at h
        change (if _ then _ else anyFree n c ds) = _ at h
        split_ifs at h
        · cases h
        · exact anyFree_error h

variable {b : Bunch}

/-- **Every trigger of a typed bunch evaluates, in every state.** -/
theorem Bunch.TriggersTyped.evaluate (hb : b.TriggersTyped) {p : NodePath} {t : Tree}
    (ht : b.node? p = some t) (s : State) :
    (∃ r, s.evaluateTrigger b p t = .ok r) ∧ ∃ r, s.evaluateCompleteTrigger b p t = .ok r := by
  have hexpr (free : Bool) {ast : Ast NodePath} (hast : ast.isCondition b.isNumber = true) :
      ∃ r, evaluateExpression s b free ast = .ok r := by
    unfold evaluateExpression
    split_ifs
    · exact ⟨true, rfl⟩
    · exact Ast.evaluate_of_isCondition (s.valuation_typed b) hast
  constructor
  · unfold State.evaluateTrigger
    split
    · exact ⟨true, rfl⟩
    · rename_i ast hast
      exact hexpr _ (hb (p, t) (Bunch.mem_nodes.mpr ht) ast (by simp [NodeDef.triggers, hast]))
  · unfold State.evaluateCompleteTrigger
    split
    · exact ⟨false, rfl⟩
    · rename_i ast hast
      exact hexpr _ (hb (p, t) (Bunch.mem_nodes.mpr ht) ast (by simp [NodeDef.triggers, hast]))

theorem raises_checkDependencies (hb : b.TriggersTyped) {p : NodePath} {t : Tree}
    (ht : b.node? p = some t) : Raises ScanError (checkDependencies b p t) := by
  have hnode : Raises ScanError (Node.checkDependencies b p t) := by
    refine Raises.get.bind fun s => .ite (.pure _) (.bind (raises_liftEval fun x hx => ?_) fun _ =>
      .ite (.bind ?_ fun _ => .ite (.bind ?_ fun _ => .pure _) ?_) (.pure _))
    · unfold State.resolveTimeDependencies at hx
      split_ifs at hx
      exact anyFree_error hx
    · obtain ⟨r, hr⟩ := (hb.evaluate ht s).2
      exact raises_liftEval fun x hx => by simp [hr] at hx
    · exact Raises.get.bind fun _ => .bind (.when (.bind (Raises.modify _) fun _ =>
        raises_notify p _ _)) fun _ => raises_setNodeStatus b p t _
    · obtain ⟨r, hr⟩ := (hb.evaluate ht s).1
      exact raises_liftEval fun x hx => by simp [hr] at hx
  exact .ite (Raises.get.bind fun _ => .ite (.pure _) (hnode.bind fun _ => .ite
    (.ite (.pure _) (Raises.get.bind fun _ => .pure _)) (.pure _))) hnode

/-- **No trigger of a typed bunch stops a pass of the dependency scan.** -/
theorem resolveDependencies_raises (hb : b.TriggersTyped) {t : Tree} : ∀ {p : NodePath},
    b.node? p = some t → Raises ScanError (resolveDependencies b p t) := fun {_} ht =>
  resolveDependencies_triple t _ fun _ hx =>
    ⟨raises_checkDependencies hb (Bunch.node?_of_mem_walk ht hx), fun _ => raises_run b _ _⟩

end Raises

end Takler
