import Takler.Core.Basic
import Takler.Lib.Fallible
import Mathlib

/-!
# Trigger expressions

The abstract syntax of trigger expressions (`core/expression_ast.py`) and its two evaluations:
`value` of an operand and `evaluate` of a condition. Both are methods of `AstBase` that raise
`NotImplementedError` unless a subclass overrides them, so a path alone has a value and is no
condition, and a comparison is a condition and has no value.

The syntax is generic in the type `ρ` of node references: the parser yields the texts of paths,
the builder binds them to nodes.

## Main definitions

* `Ast`, `Value`, `Valuation`.
* `Ast.value`, `Ast.evaluate`: the two evaluations with their exceptions.
-/

namespace Takler

/-- The comparison operators. -/
inductive CmpOp
  | eq
  | gt
  | ge
  | lt
  | le
deriving DecidableEq

/-- The syntax trees of trigger expressions over node references `ρ`. -/
inductive Ast (ρ : Type)
  /-- `AstNodePath`. -/
  | nodePath (ref : ρ)
  /-- `AstVariablePath`. -/
  | variablePath (ref : ρ) (name : String)
  /-- `AstInteger`. -/
  | integer (number : ℤ)
  /-- `AstNodeStatus`. -/
  | nodeStatus (status : NodeStatus)
  /-- `AstOpEq`, `AstOpGt`, `AstOpGe`, `AstOpLt`, `AstOpLe`. -/
  | cmp (op : CmpOp) (left right : Ast ρ)
  /-- `AstOpAnd`. -/
  | and (left right : Ast ρ)
  /-- `AstOpOr`. -/
  | or (left right : Ast ρ)
  /-- `AstMathAdd`. -/
  | add (left right : Ast ρ)
deriving DecidableEq

/-- The values of operands. Parameters may hold texts and nothing; events count as 0 and 1. -/
inductive Value
  | status (s : NodeStatus)
  | int (n : ℤ)
  | str (s : String)
  | none
deriving DecidableEq

/-- What expressions read: the status of a node and the value of a variable of a node. -/
structure Valuation (ρ : Type) where
  status : ρ → NodeStatus
  variableValue : ρ → String → Value

namespace Value

/-- `type(v).__name__`. -/
def typeName : Value → String
  | status _ => "NodeStatus"
  | int _ => "int"
  | str _ => "str"
  | none => "NoneType"

/-- The symbol of an operator in a `TypeError`. -/
def opSymbol : CmpOp → String
  | .eq => "=="
  | .gt => ">"
  | .ge => ">="
  | .lt => "<"
  | .le => "<="

/-- Compare two values of one ordered type. -/
def ordered {α : Type} [LinearOrder α] (op : CmpOp) (a b : α) : Bool :=
  match op with
  | .eq => a = b
  | .gt => a > b
  | .ge => a ≥ b
  | .lt => a < b
  | .le => a ≤ b

/-- Compare two values. Values of different types are never equal and have no order. -/
def compare (op : CmpOp) : Value → Value → Except Err Bool
  | status a, status b => .ok (ordered op a b)
  | int a, int b => .ok (ordered op a b)
  | str a, str b => .ok (ordered op a b)
  | a, b =>
    if op = .eq then .ok (a = b)
    else .error (.typeError
      ("'" ++ opSymbol op ++ "' not supported between instances of '" ++ a.typeName ++ "' and '" ++
        b.typeName ++ "'"))

/-- Add two values. -/
def add : Value → Value → Except Err Value
  | int a, int b => .ok (int (a + b))
  | str a, str b => .ok (str (a ++ b))
  | a, b => .error (.typeError
      ("unsupported operand type(s) for +: '" ++ a.typeName ++ "' and '" ++ b.typeName ++ "'"))

end Value

namespace Ast

variable {ρ : Type}

/-- The nodes an expression refers to. -/
def refs : Ast ρ → List ρ
  | nodePath ref | variablePath ref _ => [ref]
  | integer _ | nodeStatus _ => []
  | cmp _ left right | and left right | or left right | add left right => left.refs ++ right.refs

/-- Replace the references. -/
def map {σ : Type} (f : ρ → σ) : Ast ρ → Ast σ
  | nodePath ref => nodePath (f ref)
  | variablePath ref name => variablePath (f ref) name
  | integer number => integer number
  | nodeStatus status => nodeStatus status
  | cmp op left right => cmp op (left.map f) (right.map f)
  | and left right => and (left.map f) (right.map f)
  | or left right => or (left.map f) (right.map f)
  | add left right => add (left.map f) (right.map f)

/-- Replace the references, from left to right, by a function that may fail and that is told the
name of the variable when there is one. -/
def traverse {σ ε : Type} (f : ρ → Option String → Except ε σ) : Ast ρ → Except ε (Ast σ)
  | nodePath ref => return nodePath (← f ref none)
  | variablePath ref name => return variablePath (← f ref (some name)) name
  | integer number => return integer number
  | nodeStatus status => return nodeStatus status
  | cmp op left right => return cmp op (← left.traverse f) (← right.traverse f)
  | and left right => return and (← left.traverse f) (← right.traverse f)
  | or left right => return or (← left.traverse f) (← right.traverse f)
  | add left right => return add (← left.traverse f) (← right.traverse f)

theorem refs_map {σ : Type} (f : ρ → σ) (a : Ast ρ) : (a.map f).refs = a.refs.map f := by
  induction a with
  | nodePath | variablePath | integer | nodeStatus => rfl
  | cmp _ _ _ ihl ihr | and _ _ ihl ihr | or _ _ ihl ihr | add _ _ ihl ihr =>
    simp only [map, refs, ihl, ihr, List.map_append]

theorem map_map {σ τ : Type} (g : σ → τ) (f : ρ → σ) (a : Ast ρ) :
    (a.map f).map g = a.map (g ∘ f) := by
  induction a with
  | nodePath | variablePath | integer | nodeStatus => rfl
  | cmp _ _ _ ihl ihr | and _ _ ihl ihr | or _ _ ihl ihr | add _ _ ihl ihr =>
    simp only [map, ihl, ihr]

section Traverse

variable {σ ε : Type} {f : ρ → Option String → Except ε σ}

/-- What a binary node collects. -/
private theorem bind_both {ω : Type} {x y : Except ε (Ast σ)} {c : Ast σ → Ast σ → ω} {z : ω}
    (h : (do return c (← x) (← y)) = Except.ok z) : ∃ l r, x = .ok l ∧ y = .ok r ∧ z = c l r := by
  obtain ⟨l, hl, h⟩ := Except.bind_eq_ok.mp h
  obtain ⟨r, hr, h⟩ := Except.bind_eq_ok.mp h
  exact ⟨l, r, hl, hr, (Except.ok.inj h).symm⟩

/-- The new references belong to the old ones, one by one. -/
theorem forall₂_refs_of_traverse {a : Ast ρ} : ∀ {a' : Ast σ}, a.traverse f = .ok a' →
    List.Forall₂ (fun r r' => ∃ name, f r name = .ok r') a.refs a'.refs := by
  induction a with
  | nodePath ref =>
    intro a' h
    obtain ⟨r, hr, h⟩ := Except.bind_eq_ok.mp h
    cases h
    exact .cons ⟨_, hr⟩ .nil
  | variablePath ref name =>
    intro a' h
    obtain ⟨r, hr, h⟩ := Except.bind_eq_ok.mp h
    cases h
    exact .cons ⟨_, hr⟩ .nil
  | integer | nodeStatus =>
    intro a' h
    cases h
    exact .nil
  | cmp _ _ _ ihl ihr | and _ _ ihl ihr | or _ _ ihl ihr | add _ _ ihl ihr =>
    intro a' h
    obtain ⟨l, r, hl, hr, rfl⟩ := bind_both h
    exact List.rel_append (ihl hl) (ihr hr)

/-- When the new references show the old ones, nothing else has changed. -/
theorem map_of_traverse {g : σ → ρ} (hg : ∀ r name r', f r name = .ok r' → g r' = r) {a : Ast ρ} :
    ∀ {a' : Ast σ}, a.traverse f = .ok a' → a'.map g = a := by
  induction a with
  | nodePath ref | variablePath ref name =>
    intro a' h
    obtain ⟨r, hr, h⟩ := Except.bind_eq_ok.mp h
    cases h
    rw [map, hg _ _ _ hr]
  | integer | nodeStatus =>
    intro a' h
    cases h
    rfl
  | cmp _ _ _ ihl ihr | and _ _ ihl ihr | or _ _ ihl ihr | add _ _ ihl ihr =>
    intro a' h
    obtain ⟨l, r, hl, hr, rfl⟩ := bind_both h
    rw [map, ihl hl, ihr hr]

end Traverse

/-- `value()`: the value of an operand. -/
def value (v : Valuation ρ) : Ast ρ → Except Err Value
  | nodePath ref => .ok (.status (v.status ref))
  | variablePath ref name => .ok (v.variableValue ref name)
  | integer number => .ok (.int number)
  | nodeStatus status => .ok (.status status)
  | add left right => do (← left.value v).add (← right.value v)
  | cmp _ _ _ | and _ _ | or _ _ => .error (.notImplemented "AstBase.value is not implemented")

/-- `evaluate()`: the truth of a condition. The right side of a connective is looked at only when
the left side does not decide. -/
def evaluate (v : Valuation ρ) : Ast ρ → Except Err Bool
  | cmp op left right => do Value.compare op (← left.value v) (← right.value v)
  | and left right => do if ← left.evaluate v then right.evaluate v else return false
  | or left right => do if ← left.evaluate v then return true else right.evaluate v
  | nodePath _ | variablePath _ _ | integer _ | nodeStatus _ | add _ _ =>
    .error (.notImplemented "AstBase.evaluate is not implemented")

theorem value_congr {v v' : Valuation ρ} : ∀ {a : Ast ρ}, (∀ r ∈ a.refs, v.status r = v'.status r ∧
    v.variableValue r = v'.variableValue r) → a.value v = a.value v'
  | nodePath r, h | variablePath r _, h => by simp [value, h r List.mem_cons_self]
  | integer _, _ | nodeStatus _, _ | cmp _ _ _, _ | and _ _, _ | or _ _, _ => rfl
  | add left right, h => by
    rw [value, value, value_congr fun r hr => h r (List.mem_append_left _ hr),
      value_congr fun r hr => h r (List.mem_append_right _ hr)]

/-- An expression reads the nodes that it refers to. -/
theorem evaluate_congr {v v' : Valuation ρ} : ∀ {a : Ast ρ}, (∀ r ∈ a.refs,
    v.status r = v'.status r ∧ v.variableValue r = v'.variableValue r) → a.evaluate v = a.evaluate v'
  | nodePath _, _ | variablePath _ _, _ | integer _, _ | nodeStatus _, _ | add _ _, _ => rfl
  | cmp _ left right, h => by
    rw [evaluate, evaluate, value_congr fun r hr => h r (List.mem_append_left _ hr),
      value_congr fun r hr => h r (List.mem_append_right _ hr)]
  | and left right, h | or left right, h => by
    rw [evaluate, evaluate, evaluate_congr fun r hr => h r (List.mem_append_left _ hr),
      evaluate_congr fun r hr => h r (List.mem_append_right _ hr)]

end Ast

end Takler
