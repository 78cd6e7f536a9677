import QueryPlanner.Proofs.Node.Tree

/-!
# Well typed plans

A plan is well typed if every node has the row type that its operator derives from those of its
inputs. Filters and joins derive theirs without a look at the condition, so that the columns of all
expressions exist below them is said apart.
-/

namespace QueryPlanner

mutual

/-- The names of the columns that the expression refers to. -/
def Expr.columns : Expr → List String
  | .column _ name => [name]
  | .literal _ => []
  | .unary _ e => e.columns
  | .binary _ l r => l.columns ++ r.columns
  | .between e l h _ => e.columns ++ l.columns ++ h.columns
  | .inList e is _ => e.columns ++ columnsOf is
  | .like e p _ => e.columns ++ p.columns
  | .alias e _ => e.columns
  | .cast e _ _ => e.columns

def Expr.columnsOf : List Expr → List String
  | [] => []
  | e :: es => e.columns ++ columnsOf es

end

namespace Operator

def expressions : Operator → List Expr
  | filter condition => [condition]
  | projection exprs _ => exprs
  | join _ condition => [condition]
  | _ => []

/-- The inputs whose columns the expressions refer to. -/
def scope : Operator → List Schema → List Schema
  | join _ _, inputs => inputs.take 2
  | _, inputs => inputs.take 1

/-- Every column that an expression of the operator refers to exists in an input. -/
def FindsColumns (op : Operator) (inputs : List Schema) : Prop :=
  ∀ e ∈ op.expressions, ∀ name ∈ e.columns, ∃ s ∈ op.scope inputs, ∃ f ∈ s.fields, f.name = name

instance (op : Operator) (inputs : List Schema) : Decidable (op.FindsColumns inputs) := by
  unfold FindsColumns
  infer_instance

/-- The row type is the one that the operator derives. -/
def Derives (op : Operator) (inputs : List Schema) (rowType : Schema) : Prop :=
  op.rowType inputs = .ok rowType

instance (op : Operator) (inputs : List Schema) (rowType : Schema) :
    Decidable (op.Derives inputs rowType) :=
  match h : op.rowType inputs with
  | .ok t => decidable_of_iff (t = rowType) (by rw [Derives, h, Except.ok.injEq])
  | .error _ => .isFalse (by simp [Derives, h])

end Operator

/-- What may be asked of an operator, the row types of its inputs and its own. -/
abbrev TypeCheck := Operator → List Schema → Schema → Prop

namespace Node

variable {W : TypeCheck} {n : Node}

/-- All nodes pass the check. -/
def Throughout (W : TypeCheck) (n : Node) : Prop :=
  n.Everywhere fun m => W m.operator (m.inputs.map rowType) m.rowType

/-- Every node has the row type that its operator derives. Placeholders derive none, so the plan has
none. -/
def WellTyped (n : Node) : Prop := n.Throughout Operator.Derives

/-- Every column that an expression refers to exists below its node. -/
def ColumnsExist (n : Node) : Prop := n.Throughout fun op inputs _ => op.FindsColumns inputs

instance (n : Node) : Decidable n.WellTyped := decidableEverywhere _ n

instance (n : Node) : Decidable n.ColumnsExist := decidableEverywhere _ n

theorem throughout_iff : n.Throughout W ↔
    W n.operator (n.inputs.map rowType) n.rowType ∧ ∀ i ∈ n.inputs, i.Throughout W :=
  everywhere_iff

/-- A well typed plan has no placeholders. -/
theorem WellTyped.without_vertices (h : n.WellTyped) : n.Everywhere fun m => m.vertexId? = none := by
  refine h.mono (fun m hm => ?_) n
  obtain ⟨op, inputs, traits, rowType⟩ := m
  cases op with
  | vertex id => cases hm
  | _ => rfl

end Node

end QueryPlanner
