import QueryPlanner.Cost
import QueryPlanner.Node
import QueryPlanner.Operator.Estimate

/-!
# Cost models

A cost model prices an operator apart from its inputs and says which of two costs is the cheaper
one. All comparisons of a planner go through the model, so a model can change the objective.
-/

namespace QueryPlanner

structure CostModel where
  /-- Cost of a node without its inputs, from its own row estimate and those of its inputs. -/
  selfCost : Node → Float → List Float → Cost
  /-- Whether the first cost is strictly cheaper than the second. -/
  cheaper : Cost → Cost → Bool

namespace CostModel

/-- Cost of sorting so many rows. -/
def sortEffort (rows : Float) : Float :=
  let rows := Rows.greater rows 1
  rows * Rows.greater rows.log2 1

/-- Prices an operator by the rows that it touches. -/
def touchedRows : CostModel where
  selfCost node rows inputs :=
    let read := Rows.total inputs
    match node.operator with
    | .tableScan _ => ⟨rows, rows + 1, 0⟩
    | .filter _ => ⟨rows, read, 0⟩
    | .projection exprs _ => ⟨rows, rows * Rows.ofCount exprs.length, 0⟩
    | .join _ _ => ⟨rows, read, 0⟩
    | .aggregate _ calls => ⟨rows * (1 + Rows.ofCount calls.length * 0.125), 0, 0⟩
    | .sort collation _ =>
      if collation.isEmpty then ⟨rows, 0, 0⟩ else ⟨rows, sortEffort read, 0⟩
    | .limit _ => ⟨rows, rows, 0⟩
    | .setOp _ _ => ⟨rows, read, 0⟩
    | .values _ _ => ⟨rows, 1, 0⟩
    | .tableModify _ _ => ⟨rows, rows, 0⟩
    | .converter _ _ => ⟨read, read, 0⟩
    | .abstractConverter => .infinity
    | .vertex _ => .zero
  cheaper := Cost.less

/-- The prices of `touchedRows`, compared by cpu. -/
def byCpu : CostModel := { touchedRows with cheaper := fun a b => a.cpu < b.cpu }

/-- The prices of `touchedRows`, the dearer cost being the better one. -/
def reversed : CostModel := { touchedRows with cheaper := fun a b => b.less a }

/-- Nearly every operator costs the same. -/
def uniform : CostModel where
  selfCost node rows _ :=
    match node.operator with
    | .abstractConverter => .huge
    | .vertex _ => .zero
    | .values _ _ => .infinity
    | .tableScan _ => ⟨rows, 0, 1⟩
    | _ => .tiny
  cheaper := Cost.less

end CostModel

namespace Node

mutual

/-- Row estimate of a node, placeholders taken as they are. -/
def rowCount : Node → Float
  | ⟨op, inputs, _, _⟩ => op.estimate (rowCounts inputs)

def rowCounts : List Node → List Float
  | [] => []
  | n :: ns => n.rowCount :: rowCounts ns

end

mutual

/-- Cost of a node and everything below it, placeholders taken as they are. -/
def cumulativeCost (model : CostModel) : Node → Cost
  | ⟨op, inputs, traits, type⟩ =>
    let rows := rowCounts inputs
    inputCosts model (model.selfCost ⟨op, inputs, traits, type⟩ (op.estimate rows) rows) inputs

/-- A cost with the costs of the inputs added, from left to right. -/
def inputCosts (model : CostModel) (cost : Cost) : List Node → Cost
  | [] => cost
  | n :: ns => inputCosts model (cost.plus (n.cumulativeCost model)) ns

end

end Node

end QueryPlanner
