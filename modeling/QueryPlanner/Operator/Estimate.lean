import QueryPlanner.Expr.Selectivity
import QueryPlanner.Operator.Basic

/-!
# Row estimates of operators

The number of rows that an operator is expected to produce over inputs of given numbers of rows. An
input that is not there counts as one row.
-/

namespace QueryPlanner

/-- Row count of a table without statistics. -/
def TableScan.assumedRowCount : Float := 100

/-- At most `limit` rows, if there is a limit. -/
def Rows.atMost (rows : Float) (limit : Option Nat) : Float :=
  match limit with
  | some n => Rows.lesser rows (Rows.ofCount n)
  | none => rows

/-- An outer join has at least the rows of the sides that it keeps, a semi or an anti join has half
the rows of its side. -/
def JoinType.estimate (type : JoinType) (left right matching : Float) : Float :=
  match type with
  | .inner => matching
  | .left => Rows.greater matching left
  | .right => Rows.greater matching right
  | .full => Rows.greater (Rows.greater matching left) right
  | .leftSemi | .leftAnti => left * 0.5
  | .rightSemi | .rightAnti => right * 0.5

/-- An estimate that is not finite counts as no rows. -/
def SetOperation.estimate (op : SetOperation) (rows : List Float) : Float :=
  let estimate := match op with
    | .union => Rows.total rows
    | .intersect => rows.foldl Rows.lesser (1.0 / 0.0)
    | .minus => rows.head?.getD 0
  if estimate.isFinite then estimate else 0

namespace Operator

def estimate (op : Operator) (rows : List Float) : Float :=
  match op with
  | tableScan s => Rows.atMost (s.rowCount.getD TableScan.assumedRowCount) s.limit
  | filter e => Rows.input rows 0 * e.selectivity
  | join type e =>
    let left := Rows.input rows 0
    let right := Rows.input rows 1
    type.estimate left right (left * right * e.selectivity)
  | aggregate keys _ =>
    if keys.isEmpty then 1 else Rows.greater (Rows.input rows 0 * 0.1) 1
  | sort _ fetch => Rows.atMost (Rows.input rows 0) fetch
  | limit n => Rows.atMost (Rows.input rows 0) (some n)
  | setOp op all => if all then op.estimate rows else op.estimate rows * 0.5
  | values _ tuples => Rows.ofCount tuples.length
  | vertex _ => 1
  | projection _ _ | tableModify _ _ | converter _ _ | abstractConverter => Rows.input rows 0

end Operator

end QueryPlanner
