import QueryPlanner.Expr.Typing
import QueryPlanner.Operator.Basic

/-!
# Row types of operators

The row type that an operator produces over inputs of given row types.
-/

namespace QueryPlanner

/-- The row type of the `idx`-th input. -/
def inputRowType (inputs : List Schema) (idx : Nat) : Except Fault Schema :=
  match inputs[idx]? with
  | some s => .ok s
  | none => .error (.missingInput idx)

/-- The column of a call. Counts are never null, averages are doubles, all other functions keep the
type of their argument. -/
def AggregateCall.field (c : AggregateCall) (input : Schema) : Except Fault Field := do
  let argument ← match c.argument with
    | none => pure none
    | some idx =>
      match input.fields[idx]? with
      | some field => pure (some field)
      | none => throw (.argumentOutOfRange idx input)
  match c.function, argument with
  | .count, _ => return ⟨c.name, .int64, false⟩
  | .avg, some _ => return ⟨c.name, .float64, true⟩
  | _, some field => return ⟨c.name, field.type, true⟩
  | function, none => throw (.missingArgument function.text)

/-- The fields of a side of a join that is padded with nulls where it has no partner. -/
def Schema.padded (s : Schema) (padded : Bool) : List Field :=
  s.fields.map fun f => { f with nullable := f.nullable || padded }

/-- The row type of a join. A semi or an anti join has the rows of one side. -/
def JoinType.rowType (type : JoinType) (left right : Schema) : Schema :=
  let both (padLeft padRight : Bool) : Schema := ⟨left.padded padLeft ++ right.padded padRight⟩
  match type with
  | .leftSemi | .leftAnti => left
  | .rightSemi | .rightAnti => right
  | .inner => both false false
  | .left => both false true
  | .right => both true false
  | .full => both true true

namespace Operator

/-- The field of a projected expression. Its type is asked before its nullability. -/
def projectedField (input : Schema) (expr : Expr) (name : String) : Except Fault Field := do
  let type ← expr.type input
  let nullable ← expr.nullable input
  return ⟨name, type, nullable⟩

def rowType (op : Operator) (inputs : List Schema) : Except Fault Schema := do
  match op with
  | tableScan s => return s.schema
  | projection exprs names =>
    if exprs.length ≠ names.length then throw (.nameCount exprs.length names.length)
    let input ← inputRowType inputs 0
    return ⟨← (exprs.zip names).mapM fun (expr, name) => projectedField input expr name⟩
  | join type _ =>
    let left ← inputRowType inputs 0
    let right ← inputRowType inputs 1
    return type.rowType left right
  | aggregate keys calls =>
    let input ← inputRowType inputs 0
    let grouped ← keys.mapM fun idx =>
      match input.fields[idx]? with
      | some field => pure field
      | none => throw (.groupKeyOutOfRange idx input)
    let called ← calls.mapM fun call => call.field input
    return ⟨grouped ++ called⟩
  | setOp operation _ =>
    let first ← inputRowType inputs 0
    match inputs.tail.find? fun other => other.width ≠ first.width with
    | some other => throw (.widthMismatch operation.text first.width other.width)
    | none => return first
  | values schema _ => return schema
  | tableModify _ _ => return ⟨[⟨"ROWCOUNT", .int64, false⟩]⟩
  | vertex id => throw (.fixedRowType id)
  | filter _ | sort _ _ | limit _ | converter _ _ | abstractConverter => inputRowType inputs 0

end Operator

end QueryPlanner
