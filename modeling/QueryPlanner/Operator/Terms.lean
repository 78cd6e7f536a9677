import QueryPlanner.Operator.Basic

/-!
# Attributes of operators as text

The attributes of an operator as pairs of a name and a value. They appear in digests and when a plan
is shown. Normalized terms leave out the names given to projected and aggregated columns, so
expressions that differ in such names alone look alike.
-/

namespace QueryPlanner

/-- What goes into a digest. -/
inductive DigestMode where
  | full
  | normalized
deriving DecidableEq, Repr

namespace Operator

def terms (mode : DigestMode) : Operator → List (String × String)
  | tableScan s =>
    ("table", s.table) :: (s.limit.toList.map fun n => ("limit", toString n))
  | filter e => [("condition", e.text)]
  | projection exprs names =>
    match mode with
    | .full =>
      [("exprs", Text.bracketed (exprs.map Expr.text)), ("names", Text.bracketed names)]
    | .normalized => [("exprs", Text.bracketed (exprs.map fun e => e.unalias.text))]
  | join type e => [("type", type.text), ("condition", e.text)]
  | aggregate keys calls =>
    let call (c : AggregateCall) : String :=
      match mode with
      | .full => c.text ++ " AS " ++ c.name
      | .normalized => c.text
    [("group", Text.bracketed (keys.map toString)), ("calls", Text.bracketed (calls.map call))]
  | sort c fetch =>
    ("collation", c.text) :: (fetch.toList.map fun n => ("fetch", toString n))
  | limit n => [("limit", toString n)]
  | setOp op all => [("kind", op.text), ("all", toString all)]
  | values _ tuples =>
    [("tuples", Text.bracketed (tuples.map fun t => Text.bracketed (t.map Scalar.bare)))]
  | tableModify table op => [("table", table), ("operation", op.text)]
  | converter source _ => [("from", source.name)]
  | abstractConverter => []
  | vertex id => [("id", toString id)]

/-- The terms as they are written, `name=value`. -/
def termTexts (mode : DigestMode) (op : Operator) : List String :=
  (op.terms mode).map fun (name, value) => name ++ "=" ++ value

end Operator

end QueryPlanner
