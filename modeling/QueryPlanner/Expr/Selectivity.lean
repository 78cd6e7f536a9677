import QueryPlanner.Expr.Basic
import QueryPlanner.Rows

/-!
# Selectivity

A guess at the fraction of rows that pass a condition: the product of the guesses for its conjuncts.
-/

namespace QueryPlanner.Expr

def conjunctSelectivity : Expr → Float
  | .literal (.boolean (some true)) => 1
  | .literal (.boolean (some false)) => 0
  | .unary .isNotNull _ => 0.9
  | .binary .eq _ _ => 0.15
  | .binary .lt _ _ => 0.5
  | .binary .ltEq _ _ => 0.5
  | .binary .gt _ _ => 0.5
  | .binary .gtEq _ _ => 0.5
  | .between .. => 0.5
  | _ => 0.25

def selectivity (e : Expr) : Float := Rows.product (e.conjuncts.map conjunctSelectivity)

end QueryPlanner.Expr
