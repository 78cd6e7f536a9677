/-!
# Arithmetic of row estimates

Estimates are doubles. A value that is not a number counts as absent when two estimates are
compared, and a sum starts from the neutral element of addition.
-/

namespace QueryPlanner.Rows

/-- The lesser estimate, the second of two that compare equal, such as the two zeros; of a number
and a value that is not one, the number. -/
def lesser (a b : Float) : Float :=
  if a.isNaN || b ≤ a then b else a

/-- The greater estimate, the second of two that compare equal; of a number and a value that is not
one, the number. -/
def greater (a b : Float) : Float :=
  if a.isNaN || b ≥ a then b else a

/-- The sum from left to right. The neutral element of addition is `-0`, so this is the sum of no
estimates. -/
def total (rows : List Float) : Float := rows.foldl (· + ·) (-0.0)

/-- The product from left to right. -/
def product (factors : List Float) : Float := factors.foldl (· * ·) 1.0

/-- A count as an estimate, rounded to the nearest double. -/
def ofCount (n : Nat) : Float := n.toUInt64.toFloat

/-- Row count of the `idx`-th input, one row for an input that is not there. -/
def input (rows : List Float) (idx : Nat) : Float := rows[idx]?.getD 1.0

end QueryPlanner.Rows
