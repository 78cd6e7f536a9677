import QueryPlanner.Decimal.Shortest

/-!
# Costs

A cost has three dimensions, rows, cpu and io. Comparisons look at the rows only, the other two
dimensions are carried along for arithmetic and for diagnostics. An infinite dimension absorbs:
a sum with an infinite part is infinite in every dimension.
-/

namespace QueryPlanner

structure Cost where
  rows : Float
  cpu : Float
  io : Float
deriving DecidableEq, Repr, Inhabited

namespace Cost

def zero : Cost := ⟨0, 0, 0⟩

def tiny : Cost := ⟨1, 1, 0⟩

/-- The greatest finite cost. -/
def huge : Cost :=
  let most : Float := 1.7976931348623157e308
  ⟨most, most, most⟩

def infinity : Cost :=
  let inf : Float := 1.0 / 0.0
  ⟨inf, inf, inf⟩

/-- Numerical equality in every dimension, so a value that is not a number equals nothing. -/
def equal (a b : Cost) : Bool :=
  a.rows == b.rows && a.cpu == b.cpu && a.io == b.io

/-- Some dimension is infinite. -/
def isInfinite (c : Cost) : Bool :=
  c.rows.isInf || c.cpu.isInf || c.io.isInf

/-- Strictly cheaper, by rows alone. -/
def less (a b : Cost) : Bool := a.rows < b.rows

def lessOrEqual (a b : Cost) : Bool := a.equal b || a.rows ≤ b.rows

/-- Tolerance of `near`. -/
def tolerance : Float := 1.0e-5

/-- Equal, or less than `tolerance` apart in every dimension. -/
def near (a b : Cost) : Bool :=
  a.equal b ||
    ((a.rows - b.rows).abs < tolerance && (a.cpu - b.cpu).abs < tolerance &&
      (a.io - b.io).abs < tolerance)

def plus (a b : Cost) : Cost :=
  if a.isInfinite || b.isInfinite then infinity
  else ⟨a.rows + b.rows, a.cpu + b.cpu, a.io + b.io⟩

/-- Nothing is taken from the infinite cost. -/
def minus (a b : Cost) : Cost :=
  if a.equal infinity then a
  else ⟨a.rows - b.rows, a.cpu - b.cpu, a.io - b.io⟩

/-- The infinite cost stays as it is under every factor. -/
def scale (a : Cost) (factor : Float) : Cost :=
  if a.equal infinity then a
  else ⟨a.rows * factor, a.cpu * factor, a.io * factor⟩

/-- The ratio of two dimensions, if both are finite and neither is zero. -/
def ratio? (a b : Float) : Option Float :=
  if a != 0 && a.isFinite && b != 0 && b.isFinite then some (a / b) else none

/-- Geometric mean of the ratios of the dimensions that have one, `1` if none does. -/
def divide (a b : Cost) : Float :=
  let ratios := [ratio? a.rows b.rows, ratio? a.cpu b.cpu, ratio? a.io b.io].filterMap id
  if ratios.isEmpty then 1
  else (ratios.foldl (· * ·) 1.0).pow (1.0 / ratios.length.toFloat)

/-- The sum from left to right, starting at `zero`. -/
def sum (costs : List Cost) : Cost := costs.foldl plus zero

def text (c : Cost) : String :=
  if c.equal infinity then "\x7binf\x7d"
  else if c.equal huge then "\x7bhuge\x7d"
  else
    "\x7b" ++ Decimal.text c.rows ++ " rows, " ++ Decimal.text c.cpu ++ " cpu, " ++
      Decimal.text c.io ++ " io\x7d"

end Cost

end QueryPlanner
