import QueryPlanner.Decimal.Shortest
import QueryPlanner.Schema

/-!
# Literal values

A scalar is a value of a data type or a null of that type. Two doubles are the same literal iff
they have the same bits, so a value that is not a number equals itself and the two zeros differ.
-/

namespace QueryPlanner

inductive Scalar where
  /-- The null that has no type of its own. -/
  | null
  | boolean (value : Option Bool)
  | int32 (value : Option Int)
  | int64 (value : Option Int)
  | uint64 (value : Option Nat)
  | float64 (value : Option Float)
  | utf8 (value : Option String)
deriving DecidableEq, Repr, Inhabited

namespace Scalar

def type : Scalar → DataType
  | null => .null
  | boolean _ => .boolean
  | int32 _ => .int32
  | int64 _ => .int64
  | uint64 _ => .uint64
  | float64 _ => .float64
  | utf8 _ => .utf8

def isNull : Scalar → Bool
  | null => true
  | boolean v => v.isNone
  | int32 v => v.isNone
  | int64 v => v.isNone
  | uint64 v => v.isNone
  | float64 v => v.isNone
  | utf8 v => v.isNone

/-- The value alone, as it stands in a row of values. -/
def bare : Scalar → String
  | boolean (some b) => toString b
  | int32 (some n) => toString n
  | int64 (some n) => toString n
  | uint64 (some n) => toString n
  | float64 (some x) => Decimal.text x
  | utf8 (some s) => s
  | _ => "NULL"

/-- The value with its type, as it stands in an expression. Text is put between quotes as it is. -/
def text (v : Scalar) : String :=
  match v with
  | null => "NULL"
  | utf8 (some s) => "Utf8(\"" ++ s ++ "\")"
  | _ => v.type.text ++ "(" ++ v.bare ++ ")"

end Scalar

end QueryPlanner
