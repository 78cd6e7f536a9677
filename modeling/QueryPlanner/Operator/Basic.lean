import QueryPlanner.Expr.Text
import QueryPlanner.Fault

/-!
# Relational operators

One inductive type for all operators. Whether an expression is logical or physical is said by the
convention of its traits, so a conversion can keep the operator. An operator knows nothing of its
inputs.
-/

namespace QueryPlanner

inductive JoinType where
  | inner
  | left
  | right
  | full
  | leftSemi
  | rightSemi
  | leftAnti
  | rightAnti
deriving DecidableEq, Repr

def JoinType.text : JoinType → String
  | inner => "Inner"
  | left => "Left"
  | right => "Right"
  | full => "Full"
  | leftSemi => "LeftSemi"
  | rightSemi => "RightSemi"
  | leftAnti => "LeftAnti"
  | rightAnti => "RightAnti"

inductive AggregateFunction where
  | count
  | sum
  | min
  | max
  | avg
deriving DecidableEq, Repr

def AggregateFunction.text : AggregateFunction → String
  | count => "COUNT"
  | sum => "SUM"
  | min => "MIN"
  | max => "MAX"
  | avg => "AVG"

/-- An aggregate function over a field, or over whole rows if there is no argument. -/
structure AggregateCall where
  function : AggregateFunction
  argument : Option Nat
  name : String
  distinct : Bool
deriving DecidableEq, Repr

def AggregateCall.text (c : AggregateCall) : String :=
  c.function.text ++ "(" ++ (if c.distinct then "DISTINCT " else "") ++
    (match c.argument with
      | some idx => "$" ++ toString idx
      | none => "*") ++ ")"

inductive SetOperation where
  | union
  | intersect
  | minus
deriving DecidableEq, Repr

def SetOperation.text : SetOperation → String
  | union => "Union"
  | intersect => "Intersect"
  | minus => "Minus"

inductive ModifyOperation where
  | insert
  | update
  | delete
  | merge
deriving DecidableEq, Repr

def ModifyOperation.text : ModifyOperation → String
  | insert => "INSERT"
  | update => "UPDATE"
  | delete => "DELETE"
  | merge => "MERGE"

/-- A read of a stored table, cut off after `limit` rows. `rowCount` is the statistics that the
storage supplies, if it does. -/
structure TableScan where
  table : String
  schema : Schema
  limit : Option Nat
  rowCount : Option Float
deriving DecidableEq, Repr

inductive Operator where
  | tableScan (scan : TableScan)
  | filter (condition : Expr)
  /-- Computes the expressions as columns of these names. -/
  | projection (exprs : List Expr) (names : List String)
  | join (type : JoinType) (condition : Expr)
  | aggregate (groupKeys : List Nat) (calls : List AggregateCall)
  /-- Orders the rows and keeps the first `fetch` of them. -/
  | sort (collation : Collation) (fetch : Option Nat)
  | limit (count : Nat)
  /-- Without `all`, repeated rows are dropped. -/
  | setOp (operation : SetOperation) (all : Bool)
  | values (schema : Schema) (tuples : List (List Scalar))
  | tableModify (table : String) (operation : ModifyOperation)
  /-- Takes its input from one convention to another, the rows stay the same. -/
  | converter (source target : Convention)
  /-- A request for the traits of its node, to be expanded into converters. -/
  | abstractConverter
  /-- Stands for whatever expression a vertex of the plan graph holds. -/
  | vertex (id : VertexId)
deriving DecidableEq, Repr

/-- The operators without their attributes. -/
inductive OperatorKind where
  | tableScan
  | filter
  | projection
  | join
  | aggregate
  | sort
  | limit
  | setOp
  | values
  | tableModify
  | converter
  | abstractConverter
  | vertex
deriving DecidableEq, Repr

def OperatorKind.text : OperatorKind → String
  | tableScan => "TableScan"
  | filter => "Filter"
  | projection => "Projection"
  | join => "Join"
  | aggregate => "Aggregate"
  | sort => "Sort"
  | limit => "Limit"
  | setOp => "SetOp"
  | values => "Values"
  | tableModify => "TableModify"
  | converter => "Converter"
  | abstractConverter => "AbstractConverter"
  | vertex => "Vertex"

/-- Equality of scans. Statistics are compared as numbers, so a scan whose row count is not a number
differs from itself. -/
def TableScan.equal (a b : TableScan) : Bool :=
  a.table = b.table && a.schema = b.schema && a.limit = b.limit &&
    match a.rowCount, b.rowCount with
    | some x, some y => x == y
    | none, none => true
    | _, _ => false

namespace Operator

/-- A projection whose columns are named after their expressions. -/
def project (exprs : List Expr) : Operator := .projection exprs (exprs.map Expr.name)

def kind : Operator → OperatorKind
  | tableScan _ => .tableScan
  | filter _ => .filter
  | projection _ _ => .projection
  | join _ _ => .join
  | aggregate _ _ => .aggregate
  | sort _ _ => .sort
  | limit _ => .limit
  | setOp _ _ => .setOp
  | values _ _ => .values
  | tableModify _ _ => .tableModify
  | converter _ _ => .converter
  | abstractConverter => .abstractConverter
  | vertex _ => .vertex

/-- Converters change the traits of their input, and nothing else. -/
def isConverter : Operator → Bool
  | converter _ _ => true
  | abstractConverter => true
  | _ => false

/-- Equality of operators, up to numerical equality of statistics. -/
def equal (a b : Operator) : Bool :=
  match a, b with
  | tableScan s, tableScan t => s.equal t
  | _, _ => a = b

end Operator

end QueryPlanner
