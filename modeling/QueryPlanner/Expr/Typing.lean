import QueryPlanner.Fault

/-!
# Types of expressions

The type and the nullability of an expression over a schema. A predicate is a boolean whatever its
operands are; nullability looks at operands from left to right and stops at the first nullable
one, so a faulty operand behind it goes unnoticed.
-/

namespace QueryPlanner

/-- The field that a column refers to. -/
def Schema.resolve (s : Schema) (table : Option String) (name : String) : Except Fault Field :=
  let unknown := Except.error (Fault.unknownColumn table name (s.fields.map Field.name))
  match table with
  | some _ => unknown
  | none =>
    match s.named name with
    | [] => unknown
    | [field] => .ok field
    | _ => .error (.ambiguousColumn name)

/-- The type of a binary expression over operands of these types. -/
def BinaryOp.type (op : BinaryOp) (left right : DataType) : Except Fault DataType :=
  if op.isLogical then
    let logical (t : DataType) : Bool := t = .boolean || t = .null
    if logical left && logical right then .ok .boolean else .error (.notLogical op left right)
  else if op.isComparison then
    if left.comparable right then .ok .boolean else .error (.notComparable op left right)
  else
    match left.common? right with
    | some t => .ok t
    | none => .error (.notArithmetic op left right)

namespace Expr

def type (s : Schema) : Expr → Except Fault DataType
  | .column t n => return (← s.resolve t n).type
  | .literal v => return v.type
  | .unary .negative e => e.type s
  | .unary _ _ => return .boolean
  | .binary op l r => do op.type (← l.type s) (← r.type s)
  | .between .. => return .boolean
  | .inList .. => return .boolean
  | .like .. => return .boolean
  | .alias e _ => e.type s
  | .cast _ t _ => return t

/-- How many expressions of a membership test, its operand included, are asked for nullability. -/
def membershipInspected : Nat := 6

/-- `a`, or `b` if that is false; `b` is not looked at otherwise. -/
def either (a b : Except Fault Bool) : Except Fault Bool := do
  if ← a then return true else b

mutual

def nullable (s : Schema) : Expr → Except Fault Bool
  | .column t n => return (← s.resolve t n).nullable
  | .literal v => return v.isNull
  | .unary .not e => e.nullable s
  | .unary .negative e => e.nullable s
  | .unary _ _ => return false
  | .binary _ l r => either (l.nullable s) (r.nullable s)
  | .between e l h _ => either (e.nullable s) (either (l.nullable s) (h.nullable s))
  | .inList e is _ =>
    either (e.nullable s) (anyNullable s (membershipInspected - 1) is)
  | .like e p _ => either (e.nullable s) (p.nullable s)
  | .alias e _ => e.nullable s
  | .cast e _ false => e.nullable s
  | .cast _ _ true => return true

/-- Whether one of the first `n` items is nullable; more than `n` items may hold anything. -/
def anyNullable (s : Schema) : Nat → List Expr → Except Fault Bool
  | _, [] => return false
  | 0, _ :: _ => return true
  | n + 1, e :: es => either (e.nullable s) (anyNullable s n es)

end

end Expr

end QueryPlanner
