import QueryPlanner.Expr.Basic

/-!
# The text of an expression

An expression has two texts: the one it shows, and the one that names the column it produces. A
binary operand is put into parentheses iff it binds less tightly than the operator above it;
operands of equal precedence never are, on either side, so the text does not tell
`a - (b - c)` from `a - b - c`. The column name has no parentheses at all, shows only the operand
of a cast, and for an alias only the alias.
-/

namespace QueryPlanner.Expr

/-- A column with its table in front, if it has one. -/
def columnText (table : Option String) (name : String) : String :=
  match table with
  | some t => t ++ "." ++ name
  | none => name

/-- Text of an operand below an operator of this precedence. -/
def operandText (precedence : Nat) (operand : Expr) (text : String) : String :=
  match operand with
  | .binary op _ _ => if op.precedence < precedence then "(" ++ text ++ ")" else text
  | _ => text

/-- Text of a unary operator around the text of its operand. -/
def unaryText (op : UnaryOp) (text : String) : String :=
  match op with
  | .not => "NOT " ++ text
  | .negative => "(- " ++ text ++ ")"
  | .isNull => text ++ " IS NULL"
  | .isNotNull => text ++ " IS NOT NULL"
  | .isTrue => text ++ " IS TRUE"
  | .isFalse => text ++ " IS FALSE"

/-- An operator word, with `NOT` before it if negated. -/
def negatedWord (negated : Bool) (word : String) : String :=
  if negated then " NOT " ++ word ++ " " else " " ++ word ++ " "

mutual

def text : Expr → String
  | .column t n => columnText t n
  | .literal v => v.text
  | .unary op e => unaryText op e.text
  | .binary op l r =>
    operandText op.precedence l l.text ++ " " ++ op.text ++ " " ++
      operandText op.precedence r r.text
  | .between e l h n => e.text ++ negatedWord n "BETWEEN" ++ l.text ++ " AND " ++ h.text
  | .inList e is n => e.text ++ negatedWord n "IN" ++ "([" ++ ", ".intercalate (texts is) ++ "])"
  | .like e p n => e.text ++ negatedWord n "LIKE" ++ p.text
  | .alias e n => e.text ++ " AS " ++ n
  | .cast e t false => "CAST(" ++ e.text ++ " AS " ++ t.text ++ ")"
  | .cast e t true => "TRY_CAST(" ++ e.text ++ " AS " ++ t.text ++ ")"

def texts : List Expr → List String
  | [] => []
  | e :: es => e.text :: texts es

end

mutual

/-- Name of the column that the expression produces. -/
def name : Expr → String
  | .column t n => columnText t n
  | .literal v => v.text
  | .unary op e => unaryText op e.name
  | .binary op l r => l.name ++ " " ++ op.text ++ " " ++ r.name
  | .between e l h n => e.name ++ negatedWord n "BETWEEN" ++ l.name ++ " AND " ++ h.name
  | .inList e is n => e.name ++ negatedWord n "IN" ++ ", ".intercalate (names is)
  | .like e p n => e.name ++ negatedWord n "LIKE" ++ p.name
  | .alias _ n => n
  | .cast e _ _ => e.name

def names : List Expr → List String
  | [] => []
  | e :: es => e.name :: names es

end

end QueryPlanner.Expr
