import QueryPlanner.Scalar

/-!
# Scalar expressions

Expressions over the fields of a row. Nothing is simplified when an expression is made.
-/

namespace QueryPlanner

inductive UnaryOp where
  | not
  | negative
  | isNull
  | isNotNull
  | isTrue
  | isFalse
deriving DecidableEq, Repr

inductive BinaryOp where
  | eq
  | notEq
  | lt
  | ltEq
  | gt
  | gtEq
  | and
  | or
  | plus
  | minus
  | multiply
  | divide
  | modulo
deriving DecidableEq, Repr

namespace BinaryOp

def text : BinaryOp → String
  | eq => "="
  | notEq => "!="
  | lt => "<"
  | ltEq => "<="
  | gt => ">"
  | gtEq => ">="
  | and => "AND"
  | or => "OR"
  | plus => "+"
  | minus => "-"
  | multiply => "*"
  | divide => "/"
  | modulo => "%"

/-- How tightly an operator binds. -/
def precedence : BinaryOp → Nat
  | or => 5
  | and => 10
  | eq | notEq | ltEq | gtEq => 15
  | lt | gt => 20
  | plus | minus => 40
  | multiply | divide | modulo => 45

def isLogical : BinaryOp → Bool
  | and | or => true
  | _ => false

def isComparison : BinaryOp → Bool
  | eq | notEq | lt | ltEq | gt | gtEq => true
  | _ => false

end BinaryOp

inductive Expr where
  | column (table : Option String) (name : String)
  | literal (value : Scalar)
  | unary (op : UnaryOp) (operand : Expr)
  | binary (op : BinaryOp) (left right : Expr)
  | between (operand low high : Expr) (negated : Bool)
  | inList (operand : Expr) (items : List Expr) (negated : Bool)
  | like (operand pattern : Expr) (negated : Bool)
  | alias (operand : Expr) (name : String)
  /-- A `lenient` cast yields null where the value does not fit. -/
  | cast (operand : Expr) (type : DataType) (lenient : Bool)
deriving Repr, Inhabited

namespace Expr

mutual

/-- Equality of expressions. -/
def equal : Expr → Expr → Bool
  | .column t n, .column t' n' => t = t' && n = n'
  | .literal v, .literal v' => v = v'
  | .unary o e, .unary o' e' => o = o' && e.equal e'
  | .binary o l r, .binary o' l' r' => o = o' && l.equal l' && r.equal r'
  | .between e l h n, .between e' l' h' n' =>
    e.equal e' && l.equal l' && h.equal h' && n = n'
  | .inList e is n, .inList e' is' n' => e.equal e' && equalList is is' && n = n'
  | .like e p n, .like e' p' n' => e.equal e' && p.equal p' && n = n'
  | .alias e n, .alias e' n' => e.equal e' && n = n'
  | .cast e t l, .cast e' t' l' => e.equal e' && t = t' && l = l'
  | _, _ => false

def equalList : List Expr → List Expr → Bool
  | [], [] => true
  | e :: es, e' :: es' => e.equal e' && equalList es es'
  | _, _ => false

end

mutual

theorem eq_of_equal : ∀ {a b : Expr}, a.equal b = true → a = b
  | .column .., b, h => by cases b <;> simp_all [equal]
  | .literal .., b, h => by cases b <;> simp_all [equal]
  | .unary _ e, b, h => by
    cases b <;> simp only [equal, Bool.false_eq_true, Bool.and_eq_true, decide_eq_true_eq] at h
    rw [h.1, eq_of_equal h.2]
  | .binary _ l r, b, h => by
    cases b <;> simp only [equal, Bool.false_eq_true, Bool.and_eq_true, decide_eq_true_eq] at h
    rw [h.1.1, eq_of_equal h.1.2, eq_of_equal h.2]
  | .between e l u _, b, h => by
    cases b <;> simp only [equal, Bool.false_eq_true, Bool.and_eq_true, decide_eq_true_eq] at h
    rw [eq_of_equal h.1.1.1, eq_of_equal h.1.1.2, eq_of_equal h.1.2, h.2]
  | .inList e is _, b, h => by
    cases b <;> simp only [equal, Bool.false_eq_true, Bool.and_eq_true, decide_eq_true_eq] at h
    rw [eq_of_equal h.1.1, eq_of_equalList h.1.2, h.2]
  | .like e p _, b, h => by
    cases b <;> simp only [equal, Bool.false_eq_true, Bool.and_eq_true, decide_eq_true_eq] at h
    rw [eq_of_equal h.1.1, eq_of_equal h.1.2, h.2]
  | .alias e _, b, h => by
    cases b <;> simp only [equal, Bool.false_eq_true, Bool.and_eq_true, decide_eq_true_eq] at h
    rw [eq_of_equal h.1, h.2]
  | .cast e _ _, b, h => by
    cases b <;> simp only [equal, Bool.false_eq_true, Bool.and_eq_true, decide_eq_true_eq] at h
    rw [eq_of_equal h.1.1, h.1.2, h.2]

theorem eq_of_equalList : ∀ {a b : List Expr}, equalList a b = true → a = b
  | [], b, h => by cases b <;> simp_all [equalList]
  | e :: es, b, h => by
    cases b <;> simp only [equalList, Bool.false_eq_true, Bool.and_eq_true] at h
    rw [eq_of_equal h.1, eq_of_equalList h.2]

end

mutual

theorem equal_self : ∀ e : Expr, e.equal e = true
  | .column .. => by simp [equal]
  | .literal .. => by simp [equal]
  | .unary _ e => by simp [equal, equal_self e]
  | .binary _ l r => by simp [equal, equal_self l, equal_self r]
  | .between e l u _ => by simp [equal, equal_self e, equal_self l, equal_self u]
  | .inList e is _ => by simp [equal, equal_self e, equalList_self is]
  | .like e p _ => by simp [equal, equal_self e, equal_self p]
  | .alias e _ => by simp [equal, equal_self e]
  | .cast e _ _ => by simp [equal, equal_self e]

theorem equalList_self : ∀ es : List Expr, equalList es es = true
  | [] => by simp [equalList]
  | e :: es => by simp [equalList, equal_self e, equalList_self es]

end

instance : DecidableEq Expr := fun a b =>
  if h : a.equal b = true then isTrue (eq_of_equal h)
  else isFalse fun e => h (e ▸ equal_self a)

/-- The expression below an outer alias. -/
def unalias : Expr → Expr
  | .alias e _ => e
  | e => e

/-- The conjuncts of a condition, from left to right, also below aliases. -/
def conjuncts : Expr → List Expr
  | .binary .and l r => l.conjuncts ++ r.conjuncts
  | .alias e _ => e.conjuncts
  | e => [e]

/-- Literal `true`. -/
def isAlwaysTrue (e : Expr) : Bool :=
  match e with
  | .literal (.boolean (some true)) => true
  | _ => false

/-- Literal `false`, or the null without a type. -/
def isAlwaysFalse (e : Expr) : Bool :=
  match e with
  | .literal (.boolean (some false)) => true
  | .literal .null => true
  | _ => false

end Expr

end QueryPlanner
