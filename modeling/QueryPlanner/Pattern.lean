import QueryPlanner.Node

/-!
# Patterns

A pattern is a tree that describes the shape of the expressions a rule works on. Each pattern node
tests one expression by kind, by convention and by a test of its own, and says how its children
are to match the inputs of that expression.
-/

namespace QueryPlanner

/-- How the children of a pattern match the inputs of an expression. -/
inductive ChildPolicy where
  /-- Inputs are not looked at. -/
  | any
  /-- Every child matches some input. -/
  | unordered
  /-- The children match the inputs one by one, and there are as many. -/
  | exact
deriving DecidableEq, Repr

def ChildPolicy.text : ChildPolicy → String
  | any => "Any"
  | unordered => "Unordered"
  | exact => "Exact"

structure Pattern where
  /-- Every kind matches if there is none. -/
  kind : Option OperatorKind
  convention : Option Convention
  test : Node → Bool
  policy : ChildPolicy
  children : List Pattern

namespace Pattern

/-- Matches every expression. -/
def any : Pattern := ⟨none, none, fun _ => true, .any, []⟩

/-- Matches the expressions of a kind. -/
def ofKind (kind : OperatorKind) : Pattern := { any with kind := some kind }

/-- The children match the inputs one by one. -/
def withInputs (p : Pattern) (children : List Pattern) : Pattern :=
  { p with policy := .exact, children }

/-- Tests an expression itself, its inputs aside. -/
def accepts (p : Pattern) (n : Node) : Bool :=
  (match p.kind with
    | some k => n.kind = k
    | none => true) &&
  (match p.convention with
    | some c => n.convention = c
    | none => true) &&
  p.test n

mutual

/-- Number of nodes of the pattern. -/
def count : Pattern → Nat
  | ⟨_, _, _, _, children⟩ => 1 + countAll children

def countAll : List Pattern → Nat
  | [] => 0
  | p :: ps => p.count + countAll ps

end

mutual

/-- The first defect of the pattern from the root down, if it has one. -/
def defect? : Pattern → Option PatternDefect
  | ⟨_, _, _, policy, children⟩ =>
    match policy, children with
    | .any, _ :: _ => some .ignoredChildren
    | .unordered, [] => some .noChildren
    | _, _ => firstDefect? children

def firstDefect? : List Pattern → Option PatternDefect
  | [] => none
  | p :: ps => p.defect?.or (firstDefect? ps)

end

end Pattern

/-! ## Tests -/

namespace Node

/-- A filter that every row passes. -/
def isTrivialFilter (n : Node) : Bool :=
  match n.operator with
  | .filter e => e.isAlwaysTrue
  | _ => false

/-- A filter that no row passes. -/
def isImpossibleFilter (n : Node) : Bool :=
  match n.operator with
  | .filter e => e.isAlwaysFalse
  | _ => false

def hasNoInputs (n : Node) : Bool := n.inputs.isEmpty

def isSorted (n : Node) : Bool := !n.traits.collation.isEmpty

/-- A limit below ten rows. -/
def isSmallLimit (n : Node) : Bool :=
  match n.operator with
  | .limit count => count < 10
  | _ => false

end Node

end QueryPlanner
