import QueryPlanner.Operator.RowType
import QueryPlanner.Operator.Terms

/-!
# Plan nodes

A node is an operator over inputs, with the traits of its result and the row type of its rows. A
vertex node is a placeholder: it stands for the expression that a vertex of the plan graph holds,
and has the traits and the row type which that expression had when the vertex was made.

The digest of a node is a text that determines it up to what its digest mode leaves out. A
placeholder shows as the number of its vertex, so within a graph a digest covers one operator.
-/

namespace QueryPlanner

structure Node where
  operator : Operator
  inputs : List Node
  traits : TraitSet
  rowType : Schema

namespace Node

/-- A node whose row type is derived from its inputs. -/
def make (operator : Operator) (inputs : List Node) (traits : TraitSet) : Except Fault Node := do
  return ⟨operator, inputs, traits, ← operator.rowType (inputs.map rowType)⟩

/-- Placeholder of a vertex. -/
def placeholder (id : VertexId) (traits : TraitSet) (rowType : Schema) : Node :=
  ⟨.vertex id, [], traits, rowType⟩

/-- A request for other traits of the same rows. -/
def request (input : Node) (traits : TraitSet) : Node :=
  ⟨.abstractConverter, [input], traits, input.rowType⟩

def kind (n : Node) : OperatorKind := n.operator.kind

def convention (n : Node) : Convention := n.traits.convention

def isConverter (n : Node) : Bool := n.operator.isConverter

/-- The vertex that the node stands for, if it is a placeholder. -/
def vertexId? (n : Node) : Option VertexId :=
  match n.operator with
  | .vertex id => some id
  | _ => none

/-- The vertices that the inputs stand for. -/
def references (n : Node) : List VertexId := n.inputs.filterMap vertexId?

/-- The node with a placeholder in place of each input that stands for the vertex. -/
def redirect (n : Node) (id : VertexId) (placeholder : Node) : Node :=
  { n with inputs := n.inputs.map fun input =>
      if input.vertexId? = some id then placeholder else input }

mutual

/-- Equality of nodes, their row types aside. -/
def equal : Node → Node → Bool
  | ⟨op, inputs, traits, _⟩, ⟨op', inputs', traits', _⟩ =>
    op.equal op' && traits = traits' && equalList inputs inputs'

def equalList : List Node → List Node → Bool
  | [], [] => true
  | n :: ns, n' :: ns' => n.equal n' && equalList ns ns'
  | _, _ => false

end

/-- An operator with its traits and terms. -/
def render (operator : Operator) (traits : TraitSet) (terms : List String) : String :=
  operator.kind.text ++ "." ++ traits.text ++ "(" ++ ", ".intercalate terms ++ ")"

mutual

def digest (mode : DigestMode) : Node → String
  | ⟨op, inputs, traits, _⟩ =>
    match op with
    | .vertex id => "#" ++ toString id
    | _ => render op traits (inputTerms mode 0 inputs ++ op.termTexts mode)

/-- The inputs as terms of a digest, numbered from `idx`. -/
def inputTerms (mode : DigestMode) : Nat → List Node → List String
  | _, [] => []
  | idx, n :: ns =>
    ("input#" ++ toString idx ++ "=" ++ n.digest mode) :: inputTerms mode (idx + 1) ns

end

/-- One line for an operator with its traits. -/
def line (operator : Operator) (traits : TraitSet) : String :=
  match operator.termTexts .full with
  | [] => operator.kind.text ++ "." ++ traits.text
  | terms => render operator traits terms

/-- One line for the node alone. -/
def text (n : Node) : String := line n.operator n.traits

/-- How the line of an input starts, and the lines below it. -/
def branches (lead : String) (last : Bool) : String × String :=
  if last then (lead ++ "└─ ", lead ++ "   ") else (lead ++ "├─ ", lead ++ "│  ")

mutual

/-- The node and its inputs as a tree, one line each. The first line starts with `head`, the lines
below it with `lead`. -/
def tree (head lead : String) : Node → String
  | ⟨op, inputs, traits, _⟩ => head ++ line op traits ++ "\n" ++ trees lead inputs

def trees (lead : String) : List Node → String
  | [] => ""
  | n :: ns =>
    let (head, below) := branches lead ns.isEmpty
    n.tree head below ++ trees lead ns

end

/-- The whole plan below a node as a tree of lines. -/
def explain (n : Node) : String := n.tree "" ""

end Node

/-- What tells expressions of a graph apart: the digest, and the types of the fields. -/
structure DigestKey where
  digest : String
  types : List DataType
deriving DecidableEq, Repr, Inhabited

def Node.key (mode : DigestMode) (n : Node) : DigestKey := ⟨n.digest mode, n.rowType.types⟩

end QueryPlanner
