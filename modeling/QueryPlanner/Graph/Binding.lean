import QueryPlanner.Graph.Basic
import QueryPlanner.Pattern

/-!
# Binding patterns

A pattern is bound to an expression of a plan graph by looking through the placeholders of its
inputs. A binding lists the matched expressions in the order of the pattern's nodes, and for every
unordered pattern node all inputs of the expression it matched. A pattern that does not match
leaves the binding as it was.
-/

namespace QueryPlanner

structure Binding where
  rels : List Node
  inputs : List (Nat × List Node)

namespace Binding

def empty : Binding := ⟨[], []⟩

/-- The binding with one more matched expression. -/
def push (b : Binding) (n : Node) : Binding := { b with rels := b.rels ++ [n] }

end Binding

namespace Graph

/-- The expressions that the inputs of a node stand for. -/
def inputExpressions (g : Graph) (node : Node) : Except Fault (List Node) :=
  node.inputs.mapM fun input =>
    match input.vertexId?.bind g.current? with
    | some n => .ok n
    | none =>
      .error (.structural none (.removedInput (input.digest .full) (node.digest .full)) g.dump)

/-- Tries expressions in turn until one matches. -/
def bindSome (bind : Node → Binding → Except Fault (Option Binding)) :
    List Node → Binding → Except Fault (Option Binding)
  | [], _ => return none
  | n :: ns, b => do
    match ← bind n b with
    | some b => return some b
    | none => bindSome bind ns b

mutual

/-- Extends a binding by a match of the pattern, if it matches. Only expressions all of whose inputs
are placeholders do. -/
def bind (g : Graph) : Pattern → Node → Binding → Except Fault (Option Binding)
  | ⟨kind, convention, test, policy, children⟩, node, b => do
    if !Pattern.accepts ⟨kind, convention, test, policy, []⟩ node then return none
    if node.inputs.any (·.vertexId?.isNone) then return none
    let matched := b.push node
    match policy with
    | .any => return some matched
    | .unordered =>
      let inputs ← g.inputExpressions node
      match ← bindEach g children inputs matched with
      | some b' => return some { b' with inputs := (b.rels.length, inputs) :: b'.inputs }
      | none => return none
    | .exact =>
      if node.inputs.length ≠ children.length then return none
      bindPairwise g children (← g.inputExpressions node) matched

/-- Every pattern matches the expression in its place. -/
def bindPairwise (g : Graph) :
    List Pattern → List Node → Binding → Except Fault (Option Binding)
  | p :: ps, n :: ns, b => do
    match ← bind g p n b with
    | some b => bindPairwise g ps ns b
    | none => return none
  | _, _, b => return some b

/-- Every pattern matches some of the expressions, the first that it can. -/
def bindEach (g : Graph) :
    List Pattern → List Node → Binding → Except Fault (Option Binding)
  | [], _, b => return some b
  | p :: ps, inputs, b => do
    match ← bindSome (fun n b => bind g p n b) inputs b with
    | some b => bindEach g ps inputs b
    | none => return none

end

end Graph

end QueryPlanner
