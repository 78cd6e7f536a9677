import QueryPlanner.Node

/-!
# Building a plan from below

A builder holds the plan built so far. Every operator goes on top of it, in the builder's
convention.
-/

namespace QueryPlanner

structure PlanBuilder where
  root : Option Node
  traits : TraitSet

namespace PlanBuilder

/-- Nothing built yet, in the convention of expressions without implementation. -/
def empty : PlanBuilder := ⟨none, .default⟩

/-- From now on nodes are in this convention. -/
def withConvention (b : PlanBuilder) (c : Convention) : PlanBuilder :=
  { b with traits := b.traits.replace (.convention c) }

/-- Starts over with an operator without inputs. -/
def leaf (b : PlanBuilder) (op : Operator) : Except Fault PlanBuilder := do
  return { b with root := some (← Node.make op [] b.traits) }

/-- What was built so far. -/
def finish (b : PlanBuilder) : Except Fault Node :=
  match b.root with
  | some node => .ok node
  | none => .error .nothingBuilt

/-- Puts an operator on top, its first input being what was built so far. -/
def extend (b : PlanBuilder) (op : Operator) (others : List Node) : Except Fault PlanBuilder := do
  let first ← b.finish
  return { b with root := some (← Node.make op (first :: others) b.traits) }

end PlanBuilder

end QueryPlanner
