import QueryPlanner.Plan.Basic
import QueryPlanner.Planner.Basic

/-!
# Extracting the final plan

The final plan is the graph unfolded from its root, one entry for each vertex, so that what was
shared in the graph is shared in the plan. A request for traits that was never met has no
implementation and fails the extraction.
-/

namespace QueryPlanner.Planner

/-- A plan under construction, and the positions of the vertices that are in it. -/
structure Assembly where
  entries : Array Plan.Entry
  built : List (VertexId × Nat)

namespace Assembly

def empty : Assembly := ⟨#[], []⟩

/-- Adds a node over entries, and returns its position. -/
def push (a : Assembly) (node : Node) (inputs : List Nat) : Nat × Assembly :=
  (a.entries.size,
    { a with entries := a.entries.push ⟨node.operator, inputs, node.traits, node.rowType⟩ })

mutual

/-- Adds a node and everything below it as it is. -/
def graft : Node → Assembly → Nat × Assembly
  | ⟨op, inputs, traits, rowType⟩, a =>
    let (positions, a) := graftAll inputs a
    a.push ⟨op, [], traits, rowType⟩ positions

def graftAll : List Node → Assembly → List Nat × Assembly
  | [], a => ([], a)
  | n :: ns, a =>
    let (position, a) := graft n a
    let (positions, a) := graftAll ns a
    (position :: positions, a)

end

end Assembly

/-- Adds the inputs of an expression, the placeholders by way of their vertices. -/
def extractInputs (ofVertex : VertexId → Assembly → Planning (Nat × Assembly)) :
    List Node → Assembly → Planning (List Nat × Assembly)
  | [], a => return ([], a)
  | n :: ns, a => do
    let (position, a) ← match n.vertexId? with
      | some id => ofVertex id a
      | none => pure (a.graft n)
    let (positions, a) ← extractInputs ofVertex ns a
    return (position :: positions, a)

/-- Adds the expression of a vertex and everything below it, at most `n` vertices deep, and returns
its position. A vertex that was added before is not added again. -/
def extract : Nat → VertexId → Assembly → Planning (Nat × Assembly)
  | 0, _, _ => throw .outOfFuel
  | n + 1, id, a => do
    match a.built.lookup id with
    | some position => return (position, a)
    | none =>
      let node ← current id
      if node.kind = .abstractConverter then throw (.unimplemented (node.digest .full))
      observe (.chosen (node.digest .full))
      let (inputs, a) ← extractInputs (extract n) node.inputs a
      let (position, a) := a.push node inputs
      return (position, { a with built := (id, position) :: a.built })

/-- The plan below a vertex. -/
def finalPlan (root : VertexId) : Planning Plan := do
  let (position, a) ← extract (← get).graph.depthBound root .empty
  if h : position < a.entries.size then return ⟨a.entries, position, h⟩
  else structuralFault .noRoot none

end QueryPlanner.Planner
