import QueryPlanner.CostModel
import QueryPlanner.Graph.Basic

/-!
# Row counts and costs in a plan graph

Row counts and cumulative costs of expressions whose placeholders stand for vertices of a graph.
What is found out about a vertex is kept, so a shared input is estimated once; whoever replaces an
expression forgets what is known of its vertex and everything above it, and whoever removes a vertex
forgets what is known of it. A placeholder whose vertex is gone counts as one row that costs nothing.
-/

namespace QueryPlanner.Graph

/-- The vertex that an operator stands for, if the graph has it. -/
def liveVertex? (g : Graph) : Operator → Option VertexId
  | .vertex id => if g.contains id then some id else none
  | _ => none

/-- Keeps the row count of a vertex, in place of an earlier one. -/
def noteRowCount (g : Graph) (id : VertexId) (rows : Float) : Graph :=
  { g with knownRowCounts := (id, rows) :: g.knownRowCounts.filter (·.1 ≠ id) }

/-- Keeps the cost of a vertex, in place of an earlier one. -/
def noteCost (g : Graph) (id : VertexId) (cost : Cost) : Graph :=
  { g with knownCosts := (id, cost) :: g.knownCosts.filter (·.1 ≠ id) }

/-- Forgets the row count and the cost of a vertex. -/
def forgetVertex (g : Graph) (id : VertexId) : Graph :=
  { g with
    knownRowCounts := g.knownRowCounts.filter (·.1 ≠ id)
    knownCosts := g.knownCosts.filter (·.1 ≠ id) }

/-- Forgets the row counts and costs of these vertices. -/
def forget (g : Graph) (ids : List VertexId) : Graph := ids.foldl forgetVertex g

/-- Removes a vertex with all its edges, its row count and its cost. -/
def evict (g : Graph) (id : VertexId) : Graph := (g.removeVertex id).forgetVertex id

mutual

/-- Row count of an expression, given those of vertices. -/
def rowCountOver (ofVertex : VertexId → StateM Graph Float) : Node → StateM Graph Float
  | ⟨op, inputs, _, _⟩ => do
    match (← get).liveVertex? op with
    | some id => ofVertex id
    | none => return op.estimate (← rowCountsOver ofVertex inputs)

def rowCountsOver (ofVertex : VertexId → StateM Graph Float) : List Node → StateM Graph (List Float)
  | [] => return []
  | n :: ns => do
    let rows ← rowCountOver ofVertex n
    return rows :: (← rowCountsOver ofVertex ns)

end

/-- Row count of a vertex, found at most `n` vertices deep. -/
def vertexRowCount : Nat → VertexId → StateM Graph Float
  | 0, _ => return 1
  | n + 1, id => do
    let g ← get
    match g.vertex? id with
    | none => return 1
    | some v =>
      match g.knownRowCounts.lookup id with
      | some rows => return rows
      | none =>
        let rows ← rowCountOver (vertexRowCount n) v.current
        modify (·.noteRowCount id rows)
        return rows

/-- More than any chain of vertices has, unless it goes in a circle. -/
def depthBound (g : Graph) : Nat := g.slots.size + 1

/-- Row count of an expression. -/
def rowCount (node : Node) : StateM Graph Float := do
  rowCountOver (vertexRowCount (← get).depthBound) node

def rowCounts : List Node → StateM Graph (List Float)
  | [] => return []
  | n :: ns => do
    let rows ← rowCount n
    return rows :: (← rowCounts ns)

mutual

/-- Cost of an expression and everything below it, given those of vertices. -/
def costOver (model : CostModel) (ofVertex : VertexId → StateM Graph Cost) :
    Node → StateM Graph Cost
  | ⟨op, inputs, traits, type⟩ => do
    match (← get).liveVertex? op with
    | some id => ofVertex id
    | none =>
      let rows ← rowCounts inputs
      let selfCost := model.selfCost ⟨op, inputs, traits, type⟩ (op.estimate rows) rows
      addCostsOver model ofVertex selfCost inputs

/-- A cost with those of the inputs added, from left to right. -/
def addCostsOver (model : CostModel) (ofVertex : VertexId → StateM Graph Cost) (cost : Cost) :
    List Node → StateM Graph Cost
  | [] => return cost
  | n :: ns => do
    let input ← costOver model ofVertex n
    addCostsOver model ofVertex (cost.plus input) ns

end

/-- Cost of a vertex, found at most `n` vertices deep. -/
def vertexCost (model : CostModel) : Nat → VertexId → StateM Graph Cost
  | 0, _ => return .zero
  | n + 1, id => do
    let g ← get
    match g.vertex? id with
    | none => return .zero
    | some v =>
      match g.knownCosts.lookup id with
      | some cost => return cost
      | none =>
        let cost ← costOver model (vertexCost model n) v.current
        modify (·.noteCost id cost)
        return cost

/-- Cost of an expression and everything below it. -/
def cumulativeCost (model : CostModel) (node : Node) : StateM Graph Cost := do
  costOver model (vertexCost model (← get).depthBound) node

end QueryPlanner.Graph
