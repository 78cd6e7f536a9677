import QueryPlanner.Graph.Basic

/-!
# Orders on a plan graph

Depth first order from a vertex, reachability, and a topological order. Traversals keep a stack of
vertices still to be looked at, and may meet a vertex several times before they visit it. Each
has a bound on its steps, so it ends on every graph, cyclic or not; the bounds are large enough
to visit everything.
-/

namespace QueryPlanner.Graph

/-- Visits the vertices of the stack and what is reachable from them, depth first, in at most `n`
steps. The neighbours of a vertex go onto the stack from first to last, so the last one is visited
first. The result lists the visited vertices, the latest first. -/
def walk (neighbours : VertexId → List VertexId) :
    Nat → List VertexId → List VertexId → List VertexId
  | 0, _, visited => visited
  | _, [], visited => visited
  | n + 1, v :: stack, visited =>
    if v ∈ visited then walk neighbours n stack visited
    else
      let visited := v :: visited
      walk neighbours n (((neighbours v).filter (· ∉ visited)).reverse ++ stack) visited

/-- Steps that visit everything: each step takes a vertex off the stack, and an edge puts at most
one on it. -/
def walkSteps (g : Graph) : Nat := g.edges.length + 2

/-- The vertices reachable from `start` along edges, depth first. -/
def depthFirstFrom (g : Graph) (start : VertexId) : List VertexId :=
  if g.contains start then (walk g.successors g.walkSteps [start] []).reverse else []

/-- The vertices reachable from `start`, `start` included. -/
def reachableFrom (g : Graph) (start : VertexId) : List VertexId := g.depthFirstFrom start

/-- The vertex and everything above it. -/
def ancestors (g : Graph) (id : VertexId) : List VertexId :=
  walk g.predecessors g.walkSteps [id] []

/-- A vertex leaves the stack for good when everything reachable from it has left. The result lists
the vertices in reverse order of leaving, or is the fault of a vertex that is its own input. -/
def finish (neighbours : VertexId → List VertexId) :
    Nat → List VertexId → List VertexId → List VertexId → Except VertexId (List VertexId)
  | 0, _, _, finished => .ok finished
  | _, [], _, finished => .ok finished
  | n + 1, v :: stack, visited, finished =>
    if v ∉ visited then
      if v ∈ neighbours v then .error v
      else
        let visited := v :: visited
        finish neighbours n (((neighbours v).filter (· ∉ visited)).reverse ++ v :: stack) visited
          finished
    else if v ∈ finished then finish neighbours n stack visited finished
    else finish neighbours n stack visited (v :: finished)

/-- The first parent, if there is one, that stands behind its input in the list. `before` are the
vertices already gone through; of several late parents it is the one with the oldest edge. -/
def lateParent? (parents : VertexId → List VertexId) :
    List VertexId → List VertexId → Option VertexId
  | [], _ => none
  | v :: rest, before =>
    match ((parents v).filter (· ∉ v :: before)).getLast? with
    | some late => some late
    | none => lateParent? parents rest (v :: before)

/-- All vertices, parents before inputs, or a vertex on a cycle. -/
def topologicalOrder (g : Graph) : Except VertexId (List VertexId) := do
  let steps := 2 * (g.slots.size + g.edges.length) + 1
  let order ← finish g.successors steps g.vertexIds [] []
  match lateParent? g.predecessors order [] with
  | some late => throw late
  | none => return order

/-- No vertex is reachable from its own inputs. -/
def isAcyclic (g : Graph) : Bool := g.topologicalOrder.isOk

end QueryPlanner.Graph
