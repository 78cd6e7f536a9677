import QueryPlanner.Planner.Basic

/-!
# Sweeping garbage

A vertex that is not reachable from the root is garbage. Garbage is looked for only if the graph has
changed since it was last looked for, and without a root nothing is removed. With a vertex go its
edges, what is known of its row count and its cost, and the digest entries that lead to it.
-/

namespace QueryPlanner.Planner

/-- Reports vertices as discarded and removes them with all that mentions them. -/
def remove (garbage : List VertexId) : Planning Unit := do
  garbage.forM fun id => do
    if let some node := (← get).graph.current? id then observe (.discarded (node.digest .full))
  modify fun p =>
    let order := p.settings.sweepOrder p.sweeps.length garbage
    { p with
      graph := (order.foldl Graph.evict p.graph).purge garbage
      sweeps := p.sweeps ++ [order] }

def collectGarbage : Planning Unit := do
  let p ← get
  if p.transformations = p.transformationsAtSweep then return
  set { p with transformationsAtSweep := p.transformations }
  match p.graph.root with
  | none => log .sweepWithoutRoot
  | some root =>
    if !p.graph.contains root then log .sweepWithoutRoot
    else
      let reachable := p.graph.reachableFrom root
      modify fun p => { p with sizeAtSweep := reachable.length }
      let garbage := p.graph.vertexIds.filter (· ∉ reachable)
      if garbage.isEmpty then return
      log (.sweeping garbage.length)
      remove garbage

end QueryPlanner.Planner
