import QueryPlanner.Planner.Basic

/-!
# Adding and replacing expressions

Adding an expression adds its inputs first and puts placeholders in their place. Where equal
expressions share a vertex, an expression whose key is registered is not added again. Redirecting
parents makes them refer to another vertex; what they referred to before stays in the graph
until it is swept.
-/

namespace QueryPlanner.Planner

/-- The vertex of an expression over placeholders: the registered one where vertices are shared, or
a new one. -/
def place (node : Node) : Planning VertexId := do
  let p ← get
  let key := node.key p.settings.digestMode
  let shared := if p.settings.dag then p.graph.lookup key else none
  match shared with
  | some id => return id
  | none =>
    let (id, graph) := p.graph.insert node key
    set { p with graph }
    countTransformation
    return id

mutual

/-- Adds an expression with everything below it. A placeholder is its own vertex. -/
def add : Node → Planning VertexId
  | ⟨op, inputs, traits, rowType⟩ => do
    match op with
    | .vertex id =>
      if !(← get).graph.contains id then structuralFault (.removedReference id) none
      return id
    | _ => place ⟨op, ← addInputs inputs, traits, rowType⟩

/-- Adds expressions in turn; the result are their placeholders. -/
def addInputs : List Node → Planning (List Node)
  | [] => return []
  | n :: ns => do
    let id ← add n
    let node ← placeholder id
    return node :: (← addInputs ns)

end

/-- Adds a plan and makes it the root. -/
def setRoot (plan : Node) : Planning Unit := do
  let root ← add plan
  modifyGraph fun g => { g with root := some root }
  log (.rootSet (← get).graph.dump)

/-- Makes an expression the current one of a vertex, and registers it in place of the old one. The
old one is reported as discarded if another expression takes its place. -/
def replace (id : VertexId) (node : Node) (isNew : Bool) : Planning Unit := do
  let p ← get
  match p.graph.vertex? id with
  | none => structuralFault (.updateOfMissing id) none
  | some old =>
    modifyGraph (·.replace id node (node.key p.settings.digestMode))
    if isNew then observe (.discarded (old.current.digest .full))

/-- Makes a parent refer to `preserved`, whose placeholder is given, instead of `discarded`. What is
known of the costs of the parent and of everything above it is forgotten. -/
def redirect (preserved discarded : VertexId) (placeholder : Node) (parent : VertexId) :
    Planning Unit := do
  let node ← current parent
  modifyGraph fun g =>
    ((g.forget (g.ancestors parent)).removeEdge parent discarded).addEdge parent preserved
  replace parent (node.redirect discarded placeholder) true

/-- Makes parents of `discarded` refer to `preserved`, and the root if it is `discarded`. -/
def contract (preserved discarded : VertexId) (parents : List VertexId) : Planning Unit := do
  if preserved = discarded then return
  let node ← current preserved
  replace preserved node false
  let node ← placeholder preserved
  parents.forM (redirect preserved discarded node)
  if (← get).graph.root = some discarded then
    modifyGraph fun g => { g with root := some preserved }

end QueryPlanner.Planner
