import QueryPlanner.Graph.Binding
import QueryPlanner.Planner.Conversion
import QueryPlanner.Planner.Insertion
import QueryPlanner.Planner.Sweep

/-!
# Firing a rule

A rule is tried on the expression of one vertex. If its pattern and its condition hold it fires; of
the expressions that it proposes the cheapest is added to the graph, and the parents of the vertex
are redirected to the result. Converter rules fire only where their result is wanted, and redirect
only the parents that want it.
-/

namespace QueryPlanner.Planner

/-- Runs an operation and hands its fault to the one who asked for it. -/
def caught {α : Type} (x : Planning α) : Planning (Except Fault α) := fun p =>
  match x p with
  | .ok a q => .ok (.ok a) q
  | .error f q => .ok (.error f) q

/-- Answers the inquiries of rules and collects what they propose. -/
def ruleAnswerer : Inquiry.Answerer (StateT (List Node) Planning) where
  answer q := liftM (answer q)
  convert node traits := liftM (caught (convertTraits node traits))
  propose node := modify (· ++ [node])
  fail f := throw f

/-- Whether a parent of the vertex, or the requested traits of the root, want what the conversion
produces. -/
def isWanted (c : Conversion) (id : VertexId) : Planning Bool := do
  let p ← get
  let byParent := ((p.graph.parents id).filterMap p.graph.current?).any c.wantedBy
  let byRoot := p.graph.root = some id &&
    p.settings.rootTraits.any fun traits => traits.convention = c.target
  return byParent || byRoot

/-- The proposed expression of least cost, the earliest of several. One alone is not costed. -/
def cheapest (first : Node) (others : List Node) : Planning Node := do
  if others.isEmpty then return first
  let cost ← consider first
  go first cost others
where
  /-- Cost of a proposed expression. -/
  consider (node : Node) : Planning Cost := do
    let cost ← onGraph (Graph.cumulativeCost (← get).settings.model node)
    log (.considering (node.digest .full) cost)
    return cost
  /-- The best of an expression and later ones. -/
  go (best : Node) (bestCost : Cost) : List Node → Planning Node
    | [] => return best
    | node :: rest => do
      let cost ← consider node
      if (← get).settings.model.cheaper cost bestCost then go node cost rest
      else go best bestCost rest

/-- Puts the best of the proposed expressions in place of the expression of a vertex. Only the parents
that accept it are redirected, and only those from before it was added. The result is its vertex,
none if that is one of these parents: redirecting it would make a circle. The search for circles at
the end is that of a build with debug assertions; without them it is left out. -/
def substitute (rule : Rule) (id : VertexId) (accepts : Node → Bool) (first : Node)
    (others : List Node) : Planning (Option VertexId) := do
  let best ← cheapest first others
  let g := (← get).graph
  let parents := (g.parents id).filter fun parent => (g.current? parent).any accepts
  let result ← add best
  if result ∈ parents then return none
  contract result id parents
  if result ≠ id then countTransformation
  log (.substituted rule.description id result)
  checkAcyclic (some rule.description)
  return some result

/-- Asks a rule whether it applies to a match, and fires it if so. Returns what it proposes. -/
def fire (rule : Rule) (node : Node) (call : Call) : Planning (List Node) := do
  let (applies, _) ← (rule.applies call).run ruleAnswerer |>.run []
  if !applies then return []
  log (.firing rule.description (node.digest .full))
  let proposed ←
    try
      let ((), proposed) ← (rule.fire call).run ruleAnswerer |>.run []
      pure proposed
    catch cause => throw (.firing rule.description cause)
  observe (.attempted rule.description (node.digest .full))
  return proposed

/-- A rule's situation at a vertex before its pattern is looked at: which parents take the result,
and the parents that the rule gets to see. -/
structure Occasion where
  accepts : Node → Bool
  parents : Option (List Node)

/-- The occasion of a rule at a vertex, if it has one. A converter rule that is guaranteed, or that
is not forced, needs somebody who wants its result; a rule on common subexpressions needs two
parents. -/
def occasion? (rule : Rule) (id : VertexId) (force : Bool) : Planning (Option Occasion) := do
  match rule.kind, rule.conversion with
  | .converter, some c =>
    if c.guaranteed || !force then
      if ← isWanted c id then return some ⟨c.wantedBy, none⟩ else return none
    else return some ⟨fun _ => true, none⟩
  | .commonSubexpression, _ =>
    let g := (← get).graph
    let parents := g.parents id
    if parents.length < 2 then return none
    return some ⟨fun _ => true, some (parents.filterMap g.current?)⟩
  | _, _ => return some ⟨fun _ => true, none⟩

/-- What a firing did: the expression that it replaced, the vertex of the new one, and how many
expressions were proposed. -/
structure Replacement where
  before : Node
  result : VertexId
  candidates : Nat

/-- Tries a rule on a vertex, without a report. None if nothing happened. -/
def attempt (rule : Rule) (id : VertexId) (force : Bool) : Planning (Option Replacement) := do
  if !(← get).graph.contains id then return none
  match ← occasion? rule id force with
  | none => return none
  | some occasion =>
    let node ← current id
    match (← get).graph.bind rule.pattern node .empty with
    | .error f => throw f
    | .ok none => return none
    | .ok (some binding) =>
      match ← fire rule node ⟨binding.rels, binding.inputs, occasion.parents⟩ with
      | [] => return none
      | first :: others =>
        match ← substitute rule id occasion.accepts first others with
        | none => return none
        | some result => return some ⟨node, result, others.length + 1⟩

/-- Reports a firing to observers, and sweeps the garbage that they do not want to see. -/
def reportProduction (rule : Rule) (replacement : Replacement) : Planning Unit := do
  if (← get).settings.observed then
    let after ← current replacement.result
    let model := (← get).settings.model
    let beforeCost ← onGraph (Graph.cumulativeCost model replacement.before)
    let afterCost ← onGraph (Graph.cumulativeCost model after)
    report (.produced {
      rule := rule.description
      before := replacement.before.digest .full
      after := after.digest .full
      beforeCost
      afterCost
      candidates := replacement.candidates })
    collectGarbage

/-- Tries a rule on a vertex and reports what it did. The result is the vertex of the new
expression, none if nothing happened. -/
def apply (rule : Rule) (id : VertexId) (force : Bool) : Planning (Option VertexId) := do
  match ← attempt rule id force with
  | none => return none
  | some replacement =>
    reportProduction rule replacement
    return some replacement.result

end QueryPlanner.Planner
