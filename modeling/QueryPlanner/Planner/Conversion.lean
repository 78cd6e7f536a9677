import QueryPlanner.Planner.Basic

/-!
# Converting traits

An expression is taken to requested traits one dimension after the other: to another convention by a
shortest chain of guaranteed converter rules, to another collation by a sort.
-/

namespace QueryPlanner.Planner

/-- The planner's answer to a question. -/
def answer : (q : Question) → Planning q.Answer
  | .resolve node => return (← get).graph.resolve node
  | .rowCount node => onGraph (Graph.rowCount node)
  | .cumulativeCost node => do onGraph (Graph.cumulativeCost (← get).settings.model node)
  | .cheaper a b => return (← get).settings.model.cheaper a b
  | .cancelled => return (← get).settings.cancelled

/-- Answers the questions of converters, which neither ask for chains nor propose anything. -/
def converterAnswerer : Inquiry.Answerer Planning where
  answer := answer
  convert _ _ := return .ok none
  propose _ := return
  fail := throw

/-- The result of the first of the rules that converts the expression. -/
def convertByFirst (node : Node) : List Rule → Planning (Option Node)
  | [] => return none
  | rule :: rest => do
    match rule.conversion with
    | none => convertByFirst node rest
    | some c =>
      match ← (c.convert node c.target).run converterAnswerer with
      | some converted => return some converted
      | none => convertByFirst node rest

/-- Converts along a path of conventions. The rule of an arc must not refuse. -/
def convertAlong (node : Node) : List Convention → Planning Node
  | source :: target :: rest => do
    match ← convertByFirst node ((← get).registry.convertersOf source target) with
    | some converted => convertAlong converted (target :: rest)
    | none => structuralFault (.brokenGuarantee source target) none
  | _ => return node

/-- The expression in another convention, none if no chain of converters leads there. -/
def convertConvention (node : Node) (target : Convention) : Planning (Option Node) := do
  match (← get).registry.conversions.paths node.convention target with
  | path :: _ => return some (← convertAlong node path)
  | [] => return none

/-- The expression in another order. -/
def sortBy (node : Node) (collation : Collation) : Planning Node := do
  match Node.make (.sort collation none) [node] (node.traits.replace (.collation collation)) with
  | .ok sorted => return sorted
  | .error f => throw f

/-- The expression with one trait replaced, if it can be converted. -/
def convertTrait (node : Node) : Trait → Planning (Option Node)
  | .convention target => convertConvention node target
  | .collation collation => return some (← sortBy node collation)

/-- The expression in the requested traits of some dimensions; what it satisfies already is left as
it is. -/
def convertDimensions (traits : TraitSet) : List Dimension → Node → Planning (Option Node)
  | [], node => return some node
  | d :: rest, node => do
    if (node.traits.get d).satisfies (traits.get d) then convertDimensions traits rest node
    else
      match ← convertTrait node (traits.get d) with
      | some converted => convertDimensions traits rest converted
      | none => return none

/-- The expression in the requested traits, as far as the settings look at them. -/
def convertTraits (node : Node) (traits : TraitSet) : Planning (Option Node) := do
  let enabled := (← get).settings.dimensions
  convertDimensions traits (Dimension.all.filter (enabled.contains ·)) node

end QueryPlanner.Planner
