import QueryPlanner.Planner.Firing

/-!
# Executing programs

Rule instructions visit the vertices of the graph in the match order in force and try their rules on
each. After a firing the vertices still to be visited are looked up again. The instruction ends
when a pass from the root has met no firing, or at the match limit.

Rules may go on firing for ever, so passes and repetitions are counted down from a bound; running
out of it is a fault of its own.
-/

namespace QueryPlanner.Planner

/-- The vertices to visit in the match order in force. Depth first orders start at `start`, the
others cover the whole graph, so garbage is swept first. -/
def schedule (start : VertexId) : Planning (List VertexId) := do
  collectGarbage
  match (← get).execution.order with
  | .arbitrary | .depthFirst => return (← get).graph.depthFirstFrom start
  | .topDown => topologicalOrder
  | .bottomUp => return (← topologicalOrder).reverse

/-- The vertices to visit in a pass over the whole plan. -/
def scheduleFromRoot : Planning (List VertexId) := do schedule (← requireRoot)

/-- Tries rules on a vertex in turn, until one puts another vertex in its place. -/
def visit (rules : List Rule) (force : Bool) (id : VertexId) : Planning (Option VertexId) := do
  match rules with
  | [] => return none
  | rule :: rest =>
    match ← apply rule id force with
    | some result => if result ≠ id then return some result else visit rest force id
    | none => visit rest force id

/-- What is left to visit when a firing in the midst of a pass has put `result` in place of a vertex
and `rest` was not visited yet. Orders that restart begin a new pass, the others go on from
`result`; depth first, what was left below an earlier result comes after it. -/
def resume (result : VertexId) (settled : Bool) (rest : List VertexId) :
    Planning (List VertexId) := do
  let order := (← get).execution.order
  if order.restarts then scheduleFromRoot
  else
    let below ← schedule result
    return if order = .depthFirst && !settled then below ++ rest else below

/-- Visits vertices until a pass has met no firing or the match limit is reached, in at most `n`
visits. `settled` says that no vertex was passed over since the pass began, `matched` counts the
firings. The result is how many there were. -/
def traverse (rules : List Rule) (force : Bool) :
    Nat → List VertexId → Bool → Nat → Planning Nat
  | 0, _, _, _ => throw .outOfFuel
  | n + 1, [], settled, matched => do
    if settled then return matched
    traverse rules force n (← scheduleFromRoot) true matched
  | n + 1, id :: rest, settled, matched => do
    match ← visit rules force id with
    | none => traverse rules force n rest settled matched
    | some result =>
      let matched := matched + 1
      if (← get).execution.reached matched then return matched
      let pending ← resume result settled rest
      traverse rules force n pending (settled && (← get).execution.order.restarts) matched

/-- Rules with those of another list that have new descriptions, in order. -/
def mergeRules (rules : List Rule) : List Rule → List Rule
  | [] => rules
  | rule :: rest =>
    if rules.any (·.description = rule.description) then mergeRules rules rest
    else mergeRules (rules ++ [rule]) rest

/-- Fires rules until nothing changes. The result is the number of firings. -/
def fireRules (fuel : Nat) (rules : List Rule) (force : Bool) : Planning Nat := do
  log (.applying (rules.map Rule.description))
  traverse rules force fuel (← scheduleFromRoot) true 0

/-- Fires rules until nothing changes, or collects them while a group is open. -/
def applyRules (fuel : Nat) (rules : List Rule) (force : Bool) : Planning Unit := do
  let execution := (← get).execution
  match execution.group with
  | some group =>
    let merged := { execution with group := some (mergeRules group rules) }
    modify fun p => { p with execution := merged }
  | none => discard (fireRules fuel rules force)

/-- Fails while a group is open. -/
def requireNoGroup (i : Instruction) : Planning Unit := do
  if (← get).execution.group.isSome then throw (.invalidProgram (.insideGroup i.text))

/-- Runs an operation in a fresh execution state. However it ends, the state is restored. -/
def isolated (body : Planning Unit) : Planning Unit := fun p =>
  match body { p with execution := .fresh } with
  | .ok () q => .ok () { q with execution := p.execution }
  | .error f q => .error f { q with execution := p.execution }

/-- Repeats an operation until it transforms nothing, at most `n` times. -/
def untilStable (body : Planning Unit) : Nat → Planning Unit
  | 0 => throw .outOfFuel
  | n + 1 => do
    let before := (← get).transformations
    body
    if (← get).transformations ≠ before then untilStable body n

/-- Sweeps garbage if there were more transformations than vertices since the last time, which keeps
the graph in proportion to the plan. -/
def sweepIfLarge : Planning Unit := do
  let p ← get
  if p.sizeAtSweep < p.transformations - p.transformationsAtSweep then collectGarbage

mutual

def executeInstruction (fuel : Nat) : Instruction → Planning Unit
  | .rule r => applyRules fuel [r] true
  | .described d => do
    match (← get).registry.find? d with
    | some r => applyRules fuel [r] true
    | none => log (.unknownDescription d)
  | .ruleClass belongs => do applyRules fuel ((← get).registry.ruleClass belongs) true
  | .rules rs => applyRules fuel rs true
  | .converters guaranteed => do
    requireNoGroup (.converters guaranteed)
    applyRules fuel ((← get).registry.converterRules guaranteed) guaranteed
  | .commonSubexpressions => do
    requireNoGroup .commonSubexpressions
    applyRules fuel ((← get).registry.ruleClass (Rule.isOfKind .commonSubexpression)) true
  | .order o => modify fun p => { p with execution := { p.execution with order := o } }
  | .limit n => modify fun p => { p with execution := { p.execution with limit := some n } }
  | .subprogram is => do
    log .enteringSubprogram
    untilStable (isolated (executeAll fuel is)) fuel
    log .leavingSubprogram
  | .beginGroup => do
    requireNoGroup .beginGroup
    modify fun p => { p with execution := { p.execution with group := some [] } }
  | .endGroup => do
    match (← get).execution.group with
    | none => throw (.invalidProgram .endWithoutBegin)
    | some rules =>
      modify fun p => { p with execution := { p.execution with group := none } }
      applyRules fuel rules true

def executeAll (fuel : Nat) : List Instruction → Planning Unit
  | [] => return
  | i :: is => do
    log (.executing i.text)
    executeInstruction fuel i
    sweepIfLarge
    executeAll fuel is

end

/-- Executes a program in an execution state of its own. -/
def execute (fuel : Nat) (program : Program) : Planning Unit :=
  isolated (executeAll fuel program.instructions)

end QueryPlanner.Planner
