import QueryPlanner.Event
import QueryPlanner.Graph.Estimate
import QueryPlanner.Graph.Order
import QueryPlanner.Planner.Registry
import QueryPlanner.Program

/-!
# Planners

A planner transforms one plan, kept as a graph, by the rules it knows. Its state is what its
settings do not fix: the rules, the graph, how often the graph was changed, how rule instructions
are executed at the moment, and what was reported so far. Operations may end with a fault; the
state is then what they left behind.
-/

namespace QueryPlanner

structure Settings where
  /-- Whether equal expressions share a vertex. -/
  dag : Bool
  digestMode : DigestMode
  model : CostModel
  /-- Whether somebody observes the planner. Observers do not want to see garbage, so it is swept
  after every production. -/
  observed : Bool
  /-- Traits requested of the result. Converter rules may fire on the root to provide them. -/
  rootTraits : Option TraitSet
  /-- The dimensions in which requests for traits are met. -/
  dimensions : List Dimension
  /-- Whether the planner was told to stop. That this does not change in the course of a run is an
  assumption of the model. -/
  cancelled : Bool
  /-- Messages below this level are not written down. -/
  level : Level
  /-- The order in which the `n`-th sweep removes its garbage, which decides on the ids of later
  vertices. -/
  sweepOrder : Nat → List VertexId → List VertexId
  sweepOrder_perm : ∀ n ids, (sweepOrder n ids).Perm ids

namespace Settings

def default : Settings where
  dag := true
  digestMode := .normalized
  model := .touchedRows
  observed := false
  rootTraits := none
  dimensions := Dimension.all
  cancelled := false
  level := .warn
  sweepOrder _ ids := ids
  sweepOrder_perm _ ids := .refl ids

end Settings

/-- How rule instructions are executed. Every run of a program starts afresh. -/
structure Execution where
  order : MatchOrder
  /-- No limit if there is none. -/
  limit : Option Nat
  /-- The rules collected since a group was opened. -/
  group : Option (List Rule)

namespace Execution

def fresh : Execution := ⟨.arbitrary, none, none⟩

/-- Whether so many firings are as many as allowed. -/
def reached (e : Execution) (matched : Nat) : Bool :=
  match e.limit with
  | some n => n ≤ matched
  | none => false

end Execution

structure Planner where
  settings : Settings
  program : Program
  registry : Registry
  graph : Graph
  /-- Number of vertices added and replaced so far. -/
  transformations : Nat
  /-- `transformations` when garbage was last looked for. -/
  transformationsAtSweep : Nat
  /-- Number of vertices that the last sweep kept. -/
  sizeAtSweep : Nat
  /-- The ids that each sweep so far has removed, in the order in which it did. Nothing depends on
  it but the order of the next sweep. -/
  sweeps : List (List VertexId)
  execution : Execution
  events : Array Event

/-- An operation of a planner. -/
abbrev Planning := EStateM Fault Planner

namespace Planner

/-- A planner without rules and without a plan. -/
def initial (settings : Settings) (program : Program) : Planner where
  settings
  program
  registry := .empty
  graph := .empty
  transformations := 0
  transformationsAtSweep := 0
  sizeAtSweep := 0
  sweeps := []
  execution := .fresh
  events := #[]

/-! ## Reports -/

def report (e : Event) : Planning Unit := modify fun p => { p with events := p.events.push e }

/-- Reports to observers, if there are any. -/
def observe (e : Event) : Planning Unit := do
  if (← get).settings.observed then report e

def log (m : Message) : Planning Unit := do
  if (← get).settings.level.rank ≤ m.level.rank then report (.logged m)

/-! ## The graph -/

def modifyGraph (f : Graph → Graph) : Planning Unit := modify fun p => { p with graph := f p.graph }

/-- Runs an operation on the graph. -/
def onGraph {α : Type} (x : StateM Graph α) : Planning α :=
  modifyGet fun p =>
    let (a, graph) := x p.graph
    (a, { p with graph })

/-- Fails, the graph being as it is. -/
def structuralFault {α : Type} (defect : GraphDefect) (rule : Option String) : Planning α := do
  throw (.structural rule defect (← get).graph.dump)

/-- The expression of a vertex. -/
def current (id : VertexId) : Planning Node := do
  match (← get).graph.current? id with
  | some n => return n
  | none => structuralFault (.missing id) none

/-- The placeholder of a vertex. -/
def placeholder (id : VertexId) : Planning Node := do
  match (← get).graph.placeholder? id with
  | some n => return n
  | none => structuralFault (.missing id) none

/-- The root, which must be a vertex of the graph. -/
def requireRoot : Planning VertexId := do
  let g := (← get).graph
  match g.root with
  | some id => if g.contains id then return id else structuralFault .noRoot none
  | none => structuralFault .noRoot none

/-- Counts a transformation. -/
def countTransformation : Planning Unit :=
  modify fun p => { p with transformations := p.transformations + 1 }

/-- Fails if the graph has a cycle. -/
def checkAcyclic (rule : Option String) : Planning Unit := do
  if !(← get).graph.isAcyclic then structuralFault .cycle rule

/-- All vertices, parents before inputs. -/
def topologicalOrder : Planning (List VertexId) := do
  match (← get).graph.topologicalOrder with
  | .ok ids => return ids
  | .error id => structuralFault (.cycleAt id) none

end Planner

end QueryPlanner
