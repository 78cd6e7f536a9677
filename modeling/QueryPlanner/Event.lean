import QueryPlanner.Cost
import QueryPlanner.Fault

/-!
# Events

What a planner reports while it works. Observers see attempts, productions, and the expressions that
leave the plan or stay in it; log messages tell the steps in between. Reports are for diagnostics
alone and are written down in the order in which they happen.
-/

namespace QueryPlanner

inductive Level where
  | trace
  | debug
  | info
  | warn
deriving DecidableEq, Repr

namespace Level

def text : Level → String
  | trace => "trace"
  | debug => "debug"
  | info => "info"
  | warn => "warn"

def rank : Level → Nat
  | trace => 0
  | debug => 1
  | info => 2
  | warn => 3

end Level

inductive Message where
  | unknownDescription (description : String)
  | started (instructions : Nat)
  | finished (transformations : Nat)
  | registered (rule : String)
  | sweepWithoutRoot
  | sweeping (garbage : Nat)
  | substituted (rule : String) (old new : VertexId)
  /-- The graph, drawn as a table, after its root was set. -/
  | rootSet (graph : String)
  | executing (instruction : String)
  | enteringSubprogram
  | leavingSubprogram
  | applying (rules : List String)
  | firing (rule digest : String)
  | considering (digest : String) (cost : Cost)

namespace Message

def level : Message → Level
  | unknownDescription _ => .warn
  | started _ | finished _ => .info
  | registered _ | sweepWithoutRoot | sweeping _ | substituted .. => .debug
  | _ => .trace

def text : Message → String
  | unknownDescription d => "No rule registered with description " ++ d
  | started n => "Starting heuristic optimization with " ++ toString n ++ " instructions"
  | finished n =>
    "Heuristic optimization finished after " ++ toString n ++ " transformations"
  | registered r => "Registered rule " ++ r
  | sweepWithoutRoot => "Skipped garbage collection without root vertex"
  | sweeping n => "Collecting " ++ toString n ++ " unreachable vertices"
  | substituted r old new =>
    "Rule " ++ r ++ " rewrote vertex " ++ toString old ++ " into vertex " ++ toString new
  | rootSet g => "Plan graph after setting root:\n" ++ g
  | executing i => "Executing instruction " ++ i
  | enteringSubprogram => "Entering subprogram"
  | leavingSubprogram => "Leaving subprogram"
  | applying rs => "Applying rule set " ++ Text.bracketed rs
  | firing r d => "Firing rule " ++ r ++ " on " ++ d
  | considering d c => "Considering " ++ d ++ " with cumulative cost " ++ c.text

end Message

/-- A successful firing. Expressions are given by their full digests. -/
structure Production where
  rule : String
  before : String
  after : String
  beforeCost : Cost
  afterCost : Cost
  /-- Number of expressions that the rule proposed. -/
  candidates : Nat

inductive Event where
  /-- A rule matched an expression and fired. -/
  | attempted (rule digest : String)
  | produced (production : Production)
  /-- The expression is no longer part of the plan. -/
  | discarded (digest : String)
  /-- The expression is part of the final plan. -/
  | chosen (digest : String)
  | logged (message : Message)

end QueryPlanner
