import QueryPlanner.Traits

/-!
# Conversion graph

The conventions as a directed graph, with an arc for each way of converting that never fails. A
chain of conversions is a path without repeated conventions; of several chains the shortest
comes first, and among equally long ones the one found first when arcs are followed in the
order in which they were added.
-/

namespace QueryPlanner

/-- The arcs in the order of their first addition, none of them twice. -/
structure ConversionGraph where
  arcs : List (Convention × Convention)
deriving DecidableEq, Repr, Inhabited

namespace ConversionGraph

def empty : ConversionGraph := ⟨[]⟩

/-- Adding an arc again changes nothing. -/
def addArc (g : ConversionGraph) (source target : Convention) : ConversionGraph :=
  if (source, target) ∈ g.arcs then g else ⟨g.arcs ++ [(source, target)]⟩

/-- The conventions that one arc leads to. -/
def successors (g : ConversionGraph) (c : Convention) : List Convention :=
  (g.arcs.filter (·.1 = c)).map (·.2)

/-- The paths from `here` to `target` that avoid `visited`, repeat no convention, and have at most
`n` arcs, depth first. -/
def pathsAvoiding (g : ConversionGraph) (target : Convention) :
    Nat → List Convention → Convention → List (List Convention)
  | 0, _, _ => []
  | n + 1, visited, here =>
    (g.successors here).flatMap fun next =>
      if next = target then [[here, target]]
      else if next ∈ here :: visited then []
      else (g.pathsAvoiding target n (here :: visited) next).map (here :: ·)

/-- All paths from `source` to `target` without repetition, shortest first. A path has both ends,
and fewer arcs than the graph has conventions. -/
def paths (g : ConversionGraph) (source target : Convention) : List (List Convention) :=
  if source = target then [[source]]
  else
    (g.pathsAvoiding target (2 * g.arcs.length) [] source).mergeSort fun p q =>
      p.length ≤ q.length

end ConversionGraph

end QueryPlanner
