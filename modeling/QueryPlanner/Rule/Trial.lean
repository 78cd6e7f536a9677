import QueryPlanner.CostModel
import QueryPlanner.Rule.Basic

/-!
# Trying a rule without a planner

A rule can be run on a call made by hand. There is no graph then: placeholders stand for themselves,
nothing is converted along chains, and costs are those of the default model.
-/

namespace QueryPlanner

/-- What a rule proposed before it ended, or before it failed. -/
abbrev Trial := EStateM Fault (List Node)

namespace Trial

def answer (cancelled : Bool) : (q : Question) → Trial q.Answer
  | .resolve node => return node
  | .rowCount node => return node.rowCount
  | .cumulativeCost node => return node.cumulativeCost .touchedRows
  | .cheaper a b => return a.less b
  | .cancelled => return cancelled

def answerer (cancelled : Bool) : Inquiry.Answerer Trial where
  answer := answer cancelled
  convert _ _ := return .ok none
  propose node := modify (· ++ [node])
  fail := throw

/-- The result of an inquiry, and what it proposed. -/
def run {phase : Phase} {α : Type} (cancelled : Bool) (i : Inquiry phase α) :
    Except Fault α × List Node :=
  match i.run (answerer cancelled) [] with
  | .ok a proposed => (.ok a, proposed)
  | .error f proposed => (.error f, proposed)

end Trial

end QueryPlanner
