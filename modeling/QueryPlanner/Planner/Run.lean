import QueryPlanner.Planner.Execution
import QueryPlanner.Planner.Extraction

/-!
# Running a planner

A planner is built from settings, a program, rules and a plan. It then executes its program and
extracts the best plan; or it is driven step by step.
-/

namespace QueryPlanner.Planner

/-- Runs an operation on what is registered. -/
def onRegistry {α : Type} (x : Registering α) : Planning α := fun p =>
  match x p.registry with
  | .ok a registry => .ok a { p with registry }
  | .error f registry => .error f { p with registry }

/-- Registers a rule. False if a rule of the same description is registered already. -/
def addRule (rule : Rule) : Planning Bool := do
  let isNew ← onRegistry (Registry.register rule)
  if isNew then log (.registered rule.description)
  return isNew

/-- The tables are changed all at once or not at all. -/
theorem addRule_eq (rule : Rule) : addRule rule = do
    match (← get).registry.add rule with
    | .error f => throw f
    | .ok none => return false
    | .ok (some registry) =>
      log (.registered rule.description)
      modify fun p => { p with registry }
      return true := by
  funext p
  have hget : ∀ q, (get : Planning Planner) q = .ok q q := fun _ => rfl
  simp only [addRule, bind, EStateM.bind, onRegistry, Registry.register_eq, hget]
  cases p.registry.add rule with
  | error _ => rfl
  | ok r =>
    cases r with
    | none => rfl
    | some registry =>
      simp only [log, bind, EStateM.bind, hget, if_true]
      by_cases hlevel : p.settings.level.rank ≤ (Message.registered rule.description).level.rank
      · simp only [if_pos hlevel]
        rfl
      · simp only [if_neg hlevel]
        rfl

/-- Registers the given rules and those that the program holds, and takes over the plan. -/
def load (rules : List Rule) (plan : Node) : Planning Unit := do
  (rules ++ (← get).program.rules).forM fun rule => discard (addRule rule)
  setRoot plan

/-- A planner for a plan, or the fault met while it was built; in either case with what was
reported. -/
def build (settings : Settings) (program : Program) (rules : List Rule) (plan : Node) :
    EStateM.Result Fault Planner Unit :=
  load rules plan (initial settings program)

/-- Executes the planner's program and extracts the plan that it leads to. -/
def findBestPlan (fuel : Nat) : Planning Plan := do
  let program := (← get).program
  log (.started program.instructions.length)
  execute fuel program
  collectGarbage
  let plan ← finalPlan (← requireRoot)
  log (.finished (← get).transformations)
  return plan

end QueryPlanner.Planner
