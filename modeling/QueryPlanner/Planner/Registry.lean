import QueryPlanner.ConversionGraph
import QueryPlanner.Rule.Conversion

/-!
# Registered rules

The rules that a planner knows, in the order of registration and each description once. Guaranteed
converter rules are arcs of the conversion graph and stand in the table of their arc; the other
converter rules have a companion. The tables are changed one after the other, but only when nothing can
fail any more.
-/

namespace QueryPlanner

structure Registry where
  rules : List Rule
  /-- The rules by their descriptions. -/
  byDescription : List (String × Rule)
  /-- The arcs of guaranteed converter rules. -/
  conversions : ConversionGraph
  /-- The guaranteed converter rules of an arc, in the order of registration. -/
  converters : List ((Convention × Convention) × List Rule)
  /-- The companions of other converter rules, by the description of the rule. -/
  companions : List (String × Rule)
  mem_rules : ∀ e ∈ byDescription, e.2 ∈ rules

/-- An operation on registered rules. A fault leaves what was registered before it. -/
abbrev Registering := EStateM Fault Registry

namespace Registry

def empty : Registry := ⟨[], [], .empty, [], [], by simp⟩

/-- The registered rule of this description. -/
def find? (r : Registry) (description : String) : Option Rule := r.byDescription.lookup description

theorem mem_rules_of_find? {r : Registry} {description : String} {rule : Rule}
    (h : r.find? description = some rule) : rule ∈ r.rules := by
  obtain ⟨front, back, heq, -⟩ := List.lookup_eq_some_iff.1 h
  exact r.mem_rules (description, rule) (by simp [heq])

/-- The guaranteed converter rules from one convention to another. -/
def convertersOf (r : Registry) (source target : Convention) : List Rule :=
  (r.converters.lookup (source, target)).getD []

/-- The companion of a registered converter rule. -/
def companion? (r : Registry) (description : String) : Option Rule :=
  r.companions.lookup description

/-- A table of lists with an element added to the list of a key. -/
def addTo {α β : Type} [DecidableEq α] (key : α) (x : β) : List (α × List β) → List (α × List β)
  | [] => [(key, [x])]
  | (k, xs) :: rest => if k = key then (k, xs ++ [x]) :: rest else (k, xs) :: addTo key x rest

/-- Enters a rule behind the others and by its description. -/
def enter (r : Registry) (rule : Rule) : Registry :=
  { r with
    rules := r.rules ++ [rule]
    byDescription := (rule.description, rule) :: r.byDescription
    mem_rules := List.forall_mem_cons.2
      ⟨by simp, fun e he => List.mem_append_left _ (r.mem_rules e he)⟩ }

/-- Enters a converter rule in the tables that its conversion belongs to. -/
def enterConversion (rule : Rule) (c : Conversion) : Registering Unit := do
  if c.guaranteed then
    modify fun r => { r with conversions := r.conversions.addArc c.source c.target }
    modify fun r => { r with converters := addTo (c.source, c.target) rule r.converters }
  else
    match rule.companion with
    | .error f => throw f
    | .ok companion =>
      modify fun r => { r with companions := (rule.description, companion) :: r.companions }

/-- Registers a rule. False if a rule of the same description is registered already. -/
def register (rule : Rule) : Registering Bool := do
  if ((← get).find? rule.description).isSome then return false
  if let some defect := rule.pattern.defect? then
    throw (.invalidPattern rule.description defect)
  if let some c := rule.conversion then enterConversion rule c
  modify (·.enter rule)
  return true

/-- What registering a rule comes to: all tables with the rule, or none if a rule of the same description
is registered already. -/
def add (r : Registry) (rule : Rule) : Except Fault (Option Registry) := do
  if (r.find? rule.description).isSome then return none
  if let some defect := rule.pattern.defect? then
    throw (.invalidPattern rule.description defect)
  let r := r.enter rule
  match rule.conversion with
  | none => return some r
  | some c =>
    if c.guaranteed then
      return some { r with
        conversions := r.conversions.addArc c.source c.target
        converters := addTo (c.source, c.target) rule r.converters }
    else
      let companion ← rule.companion
      return some { r with companions := (rule.description, companion) :: r.companions }

/-- A call that fails, or that answers false, leaves all tables as they are. -/
theorem register_eq (rule : Rule) (r : Registry) :
    register rule r =
      match r.add rule with
      | .error f => .error f r
      | .ok none => .ok false r
      | .ok (some r') => .ok true r' := by
  have hget : (get : Registering Registry) r = .ok r r := rfl
  simp only [register, add, bind, EStateM.bind, hget]
  cases r.find? rule.description with
  | some _ => rfl
  | none =>
    cases rule.pattern.defect? with
    | some _ => rfl
    | none =>
      cases rule.conversion with
      | none => rfl
      | some c =>
        simp only [enterConversion]
        cases c.guaranteed with
        | true => rfl
        | false => cases rule.companion <;> rfl

/-- The registered rules that belong to a class. -/
def ruleClass (r : Registry) (belongs : Rule → Bool) : List Rule := r.rules.filter belongs

/-- The registered converter rules that are guaranteed, or that are not, each followed by its
companion if it has one. -/
def converterRules (r : Registry) (guaranteed : Bool) : List Rule :=
  r.rules.flatMap fun rule =>
    match rule.conversion with
    | some c =>
      if c.guaranteed = guaranteed then rule :: (r.companion? rule.description).toList else []
    | none => []

end Registry

end QueryPlanner
