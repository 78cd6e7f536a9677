import QueryPlanner.Rule.Basic

/-!
# Rules given by templates

A template describes an expression by what a rule sees of a match; a condition compares such
expressions. Together they give rules without a program text: under its conditions, a templated
rule proposes what its templates yield, one after the other.

A template may yield nothing, since conversions may be impossible. What is built on top of nothing
is nothing, and in a list of inputs it is left out. Inputs are evaluated before the expression that
takes them, so that their faults come first.
-/

namespace QueryPlanner

inductive Template where
  /-- A matched expression. -/
  | rel (idx : Nat)
  /-- An input of a matched expression. -/
  | input (idx position : Nat)
  /-- An input of an expression that an unordered pattern node matched. -/
  | child (idx position : Nat)
  | parent (position : Nat)
  | resolve (of : Template)
  /-- A new node, in the traits of the match if it has none of its own. -/
  | make (operator : Operator) (inputs : List Template) (traits : Option TraitSet)
  | withInputs (of : Template) (inputs : List Template)
  | withTraits (of : Template) (traits : TraitSet)
  | withOperator (of : Template) (operator : Operator)
  /-- A request for traits. -/
  | request (of : Template) (traits : TraitSet)
  /-- A placeholder with the traits and the row type of the match. -/
  | vertex (id : VertexId)
  /-- A chain of converters. -/
  | convert (of : Template) (traits : TraitSet)

namespace Template

variable {phase : Phase}

/-- What is there, or the fault of a template that refers to something that is not. -/
def found (n : Option Node) : Inquiry phase Node :=
  match n with
  | some n => .done n
  | none => .fail .outsideTemplate

/-- What a template builds on an expression; nothing on nothing. -/
def andThen (n : Option Node) (f : Node → Inquiry phase (Option Node)) :
    Inquiry phase (Option Node) :=
  match n with
  | some n => f n
  | none => .done none

mutual

def eval (allowed : phase ≠ .converting) (call : Call) : Template → Inquiry phase (Option Node)
  | rel idx => return some (← found (call.rel? idx))
  | input idx position => do
    let node ← found (call.rel? idx)
    return some (← found node.inputs[position]?)
  | child idx position => return some (← found ((call.childRels? idx).bind (·[position]?)))
  | parent position => return some (← found (call.parents.bind (·[position]?)))
  | resolve of => do
    andThen (← of.eval allowed call) fun n => return some (← Inquiry.resolve n)
  | make op inputs traits => do
    let inputs ← evalInputs allowed call inputs
    let traits ← match traits with
      | some t => pure t
      | none => pure (← found (call.rel? 0)).traits
    return some (← .ofExcept (Node.make op inputs traits))
  | withInputs of inputs => do
    let inputs ← evalInputs allowed call inputs
    andThen (← of.eval allowed call) fun n => return some { n with inputs }
  | withTraits of traits => do
    andThen (← of.eval allowed call) fun n => return some { n with traits }
  | withOperator of operator => do
    andThen (← of.eval allowed call) fun n => return some { n with operator }
  | request of traits => do
    andThen (← of.eval allowed call) fun n => return some (.request n traits)
  | vertex id => do
    let node ← found (call.rel? 0)
    return some (.placeholder id node.traits node.rowType)
  | convert of traits => do
    andThen (← of.eval allowed call) fun n => Inquiry.inTraits allowed n traits

/-- The expressions of a list of templates, those that yield nothing left out. -/
def evalInputs (allowed : phase ≠ .converting) (call : Call) :
    List Template → Inquiry phase (List Node)
  | [] => return []
  | t :: ts => do
    let node ← t.eval allowed call
    let nodes ← evalInputs allowed call ts
    return node.toList ++ nodes

end

end Template

inductive Condition where
  | rowsBelow (of : Template) (bound : Float)
  | rowsAtLeast (of : Template) (bound : Float)
  | cheaper (a b : Template)
  | parentsAtLeast (n : Nat)
  | childrenAtLeast (idx n : Nat)
  /-- The number of matched expressions. -/
  | rels (n : Nat)
  | notCancelled

namespace Condition

/-- Row count of what a template yields. -/
def rowCount? (call : Call) (t : Template) : Inquiry .matching (Option Float) := do
  match ← t.eval (by decide) call with
  | some n => return some (← Inquiry.rowCount n)
  | none => return none

/-- Whether the condition holds of a match; about nothing it does not. -/
def eval (call : Call) : Condition → Inquiry .matching Bool
  | rowsBelow t x => return (← rowCount? call t).any (· < x)
  | rowsAtLeast t x => return (← rowCount? call t).any (x ≤ ·)
  | cheaper a b => do
    match ← a.eval (by decide) call, ← b.eval (by decide) call with
    | some a, some b => Inquiry.cheaper (← Inquiry.cumulativeCost a) (← Inquiry.cumulativeCost b)
    | _, _ => return false
  | parentsAtLeast n => return n ≤ (call.parents.getD []).length
  | childrenAtLeast idx n => return n ≤ ((call.childRels? idx).getD []).length
  | rels n => return call.rels.length = n
  | notCancelled => return !(← Inquiry.cancelled)

/-- Whether all conditions hold, asked in turn. A condition that fails does not hold. -/
def all (call : Call) : List Condition → Inquiry .matching Bool
  | [] => return true
  | c :: cs => do
    match ← (c.eval call).attempt with
    | some true => all call cs
    | _ => return false

end Condition

/-- Proposes what the templates yield, and counts the proposals. -/
def Template.offerAll (call : Call) : List Template → Inquiry .firing Nat
  | [] => return 0
  | t :: ts => do
    match ← t.eval (by decide) call with
    | some n =>
      Inquiry.offer n
      return (← offerAll call ts) + 1
    | none => offerAll call ts

/-- The rule that proposes what its templates yield under its conditions. With `failure` it gives up
afterwards. -/
def Rule.templated (description : String) (kind : RuleKind) (pattern : Pattern)
    (conditions : List Condition) (results : List Template) (failure : Option String) : Rule where
  description
  kind
  pattern
  applies call := Condition.all call conditions
  fire call := do
    let n ← Template.offerAll call results
    match failure with
    | some text => .fail (.givenUp text n)
    | none => return
  conversion := none

end QueryPlanner
