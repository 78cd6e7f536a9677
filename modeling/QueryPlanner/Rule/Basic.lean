import QueryPlanner.Pattern
import QueryPlanner.Rule.Inquiry

/-!
# Rules

A rule states an equivalence of plans. Its pattern says where it may fire; firing on a match it
proposes expressions of the same rows as the matched one.

Rules are functions. What a rule does on a match depends on the match and on the answers to its
inquiries alone: that rules keep no state of their own from one firing to the next is an assumption
of the model, and "any rules" means any rules of this kind.
-/

namespace QueryPlanner

inductive RuleKind where
  /-- Fires wherever its pattern matches. -/
  | transformation
  /-- Takes an expression to another convention. -/
  | converter
  /-- Takes the input of an expression to the convention of the expression. -/
  | traitMatching
  /-- Fires on expressions with two parents or more, and sees them. -/
  | commonSubexpression
deriving DecidableEq, Repr

def RuleKind.text : RuleKind → String
  | transformation => "Transformation"
  | converter => "Converter"
  | traitMatching => "TraitMatching"
  | commonSubexpression => "CommonRelSubExpr"

/-- What a rule gets to see of a match. -/
structure Call where
  /-- The matched expressions, in the order of the pattern's nodes from the root down. -/
  rels : List Node
  /-- All inputs of the expressions that unordered pattern nodes matched, by number of match. -/
  inputs : List (Nat × List Node)
  /-- The parents of the matched expression, for rules on common subexpressions. -/
  parents : Option (List Node)

namespace Call

def rel? (c : Call) (idx : Nat) : Option Node := c.rels[idx]?

/-- The inputs of the `idx`-th match, if an unordered pattern node matched it. -/
def childRels? (c : Call) (idx : Nat) : Option (List Node) := c.inputs.lookup idx

end Call

/-- A way of taking expressions from one convention to another. A guaranteed one promises to do so
for every expression of its source convention. -/
structure Conversion where
  source : Convention
  target : Convention
  guaranteed : Bool
  /-- The converted expression, none if it cannot be converted. -/
  convert : Node → Convention → Inquiry .converting (Option Node)

structure Rule where
  /-- Name of the rule, no two rules of a planner share it. -/
  description : String
  kind : RuleKind
  pattern : Pattern
  /-- A condition on the match beyond the pattern. -/
  applies : Call → Inquiry .matching Bool
  fire : Call → Inquiry .firing Unit
  /-- The conversion that the rule performs, if it is a converter rule. -/
  conversion : Option Conversion

/-- A transformation that fires wherever its pattern matches. -/
def Rule.transformation (description : String) (pattern : Pattern)
    (fire : Call → Inquiry .firing Unit) : Rule :=
  ⟨description, .transformation, pattern, fun _ => .done true, fire, none⟩

end QueryPlanner
