import QueryPlanner.Rule.Basic

/-!
# Programs

A program is a list of instructions for a planner. Rule instructions fire rules until nothing
changes or the match limit is reached; groups collect rule instructions and fire their rules
together. Groups are closed where they were opened, do not nest and hold no instruction that
depends on the rules registered with the planner by kind.
-/

namespace QueryPlanner

/-- The order in which vertices are visited. -/
inductive MatchOrder where
  /-- Depth first from the root, going on from the new expression after a firing. -/
  | arbitrary
  /-- Like `arbitrary`, but what lies below a new expression comes before what was left. -/
  | depthFirst
  /-- Parents before inputs, starting over after every firing. -/
  | topDown
  /-- Inputs before parents, starting over after every firing. -/
  | bottomUp
deriving DecidableEq, Repr

namespace MatchOrder

def text : MatchOrder → String
  | arbitrary => "Arbitrary"
  | depthFirst => "DepthFirst"
  | topDown => "TopDown"
  | bottomUp => "BottomUp"

/-- Whether a firing sends the traversal back to the start. -/
def restarts : MatchOrder → Bool
  | topDown | bottomUp => true
  | arbitrary | depthFirst => false

end MatchOrder

inductive Instruction where
  | rule (rule : Rule)
  /-- The registered rule of this description, if there is one. -/
  | described (description : String)
  /-- The registered rules that belong to a class. -/
  | ruleClass (belongs : Rule → Bool)
  | rules (rules : List Rule)
  /-- The registered converter rules that are guaranteed, or that are not. -/
  | converters (guaranteed : Bool)
  /-- The registered rules on common subexpressions. -/
  | commonSubexpressions
  | order (order : MatchOrder)
  | limit (count : Nat)
  /-- Runs instructions again and again until a run changes nothing. -/
  | subprogram (instructions : List Instruction)
  | beginGroup
  | endGroup

namespace Instruction

mutual

def text : Instruction → String
  | rule r => "RuleInstance(" ++ r.description ++ ")"
  | described d => "RuleByDescription(" ++ d ++ ")"
  | ruleClass _ => "RuleClass"
  | rules rs => Text.bracketed (rs.map fun r => Text.quoted r.description)
  | converters guaranteed => "ConverterRules(guaranteed=" ++ toString guaranteed ++ ")"
  | commonSubexpressions => "CommonRelSubExprRules"
  | order o => "MatchOrder(" ++ o.text ++ ")"
  | limit n => "MatchLimit(" ++ toString n ++ ")"
  | subprogram is =>
    "Subprogram(HepProgram \x7b instructions: " ++ Text.bracketed (texts is) ++ " \x7d)"
  | beginGroup => "BeginGroup"
  | endGroup => "EndGroup"

def texts : List Instruction → List String
  | [] => []
  | i :: is => i.text :: texts is

end

mutual

/-- The rules that the instruction holds itself, subprograms included. -/
def ownRules : Instruction → List Rule
  | rule r => [r]
  | rules rs => rs
  | subprogram is => rulesOf is
  | _ => []

def rulesOf : List Instruction → List Rule
  | [] => []
  | i :: is => i.ownRules ++ rulesOf is

end

end Instruction

structure Program where
  instructions : List Instruction

namespace Program

/-- The rules that the program holds itself. -/
def rules (p : Program) : List Rule := Instruction.rulesOf p.instructions

/-- The first misplaced instruction, read with an open group or without one. -/
def defect? : Bool → List Instruction → Option ProgramDefect
  | inGroup, [] => if inGroup then some .unclosedGroup else none
  | inGroup, i :: is =>
    match i, inGroup with
    | .beginGroup, true => some .nestedGroup
    | .beginGroup, false => defect? true is
    | .endGroup, false => some .endWithoutBegin
    | .endGroup, true => defect? false is
    | .converters _, true => some (.notInGroup i.text)
    | .commonSubexpressions, true => some (.notInGroup i.text)
    | _, _ => defect? inGroup is

/-- The program of these instructions, if its groups are in order. It was the duty of subprograms to
be in order when they were built. -/
def build (instructions : List Instruction) : Except Fault Program :=
  match defect? false instructions with
  | some defect => .error (.invalidProgram defect)
  | none => .ok ⟨instructions⟩

end Program

/-! ## Classes of rules -/

namespace Rule

def isOfKind (kind : RuleKind) (r : Rule) : Bool := r.kind = kind

/-- Rules whose name says that they remove something. -/
def removes (r : Rule) : Bool := "Remove".isPrefixOf r.description

end Rule

end QueryPlanner
