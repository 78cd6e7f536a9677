import QueryPlanner.Expr.Basic
import QueryPlanner.Traits

/-!
# Faults

What can go wrong, by cause. The wording of every fault is in `Fault.message`; a fault met while a
rule fires keeps its kind and names the rule in its wording.
-/

namespace QueryPlanner

/-- Identity of a vertex of a plan graph. -/
abbrev VertexId := Nat

/-- Vertex ids are 32 bit words. -/
def VertexId.ofWord (n : Nat) : VertexId := n % 0x100000000

/-- A broken invariant of the plan graph. -/
inductive GraphDefect where
  | cycle
  | cycleAt (vertex : VertexId)
  | removedReference (vertex : VertexId)
  | missing (vertex : VertexId)
  | updateOfMissing (vertex : VertexId)
  | noRoot
  /-- Digests of the input and of the node that has it. -/
  | removedInput (input node : String)
  | brokenGuarantee (source target : Convention)
deriving DecidableEq, Repr

def GraphDefect.message : GraphDefect → String
  | cycle => "Plan graph contains a cycle"
  | cycleAt v => "Cycle detected at vertex " ++ toString v
  | removedReference v => "Reference to removed vertex " ++ toString v
  | missing v => "Vertex " ++ toString v ++ " is missing"
  | updateOfMissing v => "Updating missing vertex " ++ toString v
  | noRoot => "Root vertex is missing"
  | removedInput input node => "Input " ++ input ++ " of " ++ node ++ " refers to a removed vertex"
  | brokenGuarantee source target =>
    "Converter from " ++ source.name ++ " to " ++ target.name ++
      " guaranteed that it could convert any expression"

/-- A pattern that no rule can mean. -/
inductive PatternDefect where
  | ignoredChildren
  | noChildren
deriving DecidableEq, Repr

def PatternDefect.message : PatternDefect → String
  | ignoredChildren => "operand ignoring its inputs has child operands"
  | noChildren => "unordered operand without child operands"

/-- A misplaced instruction. Instructions are given by their text. -/
inductive ProgramDefect where
  | nestedGroup
  | endWithoutBegin
  | notInGroup (instruction : String)
  | unclosedGroup
  | insideGroup (instruction : String)
deriving DecidableEq, Repr

def ProgramDefect.message : ProgramDefect → String
  | nestedGroup => "Nested group"
  | endWithoutBegin => "Group end without group begin"
  | notInGroup i => i ++ " can't be part of a group"
  | unclosedGroup => "Unclosed group"
  | insideGroup i => i ++ " inside a group"

inductive Fault where
  /-- The graph, drawn as a table, broke an invariant, maybe while a rule was firing. -/
  | structural (rule : Option String) (defect : GraphDefect) (graph : String)
  | invalidPattern (rule : String) (defect : PatternDefect)
  | invalidProgram (defect : ProgramDefect)
  /-- The final plan would hold an expression that nothing implements. -/
  | unimplemented (digest : String)
  /-- A column that no field of the row has; a column of a table never matches. -/
  | unknownColumn (table : Option String) (name : String) (valid : List String)
  | ambiguousColumn (name : String)
  | notLogical (op : BinaryOp) (left right : DataType)
  | notComparable (op : BinaryOp) (left right : DataType)
  | notArithmetic (op : BinaryOp) (left right : DataType)
  | missingInput (idx : Nat)
  | nameCount (exprs names : Nat)
  | widthMismatch (operation : String) (first other : Nat)
  | argumentOutOfRange (idx : Nat) (schema : Schema)
  | groupKeyOutOfRange (idx : Nat) (schema : Schema)
  | missingArgument (function : String)
  | fixedRowType (vertex : VertexId)
  | nothingBuilt
  | notAConverter (rule : String)
  | notTwoLimits
  | notLimitOverScan
  | outsideTemplate
  | cannotConvert (source target : Convention)
  /-- A rule gave up with a text of its own after proposing some results. -/
  | givenUp (text : String) (results : Nat)
  | firing (rule : String) (cause : Fault)
  /-- The bound on the number of steps was reached. -/
  | outOfFuel
deriving Repr

namespace Fault

/-- Kinds of faults that callers tell apart. -/
inductive Kind where
  | structuralViolation
  | invalidOperand
  | invalidProgram
  | unimplementedNode
  | expression
  | other
deriving DecidableEq, Repr

/-- The kind of a fault met while a rule fires is that of its cause. -/
def kind : Fault → Kind
  | structural .. => .structuralViolation
  | invalidPattern .. => .invalidOperand
  | invalidProgram .. => .invalidProgram
  | unimplemented .. => .unimplementedNode
  | unknownColumn .. | ambiguousColumn .. | notLogical .. | notComparable .. | notArithmetic .. =>
    .expression
  | firing _ cause => cause.kind
  | _ => .other

/-- A name as it is written in a query: between double quotes, inner ones doubled, unless it is
empty or consists of lower case letters, digits and underscores and does not start with a digit. -/
def identifier (name : String) : String :=
  let small (c : Char) : Bool := ('a' ≤ c && c ≤ 'z') || c = '_'
  let plain :=
    match name.toList with
    | [] => true
    | c :: cs => small c && cs.all fun c => small c || ('0' ≤ c && c ≤ '9')
  if plain then name
  else
    "\"" ++ String.ofList (name.toList.flatMap fun c => if c = '"' then ['"', '"'] else [c]) ++ "\""

/-- A column as it is written in a query. -/
def columnIdentifier (table : Option String) (name : String) : String :=
  match table with
  | some t => identifier t ++ "." ++ identifier name
  | none => identifier name

def message : Fault → String
  | structural rule defect graph =>
    let firing := match rule with
      | some r => " while firing " ++ r
      | none => ""
    "structural violation" ++ firing ++ ": " ++ defect.message ++ "\n" ++ graph
  | invalidPattern rule defect => "invalid operand in rule " ++ rule ++ ": " ++ defect.message
  | invalidProgram defect => "invalid program: " ++ defect.message
  | unimplemented digest => "no implementation found for " ++ digest
  | unknownColumn table name valid =>
    "Schema error: No field named " ++ columnIdentifier table name ++ "." ++
      if valid.isEmpty then ""
      else " Valid fields are " ++ ", ".intercalate (valid.map identifier) ++ "."
  | ambiguousColumn name =>
    "Schema error: Ambiguous reference to unqualified field " ++ identifier name
  | notLogical op l r =>
    "Error during planning: Cannot infer common argument type for logical boolean operation " ++
      l.text ++ " " ++ op.text ++ " " ++ r.text
  | notComparable op l r =>
    "Error during planning: Cannot infer common argument type for comparison operation " ++
      l.text ++ " " ++ op.text ++ " " ++ r.text
  | notArithmetic op l r =>
    "Error during planning: Cannot coerce arithmetic expression " ++
      l.text ++ " " ++ op.text ++ " " ++ r.text ++ " to valid types"
  | missingInput idx => "Missing input " ++ toString idx ++ " to derive row type"
  | nameCount exprs names =>
    "Projection has " ++ toString exprs ++ " expressions but " ++ toString names ++ " names"
  | widthMismatch operation first other =>
    operation ++ " inputs have different field counts: " ++ toString first ++ " and " ++
      toString other
  | argumentOutOfRange idx schema =>
    "Aggregate argument " ++ toString idx ++ " out of range in " ++ schema.outline
  | groupKeyOutOfRange idx schema =>
    "Group key " ++ toString idx ++ " out of range in " ++ schema.outline
  | missingArgument function => function ++ " requires an argument"
  | fixedRowType vertex => "Row type of vertex #" ++ toString vertex ++ " is fixed at creation"
  | nothingBuilt => "Plan builder has no input yet"
  | notAConverter rule => rule ++ " is not a converter rule"
  | notTwoLimits => "Operand miss matched"
  | notLimitOverScan => "Operand miss matched!"
  | outsideTemplate => "Template index out of range"
  | cannotConvert source target => "Can't convert " ++ source.name ++ " to " ++ target.name
  | givenUp text results => text ++ " after " ++ toString results ++ " results"
  | firing rule cause => "Failed to fire rule " ++ rule ++ ": " ++ cause.message
  | outOfFuel => "Out of steps"

end Fault

end QueryPlanner
