import QueryPlanner.Rule.Basic

/-!
# Rules that change conventions

A converter rule takes expressions of one convention to another. Its companion does the same from
the parent's side: it matches the parent and puts a copy of it over the converted input. The
expansion rule replaces a request for traits by a chain of converters.
-/

namespace QueryPlanner

namespace Conversion

/-- A way to convert: an expression to the same rows in a convention, if there is such a one. -/
abbrev Method := Node → Convention → Inquiry .converting (Option Node)

/-- Puts a converter on top. -/
def wrap : Method := fun node target => do
  let traits := node.traits.replace (.convention target)
  return some (← .ofExcept (Node.make (.converter node.convention target) [node] traits))

/-- Keeps the operator and changes its convention. -/
def retag : Method := fun node target => do
  let node ← Inquiry.resolve node
  return some { node with traits := node.traits.replace (.convention target) }

/-- Converts nothing. -/
def never : Method := fun _ _ => .done none

/-- Fails on every expression. -/
def failing : Method := fun node target => .fail (.cannotConvert node.convention target)

/-- Requests the convention, to be expanded later. -/
def abstracting : Method := fun node target =>
  .done (some (.request node (node.traits.replace (.convention target))))

/-- The rule that performs a conversion on the expressions of its source convention which match a
pattern. -/
def rule (c : Conversion) (pattern : Pattern) : Rule where
  description := "ConverterRule(in:" ++ c.source.name ++ ",out:" ++ c.target.name ++ ")"
  kind := .converter
  pattern := { pattern with convention := some c.source }
  applies _ := .done true
  fire call := do
    match call.rel? 0 with
    | none => return
    | some node =>
      if node.convention = c.source then
        match ← (c.convert node c.target).widen with
        | some converted => .offer converted
        | none => return
  conversion := some c

/-- Whether the expression would take its input in the convention that the conversion produces. -/
def wantedBy (c : Conversion) (parent : Node) : Bool :=
  !parent.isConverter && parent.convention = c.target

end Conversion

namespace Rule

/-- Puts a converter on top of any expression of the source convention. -/
def wrapping (source target : Convention) (guaranteed : Bool) : Rule :=
  Conversion.rule ⟨source, target, guaranteed, Conversion.wrap⟩ .any

/-- Changes the convention of expressions of one kind in place. -/
def retagging (kind : OperatorKind) (source target : Convention) (guaranteed : Bool) : Rule :=
  Conversion.rule ⟨source, target, guaranteed, Conversion.retag⟩ (.ofKind kind)

/-- The companion of a converter rule: a parent in the target convention is put over its converted
input. -/
def companion (r : Rule) : Except Fault Rule :=
  match r.conversion with
  | none => .error (.notAConverter r.description)
  | some c => .ok {
      description := "TraitMatchingRule: " ++ r.description
      kind := .traitMatching
      pattern := Pattern.any.withInputs [r.pattern]
      applies := fun _ => .done true
      fire := fun call => do
        match call.rel? 0 with
        | none => return
        | some parent =>
          if c.wantedBy parent then
            match parent.inputs with
            | [] => return
            | input :: _ =>
              match ← (c.convert input c.target).widen with
              | some converted => .offer { parent with inputs := [converted] }
              | none => return
      conversion := none }

/-- Expands a request for traits into a chain of converters. The request stays if there is none. -/
def expandConversion : Rule :=
  .transformation "ExpandConversionRule" (.ofKind .abstractConverter) fun call => do
    match call.rel? 0 with
    | some request =>
      match request.inputs with
      | [] => return
      | input :: _ =>
        match ← Inquiry.inTraits (by decide) input request.traits with
        | some converted => .offer converted
        | none => return
    | none => return

end Rule

end QueryPlanner
