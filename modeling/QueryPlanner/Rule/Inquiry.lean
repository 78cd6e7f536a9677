import QueryPlanner.Cost
import QueryPlanner.Node

/-!
# Inquiries

A rule never touches the planner that runs it. What it does is an inquiry: a tree of questions, each
followed by what is done with every answer, which ends with a result or a fault. The planner
answers the questions from its graph; the same rule can be run without any graph.

What an inquiry may do depends on its phase. Every inquiry may ask, but converting expressions by
chains of converters is left to rules (a converter that asked for a chain could ask for itself),
and only a firing rule proposes expressions.
-/

namespace QueryPlanner

/-- What an inquiry is made for. -/
inductive Phase where
  | converting
  | matching
  | firing
deriving DecidableEq, Repr

inductive Question where
  /-- The expression that a placeholder stands for. -/
  | resolve (node : Node)
  | rowCount (node : Node)
  | cumulativeCost (node : Node)
  /-- Whether the first cost is cheaper in the planner's cost model. -/
  | cheaper (a b : Cost)
  /-- Whether the planner was asked to stop. -/
  | cancelled

/-- The type of the answers to a question. -/
def Question.Answer : Question → Type
  | resolve _ => Node
  | rowCount _ => Float
  | cumulativeCost _ => Cost
  | cheaper _ _ => Bool
  | cancelled => Bool

inductive Inquiry (phase : Phase) (α : Type) where
  | done (result : α)
  | fail (fault : Fault)
  | ask (question : Question) (next : question.Answer → Inquiry phase α)
  /-- Asks for an expression of the same rows in other traits. The answer may be a fault, which the
  inquiry is free to overlook. -/
  | convert (allowed : phase ≠ .converting) (node : Node) (traits : TraitSet)
      (next : Except Fault (Option Node) → Inquiry phase α)
  /-- Proposes an expression in place of the matched one. -/
  | propose (allowed : phase = .firing) (node : Node) (next : Inquiry phase α)

namespace Inquiry

variable {phase : Phase} {α β : Type}

def bind : Inquiry phase α → (α → Inquiry phase β) → Inquiry phase β
  | done a, f => f a
  | fail e, _ => fail e
  | ask q next, f => ask q fun a => (next a).bind f
  | convert h n t next, f => convert h n t fun r => (next r).bind f
  | propose h n next, f => propose h n (next.bind f)

instance : Monad (Inquiry phase) where
  pure := done
  bind := bind

/-- The inquiry with its fault turned into a missing result. -/
def attempt : Inquiry phase α → Inquiry phase (Option α)
  | done a => done (some a)
  | fail _ => done none
  | ask q next => ask q fun a => (next a).attempt
  | convert h n t next => convert h n t fun r => (next r).attempt
  | propose h n next => propose h n next.attempt

/-- A converter's inquiry as one of any phase. It neither converts nor proposes. -/
def widen : Inquiry .converting α → Inquiry phase α
  | done a => done a
  | fail e => fail e
  | ask q next => ask q fun a => (next a).widen
  | convert h _ _ _ => absurd rfl h
  | propose h _ _ => nomatch h

def ofExcept : Except Fault α → Inquiry phase α
  | .ok a => done a
  | .error e => fail e

/-- An expression of the same rows in other traits, none if there is no chain of converters. -/
def inTraits (allowed : phase ≠ .converting) (n : Node) (traits : TraitSet) :
    Inquiry phase (Option Node) :=
  convert allowed n traits ofExcept

def resolve (n : Node) : Inquiry phase Node := ask (.resolve n) done

def rowCount (n : Node) : Inquiry phase Float := ask (.rowCount n) done

def cumulativeCost (n : Node) : Inquiry phase Cost := ask (.cumulativeCost n) done

def cheaper (a b : Cost) : Inquiry phase Bool := ask (.cheaper a b) done

def cancelled : Inquiry phase Bool := ask .cancelled done

/-- Proposes an expression. -/
def offer (n : Node) : Inquiry .firing Unit := propose rfl n (done ())

/-- Who answers an inquiry, in a monad of its own. -/
structure Answerer (m : Type → Type) where
  answer : (q : Question) → m q.Answer
  convert : Node → TraitSet → m (Except Fault (Option Node))
  propose : Node → m Unit
  fail : {α : Type} → Fault → m α

/-- Runs an inquiry against an answerer. -/
def run {m : Type → Type} [Monad m] (w : Answerer m) : Inquiry phase α → m α
  | done a => pure a
  | fail e => w.fail e
  | ask q next => do (next (← w.answer q)).run w
  | convert _ n t next => do (next (← w.convert n t)).run w
  | propose _ n next => do
    w.propose n
    next.run w

end Inquiry

end QueryPlanner
