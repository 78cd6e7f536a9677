import QueryPlanner.Proofs.Node.Key
import QueryPlanner.Proofs.Planner.Reached

/-!
# What a shared vertex holds

An expression that is added where its key is registered gets the vertex of that key. In full the key
tells legible expressions apart up to the texts of their conditions and projected expressions, and
these tell all grouped expressions apart. A chain of subtractions shows the same text however it is
grouped, for operators of equal rank are written without parentheses.
-/

namespace QueryPlanner

open Operator

namespace Planner

variable {p q : Planner} {n n' : Node} {id : VertexId}

/-- The vertex of an expression that was added holds an expression of the same key. -/
theorem key_eq_of_place (hp : Reached p) (hn : p.graph.OverVertices n)
    (h : place n p = .ok id q) (hn' : q.graph.current? id = some n') :
    n.key p.settings.digestMode = n'.key p.settings.digestMode := by
  obtain ⟨hready, -⟩ := reached_ready hp
  obtain ⟨-, held, hheld, hkey, -⟩ := (ends_place hready.consistent hn fun _ _ => True).ok h
  obtain rfl : held = n' := Option.some.inj (hheld.symm.trans hn')
  exact hkey.symm

/-- Legible expressions have one key in full if and only if they are alike up to the texts of
expressions, and unambiguous ones if and only if they are alike. So are an expression that is added
and the one that its vertex holds. -/
theorem key_tells_expressions (h : n.isLegible = true) (h' : n'.isLegible = true) :
    (n.key .full = n'.key .full ↔ n.Alike SameText n') ∧
      (n.isUnambiguous = true → n'.isUnambiguous = true →
        (n.key .full = n'.key .full ↔ n.Alike Eq n')) ∧
      ∀ (p q : Planner) (id : VertexId), Reached p → p.settings.digestMode = .full →
        p.graph.OverVertices n → place n p = .ok id q → q.graph.current? id = some n' →
          n.Alike SameText n' ∧
            (n.isUnambiguous = true → n'.isUnambiguous = true → n.Alike Eq n') := by
  have htexts : n.key .full = n'.key .full ↔ n.Alike SameText n' := Node.key_eq_iff h h'
  have hequal : n.isUnambiguous = true → n'.isUnambiguous = true → n.Alike SameText n' →
      n.Alike Eq n' := fun hu hu' => Node.Alike.eq_of_isUnambiguous h h' hu hu'
  refine ⟨htexts, ?_, ?_⟩
  · intro hu hu'
    constructor
    · intro hkey
      exact hequal hu hu' (htexts.1 hkey)
    · intro halike
      exact htexts.2 (halike.imp fun e _ e' _ he => congrArg Expr.text he)
  · intro p q id hp hmode hn hplace hn'
    have hkey := key_eq_of_place hp hn hplace hn'
    rw [hmode] at hkey
    have halike := htexts.1 hkey
    exact ⟨halike, fun hu hu' => hequal hu hu' halike⟩

/-- A filter over vertex 0. -/
def filterOver (condition : Expr) : Node :=
  ⟨.filter condition, [.placeholder 0 .default .empty], .default, .empty⟩

/-- `(a - b) - c = 0`. -/
def leftDifference : Expr :=
  .binary .eq (.binary .minus (.binary .minus (.column none "a") (.column none "b"))
    (.column none "c")) (.literal (.int64 (some 0)))

/-- `a - (b - c) = 0`. -/
def rightDifference : Expr :=
  .binary .eq (.binary .minus (.column none "a") (.binary .minus (.column none "b")
    (.column none "c"))) (.literal (.int64 (some 0)))

theorem key_tells_leftDifference :
    ((filterOver leftDifference).isLegible = true ∧ (filterOver rightDifference).isLegible = true) ∧
      ((filterOver leftDifference).key .full = (filterOver rightDifference).key .full ↔
        (filterOver leftDifference).Alike SameText (filterOver rightDifference)) := by
  have hleft : (filterOver leftDifference).isLegible = true := by decide
  have hright : (filterOver rightDifference).isLegible = true := by decide
  exact ⟨⟨hleft, hright⟩, (key_tells_expressions hleft hright).1⟩

/-- Keys in full do not tell all expressions over placeholders. -/
theorem not_key_tells : ¬ ∀ n n' : Node, (∀ i ∈ n.inputs, i.vertexId?.isSome = true) →
    (∀ i ∈ n'.inputs, i.vertexId?.isSome = true) → n.key .full = n'.key .full → n.Alike Eq n' := by
  intro h
  have hkey : (filterOver rightDifference).key .full = (filterOver leftDifference).key .full := by
    decide +kernel
  have halike := h _ _ (by simp [filterOver]) (by simp [filterOver]) hkey
  have hcondition : rightDifference = leftDifference := halike.operator
  simp [rightDifference, leftDifference] at hcondition

end Planner

end QueryPlanner
