import QueryPlanner.Proofs.Simplification.Matching
import QueryPlanner.Proofs.Simplification.Rewriting

/-!
# Simplifications make progress

A simplification that is tried on a vertex below the root fires whenever the expression of the vertex
can be rewritten. As it redirects all parents of the vertex, the tree of the root becomes lighter. It
can only fail on a projection without inputs.
-/

namespace QueryPlanner

open QueryPlanner.Graph Planning Planner

theorem Graph.Alike.held {g g' : Graph} (h : g.Alike g') : g'.held = g.held := by
  funext input
  rw [Graph.held, Graph.held, funext h.current?]

namespace Simplification

variable {F : Operator → TraitSet → Prop} {L R : Node → Node → Prop} {P : Node → Prop}
  {s : Simplification} {p₀ p : Planner} {id : VertexId}
  {node node' : Node} {w : ℕ}

theorem kind_rule (s : Simplification) : s.rule.kind = .transformation := by cases s <;> rfl

theorem rule_injective : Function.Injective rule := by
  intro s s' h
  have hdescription := congrArg Rule.description h
  revert hdescription
  cases s <;> cases s' <;> decide

/-- The simplification of the rule does not rewrite the expression. -/
def Calm (rule : Rule) (p : Planner) (node : Node) : Prop :=
  ∀ s : Simplification, s.rule = rule → ∀ node', ¬ Rewrites p.graph.held s node node'

/-- In a run in which everything can be reached from the root, projections have inputs if they have
in its tree. -/
theorem inputs_ne_nil (hp : p₀.Underway F P p) (hspanned : p.graph.Spanned)
    (hP : ∀ t, P t → t.Grounded) (hnode : p.graph.current? id = some node)
    (hkind : node.kind = .projection) : node.inputs ≠ [] := by
  intro hnil
  have hnone := (hp.consistent.currents id node hnode).isOperator
  obtain ⟨t, ht⟩ := hp.consistent.exists_unfolds (hp.consistent.currents id node hnode)
  have hgrounded := hp.of_everywhere hspanned hP ⟨node, hnode, ht⟩
  obtain ⟨ts, hts, rfl⟩ := (unfolds_operator hnone).1 ht
  rw [hnil] at hts
  cases hts
  exact hgrounded hkind rfl

/-- Simplifications make progress if their steps, up to what keys cannot tell apart, reduce trees. They
do not fail if all projections have inputs. -/
theorem progress {A : Rule → Prop} {force : Bool} (hA : ∀ {rule}, A rule → rule ∈ Rule.simplifications)
    (hF : ∀ op op' traits, op.unbounded = op'.unbounded → F op traits → F op' traits)
    (hred : Node.Reduction Node.weight L) (hR : Node.Congruence R)
    (hkeys : KeysRelateIn p₀.settings F R) (hP : ∀ {t u}, P t → L t u → P u)
    (hstep : ∀ {s t u v}, A s.rule → Step s t u → R u v → L t v) :
    Progress A force (Measured p₀ F Node.weight P) (IdleWhere Calm)
      fun f => (∃ description cause, f = .firing description cause) ∧
        ¬ ∀ t, P t → t.Grounded := by
  refine hred.progress hR hkeys hP ?_ ?_ ?_
  · intro rule hrule
    obtain ⟨s, rfl⟩ := mem_simplifications.1 (hA hrule)
    exact s.kind_rule
  · intro rule p q node h hpq
    unfold Calm
    rw [hpq.graph.held]
    exact h
  · intro rule w p id node t hs hp hspanned hnode ht
    obtain ⟨s, rfl⟩ := mem_simplifications.1 (hA hs)
    refine (acts hp.consistent.toLinked hnode s).mono (fun h s' hs' => ?_) (fun n hn => ⟨?_, ?_⟩) ?_
    · rw [rule_injective hs']
      exact h
    · exact hn.within hF hp.consistent.toLinked hp.within hnode
    · obtain ⟨u, hu, htu⟩ := hn.exists_step ht
      exact ⟨u, hu, fun v hv => hstep hs htu hv⟩
    · rintro f ⟨⟨cause, hf⟩, input, inner, hinner, hkind, hnil⟩
      refine ⟨⟨_, cause, hf⟩, fun hgrounded => ?_⟩
      obtain ⟨i, -, hcurrent⟩ := Option.bind_eq_some_iff.1 hinner
      exact inputs_ne_nil hp hspanned (fun t h => hgrounded t h.1) hcurrent hkind hnil

end Simplification

end QueryPlanner
