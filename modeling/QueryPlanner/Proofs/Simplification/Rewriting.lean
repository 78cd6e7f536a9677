import QueryPlanner.Proofs.Simplification.NormalForm
import QueryPlanner.Proofs.Simplification.Proposals

/-!
# Rewriting trees through a graph

What a simplification makes of an expression in a graph is a step of its tree, and every step at the
root of the tree can be made in the graph.
-/

namespace QueryPlanner

namespace Graph

variable {g : Graph} {mode : DigestMode} {op : Operator} {input inner node t : Node}
  {traits : TraitSet} {rowType : Schema} {ts : List Node}

/-- A placeholder has the tree of what it stands for. -/
theorem unfolds_of_held (h : g.held input = some inner) : g.Unfolds input t ↔ g.Unfolds inner t := by
  obtain ⟨id, hid, hcurrent⟩ := Option.bind_eq_some_iff.1 h
  rw [unfolds_of_vertexId? hid]
  constructor
  · rintro ⟨n, hn, ht⟩
    obtain rfl := Option.some.inj (hcurrent.symm.trans hn)
    exact ht
  · exact fun ht => ⟨inner, hcurrent, ht⟩

/-- The tree of an operator over one placeholder. -/
theorem exists_unfolds_inner (hop : ∀ id, op ≠ .vertex id) (h : g.held input = some inner)
    (ht : g.Unfolds ⟨op, [input], traits, rowType⟩ t) :
    ∃ u, g.Unfolds inner u ∧ t = ⟨op, [u], traits, rowType⟩ := by
  obtain ⟨ts, hts, rfl⟩ := (unfolds_operator (Node.vertexId?_eq_none.2 hop)).1 ht
  obtain ⟨u, us, hu, hus, rfl⟩ := List.forall₂_cons_left_iff.1 hts
  obtain rfl := List.forall₂_nil_left_iff.1 hus
  exact ⟨u, (unfolds_of_held h).1 hu, rfl⟩

/-- The operator of a tree is that of the expression. -/
theorem exists_inputs_of_unfolds (hnode : node.vertexId? = none)
    (ht : g.Unfolds node ⟨op, ts, traits, rowType⟩) :
    ∃ inputs, node = ⟨op, inputs, traits, rowType⟩ ∧ List.Forall₂ g.Unfolds inputs ts := by
  obtain ⟨us, hus, heq⟩ := (unfolds_operator hnode).1 ht
  cases node
  cases heq
  exact ⟨_, rfl, hus⟩

/-- A tree of one input belongs to an expression over one placeholder. -/
theorem exists_held_of_unfolds (hg : g.Linked mode) (hnode : g.OverVertices node)
    (ht : g.Unfolds node ⟨op, [t], traits, rowType⟩) :
    ∃ input inner, node = ⟨op, [input], traits, rowType⟩ ∧ g.held input = some inner ∧
      g.Unfolds inner t ∧ inner.vertexId? = none := by
  obtain ⟨inputs, rfl, hinputs⟩ := exists_inputs_of_unfolds hnode.isOperator ht
  obtain ⟨input, inputs, hinput, hnil, rfl⟩ := List.forall₂_cons_right_iff.1 hinputs
  obtain rfl := List.forall₂_nil_right_iff.1 hnil
  obtain ⟨j, hj⟩ := hnode.inputs input List.mem_cons_self
  obtain ⟨inner, hinner⟩ := contains_iff_current.1 (contains_of_placeholder hj)
  have hheld : g.held input = some inner := by
    rw [held, hg.vertexId?_placeholder hj]
    exact hinner
  exact ⟨input, inner, rfl, hheld, (unfolds_of_held hheld).1 hinput,
    (hg.currents j inner hinner).isOperator⟩

end Graph

open QueryPlanner.Graph

namespace Simplification

variable {g : Graph} {mode : DigestMode} {node node' t u : Node} {s : Simplification}

/-- Rewriting an expression is a step of its tree. -/
theorem Rewrites.exists_step (h : Rewrites g.held s node node') (ht : g.Unfolds node t) :
    ∃ u, g.Unfolds node' u ∧ Step s t u := by
  cases h with
  | trivialFilter he =>
    obtain ⟨ts, hts, rfl⟩ := (unfolds_operator rfl).1 ht
    obtain ⟨u, us, hu, -, rfl⟩ := List.forall₂_cons_left_iff.1 hts
    exact ⟨u, hu, .trivialFilter he⟩
  | @overProjection count _ _ traits _ _ _ _ _ inputs hheld hbelow =>
    obtain ⟨v, hv, rfl⟩ := exists_unfolds_inner (by simp) hheld ht
    obtain ⟨ts, hts, rfl⟩ := (unfolds_operator rfl).1 hv
    obtain ⟨type, -, rfl⟩ := Node.make_eq_ok.1 hbelow
    have hlimit : g.Unfolds ⟨.limit count, inputs, traits, type⟩ ⟨.limit count, ts, traits, type⟩ :=
      (unfolds_operator rfl).2 ⟨ts, hts, rfl⟩
    exact ⟨_, (unfolds_operator rfl).2 ⟨_, .cons hlimit .nil, rfl⟩, .overProjection⟩
  | limits hheld =>
    obtain ⟨v, hv, rfl⟩ := exists_unfolds_inner (by simp) hheld ht
    obtain ⟨ts, hts, rfl⟩ := (unfolds_operator rfl).1 hv
    exact ⟨_, (unfolds_operator rfl).2 ⟨ts, hts, rfl⟩, .limits⟩
  | intoScan hheld =>
    obtain ⟨v, hv, rfl⟩ := exists_unfolds_inner (by simp) hheld ht
    obtain ⟨ts, hts, rfl⟩ := (unfolds_operator rfl).1 hv
    exact ⟨_, (unfolds_operator rfl).2 ⟨ts, hts, rfl⟩, .intoScan⟩

/-- A step of the tree of an expression is made by rewriting the expression. -/
theorem Step.exists_rewrites (hg : g.Linked mode) (hnode : g.OverVertices node)
    (ht : g.Unfolds node t) (hgrounded : t.Grounded) (h : Step s t u) :
    ∃ node', Rewrites g.held s node node' := by
  cases h with
  | trivialFilter he =>
    obtain ⟨inputs, rfl, hinputs⟩ := exists_inputs_of_unfolds hnode.isOperator ht
    obtain ⟨input, rest, -, -, rfl⟩ := List.forall₂_cons_right_iff.1 hinputs
    exact ⟨input, .trivialFilter he⟩
  | overProjection =>
    obtain ⟨input, inner, rfl, hheld, hinner, hnone⟩ := exists_held_of_unfolds hg hnode ht
    obtain ⟨inputs, rfl, hinputs⟩ := exists_inputs_of_unfolds hnone hinner
    obtain ⟨hne, -⟩ := grounded_iff.1 ((grounded_iff.1 hgrounded).2 _ List.mem_cons_self)
    -- over a projection without inputs the limit would have no row type
    cases hinputs with
    | nil => exact absurd rfl (hne rfl)
    | cons hinput _ =>
      exact ⟨_, .overProjection hheld (Node.make_eq_ok.2 ⟨_, rfl, rfl⟩)⟩
  | limits =>
    obtain ⟨input, inner, rfl, hheld, hinner, hnone⟩ := exists_held_of_unfolds hg hnode ht
    obtain ⟨inputs, rfl, -⟩ := exists_inputs_of_unfolds hnone hinner
    exact ⟨_, .limits hheld⟩
  | intoScan =>
    obtain ⟨input, inner, rfl, hheld, hinner, hnone⟩ := exists_held_of_unfolds hg hnode ht
    obtain ⟨inputs, rfl, -⟩ := exists_inputs_of_unfolds hnone hinner
    exact ⟨_, .intoScan hheld⟩

end Simplification

end QueryPlanner
