import QueryPlanner.Proofs.Planner.Reduction
import QueryPlanner.Proofs.Simplification.Proposals

/-!
# Simplifications miss nothing

Over vertices, a simplification proposes something for an expression whenever the expression can be
rewritten by it: its pattern matches, and nothing that it does can fail as long as projections have
inputs. Below a projection without inputs there is no place for a limit.
-/

namespace QueryPlanner

open QueryPlanner.Graph Planning Planner

namespace Simplification

variable {g : Graph} {p : Planner} {mode : DigestMode} {id : VertexId} {node : Node}

/-- A limit over an expression of some kind is what the pattern for it matches. -/
theorem bind_limitOver (hg : g.Linked mode) (hnode : g.current? id = some node)
    (kind : OperatorKind) :
    (∃ count input inner traits rowType, node = ⟨.limit count, [input], traits, rowType⟩ ∧
      g.held input = some inner ∧ inner.kind = kind ∧
        g.bind ((Pattern.ofKind .limit).withInputs [.ofKind kind]) node .empty =
          .ok (some ⟨[node, inner], []⟩)) ∨
      (∀ count input inner traits rowType, node = ⟨.limit count, [input], traits, rowType⟩ →
        g.held input = some inner → inner.kind ≠ kind) ∧
          g.bind ((Pattern.ofKind .limit).withInputs [.ofKind kind]) node .empty = .ok none := by
  have hheld : ∀ i ∈ node.inputs, ∃ n, i.vertexId?.bind g.current? = some n := by
    intro i hi
    obtain ⟨j, hj⟩ := (hg.currents id node hnode).inputs i hi
    obtain ⟨n, hn⟩ := contains_iff_current.1 (contains_of_placeholder hj)
    exact ⟨n, by rw [hg.vertexId?_placeholder hj]; exact hn⟩
  rcases bind_withInput_eq (k := .limit) (c := .ofKind kind) (b := .empty) hheld with
    ⟨input, inner, hkind, hinputs, hinner, hbind⟩ | ⟨hshape, hbind⟩
  · obtain ⟨i, -, hcurrent⟩ := Option.bind_eq_some_iff.1 hinner
    rw [hbind, bind_ofKind_eq (hg.isSome_vertexId? (hg.currents i inner hcurrent))]
    obtain ⟨count, hcount⟩ := Node.operator_of_limit hkind
    obtain ⟨op, inputs, traits, rowType⟩ := node
    obtain rfl : op = .limit count := hcount
    obtain rfl : inputs = [input] := hinputs
    by_cases hk : inner.kind = kind
    · exact .inl ⟨count, input, inner, traits, rowType, rfl, hinner, hk, by rw [if_pos hk]; rfl⟩
    · refine .inr ⟨?_, by rw [if_neg hk]⟩
      rintro _ _ inner' _ _ heq hinner'
      cases heq
      obtain rfl := Option.some.inj (hinner.symm.trans hinner')
      exact hk
  · refine .inr ⟨?_, hbind⟩
    rintro count input inner traits rowType rfl
    exact absurd rfl (hshape input rfl)

/-- What a simplification does with an expression: it proposes what the expression is rewritten to, it
does not rewrite it and proposes nothing, or it fails on a projection without inputs. -/
theorem acts (hg : p.graph.Linked mode) (hnode : p.graph.current? id = some node)
    (s : Simplification) :
    Acts s.rule p node (∀ node', ¬ Rewrites p.graph.held s node node')
      (Rewrites p.graph.held s node) fun f => (∃ cause, f = .firing s.rule.description cause) ∧
        ∃ input inner, p.graph.held input = some inner ∧ inner.kind = .projection ∧
          inner.inputs = [] := by
  cases s with
  | removeTrivialFilter =>
    have hbind : p.graph.bind Rule.removeTrivialFilter.pattern node .empty = _ :=
      bind_any_eq (some .filter) none Node.isTrivialFilter
        (hg.isSome_vertexId? (hg.currents id node hnode))
    by_cases htrivial : node.isTrivialFilter = true
    · obtain ⟨e, he, htrue⟩ := Node.operator_of_isTrivialFilter htrivial
      obtain ⟨op, inputs, traits, rowType⟩ := node
      obtain rfl : op = .filter e := he
      rw [if_pos (by simp [Pattern.accepts, Node.kind, Operator.kind, htrivial])] at hbind
      cases inputs with
      | nil =>
        refine .inr ⟨_, hbind, (ends_fire_done (fun _ _ => False) rfl rfl _ p).mono
          (fun _ _ h => .inl ⟨h, fun _ h => ?_⟩) fun _ _ h => h.elim⟩
        cases h
      | cons input rest =>
        exact .inr ⟨_, hbind, (ends_fire_offer (fun _ _ => False) rfl rfl _ p).mono
          (fun _ _ h => .inr ⟨_, h, .trivialFilter htrue⟩) fun _ _ h => h.elim⟩
    · rw [if_neg (by simp [Pattern.accepts, htrivial])] at hbind
      refine .inl ⟨hbind, fun _ h => ?_⟩
      cases h with
      | trivialFilter he => exact htrivial (by simp [Node.isTrivialFilter, he])
  | pushLimitOverProjection =>
    rcases bind_limitOver hg hnode .projection with
      ⟨count, input, inner, traits, rowType, rfl, hinner, hkind, hbind⟩ | ⟨hshape, hbind⟩
    · obtain ⟨exprs, names, hop⟩ := Node.operator_of_projection hkind
      obtain ⟨op, inputs, traits', rowType'⟩ := inner
      obtain rfl : op = .projection exprs names := hop
      have hcall := fire_pushLimitOverProjection ⟨.limit count, [input], traits, rowType⟩
        ⟨.projection exprs names, inputs, traits', rowType'⟩ [] none
      refine .inr ⟨_, hbind, ?_⟩
      cases inputs with
      | nil =>
        exact (ends_fire_fail rfl hcall _ p).mono (fun _ _ h => h.elim)
          fun _ _ h => ⟨⟨_, h⟩, input, _, hinner, rfl, rfl⟩
      | cons i is =>
        have hbelow : Node.make (.limit count) (i :: is) traits =
            .ok ⟨.limit count, i :: is, traits, i.rowType⟩ := Node.make_eq_ok.2 ⟨i.rowType, rfl, rfl⟩
        rw [hbelow] at hcall
        exact (ends_fire_offer (fun _ _ => False) rfl hcall _ p).mono
          (fun _ _ h => .inr ⟨_, h, .overProjection hinner hbelow⟩) fun _ _ h => h.elim
    · refine .inl ⟨hbind, fun _ h => ?_⟩
      cases h with
      | overProjection hinner hbelow => exact hshape _ _ _ _ _ rfl hinner rfl
  | removeLimit =>
    rcases bind_limitOver hg hnode .limit with
      ⟨outer, input, inner, traits, rowType, rfl, hinner, hkind, hbind⟩ | ⟨hshape, hbind⟩
    · obtain ⟨count, hop⟩ := Node.operator_of_limit hkind
      obtain ⟨op, inputs, traits', rowType'⟩ := inner
      obtain rfl : op = .limit count := hop
      exact .inr ⟨_, hbind, (ends_fire_offer (fun _ _ => False) rfl rfl _ p).mono
        (fun _ _ h => .inr ⟨_, h, .limits hinner⟩) fun _ _ h => h.elim⟩
    · refine .inl ⟨hbind, fun _ h => ?_⟩
      cases h with
      | limits hinner => exact hshape _ _ _ _ _ rfl hinner rfl
  | pushLimitToTableScan =>
    rcases bind_limitOver hg hnode .tableScan with
      ⟨count, input, inner, traits, rowType, rfl, hinner, hkind, hbind⟩ | ⟨hshape, hbind⟩
    · obtain ⟨scan, hop⟩ := Node.operator_of_tableScan hkind
      obtain ⟨op, inputs, traits', rowType'⟩ := inner
      obtain rfl : op = .tableScan scan := hop
      exact .inr ⟨_, hbind, (ends_fire_offer (fun _ _ => False) rfl rfl _ p).mono
        (fun _ _ h => .inr ⟨_, h, .intoScan hinner⟩) fun _ _ h => h.elim⟩
    · refine .inl ⟨hbind, fun _ h => ?_⟩
      cases h with
      | intoScan hinner => exact hshape _ _ _ _ _ rfl hinner rfl

end Simplification

end QueryPlanner
