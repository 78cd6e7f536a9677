import QueryPlanner.Graph.Binding
import QueryPlanner.Proofs.Graph.Vertices

/-!
# Bindings of patterns

A pattern is bound by looking at expressions alone. What a match of a simple pattern says about the
expressions is read off the pattern.
-/

namespace QueryPlanner.Graph

variable {g g' : Graph} {node : Node} {b b' : Binding} {k k' : OperatorKind}

/-! ## Graphs that differ in cached costs alone -/

theorem Alike.inputExpressions (h : g.Alike g') : g'.inputExpressions = g.inputExpressions := by
  funext node
  rw [Graph.inputExpressions, Graph.inputExpressions, h.dump,
    show g'.current? = g.current? from funext h.current?]

mutual

theorem Alike.bind (h : g.Alike g') : ∀ (pattern : Pattern) (node : Node) (b : Binding),
    g'.bind pattern node b = g.bind pattern node b
  | ⟨kind, convention, test, policy, children⟩, node, b => by
    rw [Graph.bind, Graph.bind, h.inputExpressions]
    simp only [Alike.bindEach h children, Alike.bindPairwise h children]

theorem Alike.bindPairwise (h : g.Alike g') : ∀ (patterns : List Pattern) (nodes : List Node)
    (b : Binding), g'.bindPairwise patterns nodes b = g.bindPairwise patterns nodes b
  | [], _, b => by simp only [Graph.bindPairwise]
  | _ :: _, [], b => by simp only [Graph.bindPairwise]
  | p :: ps, n :: ns, b => by
    rw [Graph.bindPairwise, Graph.bindPairwise, Alike.bind h p]
    simp only [Alike.bindPairwise h ps]

theorem Alike.bindEach (h : g.Alike g') : ∀ (patterns : List Pattern) (inputs : List Node)
    (b : Binding), g'.bindEach patterns inputs b = g.bindEach patterns inputs b
  | [], _, b => by rw [Graph.bindEach, Graph.bindEach]
  | p :: ps, inputs, b => by
    rw [Graph.bindEach, Graph.bindEach]
    simp only [Alike.bind h p, Alike.bindEach h ps]

end

/-! ## Patterns of one kind -/

theorem bind_any {kind : Option OperatorKind} {convention : Option Convention} {test : Node → Bool}
    (h : g.bind ⟨kind, convention, test, .any, []⟩ node b = .ok (some b')) :
    Pattern.accepts ⟨kind, convention, test, .any, []⟩ node = true ∧ b' = b.push node := by
  simp only [bind] at h
  split_ifs at h with haccepts hinputs
  · cases h
  · cases h
  · cases h
    exact ⟨by simpa [Pattern.accepts] using haccepts, rfl⟩

theorem bind_ofKind (h : g.bind (.ofKind k) node b = .ok (some b')) :
    node.kind = k ∧ b' = b.push node := by
  simp only [Pattern.ofKind, Pattern.any, bind, Pattern.accepts] at h
  split_ifs at h with hkind hinputs
  · cases h
  · cases h
  · cases h
    exact ⟨by simpa using hkind, rfl⟩

/-- A pattern for the one input of an expression matches what the input stands for. -/
theorem bind_withInput {child : Pattern}
    (h : g.bind ((Pattern.ofKind k).withInputs [child]) node b = .ok (some b')) :
    node.kind = k ∧ ∃ input n, node.inputs = [input] ∧
      input.vertexId?.bind g.current? = some n ∧ g.bind child n (b.push node) = .ok (some b') := by
  simp only [Pattern.ofKind, Pattern.any, Pattern.withInputs, bind, Pattern.accepts] at h
  split_ifs at h with hkind hinputs hlength
  · cases h
  · cases h
  · cases h
  · obtain ⟨input, hinput⟩ := List.length_eq_one_iff.1 (not_not.1 hlength)
    refine ⟨by simpa using hkind, input, ?_⟩
    rw [inputExpressions, hinput] at h
    cases hn : input.vertexId?.bind g.current? with
    | none =>
      simp only [List.mapM_cons, hn] at h
      cases h
    | some n =>
      refine ⟨n, hinput, rfl, ?_⟩
      simp only [List.mapM_cons, List.mapM_nil, hn] at h
      change g.bindPairwise [child] [n] (b.push node) = _ at h
      rw [bindPairwise] at h
      cases hb : g.bind child n (b.push node) with
      | error f =>
        rw [hb] at h
        cases h
      | ok c =>
        rw [hb] at h
        cases c with
        | none => cases h
        | some c => exact h

/-- Over vertices, a pattern without children matches exactly what it accepts. -/
theorem bind_any_eq (kind : Option OperatorKind) (convention : Option Convention)
    (test : Node → Bool) (hvertices : ∀ i ∈ node.inputs, i.vertexId?.isSome = true) :
    g.bind ⟨kind, convention, test, .any, []⟩ node b =
      .ok (if Pattern.accepts ⟨kind, convention, test, .any, []⟩ node then some (b.push node)
        else none) := by
  have hnone : node.inputs.any (·.vertexId?.isNone) = false := by
    simpa [Option.isNone_iff_eq_none, Option.isSome_iff_ne_none] using hvertices
  rw [bind]
  cases haccepts : Pattern.accepts ⟨kind, convention, test, .any, []⟩ node with
  | false => simp [pure, Except.pure]
  | true => simp [hnone, pure, Except.pure]

theorem bind_ofKind_eq (hvertices : ∀ i ∈ node.inputs, i.vertexId?.isSome = true) :
    g.bind (.ofKind k) node b = .ok (if node.kind = k then some (b.push node) else none) := by
  rw [Pattern.ofKind, Pattern.any, bind_any_eq _ _ _ hvertices]
  simp [Pattern.accepts]

/-- Over vertices, a pattern for the one input of an expression is left to what the input stands for,
or does not match for want of the kind or of a single input. -/
theorem bind_withInput_eq {c : Pattern}
    (hvertices : ∀ i ∈ node.inputs, ∃ n, i.vertexId?.bind g.current? = some n) :
    (∃ input n, node.kind = k ∧ node.inputs = [input] ∧
      input.vertexId?.bind g.current? = some n ∧
        g.bind ((Pattern.ofKind k).withInputs [c]) node b = g.bind c n (b.push node)) ∨
      (∀ input, node.kind = k → node.inputs ≠ [input]) ∧
        g.bind ((Pattern.ofKind k).withInputs [c]) node b = .ok none := by
  have hnone : node.inputs.any (·.vertexId?.isNone) = false := by
    rw [List.any_eq_false]
    intro i hi
    obtain ⟨n, hn⟩ := hvertices i hi
    cases hid : i.vertexId? with
    | none => simp [hid] at hn
    | some id => simp
  simp only [Pattern.ofKind, Pattern.any, Pattern.withInputs, bind, Pattern.accepts, hnone]
  by_cases hkind : node.kind = k
  · by_cases hlength : node.inputs.length = 1
    · obtain ⟨input, hinput⟩ := List.length_eq_one_iff.1 hlength
      obtain ⟨n, hn⟩ := hvertices input (by simp [hinput])
      refine .inl ⟨input, n, hkind, hinput, hn, ?_⟩
      simp only [hkind, decide_true, Bool.true_and, Bool.not_true, Bool.false_eq_true, if_false,
        hinput, List.length_singleton, ne_eq, not_true_eq_false, inputExpressions, List.mapM_cons,
        List.mapM_nil, hn]
      change g.bindPairwise [c] [n] (b.push node) = _
      rw [bindPairwise]
      cases g.bind c n (b.push node) with
      | error f => rfl
      | ok bound => cases bound <;> rfl
    · refine .inr ⟨fun input _ hinput => hlength (by simp [hinput]), ?_⟩
      simp [hkind, hlength, pure, Except.pure]
  · exact .inr ⟨fun _ h => absurd h hkind, by simp [hkind, pure, Except.pure]⟩

end QueryPlanner.Graph
