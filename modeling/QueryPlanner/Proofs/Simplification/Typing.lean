import QueryPlanner.Proofs.Planner.Typing
import QueryPlanner.Proofs.Simplification.Proposals

/-!
# Simplifications keep row types

Each simplification puts an expression in place of one of the same row type, and what it puts there
is well typed itself.
-/

namespace QueryPlanner

open QueryPlanner.Graph Planning

namespace Operator

variable {inputs : List Schema} {rowType : Schema}

/-- A limit or a filter has the rows of its first input. -/
theorem derives_limit {count : Nat} :
    (limit count).Derives inputs rowType ↔ inputs.head? = some rowType := by
  cases inputs with
  | nil => simp [Derives, Operator.rowType, inputRowType]
  | cons s rest => simp [Derives, Operator.rowType, inputRowType]

theorem derives_filter {condition : Expr} :
    (filter condition).Derives inputs rowType ↔ inputs.head? = some rowType := by
  cases inputs with
  | nil => simp [Derives, Operator.rowType, inputRowType]
  | cons s rest => simp [Derives, Operator.rowType, inputRowType]

theorem head?_of_derives_projection {exprs : List Expr} {names : List String}
    (h : (projection exprs names).Derives inputs rowType) : ∃ s rest, inputs = s :: rest := by
  cases inputs with
  | nil =>
    rw [Derives, Operator.rowType] at h
    split_ifs at h <;> cases h
  | cons s rest => exact ⟨s, rest, rfl⟩

end Operator

/-- A check of row types that simplifications do not disturb. -/
structure TypeCheck.Stable (W : TypeCheck) : Prop where
  derives : ∀ op inputs rowType, W op inputs rowType → op.Derives inputs rowType
  limit : ∀ count inputs rowType, (Operator.limit count).Derives inputs rowType →
    W (.limit count) inputs rowType
  scan : ∀ scan count inputs rowType, W (.tableScan scan) inputs rowType →
    W (.tableScan (scan.cutAt count)) inputs rowType
  projection : ∀ exprs names s rest rowType, W (.projection exprs names) (s :: rest) rowType →
    W (.projection exprs names) [s] rowType

theorem stable_derives : TypeCheck.Stable Operator.Derives where
  derives _ _ _ h := h
  limit _ _ _ h := h
  scan _ _ _ _ h := h
  projection _ _ _ _ _ h := h

theorem stable_findsColumns :
    TypeCheck.Stable fun op inputs rowType => op.Derives inputs rowType ∧ op.FindsColumns inputs where
  derives _ _ _ h := h.1
  limit _ _ _ h := ⟨h, fun _ he => nomatch he⟩
  scan _ _ _ _ h := ⟨h.1, fun _ he => nomatch he⟩
  projection _ _ _ _ _ h := h

namespace Simplification

variable {W : TypeCheck}

/-- What a simplification proposes has the row type of what it replaces. -/
theorem keepsTypes (hW : W.Stable) (s : Simplification) : s.rule.KeepsTypes W := by
  intro p id force node proposed hp htyped h n hn
  have hover := hp.currents id node h.current
  have hcheck := htyped.current id node h.current
  have hplaceholder : ∀ {m : Node}, p.graph.OverVertices m → ∀ i ∈ m.inputs, p.graph.Types W i := by
    intro m hm i hi
    obtain ⟨j, hj⟩ := hm.inputs i hi
    exact hp.types_placeholder hj
  -- what an input stands for is typed, and has the row type of the input
  have hheld : ∀ {input inner : Node}, input ∈ node.inputs → p.graph.held input = some inner →
      (∀ i ∈ inner.inputs, p.graph.Types W i) ∧
        W inner.operator (inner.inputs.map Node.rowType) inner.rowType ∧
          input.rowType = inner.rowType := by
    intro input inner hinput hinner
    obtain ⟨j, hj⟩ := hover.inputs input hinput
    obtain ⟨i, hi, hcurrent⟩ := Option.bind_eq_some_iff.1 hinner
    obtain rfl := Option.some.inj ((hp.vertexId?_placeholder hj).symm.trans hi)
    exact ⟨hplaceholder (hp.currents j inner hcurrent), htyped.current j inner hcurrent,
      htyped.placeholder j inner input hcurrent hj⟩
  cases rewrites_of_proposes h n hn with
  | trivialFilter he =>
    have hrow := Operator.derives_filter.1 (hW.derives _ _ _ hcheck)
    exact ⟨hplaceholder hover _ List.mem_cons_self, Option.some.inj hrow⟩
  | @overProjection count input below traits traits' rowType rowType' exprs names inputs hinner
      hbelow =>
    obtain ⟨htypes, hprojection, hrow'⟩ := hheld List.mem_cons_self hinner
    have hrow := Option.some.inj (Operator.derives_limit.1 (hW.derives _ _ _ hcheck))
    obtain ⟨type, htype, rfl⟩ := Node.make_eq_ok.1 hbelow
    have hlimit := hW.limit count _ _ htype
    obtain ⟨s, rest, hinputs⟩ :=
      Operator.head?_of_derives_projection (hW.derives _ _ _ hprojection)
    simp only at hinputs hprojection
    have hhead := Operator.derives_limit.1 htype
    rw [hinputs] at hprojection hhead
    obtain rfl : s = type := Option.some.inj hhead
    refine ⟨(types_operator rfl).2 ⟨hW.projection _ _ _ _ _ hprojection, fun i hi => ?_⟩,
      hrow'.symm.trans hrow⟩
    obtain rfl := List.mem_singleton.1 hi
    exact (types_operator rfl).2 ⟨hlimit, htypes⟩
  | limits hinner =>
    obtain ⟨htypes, hlimit, hrow'⟩ := hheld List.mem_cons_self hinner
    have hrow := Option.some.inj (Operator.derives_limit.1 (hW.derives _ _ _ hcheck))
    have hhead := Operator.derives_limit.1 (hW.derives _ _ _ hlimit)
    exact ⟨(types_operator rfl).2 ⟨hW.limit _ _ _ (Operator.derives_limit.2 hhead), htypes⟩,
      hrow'.symm.trans hrow⟩
  | intoScan hinner =>
    obtain ⟨htypes, hscan, hrow'⟩ := hheld List.mem_cons_self hinner
    have hrow := Option.some.inj (Operator.derives_limit.1 (hW.derives _ _ _ hcheck))
    exact ⟨(types_operator rfl).2 ⟨hW.scan _ _ _ _ hscan, htypes⟩, hrow'.symm.trans hrow⟩

end Simplification

namespace Planner

theorem closed_simplifications {A : Rule → Prop} {S : Finset Simplification} {rules : List Rule}
    (hA : ∀ s ∈ S, A s.rule) (hrules : ∀ rule ∈ rules, ∃ s ∈ S, s.rule = rule) :
    Closed A rules := by
  intro rule hrule
  obtain ⟨s, hs, rfl⟩ := hrules rule hrule
  exact ⟨hA s hs, by cases s <;> exact fun companion h => nomatch h⟩

/-- A scan of one column. -/
def columnScan : Node := ⟨.tableScan ⟨"t", ⟨[⟨"a", .int64, false⟩]⟩, none, none⟩, [], .default,
  ⟨[⟨"a", .int64, false⟩]⟩⟩

end Planner

end QueryPlanner
