import QueryPlanner.Proofs.Graph.Unfolding

/-!
# Infinite costs absorb

A sum with an infinite part is infinite in every dimension, and in no comparison is the infinite cost
the lesser one. Where a request for traits costs infinitely much, everything above it does, whatever
the other rows and costs are, also where these are infinite or not numbers.
-/

namespace QueryPlanner

namespace Cost

open Float.Model

theorem isInfinite_infinity : infinity.isInfinite = true := by decide +kernel

theorem infinity_plus (c : Cost) : infinity.plus c = infinity := by
  rw [plus, isInfinite_infinity, Bool.true_or, if_pos rfl]

theorem plus_infinity (c : Cost) : c.plus infinity = infinity := by
  rw [plus, isInfinite_infinity, Bool.or_true, if_pos rfl]

theorem foldl_plus_infinity (costs : List Cost) : costs.foldl plus infinity = infinity := by
  induction costs with
  | nil => rfl
  | cons c costs ih => rw [List.foldl_cons, infinity_plus, ih]

/-- A sum with an infinite part is infinite. -/
theorem foldl_plus_eq_infinity {costs : List Cost} (h : infinity ∈ costs) :
    ∀ c, costs.foldl plus c = infinity := by
  induction costs with
  | nil => cases h
  | cons c' costs ih =>
    intro c
    rw [List.foldl_cons]
    rcases List.mem_cons.1 h with rfl | h
    · rw [plus_infinity, foldl_plus_infinity]
    · exact ih h _

/-! ## Comparisons -/

theorem unpack_rows_infinity : infinity.rows.toModel.unpack = .infinity .positive := rfl

theorem less_eq_lt (a b : Cost) :
    a.less b = a.rows.toModel.unpack.lt b.rows.toModel.unpack := by
  rw [less, Bool.eq_iff_iff, decide_eq_true_iff]
  exact decide_eq_true_iff

/-- The infinite cost is never the lesser one, not even where rows are not a number. -/
theorem infinity_less (c : Cost) : infinity.less c = false := by
  rw [less_eq_lt, unpack_rows_infinity]
  rcases c.rows.toModel.unpack with ⟨_ | _⟩ | _ | _ | _ <;> rfl

theorem less_infinity {c : Cost} (h : c.rows.isFinite = true) : c.less infinity = true := by
  rw [less_eq_lt, unpack_rows_infinity]
  have h : c.rows.toModel.unpack.isFinite = true := h
  cases hc : c.rows.toModel.unpack with
  | infinity sign =>
    rw [hc] at h
    cases h
  | notANumber =>
    rw [hc] at h
    cases h
  | zero sign => rfl
  | finite sign mantissa exponent hpos => cases sign <;> rfl

theorem ne_infinity_of_isFinite {c : Cost} (h : c.rows.isFinite = true) : c ≠ infinity := by
  rintro rfl
  have hless := less_infinity h
  rw [infinity_less] at hless
  cases hless

end Cost

/-- Requests for traits cost infinitely much. -/
def CostModel.Forbids (model : CostModel) : Prop :=
  ∀ node rows counts, node.operator = .abstractConverter →
    model.selfCost node rows counts = .infinity

theorem CostModel.forbids_touchedRows : touchedRows.Forbids := by
  intro node rows counts h
  simp only [touchedRows, h]

namespace Graph

variable {model : CostModel} {g : Graph} {node : Node} {cost : Cost}

/-- The expression, its placeholders standing for what the graph holds for them, is a request for traits
or has one below it. -/
inductive Unimplemented (g : Graph) : Node → Prop
  | request {node : Node} (h : (g.resolve node).operator = .abstractConverter) :
      Unimplemented g node
  | input {node input : Node} (hinput : input ∈ (g.resolve node).inputs)
      (h : Unimplemented g input) : Unimplemented g node

/-- A request for traits makes everything above it cost infinitely much. -/
theorem Unimplemented.eq_infinity (hmodel : model.Forbids) (h : g.Unimplemented node) :
    ∀ {cost}, g.HasCost model node cost → cost = .infinity := by
  induction h with
  | request h =>
    rintro cost ⟨_ | n, hcost⟩
    · cases hcost
    · obtain ⟨counts, costs, -, -, rfl⟩ := plainCost_succ.1 hcost
      rw [hmodel _ _ _ h, Cost.foldl_plus_infinity]
  | input hinput _ ih =>
    rintro cost ⟨_ | n, hcost⟩
    · cases hcost
    · obtain ⟨counts, costs, -, hcosts, rfl⟩ := plainCost_succ.1 hcost
      obtain ⟨cost, hmem, hcost⟩ := exists_of_mem_forall₂ hcosts _ hinput
      obtain rfl := ih ⟨n, hcost⟩
      exact Cost.foldl_plus_eq_infinity hmem _

end Graph

end QueryPlanner
