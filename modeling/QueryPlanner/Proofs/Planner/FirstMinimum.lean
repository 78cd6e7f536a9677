import QueryPlanner.Proofs.Graph.Comparison
import QueryPlanner.Proofs.Planner.Selection

/-!
# The first of the cheapest candidates

The choice is followed candidate by candidate: the best one so far stays, or a cheaper one takes its
place. Where the costs are compared by a strict order, no candidate is cheaper than the chosen one.
Where they are compared by a strict weak order, all candidates before it are dearer. Both are orders
among the costs of the candidates only, which are those found without a cache.
-/

namespace QueryPlanner

open QueryPlanner.Graph Planning

namespace CostModel

variable {model : CostModel} {costs : List Cost} {seen : List (Node × Cost)} {k : ℕ}
  {best : Node × Cost}

/-- The comparison of a cost model as a relation. -/
def Cheaper (model : CostModel) (a b : Cost) : Prop := model.cheaper a b = true

/-- The comparison among these costs only. -/
abbrev CheaperAmong (model : CostModel) (costs : List Cost) :
    {c // c ∈ costs} → {c // c ∈ costs} → Prop :=
  Subrel model.Cheaper (· ∈ costs)

/-- The positions of costs than which none is cheaper. -/
def minima (model : CostModel) (costs : List Cost) : Set ℕ :=
  {k | ∃ cost, costs[k]? = some cost ∧ ∀ c ∈ costs, ¬ model.Cheaper c cost}

/-! ## Following the choice -/

/-- Of the candidates seen so far the one at this position is kept. -/
inductive Keeps (model : CostModel) : List (Node × Cost) → ℕ → Node × Cost → Prop
  | first (c : Node × Cost) : Keeps model [c] 0 c
  | replaced {seen : List (Node × Cost)} {k : ℕ} {best next : Node × Cost}
      (h : Keeps model seen k best) (hnext : model.Cheaper next.2 best.2) :
      Keeps model (seen ++ [next]) seen.length next
  | kept {seen : List (Node × Cost)} {k : ℕ} {best next : Node × Cost}
      (h : Keeps model seen k best) (hnext : ¬ model.Cheaper next.2 best.2) :
      Keeps model (seen ++ [next]) k best

theorem Keeps.foldl (h : model.Keeps seen k best) (others : List (Node × Cost)) :
    ∃ k, model.Keeps (seen ++ others) k (others.foldl model.preferred best) := by
  induction others generalizing seen k best with
  | nil => exact ⟨k, by rwa [List.append_nil]⟩
  | cons next others ih =>
    rw [List.foldl_cons, List.append_cons]
    by_cases hnext : model.cheaper next.2 best.2
    · rw [preferred, if_pos hnext]
      exact ih (h.replaced hnext)
    · rw [preferred, if_neg hnext]
      exact ih (h.kept hnext)

/-- The best candidate stands at some position, up to which it was found in this way. -/
theorem exists_keeps_best (model : CostModel) (first : Node × Cost) (others : List (Node × Cost)) :
    ∃ k, model.Keeps (first :: others) k (model.best first others) :=
  (Keeps.first first).foldl others

namespace Keeps

theorem getElem?_eq (h : model.Keeps seen k best) : seen[k]? = some best := by
  induction h with
  | first c => rfl
  | replaced h hnext ih => exact List.getElem?_concat_length
  | @kept seen k best next h hnext ih =>
    rwa [List.getElem?_append_left (List.getElem?_eq_some_iff.1 ih).1]

theorem mem (h : model.Keeps seen k best) : best ∈ seen := List.mem_of_getElem? h.getElem?_eq

section Order

variable [IsStrictOrder {c // c ∈ costs} (model.CheaperAmong costs)]

/-- No candidate is cheaper than the one that is kept. -/
theorem not_cheaper (h : model.Keeps seen k best) (hseen : ∀ c ∈ seen, c.2 ∈ costs) :
    ∀ c ∈ seen, ¬ model.Cheaper c.2 best.2 := by
  have hirrefl : ∀ a ∈ costs, ¬ model.Cheaper a a := fun a ha =>
    irrefl_of (model.CheaperAmong costs) ⟨a, ha⟩
  induction h with
  | first c => simpa using hirrefl c.2 (hseen c (by simp))
  | @replaced seen k best next h hnext ih =>
    simp only [List.forall_mem_append, List.forall_mem_singleton] at hseen ⊢
    refine ⟨fun c hc hcheaper => ih hseen.1 c hc ?_, hirrefl _ hseen.2⟩
    exact trans_of (model.CheaperAmong costs) (a := ⟨c.2, hseen.1 c hc⟩) (b := ⟨next.2, hseen.2⟩)
      (c := ⟨best.2, hseen.1 best h.mem⟩) hcheaper hnext
  | kept h hnext ih =>
    simp only [List.forall_mem_append, List.forall_mem_singleton] at hseen ⊢
    exact ⟨ih hseen.1, hnext⟩

theorem mem_minima (h : model.Keeps seen k best) (hcosts : seen.map Prod.snd = costs) :
    k ∈ model.minima costs := by
  subst hcosts
  refine ⟨best.2, by rw [List.getElem?_map, h.getElem?_eq]; rfl, ?_⟩
  rw [List.forall_mem_map]
  exact h.not_cheaper fun c hc => List.mem_map_of_mem hc

end Order

section WeakOrder

variable [IsStrictWeakOrder {c // c ∈ costs} (model.CheaperAmong costs)]

/-- What is cheaper than a cost is cheaper than what is not cheaper than it. -/
theorem cheaper_of_not_cheaper {a b c : {c // c ∈ costs}} (hab : model.CheaperAmong costs a b)
    (hcb : ¬ model.CheaperAmong costs c b) : model.CheaperAmong costs a c := by
  by_contra hac
  have hca : ¬ model.CheaperAmong costs c a := fun hca => hcb (IsTrans.trans _ _ _ hca hab)
  have hbc : ¬ model.CheaperAmong costs b c := fun hbc => hac (IsTrans.trans _ _ _ hab hbc)
  exact (IsStrictWeakOrder.incomp_trans a c b ⟨hac, hca⟩ ⟨hcb, hbc⟩).1 hab

/-- The candidates before the one that is kept are dearer. -/
theorem cheaper_before (h : model.Keeps seen k best) (hseen : ∀ c ∈ seen, c.2 ∈ costs) {j : ℕ}
    (hj : j < k) {c : Node × Cost} (hc : seen[j]? = some c) : model.Cheaper best.2 c.2 := by
  induction h with
  | first => cases hj
  | @replaced seen k best next h hnext ih =>
    rw [List.getElem?_append_left hj] at hc
    simp only [List.forall_mem_append, List.forall_mem_singleton] at hseen
    have hmem := List.mem_of_getElem? hc
    exact cheaper_of_not_cheaper (a := ⟨next.2, hseen.2⟩) (b := ⟨best.2, hseen.1 best h.mem⟩)
      (c := ⟨c.2, hseen.1 c hmem⟩) hnext (h.not_cheaper hseen.1 c hmem)
  | kept h hnext ih =>
    have hk := (List.getElem?_eq_some_iff.1 h.getElem?_eq).1
    rw [List.getElem?_append_left (hj.trans hk)] at hc
    rw [List.forall_mem_append] at hseen
    exact ih hseen.1 hj hc

theorem isLeast_minima (h : model.Keeps seen k best) (hcosts : seen.map Prod.snd = costs) :
    IsLeast (model.minima costs) k := by
  refine ⟨h.mem_minima hcosts, ?_⟩
  rintro j ⟨cost, hj, hcheapest⟩
  by_contra hjk
  subst hcosts
  rw [List.getElem?_map, Option.map_eq_some_iff] at hj
  obtain ⟨c, hc, rfl⟩ := hj
  refine hcheapest best.2 (List.mem_map_of_mem h.mem) ?_
  exact h.cheaper_before (fun c hc => List.mem_map_of_mem hc) (not_le.1 hjk) hc

end WeakOrder

end Keeps

end CostModel

namespace Planner

variable {p : Planner}

/-! ## What a planner chooses -/

/-- States in which a planner may have to choose. It was driven there, and in the midst of a program
it has tried rules, has swept garbage, and has asked and reported anything. -/
inductive Engaged : Planner → Prop
  | driven {p : Planner} (h : Driven p) : Engaged p
  | executing {p : Planner} (hp : Engaged p) (execution : Execution) :
      Engaged { p with execution }
  | attempted {p q : Planner} {rule : Rule} {id : VertexId} {force : Bool}
      {replacement : Option Replacement} (hp : Engaged p)
      (h : attempt rule id force p = .ok replacement q) : Engaged q
  | collected {p q : Planner} (hp : Engaged p) (h : collectGarbage p = .ok () q) : Engaged q
  | asked {p q : Planner} (hp : Engaged p) (h : p.Undisturbed q) : Engaged q

theorem Engaged.exact (h : Engaged p) : p.Exact := by
  induction h with
  | driven h => exact h.exact
  | executing hp execution ih => exact law_exact.execution _ execution ih
  | @attempted p q rule id force replacement hp h ih =>
    exact (law_exact.attempt p rule id force ih.consistent trivial).ok h ih
  | collected hp h ih => exact ((ends_collectGarbage _ fun _ _ => True).ok h).exact ih
  | asked hp h ih => exact h.exact ih

/-- The planner follows the choice by costs found without a cache. -/
theorem exists_cheapest (hp : p.Exact) (first : Node) (others : List Node) :
    ∃ candidates k best q, candidates.map Prod.fst = first :: others ∧
      p.graph.Prices p.settings.model candidates ∧
      p.settings.model.Keeps candidates k best ∧ cheapest first others p = .ok best.1 q ∧
      p.Undisturbed q := by
  obtain ⟨candidates, hcandidates, hpriced⟩ :=
    hp.consistent.exists_prices p.settings.model (first :: others)
  obtain ⟨first, others, rfl⟩ : ∃ c cs, candidates = c :: cs :=
    List.exists_cons_of_ne_nil fun h => by simp [h] at hcandidates
  obtain ⟨rfl, rfl⟩ := List.cons.inj hcandidates
  rcases others with _ | ⟨second, others⟩
  · exact ⟨[first], 0, first, p, rfl, hpriced, .first first, rfl, .refl p⟩
  · obtain ⟨k, hk⟩ := p.settings.model.exists_keeps_best first (second :: others)
    obtain ⟨_, q, hq, rfl, hundisturbed⟩ :=
      (ends_cheapest_best hp hpriced (by simp) fun _ _ => False).exists_ok
    exact ⟨_, k, _, q, rfl, hpriced, hk, hq, hundisturbed⟩

/-- Where costs are compared by their rows, no candidate is cheaper than the chosen one, even if
rows are not numbers, and if all are numbers, the candidates before it are dearer. -/
theorem least_rows_of_cheapest (hp : p.Exact) (hless : p.settings.model.cheaper = Cost.less)
    (first : Node) (others : List Node) :
    ∃ (candidates : List (Node × Cost)) (k : ℕ) (best : Node × Cost) (q : Planner),
      candidates.map Prod.fst = first :: others ∧ p.graph.Prices p.settings.model candidates ∧
      cheapest first others p = .ok best.1 q ∧ candidates[k]? = some best ∧
      (∀ c ∈ candidates, c.2.less best.2 = false) ∧
      ((∀ c ∈ candidates, c.2.rows.isNaN = false) →
        ∀ j < k, ∀ c, candidates[j]? = some c → best.2.less c.2 = true) := by
  obtain ⟨candidates, k, best, q, hcandidates, hpriced, hkeeps, hq, -⟩ :=
    exists_cheapest hp first others
  have hcheaper : p.settings.model.Cheaper = fun a b => a.less b = true := by
    funext a b
    rw [CostModel.Cheaper, hless]
  have hmem : ∀ c ∈ candidates, c.2 ∈ candidates.map Prod.snd := fun c hc => List.mem_map_of_mem hc
  refine ⟨candidates, k, best, q, hcandidates, hpriced, hq, hkeeps.getElem?_eq, fun c hc => ?_,
    fun hnumbers j hj c hc => ?_⟩
  · have : IsStrictOrder _ (p.settings.model.CheaperAmong (candidates.map Prod.snd)) := by
      rw [CostModel.CheaperAmong, hcheaper]
      unfold Subrel
      infer_instance
    have h := hkeeps.not_cheaper hmem c hc
    rw [hcheaper] at h
    exact Bool.eq_false_of_not_eq_true h
  · have : IsStrictWeakOrder _ (p.settings.model.CheaperAmong (candidates.map Prod.snd)) := by
      rw [CostModel.CheaperAmong, hcheaper]
      exact Cost.isStrictWeakOrder_less (List.forall_mem_map.2 hnumbers)
    have h := hkeeps.cheaper_before hmem hj hc
    rwa [hcheaper] at h

/-- A planner finds a cost without a cache for every candidate, and chooses the one at some
position. If these costs are compared by a strict order, none is less than that of the chosen
candidate. If they are compared by a strict weak order, it is the first of which this holds. -/
theorem isLeast_minima_of_cheapest (h : Engaged p) (first : Node) (others : List Node) :
    ∃ costs, List.Forall₂ (p.graph.HasCost p.settings.model) (first :: others) costs ∧
      ∃ k best q, cheapest first others p = .ok best q ∧ p.Undisturbed q ∧
        (first :: others)[k]? = some best ∧
        (IsStrictOrder {c // c ∈ costs} (p.settings.model.CheaperAmong costs) →
          k ∈ p.settings.model.minima costs) ∧
        (IsStrictWeakOrder {c // c ∈ costs} (p.settings.model.CheaperAmong costs) →
          IsLeast (p.settings.model.minima costs) k) := by
  obtain ⟨candidates, k, best, q, hcandidates, hpriced, hkeeps, hq, hundisturbed⟩ :=
    exists_cheapest h.exact first others
  refine ⟨candidates.map Prod.snd, ?_, k, best.1, q, hq, hundisturbed, ?_, fun _ => ?_, fun _ => ?_⟩
  · rw [← hcandidates, List.forall₂_map_left_iff, List.forall₂_map_right_iff, List.forall₂_same]
    exact hpriced
  · rw [← hcandidates, List.getElem?_map, hkeeps.getElem?_eq]
    rfl
  · exact hkeeps.mem_minima rfl
  · exact hkeeps.isLeast_minima rfl

theorem isLeast_minima_of_cheapest_loadedLimits :
    ∃ costs q, List.Forall₂ (loadedLimits.graph.HasCost .touchedRows)
        [limitedRequest, .placeholder 1 .default .empty, .placeholder 2 .default .empty] costs ∧
      cheapest limitedRequest [.placeholder 1 .default .empty, .placeholder 2 .default .empty]
        loadedLimits = .ok (.placeholder 1 .default .empty) q ∧
      IsLeast (CostModel.touchedRows.minima costs) 1 := by
  have hbuild : succeeded (build .default ⟨[]⟩ [] stackedLimits) = true := by decide +kernel
  have hloaded : Driven loadedLimits := .built (eq_ok_of_succeeded hbuild)
  obtain ⟨costs, hcosts, k, best, q, hq, -, hk, -, hleast⟩ :=
    isLeast_minima_of_cheapest (.driven hloaded) limitedRequest
      [.placeholder 1 .default .empty, .placeholder 2 .default .empty]
  -- what the candidates cost is a number of rows
  have hnumber : ∀ node cost, loadedLimits.graph.HasCost .touchedRows node cost →
      yields (fun cost => cost.rows.isNaN = false)
        (onGraph (cumulativeCost .touchedRows node) loadedLimits) = true →
      cost.rows.isNaN = false := by
    intro node cost hcost hyields
    obtain ⟨cost', hcost', hrows⟩ := exists_ok_of_yields hyields
    obtain ⟨q, hq, -⟩ := cumulativeCost_eq_ok hloaded.exact hcost
    cases hcost'.symm.trans hq
    exact hrows
  have hnumbers : ∀ cost ∈ costs, cost.rows.isNaN = false := by
    rcases hcosts with _ | ⟨h₀, _ | ⟨h₁, _ | ⟨h₂, _ | _⟩⟩⟩
    simp only [List.forall_mem_cons]
    exact ⟨hnumber _ _ h₀ (by decide +kernel), hnumber _ _ h₁ (by decide +kernel),
      hnumber _ _ h₂ (by decide +kernel), by simp⟩
  have hchosen : yields (fun node => node.vertexId? = some 1) (cheapest limitedRequest
      [.placeholder 1 .default .empty, .placeholder 2 .default .empty] loadedLimits) = true := by
    decide +kernel
  obtain ⟨best', hq', hid⟩ := exists_ok_of_yields hchosen
  cases hq'.symm.trans hq
  obtain ⟨rfl, rfl⟩ : k = 1 ∧ best = .placeholder 1 .default .empty := by
    match k, hk with
    | 0, rfl => cases hid
    | 1, rfl => exact ⟨rfl, rfl⟩
    | 2, rfl => cases hid
  exact ⟨costs, _, hcosts, hq, hleast (Cost.isStrictWeakOrder_less hnumbers)⟩

end Planner

end QueryPlanner
