import QueryPlanner.Proofs.Graph.Absorption
import QueryPlanner.Proofs.Planner.Exactness

/-!
# Choosing among what a rule proposes

A planner keeps the best of the candidates that it has considered, and gives it up for a later one that
is cheaper. What it compares are costs found without a cache, although each candidate leaves its own
in the caches. Where a request for traits costs infinitely much and rows are compared, a candidate
with a request in it is not chosen if there is one of finitely many rows.
-/

namespace QueryPlanner

open QueryPlanner.Graph Planning

/-- The better one of the best candidate so far and a later one, each with its cost. -/
def CostModel.preferred (model : CostModel) (best next : Node × Cost) : Node × Cost :=
  if model.cheaper next.2 best.2 then next else best

/-- The best of several candidates. -/
def CostModel.best (model : CostModel) (first : Node × Cost) (others : List (Node × Cost)) :
    Node × Cost := others.foldl model.preferred first

/-- Candidates with their costs, which are found without a cache. -/
def Graph.Prices (g : Graph) (model : CostModel) (candidates : List (Node × Cost)) : Prop :=
  ∀ c ∈ candidates, g.HasCost model c.1 c.2

namespace CostModel

variable {model : CostModel} {first best next : Node × Cost} {others : List (Node × Cost)}

theorem best_mem (model : CostModel) (first : Node × Cost) (others : List (Node × Cost)) :
    model.best first others ∈ first :: others := by
  induction others generalizing first with
  | nil => exact List.mem_singleton_self first
  | cons next others ih =>
    rcases List.mem_cons.1 (ih (model.preferred first next)) with h | h
    · rw [best, List.foldl_cons, ← best, h, preferred]
      split_ifs
      · exact List.mem_cons_of_mem _ List.mem_cons_self
      · exact List.mem_cons_self
    · exact List.mem_cons_of_mem _ (List.mem_cons_of_mem _ h)

/-! ## Infinite costs -/

/-- What does not cost infinitely much is not given up for what does. -/
theorem preferred_ne_infinity (hless : model.cheaper = Cost.less)
    (h : best.2 ≠ .infinity ∨ next.2.rows.isFinite = true) :
    (model.preferred best next).2 ≠ .infinity := by
  rw [preferred, hless]
  split_ifs with hnext
  · intro heq
    rw [heq, Cost.infinity_less] at hnext
    cases hnext
  · rcases h with h | h
    · exact h
    · intro heq
      rw [heq, Cost.less_infinity h] at hnext
      exact hnext rfl

/-- One candidate of finitely many rows is enough for a choice that does not cost infinitely much. -/
theorem best_ne_infinity (hless : model.cheaper = Cost.less)
    (h : first.2 ≠ .infinity ∨ ∃ c ∈ others, c.2.rows.isFinite = true) :
    (model.best first others).2 ≠ .infinity := by
  induction others generalizing first with
  | nil => exact h.resolve_right (by simp)
  | cons next others ih =>
    rw [best, List.foldl_cons]
    apply ih
    rw [List.exists_mem_cons_iff, ← or_assoc] at h
    exact h.imp_left (preferred_ne_infinity hless)

end CostModel

namespace Graph

variable {g : Graph} {model : CostModel}

/-- In a consistent graph all candidates have costs. -/
theorem Consistent.exists_prices {mode : DigestMode} (hg : g.Consistent mode) (model : CostModel)
    (nodes : List Node) :
    ∃ candidates : List (Node × Cost), candidates.map Prod.fst = nodes ∧
      g.Prices model candidates := by
  induction nodes with
  | nil => exact ⟨[], rfl, by simp [Prices]⟩
  | cons node nodes ih =>
    obtain ⟨n, rows, cost, -, hcost⟩ := hg.exists_estimates model node
    obtain ⟨candidates, rfl, hpriced⟩ := ih
    exact ⟨(node, cost) :: candidates, rfl, List.forall_mem_cons.2 ⟨⟨n, hcost⟩, hpriced⟩⟩

theorem Prices.alike {g' : Graph} {candidates : List (Node × Cost)} (h : g.Alike g')
    (hp : g.Prices model candidates) : g'.Prices model candidates := by
  intro c hc
  obtain ⟨n, hn⟩ := hp c hc
  exact ⟨n, by rw [h.plainCost, hn]⟩

end Graph

namespace Planner

variable {p q : Planner} {node : Node} {cost : Cost} {first : Node × Cost}
  {others : List (Node × Cost)}

/-- What is found with the caches is what is found without them. -/
theorem cumulativeCost_eq_ok (hp : p.Exact) (h : p.graph.HasCost p.settings.model node cost) :
    ∃ q, onGraph (cumulativeCost p.settings.model node) p = .ok cost q ∧ p.Undisturbed q := by
  have hfound := finds_cumulativeCost hp.consistent h p.graph (.refl _) hp.caches
  exact ⟨_, by rw [onGraph_eq, hfound.1], undisturbed_cumulativeCost node p⟩

theorem ends_consider (hp : p.Exact) (h : p.graph.HasCost p.settings.model node cost)
    (E : Fault → Planner → Prop) :
    Ends (cheapest.consider node) p (fun c q => c = cost ∧ p.Undisturbed q) E := by
  obtain ⟨r, hcost, hr⟩ := cumulativeCost_eq_ok hp h
  refine ends_bind.2 (ends_get.2 (ends_bind.2 ((ends_of_eq_ok hcost).2 (ends_bind.2 ?_))))
  refine (ends_log _ r E).mono (fun _ q hq => ends_pure.2 ⟨rfl, hr.trans hq.undisturbed⟩) ?_
  exact fun _ _ h => h

theorem ends_cheapest_go (first : Node × Cost) (hp : p.Exact)
    (hpriced : p.graph.Prices p.settings.model others) (E : Fault → Planner → Prop) :
    Ends (cheapest.go first.1 first.2 (others.map Prod.fst)) p
      (fun node q => node = (p.settings.model.best first others).1 ∧ p.Undisturbed q) E := by
  induction others generalizing p first with
  | nil => exact ends_pure.2 ⟨rfl, .refl p⟩
  | cons next others ih =>
    obtain ⟨hnext, hothers⟩ := List.forall_mem_cons.1 hpriced
    refine ends_bind.2 ((ends_consider hp hnext E).mono ?_ fun _ _ h => h)
    rintro _ q ⟨rfl, hq⟩
    have hih := ih (p.settings.model.preferred first next) (hq.exact hp)
      (hq.settings ▸ Prices.alike hq.graph hothers)
    rw [hq.settings] at hih
    have hbest : Ends (cheapest.go (p.settings.model.preferred first next).1
        (p.settings.model.preferred first next).2 (others.map Prod.fst)) q
        (fun node r => node = (p.settings.model.best first (next :: others)).1 ∧
          p.Undisturbed r) E :=
      hih.mono (fun node r h => ⟨h.1, hq.trans h.2⟩) fun _ _ h => h
    refine ends_bind.2 (ends_get.2 ?_)
    rw [hq.settings]
    unfold CostModel.preferred at hbest
    split_ifs at hbest ⊢
    · exact hbest
    · exact hbest

/-- Of two or more candidates a planner chooses the best by costs found without a cache. -/
theorem ends_cheapest_best (hp : p.Exact) (hpriced : p.graph.Prices p.settings.model (first :: others))
    (hmany : others ≠ []) (E : Fault → Planner → Prop) :
    Ends (cheapest first.1 (others.map Prod.fst)) p
      (fun node q => node = (p.settings.model.best first others).1 ∧ p.Undisturbed q) E := by
  obtain ⟨hfirst, hothers⟩ := List.forall_mem_cons.1 hpriced
  unfold cheapest
  rw [if_neg (by simpa using hmany)]
  refine ends_bind.2 ((ends_consider hp hfirst E).mono ?_ fun _ _ h => h)
  rintro _ q ⟨rfl, hq⟩
  have hgo := ends_cheapest_go first (hq.exact hp)
    (hq.settings ▸ Prices.alike hq.graph hothers) E
  rw [hq.settings] at hgo
  exact hgo.mono (fun _ _ h => ⟨h.1, hq.trans h.2⟩) fun _ _ h => h

/-- Where the operators are priced by the rows that they touch, everything with a request for traits in
it costs infinitely much. Of several candidates, one of which has finitely many rows, one without a
request is chosen. -/
theorem implemented_of_cheapest (hp : p.Exact) (hmodel : p.settings.model = .touchedRows) :
    (∀ node, p.graph.Unimplemented node →
      ∃ q, onGraph (cumulativeCost .touchedRows node) p = .ok .infinity q) ∧
    ∀ first others, others ≠ [] →
      (∃ node ∈ first :: others, ∃ cost q,
        onGraph (cumulativeCost .touchedRows node) p = .ok cost q ∧ cost.rows.isFinite = true) →
      ∃ best q, cheapest first others p = .ok best q ∧ best ∈ first :: others ∧
        ¬ p.graph.Unimplemented best := by
  have hcosted : ∀ {node cost}, p.graph.HasCost .touchedRows node cost →
      ∃ q, onGraph (cumulativeCost .touchedRows node) p = .ok cost q := by
    intro node cost h
    rw [← hmodel] at h ⊢
    obtain ⟨q, hq, -⟩ := cumulativeCost_eq_ok hp h
    exact ⟨q, hq⟩
  constructor
  · intro node hnode
    obtain ⟨n, rows, cost, -, hcost⟩ := hp.consistent.exists_estimates .touchedRows node
    obtain rfl := hnode.eq_infinity CostModel.forbids_touchedRows ⟨n, hcost⟩
    exact hcosted ⟨n, hcost⟩
  · rintro first others hmany ⟨node, hnode, cost, r, hcost, hfinite⟩
    obtain ⟨candidates, hcandidates, hpriced⟩ :=
      hp.consistent.exists_prices .touchedRows (first :: others)
    obtain ⟨first, others, rfl⟩ : ∃ c cs, candidates = c :: cs :=
      List.exists_cons_of_ne_nil fun h => by simp [h] at hcandidates
    obtain ⟨rfl, rfl⟩ := List.cons.inj hcandidates
    -- the candidate of finitely many rows among the candidates with their costs
    rw [← List.map_cons, List.mem_map] at hnode
    obtain ⟨c, hc, rfl⟩ := hnode
    obtain ⟨r', hr'⟩ := hcosted (hpriced c hc)
    rw [hcost] at hr'
    obtain ⟨rfl, -⟩ := EStateM.Result.ok.inj hr'
    have hne : (CostModel.touchedRows.best first others).2 ≠ .infinity := by
      apply CostModel.best_ne_infinity rfl
      rcases List.mem_cons.1 hc with rfl | hc
      · exact .inl (Cost.ne_infinity_of_isFinite hfinite)
      · exact .inr ⟨c, hc, hfinite⟩
    have hmem := CostModel.best_mem .touchedRows first others
    obtain ⟨best, q, hq, rfl, -⟩ := (ends_cheapest_best hp (hmodel.symm ▸ hpriced)
      (fun h => hmany (by rw [h, List.map_nil])) fun _ _ => False).exists_ok
    rw [hmodel] at hq
    refine ⟨_, q, hq, ?_, fun h => hne ?_⟩
    · rw [← List.map_cons]
      exact List.mem_map_of_mem hmem
    · exact h.eq_infinity CostModel.forbids_touchedRows (hpriced _ hmem)

/-- A limit on what is requested in other traits. -/
def limitedRequest : Node :=
  ⟨.limit 3, [.request (.placeholder 1 .default .empty) ⟨⟨"REMOTE"⟩, .unordered⟩], .default, .empty⟩

theorem implemented_of_cheapest_loadedLimits :
    (∃ q, onGraph (cumulativeCost .touchedRows limitedRequest) loadedLimits = .ok .infinity q) ∧
    ∃ best q, cheapest limitedRequest [.placeholder 1 .default .empty] loadedLimits = .ok best q ∧
      best ∈ [limitedRequest, .placeholder 1 .default .empty] ∧
        ¬ loadedLimits.graph.Unimplemented best := by
  have hbuild : succeeded (build .default ⟨[]⟩ [] stackedLimits) = true := by decide +kernel
  have hloaded : Driven loadedLimits := .built (eq_ok_of_succeeded hbuild)
  obtain ⟨hcost, hchoice⟩ := implemented_of_cheapest hloaded.exact (by rfl)
  have hfinite : yields (fun cost => cost.rows.isFinite = true) (onGraph (cumulativeCost
      .touchedRows (.placeholder 1 .default .empty)) loadedLimits) = true := by decide +kernel
  obtain ⟨cost, hok, hrows⟩ := exists_ok_of_yields hfinite
  exact ⟨hcost _ (.input List.mem_cons_self (.request rfl)), hchoice _ _ (by simp)
    ⟨_, by simp, cost, _, hok, hrows⟩⟩

end Planner

end QueryPlanner
