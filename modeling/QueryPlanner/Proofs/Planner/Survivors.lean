import QueryPlanner.Proofs.Graph.Retention
import QueryPlanner.Proofs.Planner.Exactness
import QueryPlanner.Proofs.Planner.Extraction
import QueryPlanner.Proofs.Planner.Pairing

/-!
# What survives a sweep

A sweep takes vertices out of the graph that cannot be reached from the root, with all that mentions
them, and leaves the others as they are: expressions, placeholders, keys, edges, digest entries, and what
is known of their row counts and costs. Extraction follows the placeholders of expressions, which lead
along edges, so the plan below the root stays the same.
-/

namespace QueryPlanner

open QueryPlanner.Graph Planning Relation

namespace Graph

variable {mode : DigestMode} {g g' : Graph} {order gone : List VertexId} {root id : VertexId}

/-- Some vertices are gone with all that mentions them, and nothing else has changed. -/
structure Pruned (g : Graph) (gone : List VertexId) (g' : Graph) : Prop where
  vertex : ∀ id, g'.vertex? id = if id ∈ gone then none else g.vertex? id
  successors : ∀ id ∉ gone, g'.successors id = g.successors id
  predecessors : ∀ id ∉ gone, g'.predecessors id = (g.predecessors id).filter (· ∉ gone)
  edges : ∀ e ∈ g'.edges, e.1 ∉ gone ∧ e.2 ∉ gone
  digests : g'.digests = g.digests.filter (·.2 ∉ gone)
  rowCounts : g'.knownRowCounts = g.knownRowCounts.filter (·.1 ∉ gone)
  costs : g'.knownCosts = g.knownCosts.filter (·.1 ∉ gone)
  root : g'.root = g.root
  size : g'.slots.size = g.slots.size

theorem pruned_refl (g : Graph) : g.Pruned [] g where
  vertex _ := by simp
  successors _ _ := rfl
  predecessors _ _ := by simp
  edges _ _ := by simp
  digests := by simp
  rowCounts := by simp
  costs := by simp
  root := rfl
  size := rfl

/-! ## Removing vertices one after the other -/

theorem size_foldl_evict (order : List VertexId) :
    ∀ g : Graph, (order.foldl evict g).slots.size = g.slots.size := by
  induction order with
  | nil => exact fun _ => rfl
  | cons id order ih =>
    intro g
    rw [List.foldl_cons, ih, (alike_evict g id).size, (removeVertex_eq g id).1]

theorem edges_evict (hg : ∀ e ∈ g.edges, g.contains e.1 = true ∧ g.contains e.2 = true)
    (id : VertexId) : (g.evict id).edges = g.edges.filter fun e => e.1 ≠ id ∧ e.2 ≠ id := by
  rw [(alike_evict g id).edges]
  unfold removeVertex
  split_ifs with hid
  · rfl
  · refine (List.filter_eq_self.2 fun e he => ?_).symm
    obtain ⟨h₁, h₂⟩ := hg e he
    exact decide_eq_true ⟨fun heq => hid (heq ▸ h₁), fun heq => hid (heq ▸ h₂)⟩

theorem edges_foldl_evict (order : List VertexId) :
    ∀ g : Graph, (∀ e ∈ g.edges, g.contains e.1 = true ∧ g.contains e.2 = true) →
      (order.foldl evict g).edges = g.edges.filter fun e => e.1 ∉ order ∧ e.2 ∉ order := by
  induction order with
  | nil => simp
  | cons i order ih =>
    intro g hg
    have hedges := edges_evict hg i
    have hlive : ∀ e ∈ (g.evict i).edges,
        (g.evict i).contains e.1 = true ∧ (g.evict i).contains e.2 = true := by
      intro e he
      rw [hedges, List.mem_filter, decide_eq_true_eq] at he
      obtain ⟨he, h₁, h₂⟩ := he
      simp only [contains, vertex?_evict, if_neg h₁, if_neg h₂]
      exact hg e he
    rw [List.foldl_cons, ih _ hlive, hedges, List.filter_filter]
    refine List.filter_congr fun e _ => ?_
    simp only [List.mem_cons, not_or, Bool.decide_and]
    grind

/-- Vertices to which nothing else refers can be taken out. -/
theorem pruned_discard (hg : g.Linked mode) (hperm : order.Perm gone) (hd : g.Discardable gone) :
    g.Pruned gone (g.discard order gone) where
  vertex id := by simp only [vertex?_discard, hperm.mem_iff]
  successors id hid := by
    have hedges : (g.discard order gone).edges = _ := edges_foldl_evict order g hg.edges_live
    rw [successors, successors, hedges, List.filter_filter]
    congr 1
    refine List.filter_congr fun e he => ?_
    by_cases heq : e.1 = id
    · have hsource : e.1 ∉ gone := heq ▸ hid
      have htarget : e.2 ∉ gone := fun hmem => hsource (hd.notReferenced e.1 e.2 he hmem)
      simp [heq, hperm.mem_iff, htarget, hid]
    · simp [heq]
  predecessors id hid := by
    have hedges : (g.discard order gone).edges = _ := edges_foldl_evict order g hg.edges_live
    rw [predecessors, predecessors, hedges, List.filter_filter, List.filter_map, List.filter_filter]
    congr 1
    refine List.filter_congr fun e _ => ?_
    by_cases heq : e.2 = id
    · simp [heq, hperm.mem_iff, hid]
    · simp [heq]
  edges e he := by
    have hedges : (g.discard order gone).edges = _ := edges_foldl_evict order g hg.edges_live
    rw [hedges, List.mem_filter, decide_eq_true_eq] at he
    simpa only [hperm.mem_iff] using he.2
  digests := by
    rw [discard, purge, (discarded_foldl_evict order hg.edges_live).2]
  rowCounts := by
    simp only [(forgets_discard order gone g).rowCounts, hperm.mem_iff]
  costs := by
    simp only [(forgets_discard order gone g).costs, hperm.mem_iff]
  root := (discarded_foldl_evict order hg.edges_live).1.root
  size := size_foldl_evict order g

/-- What can be reached from a vertex stays as it is, so both graphs have the same below it. -/
theorem Pruned.mirrored (hg : g.Linked mode) (h : g.Pruned gone g')
    (hlive : g.contains root = true) (hkept : ∀ id, ReflTransGen g.Edge root id → id ∉ gone) :
    g.Mirrored (fun i j => i = j ∧ ReflTransGen g.Edge root i) g' where
  current i j hij := by
    obtain ⟨rfl, hi⟩ := hij
    obtain ⟨n, hn⟩ := Linked.exists_current (hg.contains_of_reachable hi hlive)
    have hn' : g'.current? i = some n := by
      rw [current?, h.vertex, if_neg (hkept i hi)]
      exact hn
    refine ⟨n, n, hn, hn', rfl, rfl, rfl, List.forall₂_same.2 fun input hinput => ?_⟩
    obtain ⟨k, hk, hedge⟩ := hg.exists_edge_of_input hn hinput
    exact ⟨k, k, hk, hk, rfl, hi.tail hedge⟩
  iff i j k l hij hkl := by rw [hij.1, hkl.1]

end Graph

namespace Planner

variable {p q : Planner} {root : VertexId}

/-- The plan below the root comes out the same, or the same request stops its extraction. -/
theorem result_finalPlan_of_pruned {gone : List VertexId}
    (hp : p.graph.Consistent p.settings.digestMode) (hlive : p.graph.contains root = true)
    (h : p.graph.Pruned gone q.graph)
    (hkept : ∀ id, ReflTransGen p.graph.Edge root id → id ∉ gone) :
    result (finalPlan root q) = result (finalPlan root p) := by
  have hcurrent : ∀ id, ReflTransGen p.graph.Edge root id →
      q.graph.current? id = p.graph.current? id := by
    intro id hid
    rw [current?, h.vertex, if_neg (hkept id hid), ← current?]
  obtain ⟨t, ht⟩ := hp.exists_tree hlive
  rcases (paired_finalPlan (h.mirrored hp.toLinked hlive hkept) h.size ⟨rfl, .refl⟩).cases_on with
    ⟨plan, plan', p', q', hx, hy, heq, -, -⟩ | ⟨f, f', p', q', hx, hy, hfault⟩
  · rw [hx, hy, heq]
    rfl
  · rw [hx, hy]
    rcases hfault with (rfl | ⟨i, j, n, n', ⟨rfl, hi⟩, hn, hn', rfl, rfl⟩) |
      ⟨rule, defect, dump, dump', rfl, rfl⟩
    · rfl
    · rw [hcurrent i hi] at hn'
      obtain rfl := Option.some.inj (hn.symm.trans hn')
      rfl
    · -- nothing but a request can stop it
      obtain ⟨request, hrequest⟩ := ((ends_finalPlan hp ht).error hx).2.exists_request
      cases hrequest

/-- Collecting garbage is safe. It never fails; without a root in the graph it changes nothing in it.
Otherwise all that can be reached from the root survives as it is, all that mentions something else is
gone with it, and the same plan is extracted from the root. -/
theorem safe_of_collectGarbage (p : Planner) : ∃ q, collectGarbage p = .ok () q ∧
    ((∀ root, p.graph.root = some root → p.graph.contains root = false) → q.graph = p.graph) ∧
    ∀ root, p.graph.Consistent p.settings.digestMode → p.graph.root = some root →
      ∃ gone, p.graph.Pruned gone q.graph ∧
        (∀ id, ReflTransGen p.graph.Edge root id → id ∉ gone) ∧
        (∀ id ∈ gone, p.graph.contains id = true) ∧
        result (finalPlan root q) = result (finalPlan root p) := by
  obtain ⟨_, q, hq, ⟨events, rfl⟩, -⟩ := (ends_collectGarbage_caughtUp p fun _ _ => False).exists_ok
  refine ⟨_, hq, fun hnone => ?_, fun root hp hroot => ?_⟩
  · unfold caughtUp
    split_ifs
    · rfl
    cases hroot : p.graph.root with
    | none => rfl
    | some root => simp only [hnone root hroot, if_true]
  · have hlive := hp.root root hroot
    suffices hgone : ∃ gone, p.graph.Pruned gone p.caughtUp.graph ∧
        (∀ id, ReflTransGen p.graph.Edge root id → id ∉ gone) ∧
        ∀ id ∈ gone, p.graph.contains id = true by
      obtain ⟨gone, hpruned, hkept, hvertices⟩ := hgone
      exact ⟨gone, hpruned, hkept, hvertices, result_finalPlan_of_pruned hp hlive hpruned hkept⟩
    rcases (swept_caughtUp p).graph with heq | hsweep
    · exact ⟨[], heq ▸ pruned_refl _, fun _ _ => List.not_mem_nil, by simp⟩
    · generalize p.caughtUp.graph = g at hsweep
      obtain ⟨hroot', -, hperm⟩ := hsweep
      obtain rfl := Option.some.inj (hroot.symm.trans hroot')
      refine ⟨_, pruned_discard hp.toLinked hperm
        (discardable_unreachable hp.toLinked hroot hlive), fun id hid hmem => ?_, fun id hmem => ?_⟩
      · exact of_decide_eq_true (List.mem_filter.1 hmem).2 ((mem_reachableFrom_iff hlive).2 hid)
      · exact mem_vertexIds.1 (List.mem_filter.1 hmem).1

/-- All vertices are priced, and then the plan is replaced by the row below its limits, which are garbage
from then on. -/
def uncoveredRow : Planner := left (setRoot (.placeholder 0 .default .empty) pricedLimits)

theorem safe_of_collectGarbage_uncoveredRow : ∃ q gone, collectGarbage uncoveredRow = .ok () q ∧
    1 ∈ gone ∧ uncoveredRow.graph.Knows 0 ∧ uncoveredRow.graph.Knows 1 ∧
      uncoveredRow.graph.Pruned gone q.graph ∧
        result (finalPlan 0 q) = result (finalPlan 0 uncoveredRow) := by
  obtain ⟨q, hq, -, hsafe⟩ := safe_of_collectGarbage uncoveredRow
  obtain ⟨cost, hcost⟩ := exists_ok_of_succeeded (x := onGraph (cumulativeCost
    loadedLimits.settings.model (.placeholder 2 .default .empty)) loadedLimits) rfl
  have hloaded : Reached loadedLimits := .built (eq_ok_of_succeeded (by decide +kernel))
  have hreached : Reached uncoveredRow :=
    .rooted (.costed hloaded hcost) (eq_ok_of_succeeded (by decide +kernel))
  obtain ⟨gone, hpruned, -, -, hplan⟩ :=
    hsafe 0 (reached_ready hreached).1.consistent (by decide +kernel)
  refine ⟨q, gone, hq, ?_, by decide +kernel, by decide +kernel, hpruned, hplan⟩
  by_contra hkept
  have hgone : (left (collectGarbage uncoveredRow)).graph.contains 1 = false := by decide +kernel
  have hlive : uncoveredRow.graph.contains 1 = true := by decide +kernel
  rw [hq, left, contains, hpruned.vertex, if_neg hkept, ← contains, hlive] at hgone
  cases hgone

end Planner

end QueryPlanner
