import QueryPlanner.Proofs.Graph.TopologicalOrder
import QueryPlanner.Proofs.Graph.Unfolding
import QueryPlanner.Proofs.Planner.Schedules

/-!
# Operations that do not fail

An expression that has a tree is added without a fault, and whatever is added is counted. A graph
without cycles can be scheduled in every match order. Redirecting parents closes no cycle if none of
them can be reached from the expression that they are to refer to.
-/

namespace QueryPlanner.Planner

open QueryPlanner.Graph Planning

variable {p q : Planner}

/-! ## Adding -/

/-- The transformations were counted: without one the graph is as it was. -/
structure Counted (p q : Planner) : Prop where
  transformationsAtSweep : q.transformationsAtSweep = p.transformationsAtSweep
  le : p.transformations ≤ q.transformations
  unchanged : q.transformations = p.transformations → q.graph = p.graph

theorem Counted.refl (p : Planner) : p.Counted p := ⟨rfl, le_rfl, fun _ => rfl⟩

theorem Counted.trans {r : Planner} (h : p.Counted q) (h' : q.Counted r) : p.Counted r where
  transformationsAtSweep := h'.transformationsAtSweep.trans h.transformationsAtSweep
  le := h.le.trans h'.le
  unchanged heq := by
    have hle := h.le
    have hle' := h'.le
    rw [h'.unchanged (by omega), h.unchanged (by omega)]

theorem ends_place_counted (node : Node) (p : Planner) (E : Fault → Planner → Prop) :
    Ends (place node) p (fun _ q => p.Counted q) E := by
  refine ends_bind.2 (ends_get.2 ?_)
  simp only
  split
  · exact ends_pure.2 (.refl p)
  · refine ends_bind.2 (ends_set.2 (ends_bind.2 (ends_modify.2 (ends_pure.2 ?_))))
    exact ⟨rfl, Nat.le_succ _, fun h => absurd h (Nat.succ_ne_self _)⟩

/-- Whatever is added is counted. -/
theorem ends_add_counts (n : Node) (p : Planner) :
    Ends (add n) p (fun _ q => p.Counted q) fun _ q => p.Counted q :=
  ends_add_of_place Counted.refl Counted.trans (fun node p => ends_place_counted node p _) n p

mutual

/-- What has a tree is added, for its placeholders are those of vertices. -/
theorem ends_add_unfolding : ∀ (n : Node) (p : Planner) {t : Node},
    p.graph.Consistent p.settings.digestMode → p.graph.Unfolds n t →
      Ends (add n) p (fun _ _ => True) fun _ _ => False
  | ⟨op, inputs, traits, rowType⟩, p, t, hp, ht => by
    by_cases hop : ∃ j, op = .vertex j
    · obtain ⟨j, rfl⟩ := hop
      have hlive := ((unfolds_of_vertexId? rfl).1 ht).contains
      rw [add]
      apply ends_bind.2
      apply ends_get.2
      rw [hlive]
      exact ends_pure.2 trivial
    · have hop : ∀ j, op ≠ .vertex j := fun j hj => hop ⟨j, hj⟩
      obtain ⟨ts, hts, rfl⟩ := (unfolds_operator (Node.vertexId?_eq_none.2 hop)).1 ht
      rw [add]
      · apply (ends_addInputs_unfolding inputs p hp hts).bind
        intro placeholders q _
        exact (ends_place_counted _ q _).mono (fun _ _ _ => trivial) fun _ _ h => h
      · exact hop

theorem ends_addInputs_unfolding : ∀ (ns : List Node) (p : Planner) {ts : List Node},
    p.graph.Consistent p.settings.digestMode → List.Forall₂ p.graph.Unfolds ns ts →
      Ends (addInputs ns) p (fun _ _ => True) fun _ _ => False
  | [], p, ts, hp, hts => by
    rw [addInputs]
    exact ends_pure.2 trivial
  | n :: ns, p, ts, hp, hts => by
    obtain ⟨t, ts, ht, hrest, rfl⟩ := List.forall₂_cons_left_iff.1 hts
    have hadd := ((ends_add_unfolding n p hp ht).and (ends_add n p hp)).mono
      (fun _ _ h => h.2) fun _ _ h => h.1
    rw [addInputs]
    apply hadd.bind
    rintro id q ⟨hq, hplaces⟩
    obtain ⟨placeholder, hplaceholder⟩ := Linked.exists_placeholder hplaces.contains
    have hext := hq.graph hp
    have hrest' := ends_addInputs_unfolding ns q (hq.consistent hp)
      (hrest.imp fun _ _ => .extends hext)
    apply ends_bind.2
    apply ends_bind.2
    apply ends_get.2
    rw [hplaceholder]
    apply ends_bind.2
    exact hrest'.mono (fun _ _ _ => ends_pure.2 trivial) fun _ _ h => h

end

theorem exists_add {n t : Node} (hp : p.graph.Consistent p.settings.digestMode)
    (ht : p.graph.Unfolds n t) : ∃ id q, add n p = .ok id q ∧ p.Counted q ∧ p.Extended q ∧
      Places p.settings q.graph n id := by
  obtain ⟨id, q, hadd, -⟩ := (ends_add_unfolding n p hp ht).exists_ok
  obtain ⟨hext, hplaces⟩ := (ends_add n p hp).ok hadd
  exact ⟨id, q, hadd, (ends_add_counts n p).ok hadd, hext, hplaces⟩

/-! ## Scheduling -/

theorem exists_collectGarbage (p : Planner) : ∃ q, collectGarbage p = .ok () q ∧ p.Swept q := by
  obtain ⟨_, q, hcollect, hq⟩ := (ends_collectGarbage p fun _ _ => False).exists_ok
  exact ⟨q, hcollect, hq⟩

theorem exists_schedule (hp : p.graph.Consistent p.settings.digestMode) (start : VertexId) :
    ∃ ids q, schedule start p = .ok ids q ∧ p.Swept q ∧ q.scheduled start = .ok ids := by
  obtain ⟨q, hcollect, hq⟩ := exists_collectGarbage p
  have hqc := hq.consistent hp
  obtain ⟨order, horder⟩ := hqc.acyclic.exists_topologicalOrder hqc.edges_live
  obtain ⟨ids, hids⟩ : ∃ ids, q.scheduled start = .ok ids := by
    unfold scheduled
    split
    · exact ⟨_, rfl⟩
    · exact ⟨_, rfl⟩
    · exact ⟨order, horder⟩
    · exact ⟨order.reverse, by rw [horder]; rfl⟩
  exact ⟨ids, q, schedule_eq_ok.2 ⟨hcollect, hids⟩, hq, hids⟩

theorem exists_scheduleFromRoot {root : VertexId} (hp : p.graph.Consistent p.settings.digestMode)
    (hroot : p.graph.root = some root) :
    ∃ ids q, scheduleFromRoot p = .ok ids q ∧ p.Swept q ∧ q.scheduled root = .ok ids := by
  obtain ⟨ids, q, hschedule, hq, hids⟩ := exists_schedule hp root
  obtain ⟨hcollect, -⟩ := schedule_eq_ok.1 hschedule
  exact ⟨ids, q, scheduleFromRoot_eq_ok.2 ⟨root, hroot, hp.root root hroot, hcollect, hids⟩, hq, hids⟩

/-! ## Substituting -/

variable {p₂ : Planner} {id result : VertexId} {best : Node}

/-- The one expression that is proposed takes the place of the expression of a vertex for the parents
that accept it, if none of these is reached from it. -/
theorem exists_substitute (rule : Rule) (accepts : Node → Bool)
    (hp : p.graph.Consistent p.settings.digestMode) (hid : p.graph.contains id = true)
    (hadd : add best p = .ok result p₂) (hne : result ≠ id)
    (hpath : ∀ i n, p.graph.Edge i id → p.graph.current? i = some n → accepts n = true →
      ¬ Relation.ReflTransGen p₂.graph.Edge result i) : ∃ g placeholder parents events,
      substitute rule id accepts best [] p =
        .ok (some result) { p₂ with graph := g, transformations := p₂.transformations + 1, events } ∧
      g.Consistent p₂.settings.digestMode ∧
      (∀ i, i ∈ parents ↔ p.graph.Edge i id ∧
        ∃ n, p.graph.current? i = some n ∧ accepts n = true) ∧
      p₂.graph.Redirectable result id placeholder parents ∧
      Contracted p₂.settings.digestMode result id placeholder parents p₂.graph g := by
  obtain ⟨h₂, hplaces⟩ := (ends_add best p hp).ok hadd
  have hp₂ := h₂.consistent hp
  have hext := h₂.graph hp
  let parents := (p.graph.parents id).filter fun parent => (p.graph.current? parent).any accepts
  have hparents : ∀ i, i ∈ parents ↔ p.graph.Edge i id ∧
      ∃ n, p.graph.current? i = some n ∧ accepts n = true := by
    intro i
    simp only [parents, List.mem_filter, mem_parents, Option.any_eq_true]
    rfl
  have hpath' : ∀ i ∈ parents, ¬ Relation.ReflTransGen p₂.graph.Edge result i := by
    intro i hi
    obtain ⟨hedge, n, hn, haccepts⟩ := (hparents i).1 hi
    exact hpath i n hedge hn haccepts
  have hloop : result ∉ parents := fun hmem => hpath' result hmem .refl
  obtain ⟨node, hnode⟩ := contains_iff_current.1 hplaces.contains
  obtain ⟨placeholder, hplaceholder⟩ := Linked.exists_placeholder hplaces.contains
  have hr : p₂.graph.Redirectable result id placeholder parents :=
    hext.redirectable hp hid hplaceholder hne _ hloop
  have hc := contracted_merge hp₂.toLinked hnode hr
  have hcheck := (hc.acyclic hp₂.toLinked hp₂.acyclic hpath' hr).isAcyclic hc.linked.edges_live
  have hends : Ends (substitute rule id accepts best []) p (fun r q => r = some result ∧
      ∃ events, q = { p₂ with
        graph := p₂.graph.merge p₂.settings.digestMode result id node placeholder parents
        transformations := p₂.transformations + 1
        events }) fun _ _ => False := by
    refine ends_bind.2 (ends_pure.2 (ends_bind.2 (ends_get.2 ?_)))
    refine ends_bind.2 ((ends_self _ p).mono ?_ fun f r herror => ?_)
    · intro r q hok
      rw [hadd] at hok
      cases hok
      rw [if_neg hloop, if_pos hne]
      refine (ends_displace hp₂.toLinked hnode hr).mono (fun _ _ h => ⟨h.1, h.2.2⟩) fun _ _ h => ?_
      rw [hcheck] at h
      cases h.1.1
    · rw [hadd] at herror
      cases herror
  obtain ⟨_, _, hok, rfl, events, rfl⟩ := hends.exists_ok
  exact ⟨_, placeholder, parents, events, hok, hc.consistent hp₂ hr hcheck, hparents, hr, hc⟩

end QueryPlanner.Planner
