import QueryPlanner.Proofs.Planner.Execution

/-!
# Schedules

What a pass visits is found out from the swept graph alone, and it misses nothing that can be reached
from where it starts.
-/

namespace QueryPlanner

open QueryPlanner.Graph Planning Relation

namespace Planner

variable {p q : Planner} {start root : VertexId} {ids : List VertexId}

/-- The vertices to visit in the match order in force, if the graph has no cycle that is met. -/
def scheduled (p : Planner) (start : VertexId) : Except VertexId (List VertexId) :=
  match p.execution.order with
  | .arbitrary | .depthFirst => .ok (p.graph.depthFirstFrom start)
  | .topDown => p.graph.topologicalOrder
  | .bottomUp => List.reverse <$> p.graph.topologicalOrder

theorem Alike.scheduled (h : p.Alike q) (start : VertexId) : q.scheduled start = p.scheduled start := by
  rw [Planner.scheduled, Planner.scheduled, h.execution, h.graph.depthFirstFrom,
    h.graph.topologicalOrder]

theorem topologicalOrder_eq_ok : topologicalOrder p = .ok ids q ↔
    p.graph.topologicalOrder = .ok ids ∧ q = p := by
  refine bind_eq_ok.trans ?_
  constructor
  · rintro ⟨_, _, ⟨⟩, h⟩
    cases horder : p.graph.topologicalOrder with
    | error id =>
      rw [horder] at h
      cases h
    | ok ids =>
      rw [horder] at h
      cases h
      exact ⟨rfl, rfl⟩
  · rintro ⟨h, rfl⟩
    refine ⟨q, q, rfl, ?_⟩
    rw [h]
    rfl

/-- A schedule is made in the swept graph. -/
theorem schedule_eq_ok : schedule start p = .ok ids q ↔
    collectGarbage p = .ok () q ∧ q.scheduled start = .ok ids := by
  have hread : ∀ r, (do
      match (← get).execution.order with
      | .arbitrary | .depthFirst => return (← get).graph.depthFirstFrom start
      | .topDown => topologicalOrder
      | .bottomUp => return (← topologicalOrder).reverse : Planning (List VertexId)) r = .ok ids q ↔
        r.scheduled start = .ok ids ∧ q = r := by
    intro r
    refine bind_eq_ok.trans ?_
    rw [scheduled]
    constructor
    · rintro ⟨_, _, ⟨⟩, h⟩
      cases horder : r.execution.order <;> simp only [horder] at h ⊢
      · cases h
        exact ⟨rfl, rfl⟩
      · cases h
        exact ⟨rfl, rfl⟩
      · exact topologicalOrder_eq_ok.1 h
      · obtain ⟨order, t, h, hok⟩ := bind_eq_ok.1 h
        obtain ⟨htopological, rfl⟩ := topologicalOrder_eq_ok.1 h
        cases hok
        rw [htopological]
        exact ⟨rfl, rfl⟩
    · rintro ⟨h, rfl⟩
      refine ⟨q, q, rfl, ?_⟩
      cases horder : q.execution.order <;> simp only [horder] at h ⊢
      · cases h
        rfl
      · cases h
        rfl
      · exact topologicalOrder_eq_ok.2 ⟨h, rfl⟩
      · cases hok : q.graph.topologicalOrder with
        | error id =>
          rw [hok] at h
          cases h
        | ok order =>
          rw [hok] at h
          cases h
          exact bind_eq_ok.2 ⟨order, q, topologicalOrder_eq_ok.2 ⟨hok, rfl⟩, rfl⟩
  constructor
  · intro h
    obtain ⟨_, r, hcollect, h⟩ := bind_eq_ok.1 h
    obtain ⟨h, rfl⟩ := (hread r).1 h
    exact ⟨hcollect, h⟩
  · rintro ⟨hcollect, h⟩
    exact bind_eq_ok.2 ⟨(), q, hcollect, (hread q).2 ⟨h, rfl⟩⟩

theorem requireRoot_eq_ok : requireRoot p = .ok root q ↔
    p.graph.root = some root ∧ p.graph.contains root = true ∧ q = p := by
  refine bind_eq_ok.trans ?_
  constructor
  · rintro ⟨_, _, ⟨⟩, h⟩
    cases hroot : p.graph.root with
    | none =>
      simp only [hroot] at h
      cases h
    | some id =>
      simp only [hroot] at h
      split_ifs at h with hlive
      · cases h
        exact ⟨rfl, hlive, rfl⟩
      · cases h
  · rintro ⟨hroot, hlive, rfl⟩
    refine ⟨q, q, rfl, ?_⟩
    simp only [hroot, hlive, if_true]
    rfl

theorem scheduleFromRoot_eq_ok : scheduleFromRoot p = .ok ids q ↔ ∃ root,
    p.graph.root = some root ∧ p.graph.contains root = true ∧ collectGarbage p = .ok () q ∧
      q.scheduled root = .ok ids := by
  refine bind_eq_ok.trans ?_
  constructor
  · rintro ⟨root, r, hroot, h⟩
    obtain ⟨hroot, hlive, rfl⟩ := requireRoot_eq_ok.1 hroot
    exact ⟨root, hroot, hlive, schedule_eq_ok.1 h⟩
  · rintro ⟨root, hroot, hlive, h⟩
    exact ⟨root, p, requireRoot_eq_ok.2 ⟨hroot, hlive, rfl⟩, schedule_eq_ok.2 h⟩

/-- Whatever can be reached is scheduled. -/
theorem mem_scheduled {mode : DigestMode} (hp : p.graph.Linked mode)
    (hlive : p.graph.contains start = true) (h : p.scheduled start = .ok ids) {id : VertexId}
    (hid : ReflTransGen p.graph.Edge start id) : id ∈ ids := by
  have hcontains : p.graph.contains id = true := by
    rcases hid.cases_tail with rfl | ⟨a, -, hab⟩
    · exact hlive
    · exact (hp.edges_live _ hab).2
  rw [scheduled] at h
  cases horder : p.execution.order <;> simp only [horder] at h
  · cases h
    exact (mem_reachableFrom_iff hlive).2 hid
  · cases h
    exact (mem_reachableFrom_iff hlive).2 hid
  · exact (Graph.topologicalOrder_eq_ok hp.edges_live h).1 id hcontains
  · cases hok : p.graph.topologicalOrder with
    | error id =>
      rw [hok] at h
      cases h
    | ok order =>
      rw [hok] at h
      cases h
      exact List.mem_reverse.2 ((Graph.topologicalOrder_eq_ok hp.edges_live hok).1 id hcontains)

/-! ## Passes without a firing -/

/-- Vertices that are visited in turn, and the rules put nothing in place of any. -/
inductive PassesOver (rules : List Rule) (force : Bool) : List VertexId → Planner → Planner → Prop
  | nil (p : Planner) : PassesOver rules force [] p p
  | cons {id : VertexId} {rest : List VertexId} {p q r : Planner}
      (hvisit : visit rules force id p = .ok none q) (hrest : PassesOver rules force rest q r) :
      PassesOver rules force (id :: rest) p r

/-- A pass that meets no firing is the last one. -/
theorem PassesOver.ends_traverse {rules : List Rule} {force : Bool} (h : PassesOver rules force ids p q)
    (matched : Nat) : ∀ n, Ends (traverse rules force n ids true matched) p
      (fun firings r => firings = matched ∧ r = q) fun f _ => f = .outOfFuel := by
  induction h with
  | nil p =>
    rintro (_ | n)
    · exact ends_throw.2 rfl
    · exact ends_pure.2 ⟨rfl, rfl⟩
  | cons hvisit _ ih =>
    rintro (_ | n)
    · exact ends_throw.2 rfl
    · rw [traverse]
      exact ends_bind.2 ((ends_of_eq_ok hvisit).2 (ih n))

/-- An attempt that does nothing is all that is done on a visit with one rule. -/
theorem ends_visit_singleton {rule : Rule} {force : Bool} {id : VertexId} {Q : Planner → Prop}
    {E : Fault → Planner → Prop} (h : Ends (attempt rule id force) p (fun r q => r = none ∧ Q q) E) :
    Ends (visit [rule] force id) p (fun r q => r = none ∧ Q q) E := by
  refine Ends.bind (Q := fun r q => r = none ∧ Q q) (h.bind ?_) ?_
  · rintro _ q ⟨rfl, hq⟩
    exact ends_pure.2 ⟨rfl, hq⟩
  · rintro _ q ⟨rfl, hq⟩
    exact ends_pure.2 ⟨rfl, hq⟩

/-- Where no group is open, the rules are fired. -/
theorem applyRules_eq_fireRules {fuel : Nat} {rules : List Rule} {force : Bool}
    (h : p.execution.group = none) :
    applyRules fuel rules force p = discard (fireRules fuel rules force) p := by
  have hget : ∀ k : Planner → Planning Unit, (get >>= k) p = k p p := fun _ => rfl
  rw [applyRules, hget]
  simp only [h]

end Planner

end QueryPlanner
