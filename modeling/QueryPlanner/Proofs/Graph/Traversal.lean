import QueryPlanner.Graph.Order
import QueryPlanner.Proofs.Graph.Vertices

/-!
# Traversals visit everything

The bounds on the steps of the traversals suffice: every step takes a vertex off the stack, visits a
vertex for the first time, or both, and an edge puts at most one vertex on the stack. A walk thus
ends with a set of vertices that is closed under edges and holds nothing unreachable, and a
topological order that is not a fault ranks every parent above its inputs.
-/

namespace QueryPlanner.Graph

open Relation

/-- An edge of the graph leads from `a` to `b`. -/
def Edge (g : Graph) (a b : VertexId) : Prop := (a, b) ∈ g.edges

/-- No vertex can be reached from itself. -/
def Acyclic (g : Graph) : Prop := ∀ id, ¬ TransGen g.Edge id id

/-- Parents rank above their inputs. -/
def Ranked (g : Graph) (rank : VertexId → ℕ) : Prop := ∀ a b, g.Edge a b → rank b < rank a

theorem Ranked.lt_of_transGen {g : Graph} {rank : VertexId → ℕ} (h : g.Ranked rank)
    {a b : VertexId} (hab : TransGen g.Edge a b) : rank b < rank a := by
  induction hab with
  | single he => exact h _ _ he
  | tail _ he ih => exact (h _ _ he).trans ih

theorem acyclic_of_ranked {g : Graph} (rank : VertexId → ℕ) (h : g.Ranked rank) : g.Acyclic :=
  fun _ hid => Nat.lt_irrefl _ (h.lt_of_transGen hid)

open Classical in
/-- The number of vertices below a vertex ranks an acyclic graph. -/
theorem Acyclic.ranked_below {g : Graph} (h : g.Acyclic) {s : Finset VertexId}
    (hs : ∀ a b, g.Edge a b → b ∈ s) :
    g.Ranked fun a => (s.filter fun b => TransGen g.Edge a b).card := by
  refine fun a b hab => Finset.card_lt_card ⟨fun c hc => ?_, fun hsub => ?_⟩
  · rw [Finset.mem_filter] at hc ⊢
    exact ⟨hc.1, .head hab hc.2⟩
  · have hb := hsub (Finset.mem_filter.2 ⟨hs a b hab, .single hab⟩)
    exact h b (Finset.mem_filter.1 hb).2

theorem Acyclic.exists_ranked {g : Graph} (h : g.Acyclic) : ∃ rank, g.Ranked rank :=
  ⟨_, h.ranked_below (s := (g.edges.map Prod.snd).toFinset) fun _ _ hab =>
    List.mem_toFinset.2 (List.mem_map_of_mem (f := Prod.snd) hab)⟩

/-- No more vertices are below a vertex than there are slots. -/
theorem Acyclic.exists_ranked_le {g : Graph} (h : g.Acyclic)
    (hg : ∀ e ∈ g.edges, g.contains e.1 = true ∧ g.contains e.2 = true) :
    ∃ rank, g.Ranked rank ∧ ∀ id, rank id ≤ g.slots.size := by
  classical
  have hs : ∀ a b, g.Edge a b → b ∈ Finset.range g.slots.size := fun _ _ hab =>
    Finset.mem_range.2 (lt_size_of_contains (hg _ hab).2)
  exact ⟨_, h.ranked_below hs, fun _ => (Finset.card_filter_le _ _).trans_eq (Finset.card_range _)⟩

/-! ## Walks -/

section Walk

variable {neighbours : VertexId → List VertexId}

/-- The edges that start at vertices not yet visited. -/
def unvisitedEdges (edges : List (VertexId × VertexId)) (visited : List VertexId) :
    List (VertexId × VertexId) :=
  edges.filter (·.1 ∉ visited)

/-- Visiting a vertex uses up its edges. -/
theorem length_unvisitedEdges_cons (edges : List (VertexId × VertexId)) {v : VertexId}
    {visited : List VertexId} (hv : v ∉ visited) :
    (unvisitedEdges edges (v :: visited)).length + (edges.filter (·.1 = v)).length =
      (unvisitedEdges edges visited).length := by
  induction edges with
  | nil => rfl
  | cons e edges ih =>
    unfold unvisitedEdges at ih ⊢
    by_cases he : e.1 = v
    · subst he
      simp [hv]
      simp at ih
      omega
    · by_cases hmem : e.1 ∈ visited
      · simp [he, hmem] at ih ⊢
        omega
      · simp [he, hmem] at ih ⊢
        omega

/-- The visited vertices lead to visited vertices or to the stack. -/
def Covered (neighbours : VertexId → List VertexId) (stack visited : List VertexId) : Prop :=
  ∀ v ∈ visited, ∀ w ∈ neighbours v, w ∈ visited ∨ w ∈ stack

theorem Covered.visit {v : VertexId} {stack visited : List VertexId}
    (h : Covered neighbours (v :: stack) visited) :
    Covered neighbours
      (((neighbours v).filter (· ∉ v :: visited)).reverse ++ stack) (v :: visited) := by
  intro u hu w hw
  by_cases hvis : w ∈ v :: visited
  · exact .inl hvis
  · refine .inr (List.mem_append.2 ?_)
    rcases List.mem_cons.1 hu with rfl | hu
    · left
      simp [hw] at hvis ⊢
      exact hvis
    · right
      rcases h u hu w hw with hw' | hw'
      · exact absurd (List.mem_cons_of_mem _ hw') hvis
      · rcases List.mem_cons.1 hw' with rfl | hw'
        · exact absurd List.mem_cons_self hvis
        · exact hw'

theorem Covered.skip {v : VertexId} {stack visited : List VertexId} (hv : v ∈ visited)
    (h : Covered neighbours (v :: stack) visited) : Covered neighbours stack visited := by
  intro u hu w hw
  rcases h u hu w hw with hw' | hw'
  · exact .inl hw'
  · rcases List.mem_cons.1 hw' with rfl | hw'
    · exact .inl hv
    · exact .inr hw'

/-- Given enough steps, a walk visits the stack and everything that the visited vertices lead to. -/
theorem walk_closed (edges : List (VertexId × VertexId))
    (hn : ∀ v, (neighbours v).length ≤ (edges.filter (·.1 = v)).length) :
    ∀ n stack visited, stack.length + (unvisitedEdges edges visited).length < n →
      Covered neighbours stack visited →
      (∀ v ∈ stack ++ visited, v ∈ walk neighbours n stack visited) ∧
        Covered neighbours [] (walk neighbours n stack visited) := by
  intro n
  induction n with
  | zero => intro stack visited h; omega
  | succ n ih =>
    intro stack visited hsteps hcov
    cases stack with
    | nil => exact ⟨by simp [walk], by simpa [walk] using hcov⟩
    | cons v stack =>
      rw [List.length_cons] at hsteps
      rw [walk]
      split_ifs with hv
      · obtain ⟨hmem, hclosed⟩ := ih stack visited (by omega) (hcov.skip hv)
        refine ⟨fun u hu => hmem u ?_, hclosed⟩
        rcases List.mem_cons.1 hu with rfl | hu
        · exact List.mem_append_right _ hv
        · exact hu
      · have hlen := length_unvisitedEdges_cons edges hv
        have hpush : (((neighbours v).filter (· ∉ v :: visited)).reverse ++ stack).length ≤
            (edges.filter (·.1 = v)).length + stack.length := by
          rw [List.length_append, List.length_reverse]
          exact Nat.add_le_add_right ((List.length_filter_le _ _).trans (hn v)) _
        obtain ⟨hmem, hclosed⟩ := ih _ (v :: visited) (by omega) hcov.visit
        refine ⟨fun u hu => hmem u ?_, hclosed⟩
        rcases List.mem_cons.1 hu with rfl | hu
        · simp
        · rcases List.mem_append.1 hu with hu | hu <;> simp [hu]

/-- A walk visits only what the stack leads to. -/
theorem walk_sound (neighbours : VertexId → List VertexId) (start : VertexId) :
    ∀ n stack visited, (∀ v ∈ stack ++ visited, ReflTransGen (fun a b => b ∈ neighbours a) start v) →
      ∀ v ∈ walk neighbours n stack visited, ReflTransGen (fun a b => b ∈ neighbours a) start v := by
  intro n
  induction n with
  | zero =>
    intro stack visited h v hv
    exact h v (List.mem_append_right _ (by simpa [walk] using hv))
  | succ n ih =>
    intro stack visited h
    cases stack with
    | nil => simpa [walk] using h
    | cons u stack =>
      rw [walk]
      split_ifs with hu
      · exact ih stack visited fun v hv => h v (List.mem_cons_of_mem _ hv)
      · apply ih _ _
        intro v hv
        simp only [List.mem_append, List.mem_reverse, List.mem_filter, List.mem_cons] at hv
        rcases hv with (⟨hv, -⟩ | hv) | rfl | hv
        · exact (h u (by simp)).tail hv
        · exact h v (by simp [hv])
        · exact h v (by simp)
        · exact h v (by simp [hv])

end Walk

theorem length_successors (g : Graph) (v : VertexId) :
    (g.successors v).length ≤ (g.edges.filter (·.1 = v)).length := by
  simp [successors]

theorem length_unvisitedEdges_nil (edges : List (VertexId × VertexId)) :
    (unvisitedEdges edges []).length = edges.length := by
  simp [unvisitedEdges]

theorem mem_reachableFrom_self {g : Graph} {start : VertexId} (h : g.contains start = true) :
    start ∈ g.reachableFrom start := by
  rw [reachableFrom, depthFirstFrom, if_pos h, List.mem_reverse]
  refine (walk_closed g.edges (length_successors g) _ _ _ ?_ ?_).1 start (by simp)
  · simp only [length_unvisitedEdges_nil, walkSteps, List.length_singleton]
    omega
  · intro v hv; cases hv

/-- What a reachable vertex refers to is reachable. -/
theorem mem_reachableFrom_of_edge {g : Graph} {start a b : VertexId}
    (ha : a ∈ g.reachableFrom start) (hab : g.Edge a b) : b ∈ g.reachableFrom start := by
  rw [reachableFrom, depthFirstFrom] at ha ⊢
  split_ifs at ha ⊢ with h
  · rw [List.mem_reverse] at ha ⊢
    have hclosed := (walk_closed g.edges (length_successors g) g.walkSteps [start] []
      (by simp only [length_unvisitedEdges_nil, walkSteps, List.length_singleton]; omega)
      (by intro v hv; cases hv)).2
    rcases hclosed a ha b (mem_successors.2 hab) with hb | hb
    · exact hb
    · cases hb
  · cases ha

/-- A walk over the graph finds exactly what paths lead to. -/
theorem mem_reachableFrom_iff {g : Graph} {start id : VertexId} (h : g.contains start = true) :
    id ∈ g.reachableFrom start ↔ ReflTransGen g.Edge start id := by
  constructor
  · intro hid
    rw [reachableFrom, depthFirstFrom, if_pos h, List.mem_reverse] at hid
    have hsound := walk_sound g.successors start g.walkSteps [start] []
      (by simp [ReflTransGen.refl]) id hid
    exact hsound.lift (fun a => a) fun a b hb => mem_successors.1 hb
  · intro hid
    induction hid with
    | refl => exact mem_reachableFrom_self h
    | tail _ he ih => exact mem_reachableFrom_of_edge ih he

theorem length_predecessors (g : Graph) (v : VertexId) :
    (g.predecessors v).length ≤ ((g.edges.map Prod.swap).filter (·.1 = v)).length := by
  simp [predecessors, List.filter_map, Function.comp_def]

/-- Whatever leads to a vertex is among its ancestors. -/
theorem mem_ancestors {g : Graph} {id above : VertexId} (h : ReflTransGen g.Edge above id) :
    above ∈ g.ancestors id := by
  obtain ⟨hmem, hclosed⟩ := walk_closed (g.edges.map Prod.swap) (length_predecessors g)
    g.walkSteps [id] []
    (by simp only [length_unvisitedEdges_nil, walkSteps, List.length_singleton, List.length_map]; omega)
    (by intro v hv; cases hv)
  induction h using ReflTransGen.head_induction_on with
  | refl => exact hmem id (by simp)
  | head hab _ ih =>
    rcases hclosed _ ih _ (mem_predecessors.2 hab) with h | h
    · exact h
    · cases h

/-! ## Topological order -/

section Finish

variable {neighbours : VertexId → List VertexId}

/-- The vertices below `size` that were not visited yet. -/
def unvisited (size : ℕ) (visited : List VertexId) : List VertexId :=
  (List.range size).filter (· ∉ visited)

theorem length_unvisited_cons {size : ℕ} {v : VertexId} {visited : List VertexId}
    (hsize : v < size) (hv : v ∉ visited) :
    (unvisited size (v :: visited)).length < (unvisited size visited).length := by
  have hsub : (unvisited size (v :: visited)).toFinset ⊂ (unvisited size visited).toFinset := by
    refine ⟨fun u hu => ?_, fun hsub => ?_⟩
    · simp only [unvisited, List.mem_toFinset, List.mem_filter, List.mem_cons] at hu ⊢
      simp at hu ⊢
      exact ⟨hu.1, hu.2.2⟩
    · have hmem : v ∈ (unvisited size visited).toFinset := by simp [unvisited, hsize, hv]
      have hmem' := hsub hmem
      simp [unvisited] at hmem'
  have hcard := Finset.card_lt_card hsub
  have hnodup (visited : List VertexId) : (unvisited size visited).Nodup :=
    List.nodup_range.filter _
  rwa [List.toFinset_card_of_nodup (hnodup _), List.toFinset_card_of_nodup (hnodup _)] at hcard

/-- Given enough steps, every vertex of the stack finishes, and no finished vertex is its own
input. -/
theorem mem_finish (edges : List (VertexId × VertexId)) {size : ℕ}
    (hn : ∀ v, (neighbours v).length ≤ (edges.filter (·.1 = v)).length)
    (hsize : ∀ v, ∀ w ∈ neighbours v, w < size) :
    ∀ n stack visited finished order,
      stack.length + (unvisitedEdges edges visited).length + (unvisited size visited).length < n →
      (∀ v ∈ stack, v < size) → (∀ v ∈ visited, v ∉ neighbours v) →
      (∀ v ∈ finished, v ∈ visited) →
      finish neighbours n stack visited finished = .ok order →
      (∀ v ∈ stack ++ finished, v ∈ order) ∧ ∀ v ∈ order, v ∉ neighbours v := by
  intro n
  induction n with
  | zero => intro stack visited finished order h; omega
  | succ n ih =>
    intro stack visited finished order hsteps hstack hself hfin hok
    cases stack with
    | nil =>
      rw [finish] at hok
      cases hok
      · exact ⟨by simp, fun v hv => hself v (hfin v hv)⟩
      · intro h; cases h
    | cons v stack =>
      rw [List.length_cons] at hsteps
      rw [finish] at hok
      have hstack' := fun w hw => hstack w (List.mem_cons_of_mem v hw)
      by_cases hv : v ∈ visited
      · rw [if_neg (not_not.2 hv)] at hok
        split_ifs at hok with hdone
        · obtain ⟨hmem, hord⟩ := ih stack visited finished order (by omega) hstack' hself hfin hok
          refine ⟨fun w hw => ?_, hord⟩
          rcases List.mem_cons.1 hw with rfl | hw
          · exact hmem w (List.mem_append_right _ hdone)
          · exact hmem w hw
        · obtain ⟨hmem, hord⟩ := ih stack visited (v :: finished) order (by omega) hstack' hself
            (fun w hw => (List.mem_cons.1 hw).elim (fun h => h ▸ hv) (hfin w)) hok
          refine ⟨fun w hw => hmem w ?_, hord⟩
          simp only [List.cons_append, List.mem_cons, List.mem_append] at hw
          rcases hw with rfl | hw | hw <;> simp [*]
      · rw [if_pos hv] at hok
        split_ifs at hok with hloop
        have hlen := length_unvisitedEdges_cons edges hv
        have hlen' := length_unvisited_cons (hstack v List.mem_cons_self) hv
        have hpush : (((neighbours v).filter (· ∉ v :: visited)).reverse ++ v :: stack).length ≤
            (edges.filter (·.1 = v)).length + stack.length + 1 := by
          rw [List.length_append, List.length_reverse, List.length_cons, ← Nat.add_assoc]
          exact Nat.add_le_add_right
            (Nat.add_le_add_right ((List.length_filter_le _ _).trans (hn v)) _) _
        have hpushed : ∀ w ∈ ((neighbours v).filter (· ∉ v :: visited)).reverse ++ v :: stack,
            w < size := by
          intro w hw
          rcases List.mem_append.1 hw with hw | hw
          · exact hsize v w (List.mem_of_mem_filter (List.mem_reverse.1 hw))
          · exact hstack w hw
        have hself' : ∀ w ∈ v :: visited, w ∉ neighbours w := by
          intro w hw
          rcases List.mem_cons.1 hw with rfl | hw
          · exact hloop
          · exact hself w hw
        obtain ⟨hmem, hord⟩ := ih _ (v :: visited) finished order (by omega) hpushed hself'
          (fun w hw => List.mem_cons_of_mem v (hfin w hw)) hok
        refine ⟨fun w hw => hmem w ?_, hord⟩
        simp only [List.cons_append, List.mem_cons, List.mem_append] at hw ⊢
        tauto

end Finish

/-- Without late parents every parent stands before its input, or is the input itself. -/
theorem mem_of_lateParent?_eq_none {parents : VertexId → List VertexId} {order : List VertexId} :
    ∀ {before : List VertexId}, lateParent? parents order before = none →
      ∀ v ∈ order, ∀ p ∈ parents v, p ∈ before ∨ p = v ∨ order.idxOf p < order.idxOf v := by
  induction order with
  | nil => intro before _ v hv; cases hv
  | cons u rest ih =>
    intro before h v hv p hp
    rw [lateParent?] at h
    split at h
    · cases h
    · next hnone =>
      rcases List.mem_cons.1 hv with rfl | hv'
      · rw [List.getLast?_eq_none_iff, List.filter_eq_nil_iff] at hnone
        have hmem := hnone p hp
        simp at hmem
        tauto
      · by_cases huv : u = v
        · subst huv
          rw [List.getLast?_eq_none_iff, List.filter_eq_nil_iff] at hnone
          have hmem := hnone p hp
          simp at hmem
          tauto
        · rcases ih h v hv' p hp with hb | heq | hlt
          · rcases List.mem_cons.1 hb with rfl | hb
            · right; right
              rw [List.idxOf_cons_self, List.idxOf_cons_ne _ huv]
              omega
            · exact .inl hb
          · exact .inr (.inl heq)
          · right; right
            rw [List.idxOf_cons_ne _ huv]
            by_cases hup : u = p
            · subst hup
              rw [List.idxOf_cons_self]
              omega
            · rw [List.idxOf_cons_ne _ hup]
              omega

/-- Every vertex finishes, and none is its own input. -/
theorem mem_of_finish_vertexIds {g : Graph} {order : List VertexId}
    (hg : ∀ e ∈ g.edges, g.contains e.1 = true ∧ g.contains e.2 = true)
    (h : finish g.successors (2 * (g.slots.size + g.edges.length) + 1) g.vertexIds [] [] = .ok order) :
    (∀ id, g.contains id = true → id ∈ order) ∧ ∀ v ∈ order, v ∉ g.successors v := by
  have hlen : g.vertexIds.length ≤ g.slots.size :=
    (List.length_filter_le _ _).trans (by rw [List.length_range])
  have hunv : (unvisited g.slots.size []).length = g.slots.size := by simp [unvisited]
  obtain ⟨hmem, hself⟩ := mem_finish g.edges (length_successors g)
    (fun v w hw => lt_size_of_contains (hg _ (mem_successors.1 hw)).2) _ _ _ _ _
    (by rw [length_unvisitedEdges_nil, hunv]; omega)
    (fun v hv => lt_size_of_contains (mem_vertexIds.1 hv)) (by simp) (by simp) h
  exact ⟨fun id hid => hmem id (List.mem_append_left _ (mem_vertexIds.2 hid)), hself⟩

/-- A topological order has all vertices, none of which is its own input, and no late parents. -/
theorem topologicalOrder_eq_ok {g : Graph} {order : List VertexId}
    (hg : ∀ e ∈ g.edges, g.contains e.1 = true ∧ g.contains e.2 = true)
    (h : g.topologicalOrder = .ok order) :
    (∀ id, g.contains id = true → id ∈ order) ∧ (∀ v ∈ order, v ∉ g.successors v) ∧
      lateParent? g.predecessors order [] = none := by
  rw [topologicalOrder] at h
  cases hfin : finish g.successors (2 * (g.slots.size + g.edges.length) + 1) g.vertexIds [] [] with
  | error v => simp [hfin, Bind.bind, Except.bind] at h
  | ok order' =>
    cases hlate : lateParent? g.predecessors order' [] with
    | some v =>
      simp [hfin, hlate, Bind.bind, Except.bind, throw, throwThe, MonadExceptOf.throw] at h
    | none =>
      obtain rfl : order' = order := by
        simpa [hfin, hlate, Bind.bind, Except.bind, pure, Except.pure] using h
      obtain ⟨hmem, hself⟩ := mem_of_finish_vertexIds hg hfin
      exact ⟨hmem, hself, hlate⟩

/-- A graph that passes the check for cycles has none, if its edges join its vertices. -/
theorem acyclic_of_isAcyclic {g : Graph} (hg : ∀ e ∈ g.edges, g.contains e.1 = true ∧ g.contains e.2 = true)
    (h : g.isAcyclic = true) : g.Acyclic := by
  rw [isAcyclic] at h
  cases horder : g.topologicalOrder with
  | error v => simp [horder, Except.isOk, Except.toBool] at h
  | ok order =>
    obtain ⟨hmem, hself, hlate⟩ := topologicalOrder_eq_ok hg horder
    refine acyclic_of_ranked (fun v => order.length - order.idxOf v) fun a b hab => ?_
    have hb : b ∈ order := hmem b (hg _ hab).2
    have hlt := List.idxOf_lt_length_of_mem hb
    rcases mem_of_lateParent?_eq_none hlate b hb a (mem_predecessors.2 hab) with h | rfl | h
    · cases h
    · exact absurd (mem_successors.2 hab) (hself a hb)
    · show order.length - order.idxOf b < order.length - order.idxOf a
      omega

/-! ## Graphs that differ in cached costs alone -/

theorem Alike.depthFirstFrom {g g' : Graph} (h : g.Alike g') (start : VertexId) :
    g'.depthFirstFrom start = g.depthFirstFrom start := by
  rw [Graph.depthFirstFrom, Graph.depthFirstFrom, h.contains, h.successors, walkSteps, walkSteps,
    h.edges]

theorem Alike.topologicalOrder {g g' : Graph} (h : g.Alike g') :
    g'.topologicalOrder = g.topologicalOrder := by
  rw [Graph.topologicalOrder, Graph.topologicalOrder, h.successors, h.predecessors, h.size, h.edges,
    h.vertexIds]

end QueryPlanner.Graph
