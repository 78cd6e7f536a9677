import QueryPlanner.Proofs.Graph.Exactness
import QueryPlanner.Proofs.Graph.Sharing
import QueryPlanner.Proofs.Graph.TopologicalOrder
import QueryPlanner.Proofs.Node.Renaming
import QueryPlanner.Proofs.Planner.Steadiness
import QueryPlanner.Proofs.Planner.Sweep

/-!
# Graphs with renamed vertices

Two graphs that differ in the names of their vertices, in cached costs and in digest entries have the
same order of inputs, and the same ids are used next up to their names. What is reachable, estimates,
and whether there is a cycle do not depend on the names; depth first traversals meet the vertices in
the same order. Topological orders and the order of parents do depend on them.
-/

namespace QueryPlanner.Graph

open Relation

variable {mode : DigestMode} {π : Equiv.Perm VertexId} {g g' h h' : Graph} {node : Node}
  {id : VertexId}

/-- The second graph is the first one with its vertices renamed. Ids that have not been given to a
vertex yet are not renamed. -/
structure Renamed (π : Equiv.Perm VertexId) (g g' : Graph) : Prop where
  size : g'.slots.size = g.slots.size
  fixed : ∀ i, g.slots.size ≤ i → π i = i
  current : ∀ i, g'.current? (π i) = (g.current? i).map (Node.rename π)
  placeholder : ∀ i, g'.placeholder? (π i) = (g.placeholder? i).map (Node.rename π)
  successors : ∀ i, g'.successors (π i) = (g.successors i).map π
  free : g'.free = g.free.map π
  root : g'.root = g.root.map π

theorem Alike.renamed (h : g.Alike g') : g.Renamed 1 g' where
  size := h.size
  fixed _ _ := rfl
  current i := by
    rw [Equiv.Perm.one_apply, h.current?, funext Node.rename_one, Option.map_id']
  placeholder i := by
    rw [Equiv.Perm.one_apply, h.placeholder?, funext Node.rename_one, Option.map_id']
  successors i := by
    rw [Equiv.Perm.one_apply, h.successors, Equiv.Perm.coe_one, List.map_id]
  free := by rw [h.free, Equiv.Perm.coe_one, List.map_id]
  root := by rw [h.root, Equiv.Perm.coe_one, Option.map_id, id_eq]

theorem nodup_garbage (g : Graph) (root : VertexId) : (g.garbage root).Nodup :=
  g.nodup_vertexIds.filter _

namespace Renamed

theorem congr (hr : g.Renamed π g') (hg : g.Alike h) (hg' : g'.Alike h') : h.Renamed π h' where
  size := by rw [hg'.size, hr.size, hg.size]
  fixed i hi := hr.fixed i (hg.size ▸ hi)
  current i := by rw [hg'.current?, hr.current, hg.current?]
  placeholder i := by rw [hg'.placeholder?, hr.placeholder, hg.placeholder?]
  successors i := by rw [hg'.successors, hr.successors, hg.successors]
  free := by rw [hg'.free, hr.free, hg.free]
  root := by rw [hg'.root, hr.root, hg.root]

/-! ## Vertices and edges -/

theorem nextId (hr : g.Renamed π g') : g'.nextId = π g.nextId := by
  rw [Graph.nextId, Graph.nextId, hr.free, hr.size]
  cases g.free with
  | nil => exact (hr.fixed _ le_rfl).symm
  | cons => rfl

theorem contains (hr : g.Renamed π g') (i : VertexId) : g'.contains (π i) = g.contains i := by
  rw [Bool.eq_iff_iff, contains_iff_current, contains_iff_current, hr.current]
  cases g.current? i <;> simp

theorem edge (hr : g.Renamed π g') {a b : VertexId} : g'.Edge (π a) (π b) ↔ g.Edge a b := by
  rw [Edge, Edge, ← mem_successors, ← mem_successors, hr.successors,
    List.mem_map_of_injective π.injective]

theorem edges_perm (hr : g.Renamed π g') (hg : g.edges.Nodup) (hg' : g'.edges.Nodup) :
    g'.edges.Perm (g.edges.map (Prod.map π π)) := by
  refine (List.perm_ext_iff_of_nodup hg' (hg.map (π.injective.prodMap π.injective))).2 ?_
  rintro ⟨a, b⟩
  obtain ⟨a, rfl⟩ := π.surjective a
  obtain ⟨b, rfl⟩ := π.surjective b
  exact hr.edge.trans (List.mem_map_of_injective (π.injective.prodMap π.injective)).symm

/-- A vertex has the same parents, in another order. -/
theorem parents (hr : g.Renamed π g') (hg : g.edges.Nodup) (hg' : g'.edges.Nodup) (i : VertexId) :
    (g'.parents (π i)).Perm ((g.parents i).map π) := by
  refine (List.perm_ext_iff_of_nodup (parents_nodup hg' _)
    ((parents_nodup hg _).map π.injective)).2 fun j => ?_
  obtain ⟨j, rfl⟩ := π.surjective j
  rw [List.mem_map_of_injective π.injective, mem_parents, mem_parents]
  exact hr.edge

theorem resolve (hr : g.Renamed π g') (n : Node) :
    g'.resolve (n.rename π) = (g.resolve n).rename π := by
  rw [Graph.resolve, Graph.resolve, Node.vertexId?_rename]
  cases n.vertexId? with
  | none => rfl
  | some id =>
    simp only [Option.map_some, Option.bind_some, hr.current]
    cases g.current? id <;> rfl

/-! ## Traversals -/

theorem walk_map {neighbours neighbours' : VertexId → List VertexId}
    (h : ∀ i, neighbours' (π i) = (neighbours i).map π) :
    ∀ n stack visited, walk neighbours' n (stack.map π) (visited.map π) =
      (walk neighbours n stack visited).map π := by
  intro n
  induction n with
  | zero => exact fun _ _ => rfl
  | succ n ih =>
    intro stack visited
    cases stack with
    | nil => rfl
    | cons v stack =>
      rw [List.map_cons, walk, walk]
      simp only [List.mem_map_of_injective π.injective]
      split_ifs
      · exact ih stack visited
      · have hnew : ((neighbours' (π v)).filter (· ∉ π v :: visited.map π)).reverse ++ stack.map π =
            (((neighbours v).filter (· ∉ v :: visited)).reverse ++ stack).map π := by
          rw [h, List.filter_map, List.map_append, List.map_reverse]
          congr 3
          refine List.filter_congr fun w _ => ?_
          simp only [Function.comp_apply, ← List.map_cons, List.mem_map_of_injective π.injective]
        simp only [hnew]
        exact ih _ (v :: visited)

theorem depthFirstFrom (hr : g.Renamed π g') (hg : g.edges.Nodup) (hg' : g'.edges.Nodup)
    (start : VertexId) : g'.depthFirstFrom (π start) = (g.depthFirstFrom start).map π := by
  have hsteps : g'.walkSteps = g.walkSteps := by
    rw [walkSteps, walkSteps, (hr.edges_perm hg hg').length_eq, List.length_map]
  rw [Graph.depthFirstFrom, Graph.depthFirstFrom, hr.contains, hsteps]
  split_ifs
  · have hwalk := walk_map hr.successors g.walkSteps [start] []
    rw [List.map_singleton, List.map_nil] at hwalk
    rw [hwalk, List.map_reverse]
  · rfl

theorem acyclic (hr : g.Renamed π g') (h : g.Acyclic) : g'.Acyclic := by
  intro i hi
  obtain ⟨i, rfl⟩ := π.surjective i
  have hlift : ∀ {a b}, TransGen g'.Edge a b → TransGen g.Edge (π.symm a) (π.symm b) := by
    intro a b hab
    refine TransGen.lift π.symm (fun a b hab => ?_) a b hab
    rw [← π.apply_symm_apply a, ← π.apply_symm_apply b] at hab
    exact hr.edge.1 hab
  have hcycle := hlift hi
  rw [π.symm_apply_apply] at hcycle
  exact h i hcycle

theorem symm (hr : g.Renamed π g') : g'.Renamed π⁻¹ g where
  size := hr.size.symm
  fixed i hi := by rw [Equiv.Perm.inv_eq_iff_eq, hr.fixed i (hr.size ▸ hi)]
  current i := by
    obtain ⟨i, rfl⟩ := π.surjective i
    rw [hr.current, Option.map_map]
    simp [Function.comp_def, Node.rename_rename]
  placeholder i := by
    obtain ⟨i, rfl⟩ := π.surjective i
    rw [hr.placeholder, Option.map_map]
    simp [Function.comp_def, Node.rename_rename]
  successors i := by
    obtain ⟨i, rfl⟩ := π.surjective i
    rw [hr.successors, List.map_map]
    simp [Function.comp_def]
  free := by
    rw [hr.free, List.map_map]
    simp [Function.comp_def]
  root := by
    rw [hr.root, Option.map_map]
    simp [Function.comp_def]

/-- Renaming makes no cycle and breaks none. -/
theorem isAcyclic (hr : g.Renamed π g') (hg : g.Linked mode) (hg' : g'.Linked mode) :
    g'.isAcyclic = g.isAcyclic := by
  rw [Bool.eq_iff_iff]
  constructor
  · exact fun h => (hr.symm.acyclic (acyclic_of_isAcyclic hg'.edges_live h)).isAcyclic hg.edges_live
  · exact fun h => (hr.acyclic (acyclic_of_isAcyclic hg.edges_live h)).isAcyclic hg'.edges_live

/-- The same vertices are garbage. -/
theorem garbage (hr : g.Renamed π g') (hg : g.edges.Nodup) (hg' : g'.edges.Nodup)
    (root : VertexId) : (g'.garbage (π root)).Perm ((g.garbage root).map π) := by
  refine (List.perm_ext_iff_of_nodup (nodup_garbage g' _)
    ((nodup_garbage g _).map π.injective)).2 fun j => ?_
  obtain ⟨j, rfl⟩ := π.surjective j
  rw [List.mem_map_of_injective π.injective, Graph.garbage, Graph.garbage, List.mem_filter,
    List.mem_filter, mem_vertexIds, mem_vertexIds, hr.contains, reachableFrom, reachableFrom,
    hr.depthFirstFrom hg hg', decide_eq_true_eq, decide_eq_true_eq,
    List.mem_map_of_injective π.injective]

/-! ## Keys -/

/-- Where every vertex is entered, a key leads to the vertex that has it. -/
theorem lookup_eq_some_iff_current (hg : g.Linked mode) (he : g.Entered) {key : DigestKey} :
    g.lookup key = some id ↔ ∃ n, g.current? id = some n ∧ n.key mode = key := by
  rw [lookup_eq_some_iff hg.digests_nodup]
  constructor
  · intro hmem
    have hkey := hg.digests key id hmem
    obtain ⟨n, hn⟩ := contains_iff_current.1 (contains_of_key hkey)
    exact ⟨n, hn, Option.some.inj ((hg.keys id n hn).symm.trans hkey)⟩
  · rintro ⟨n, hn, rfl⟩
    exact he id _ (hg.keys id n hn)

/-- Where traits are plain, an expression is found in the same place. -/
theorem lookup (hr : g.Renamed π g') (hg : g.Linked mode) (hg' : g'.Linked mode) (he : g.Entered)
    (he' : g'.Entered) (hplain : g.Within PlainTraits) (hn : g.OverVertices node)
    (htraits : PlainTraits node.operator node.traits) :
    g'.lookup ((node.rename π).key mode) = (g.lookup (node.key mode)).map π := by
  have hkey : ∀ {m : Node} {i : VertexId}, g.current? i = some m →
      ((m.rename π).key mode = (node.rename π).key mode ↔ m.key mode = node.key mode) := fun hm =>
    Node.key_rename_eq_iff (hplain _ _ hm) htraits (hg.currents _ _ hm).isOperator hn.isOperator
      (hg.isSome_vertexId? (hg.currents _ _ hm)) (hg.isSome_vertexId? hn)
  ext i
  obtain ⟨i, rfl⟩ := π.surjective i
  simp only [lookup_eq_some_iff_current hg' he', hr.current, Option.map_eq_some_iff,
    lookup_eq_some_iff_current hg he, π.apply_eq_iff_eq, exists_eq_right]
  constructor
  · rintro ⟨_, ⟨m, hm, rfl⟩, heq⟩
    exact ⟨m, hm, (hkey hm).1 heq⟩
  · rintro ⟨m, hm, heq⟩
    exact ⟨_, ⟨m, hm, rfl⟩, (hkey hm).2 heq⟩

/-! ## Estimates -/

theorem plainRowCount (hr : g.Renamed π g') (n : Nat) :
    ∀ node : Node, g'.plainRowCount n (node.rename π) = g.plainRowCount n node := by
  induction n with
  | zero => exact fun _ => rfl
  | succ n ih =>
    intro node
    have hinputs : ((g.resolve node).inputs.map (Node.rename π)).mapM (g'.plainRowCount n) =
        (g.resolve node).inputs.mapM (g.plainRowCount n) := by
      rw [List.mapM_map]
      exact mapM_congr_left fun input _ => ih input
    rw [Graph.plainRowCount, Graph.plainRowCount]
    simp only [hr.resolve, Node.operator_rename, Operator.estimate_rename, Node.inputs_rename,
      hinputs]

theorem plainCost (hr : g.Renamed π g') {model : CostModel} (hmodel : model.Blind) (n : Nat) :
    ∀ node : Node, g'.plainCost model n (node.rename π) = g.plainCost model n node := by
  induction n with
  | zero => exact fun _ => rfl
  | succ n ih =>
    intro node
    have hcounts : ((g.resolve node).inputs.map (Node.rename π)).mapM (g'.plainRowCount n) =
        (g.resolve node).inputs.mapM (g.plainRowCount n) := by
      rw [List.mapM_map]
      exact mapM_congr_left fun input _ => hr.plainRowCount n input
    have hcosts : ((g.resolve node).inputs.map (Node.rename π)).mapM (g'.plainCost model n) =
        (g.resolve node).inputs.mapM (g.plainCost model n) := by
      rw [List.mapM_map]
      exact mapM_congr_left fun input _ => ih input
    rw [Graph.plainCost, Graph.plainCost]
    simp only [hr.resolve, Node.operator_rename, Operator.estimate_rename, Node.inputs_rename,
      hcounts, hcosts, hmodel π]

end Renamed

end QueryPlanner.Graph
