import QueryPlanner.Proofs.Graph.Consistency

/-!
# Removing garbage

Vertices that no remaining vertex refers to can be removed together, in any order: the others stay as
they are, with their edges among each other and their digest entries, and the graph stays consistent.
-/

namespace QueryPlanner.Graph

open Relation

variable {mode : DigestMode} {g g' : Graph} {order garbage : List VertexId} {id : VertexId}

/-- Removes vertices one after the other and drops the digest entries of all of them. -/
def discard (order garbage : List VertexId) (g : Graph) : Graph :=
  (order.foldl evict g).purge garbage

/-- No remaining vertex refers to these, and the root is none of them. -/
structure Discardable (g : Graph) (garbage : List VertexId) : Prop where
  notReferenced : ∀ a b, g.Edge a b → b ∈ garbage → a ∈ garbage
  notRoot : ∀ id ∈ garbage, g.root ≠ some id

/-- What removing vertices does. -/
structure Discarded (g : Graph) (garbage : List VertexId) (g' : Graph) : Prop where
  vertex : ∀ i, g'.vertex? i = if i ∈ garbage then none else g.vertex? i
  free : g.FreeUnused → g'.FreeUnused
  edges : ∀ e, e ∈ g'.edges ↔ e ∈ g.edges ∧ e.1 ∉ garbage ∧ e.2 ∉ garbage
  edges_nodup : g.edges.Nodup → g'.edges.Nodup
  root : g'.root = g.root

theorem alike_evict (g : Graph) (id : VertexId) : (g.removeVertex id).Alike (g.evict id) :=
  alike_forgetVertex _ _

theorem vertex?_evict (g : Graph) (id id' : VertexId) :
    (g.evict id).vertex? id' = if id' = id then none else g.vertex? id' :=
  ((alike_evict g id).vertex? id').trans (vertex?_removeVertex g id id')

theorem FreeUnused.evict (h : g.FreeUnused) (id : VertexId) : (g.evict id).FreeUnused :=
  have halike := alike_evict g id
  (h.removeVertex id).congr halike.contains halike.size halike.free

theorem vertex?_foldl_evict (order : List VertexId) (i : VertexId) : ∀ g : Graph,
    (order.foldl evict g).vertex? i = if i ∈ order then none else g.vertex? i := by
  induction order with
  | nil => simp
  | cons id order ih =>
    intro g
    rw [List.foldl_cons, ih, vertex?_evict]
    by_cases hi : i = id <;> simp [hi]

theorem vertex?_discard (g : Graph) (order garbage : List VertexId) (i : VertexId) :
    (g.discard order garbage).vertex? i = if i ∈ order then none else g.vertex? i :=
  vertex?_foldl_evict order i g

theorem edges_sublist_removeVertex (g : Graph) (id : VertexId) :
    (g.removeVertex id).edges.Sublist g.edges := by
  unfold removeVertex
  split_ifs
  · exact List.filter_sublist
  · exact List.Sublist.refl _

theorem discarded_foldl_evict (order : List VertexId)
    (hg : ∀ e ∈ g.edges, g.contains e.1 = true ∧ g.contains e.2 = true) :
    Discarded g order (order.foldl evict g) ∧ (order.foldl evict g).digests = g.digests := by
  induction order generalizing g with
  | nil => exact ⟨⟨fun i => by simp, id, fun e => by simp, id, rfl⟩, rfl⟩
  | cons id order ih =>
    have halike := alike_evict g id
    have hvertex := vertex?_evict g id
    have hedges : ∀ e, e ∈ (g.evict id).edges ↔ e ∈ g.edges ∧ e.1 ≠ id ∧ e.2 ≠ id :=
      halike.edges ▸ mem_edges_removeVertex hg id
    obtain ⟨-, hroot, hdigests⟩ := removeVertex_eq g id
    have hlive : ∀ e ∈ (g.evict id).edges,
        (g.evict id).contains e.1 = true ∧ (g.evict id).contains e.2 = true := by
      intro e he
      obtain ⟨he, h₁, h₂⟩ := (hedges e).1 he
      rw [contains, contains, hvertex, hvertex, if_neg h₁, if_neg h₂]
      exact hg e he
    obtain ⟨h, hd⟩ := ih hlive
    refine ⟨⟨fun i => vertex?_foldl_evict _ i g, fun hf => h.free (hf.evict id), fun e => ?_,
      fun hn => h.edges_nodup ?_, h.root.trans (halike.root.trans hroot)⟩,
      hd.trans (halike.digests.trans hdigests)⟩
    · rw [List.foldl_cons, h.edges, hedges]
      simp only [List.mem_cons, not_or]
      tauto
    · rw [halike.edges]
      exact hn.sublist (edges_sublist_removeVertex g id)

/-- The order in which vertices are removed does not matter to what remains. -/
theorem discarded_discard (hg : g.Linked mode) (hperm : order.Perm garbage) :
    Discarded g garbage (g.discard order garbage) := by
  obtain ⟨h, -⟩ := discarded_foldl_evict order hg.edges_live
  refine ⟨fun i => ?_, fun hf => ?_, fun e => ?_, h.edges_nodup, h.root⟩
  · exact (h.vertex i).trans (by simp only [hperm.mem_iff])
  · exact ⟨(h.free hf).lt_size, (h.free hf).unused, (h.free hf).nodup⟩
  · exact (h.edges e).trans (by simp only [hperm.mem_iff])

theorem mem_digests_discard (hg : g.Linked mode) (e : DigestKey × VertexId) :
    e ∈ (g.discard order garbage).digests ↔ e ∈ g.digests ∧ e.2 ∉ garbage := by
  rw [discard, mem_digests_purge, (discarded_foldl_evict order hg.edges_live).2]

theorem Discarded.current? (h : Discarded g garbage g') (i : VertexId) :
    g'.current? i = if i ∈ garbage then none else g.current? i := by
  rw [Graph.current?, Graph.current?, h.vertex]
  split_ifs <;> rfl

theorem Discarded.placeholder? (h : Discarded g garbage g') (i : VertexId) :
    g'.placeholder? i = if i ∈ garbage then none else g.placeholder? i := by
  rw [Graph.placeholder?, Graph.placeholder?, h.vertex]
  split_ifs <;> rfl

theorem Discarded.key? (h : Discarded g garbage g') (i : VertexId) :
    g'.key? i = if i ∈ garbage then none else g.key? i := by
  rw [Graph.key?, Graph.key?, h.vertex]
  split_ifs <;> rfl

theorem Discarded.edge (h : Discarded g garbage g') {a b : VertexId} (hab : g'.Edge a b) :
    g.Edge a b := ((h.edges (a, b)).1 hab).1

/-- Remaining vertices refer to remaining vertices. -/
theorem Discarded.overVertices (hg : g.Linked mode) (hd : g.Discardable garbage)
    (h : Discarded g garbage g') {node : Node} (hcurrent : g.current? id = some node)
    (hid : id ∉ garbage) : g'.OverVertices node where
  isOperator := (hg.currents id node hcurrent).isOperator
  inputs i hi := by
    obtain ⟨j, hj⟩ := (hg.currents id node hcurrent).inputs i hi
    have hedge := hg.edge_of_input hcurrent hi (hg.vertexId?_placeholder hj)
    refine ⟨j, ?_⟩
    rw [h.placeholder?, if_neg fun hmem => hid (hd.notReferenced id j hedge hmem), hj]

theorem consistent_discard (hg : g.Consistent mode) (hperm : order.Perm garbage)
    (hd : g.Discardable garbage) : (g.discard order garbage).Consistent mode := by
  have h := discarded_discard hg.toLinked hperm
  have hdigests : ∀ e, e ∈ (g.discard order garbage).digests ↔ e ∈ g.digests ∧ e.2 ∉ garbage :=
    mem_digests_discard hg.toLinked
  have hnodup : ((g.discard order garbage).digests.map Prod.fst).Nodup := by
    rw [discard, purge, (discarded_foldl_evict order hg.edges_live).2]
    exact hg.digests_nodup.sublist (List.filter_sublist.map _)
  generalize g.discard order garbage = g' at *
  refine ⟨⟨h.free hg.free, fun i n hi => ?_, fun i n hi => ?_, fun a b => ?_,
    h.edges_nodup hg.edges_nodup, fun i n hi => ?_, fun k i hi => ?_, hnodup⟩, ?_, fun i hi => ?_⟩
  · rw [h.placeholder?] at hi
    split_ifs at hi
    exact hg.placeholders i n hi
  · rw [h.current?] at hi
    split_ifs at hi with hmem
    exact h.overVertices hg.toLinked hd hi hmem
  · rw [Edge, h.edges, h.current?]
    constructor
    · rintro ⟨hab, ha, -⟩
      rw [if_neg ha]
      exact (hg.edges a b).1 hab
    · rintro ⟨n, hn, hb⟩
      split_ifs at hn with ha
      have hab := (hg.edges a b).2 ⟨n, hn, hb⟩
      exact ⟨hab, ha, fun hmem => ha (hd.notReferenced a b hab hmem)⟩
  · rw [h.current?] at hi
    rw [h.key?]
    split_ifs at hi ⊢
    exact hg.keys i n hi
  · obtain ⟨hi, hmem⟩ := (hdigests _).1 hi
    rw [h.key?, if_neg hmem]
    exact hg.digests k i hi
  · exact fun i hi => hg.acyclic i (TransGen.mono (fun a b => h.edge) _ _ hi)
  · have hroot := h.root ▸ hi
    rw [contains, h.vertex, if_neg fun hmem => hd.notRoot i hmem hroot, ← contains]
    exact hg.root i hroot

/-- What cannot be reached from the root can be discarded. -/
theorem discardable_unreachable (hg : g.Linked mode) {root : VertexId} (hroot : g.root = some root)
    (hlive : g.contains root = true) :
    g.Discardable (g.vertexIds.filter (· ∉ g.reachableFrom root)) where
  notReferenced a b hab hb := by
    simp only [List.mem_filter, decide_eq_true_eq] at hb ⊢
    exact ⟨mem_vertexIds.2 (hg.edges_live _ hab).1,
      fun ha => hb.2 (mem_reachableFrom_of_edge ha hab)⟩
  notRoot i hi heq := by
    simp only [List.mem_filter, decide_eq_true_eq] at hi
    obtain rfl : root = i := by simpa [hroot] using heq
    exact hi.2 (mem_reachableFrom_self hlive)

end QueryPlanner.Graph
