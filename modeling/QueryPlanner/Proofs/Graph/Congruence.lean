import QueryPlanner.Proofs.Graph.Collection
import QueryPlanner.Proofs.Graph.Redirection

/-!
# What is known does not matter

Whatever is done to graphs that differ in what is known of row counts and costs alone, they still differ
in that alone afterwards, and new vertices get the same ids.
-/

namespace QueryPlanner.Graph

variable {g g' : Graph}

namespace Alike

/-! ## Edges, digest entries and the root -/

theorem withRoot (h : g.Alike g') (root : Option VertexId) :
    Alike { g with root } { g' with root } :=
  ⟨h.slots, h.free, h.edges, rfl, h.digests⟩

theorem addEdge (h : g.Alike g') (a b : VertexId) : (g.addEdge a b).Alike (g'.addEdge a b) where
  slots := by rw [addEdge_slots, addEdge_slots, h.slots]
  free := by rw [addEdge_free, addEdge_free, h.free]
  edges := by
    unfold Graph.addEdge
    rw [h.edges]
    split_ifs
    · exact h.edges
    · rfl
  root := by rw [addEdge_root, addEdge_root, h.root]
  digests := by rw [addEdge_digests, addEdge_digests, h.digests]

theorem foldl_addEdge (h : g.Alike g') (a : VertexId) (bs : List VertexId) :
    (bs.foldl (fun g b => g.addEdge a b) g).Alike (bs.foldl (fun g b => g.addEdge a b) g') := by
  induction bs generalizing g g' with
  | nil => exact h
  | cons b bs ih => exact ih (h.addEdge a b)

theorem removeEdge (h : g.Alike g') (a b : VertexId) :
    (g.removeEdge a b).Alike (g'.removeEdge a b) :=
  ⟨h.slots, h.free, by simp only [Graph.removeEdge, h.edges], h.root, h.digests⟩

theorem register (h : g.Alike g') (key : DigestKey) (id : VertexId) :
    (g.register key id).Alike (g'.register key id) :=
  ⟨h.slots, h.free, h.edges, h.root, by simp only [Graph.register, h.digests]⟩

theorem unregister (h : g.Alike g') (key : DigestKey) (id : VertexId) :
    (g.unregister key id).Alike (g'.unregister key id) :=
  ⟨h.slots, h.free, h.edges, h.root, by simp only [Graph.unregister, h.digests]⟩

theorem purge (h : g.Alike g') (removed : List VertexId) :
    (g.purge removed).Alike (g'.purge removed) :=
  ⟨h.slots, h.free, h.edges, h.root, by simp only [Graph.purge, h.digests]⟩

/-! ## Vertices -/

theorem setVertex (h : g.Alike g') (id : VertexId) (v : Vertex) :
    (g.setVertex id v).Alike (g'.setVertex id v) :=
  ⟨by simp only [Graph.setVertex, h.slots], h.free, h.edges, h.root, h.digests⟩

theorem nextId (h : g.Alike g') : g'.nextId = g.nextId := by
  rw [Graph.nextId, Graph.nextId, h.free, h.size]

theorem addVertex (h : g.Alike g') (node : Node) (key : DigestKey) :
    (g.addVertex node key).2.Alike (g'.addVertex node key).2 := by
  unfold Graph.addVertex
  rw [h.nextId, h.free]
  cases g.free with
  | nil => exact ⟨by simp only [h.slots], rfl, h.edges, h.root, h.digests⟩
  | cons next rest =>
    have hset := h.setVertex g.nextId (g.freshVertex node key)
    exact ⟨hset.slots, rfl, h.edges, h.root, h.digests⟩

theorem insert (h : g.Alike g') (node : Node) (key : DigestKey) :
    (g'.insert node key).1 = (g.insert node key).1 ∧
      (g.insert node key).2.Alike (g'.insert node key).2 := by
  have hfst : (g'.addVertex node key).1 = (g.addVertex node key).1 := by
    rw [addVertex_fst, addVertex_fst, h.nextId]
  have hsnd := h.addVertex node key
  unfold Graph.insert
  generalize g.addVertex node key = added at *
  generalize g'.addVertex node key = added' at *
  obtain ⟨id, g₁⟩ := added
  obtain ⟨id', g₁'⟩ := added'
  obtain rfl : id' = id := hfst
  exact ⟨rfl, (hsnd.register key id').foldl_addEdge id' _⟩

theorem replace (h : g.Alike g') (id : VertexId) (node : Node) (key : DigestKey) :
    (g.replace id node key).Alike (g'.replace id node key) := by
  unfold Graph.replace Graph.setCurrent
  rw [h.vertex?]
  split
  · next old _ =>
    exact ((h.setVertex id { old with current := node, key }).unregister old.key id).register key id
  · exact h

theorem removeVertex (h : g.Alike g') (id : VertexId) :
    (g.removeVertex id).Alike (g'.removeVertex id) := by
  unfold Graph.removeVertex
  rw [h.contains]
  split_ifs
  · exact ⟨by simp only [h.slots], by simp only [h.free], by simp only [h.edges], h.root, h.digests⟩
  · exact h

theorem evict (h : g.Alike g') (id : VertexId) : (g.evict id).Alike (g'.evict id) :=
  ((alike_evict g id).symm.trans (h.removeVertex id)).trans (alike_evict g' id)

theorem discard (h : g.Alike g') (order garbage : List VertexId) :
    (g.discard order garbage).Alike (g'.discard order garbage) := by
  refine Alike.purge ?_ garbage
  induction order generalizing g g' with
  | nil => exact h
  | cons id order ih => exact ih (h.evict id)

/-! ## Redirecting -/

theorem ancestors (h : g.Alike g') (id : VertexId) : g'.ancestors id = g.ancestors id := by
  rw [Graph.ancestors, Graph.ancestors, h.predecessors, walkSteps, walkSteps, h.edges]

end Alike

end QueryPlanner.Graph
