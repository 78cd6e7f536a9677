import QueryPlanner.Graph.Estimate
import Mathlib.Tactic

/-!
# What graph operations do to vertices, edges and digest entries

Every operation is described by what it does to the vertices, to the edges and to the digest
entries. Later modules use these descriptions and never open the array of slots again. Graphs that
differ alone in what is known of row counts and costs are `Alike`.
-/

namespace QueryPlanner

namespace Graph

variable {g g' g'' : Graph} {id id' : VertexId} {node : Node} {key : DigestKey}

theorem contains_iff_current : g.contains id = true ↔ ∃ n, g.current? id = some n := by
  simp [contains, current?, Option.isSome_iff_exists]

theorem contains_of_current (h : g.current? id = some node) : g.contains id = true :=
  contains_iff_current.2 ⟨node, h⟩

theorem contains_of_placeholder (h : g.placeholder? id = some node) : g.contains id = true := by
  obtain ⟨v, hv, -⟩ := Option.map_eq_some_iff.1 h
  rw [contains, hv, Option.isSome_some]

theorem exists_vertex_of_contains (h : g.contains id = true) : ∃ v, g.vertex? id = some v :=
  Option.isSome_iff_exists.1 h

theorem current?_of_vertex? {v : Vertex} (h : g.vertex? id = some v) :
    g.current? id = some v.current := by
  rw [current?, h, Option.map_some]

theorem vertex?_congr (h : g'.slots = g.slots) (id : VertexId) : g'.vertex? id = g.vertex? id := by
  rw [vertex?, vertex?, h]

theorem vertex?_eq_none_of_size_le (h : g.slots.size ≤ id) : g.vertex? id = none := by
  simp [vertex?, Array.getElem?_eq_none h]

theorem lt_size_of_contains (h : g.contains id = true) : id < g.slots.size := by
  by_contra hlt
  rw [contains, vertex?_eq_none_of_size_le (Nat.le_of_not_lt hlt)] at h
  cases h

theorem mem_vertexIds : id ∈ g.vertexIds ↔ g.contains id = true := by
  simp only [vertexIds, List.mem_filter, List.mem_range, and_iff_right_iff_imp]
  exact lt_size_of_contains

theorem nodup_vertexIds (g : Graph) : g.vertexIds.Nodup := List.nodup_range.filter _

/-! ## Graphs that differ in what is known alone -/

/-- The graphs have the same vertices, edges and digest entries, and the same root. -/
structure Alike (g g' : Graph) : Prop where
  slots : g'.slots = g.slots
  free : g'.free = g.free
  edges : g'.edges = g.edges
  root : g'.root = g.root
  digests : g'.digests = g.digests

namespace Alike

theorem refl (g : Graph) : Alike g g := ⟨rfl, rfl, rfl, rfl, rfl⟩

theorem trans (h : Alike g g') (h' : Alike g' g'') : Alike g g'' where
  slots := h'.slots.trans h.slots
  free := h'.free.trans h.free
  edges := h'.edges.trans h.edges
  root := h'.root.trans h.root
  digests := h'.digests.trans h.digests

theorem symm (h : Alike g g') : Alike g' g where
  slots := h.slots.symm
  free := h.free.symm
  edges := h.edges.symm
  root := h.root.symm
  digests := h.digests.symm

theorem size (h : Alike g g') : g'.slots.size = g.slots.size := congrArg Array.size h.slots

theorem vertex? (h : Alike g g') (id : VertexId) : g'.vertex? id = g.vertex? id :=
  vertex?_congr h.slots id

theorem current? (h : Alike g g') (id : VertexId) : g'.current? id = g.current? id := by
  rw [Graph.current?, Graph.current?, h.vertex?]

theorem placeholder? (h : Alike g g') (id : VertexId) : g'.placeholder? id = g.placeholder? id := by
  rw [Graph.placeholder?, Graph.placeholder?, h.vertex?]

theorem key? (h : Alike g g') (id : VertexId) : g'.key? id = g.key? id := by
  rw [Graph.key?, Graph.key?, h.vertex?]

theorem contains (h : Alike g g') (id : VertexId) : g'.contains id = g.contains id := by
  rw [Graph.contains, Graph.contains, h.vertex?]

theorem lookup (h : Alike g g') (key : DigestKey) : g'.lookup key = g.lookup key := by
  rw [Graph.lookup, Graph.lookup, h.digests]

theorem parents (h : Alike g g') (id : VertexId) : g'.parents id = g.parents id := by
  rw [Graph.parents, Graph.parents, predecessors, predecessors, h.edges]

theorem successors (h : Alike g g') : g'.successors = g.successors := by
  funext id
  rw [Graph.successors, Graph.successors, h.edges]

theorem predecessors (h : Alike g g') : g'.predecessors = g.predecessors := by
  funext id
  rw [Graph.predecessors, Graph.predecessors, h.edges]

theorem vertexIds (h : Alike g g') : g'.vertexIds = g.vertexIds := by
  rw [Graph.vertexIds, Graph.vertexIds, h.slots, funext h.contains]

theorem dump (h : Alike g g') : g'.dump = g.dump := by
  rw [Graph.dump, Graph.dump, h.vertexIds, h.root, funext h.current?, funext h.parents]

end Alike

theorem alike_noteRowCount (g : Graph) (id : VertexId) (rows : Float) :
    Alike g (g.noteRowCount id rows) := ⟨rfl, rfl, rfl, rfl, rfl⟩

theorem alike_noteCost (g : Graph) (id : VertexId) (cost : Cost) :
    Alike g (g.noteCost id cost) := ⟨rfl, rfl, rfl, rfl, rfl⟩

theorem alike_forgetVertex (g : Graph) (id : VertexId) : Alike g (g.forgetVertex id) :=
  ⟨rfl, rfl, rfl, rfl, rfl⟩

theorem alike_forget (g : Graph) (ids : List VertexId) : Alike g (g.forget ids) := by
  induction ids generalizing g with
  | nil => exact .refl g
  | cons id ids ih => exact (alike_forgetVertex g id).trans (ih _)

/-! ## Slots -/

theorem vertex?_setVertex (g : Graph) (id id' : VertexId) (v : Vertex) :
    (g.setVertex id v).vertex? id' =
      if id = id' ∧ id < g.slots.size then some v else g.vertex? id' := by
  simp only [vertex?, setVertex, Array.getElem?_setIfInBounds]
  by_cases h : id = id'
  · subst h
    by_cases hlt : id < g.slots.size <;> simp [hlt]
  · simp [h]

/-! ## Edges -/

theorem mem_successors : id' ∈ g.successors id ↔ (id, id') ∈ g.edges := by
  simp [successors]

theorem mem_predecessors : id' ∈ g.predecessors id ↔ (id', id) ∈ g.edges := by
  simp [predecessors]

theorem mem_parents : id' ∈ g.parents id ↔ (id', id) ∈ g.edges := by
  rw [parents, List.mem_mergeSort, mem_predecessors]

theorem parents_nodup (h : g.edges.Nodup) (id : VertexId) : (g.parents id).Nodup := by
  rw [parents, (List.mergeSort_perm _ _).nodup_iff, predecessors]
  refine (h.filter _).map_on ?_
  rintro ⟨a, b⟩ hab ⟨a', b'⟩ hab' (rfl : a = a')
  simp only [List.mem_filter, decide_eq_true_eq] at hab hab'
  rw [hab.2, hab'.2]

theorem mem_edges_addEdge (g : Graph) (a b : VertexId) (e : VertexId × VertexId) :
    e ∈ (g.addEdge a b).edges ↔ e = (a, b) ∨ e ∈ g.edges := by
  unfold addEdge
  split_ifs with h
  · constructor
    · exact .inr
    · rintro (rfl | he)
      · exact h
      · exact he
  · exact List.mem_cons

theorem nodup_edges_addEdge (h : g.edges.Nodup) (a b : VertexId) : (g.addEdge a b).edges.Nodup := by
  unfold addEdge
  split_ifs with hab
  · exact h
  · exact List.nodup_cons.2 ⟨hab, h⟩

theorem mem_edges_removeEdge (g : Graph) (a b : VertexId) (e : VertexId × VertexId) :
    e ∈ (g.removeEdge a b).edges ↔ e ≠ (a, b) ∧ e ∈ g.edges := by
  simp [removeEdge, and_comm]

@[simp] theorem addEdge_slots (g : Graph) (a b : VertexId) : (g.addEdge a b).slots = g.slots := by
  unfold addEdge; split_ifs <;> rfl

@[simp] theorem addEdge_free (g : Graph) (a b : VertexId) : (g.addEdge a b).free = g.free := by
  unfold addEdge; split_ifs <;> rfl

@[simp] theorem addEdge_root (g : Graph) (a b : VertexId) : (g.addEdge a b).root = g.root := by
  unfold addEdge; split_ifs <;> rfl

@[simp] theorem addEdge_digests (g : Graph) (a b : VertexId) :
    (g.addEdge a b).digests = g.digests := by
  unfold addEdge; split_ifs <;> rfl

/-- Adding edges from one vertex to several. -/
theorem foldl_addEdge (a : VertexId) (bs : List VertexId) (g : Graph) :
    let g' := bs.foldl (fun g b => g.addEdge a b) g
    g'.slots = g.slots ∧ g'.free = g.free ∧ g'.root = g.root ∧ g'.digests = g.digests ∧
      (g.edges.Nodup → g'.edges.Nodup) ∧
      ∀ e, e ∈ g'.edges ↔ (e.1 = a ∧ e.2 ∈ bs) ∨ e ∈ g.edges := by
  induction bs generalizing g with
  | nil => simp
  | cons b bs ih =>
    obtain ⟨hs, hf, hr, hd, hn, he⟩ := ih (g.addEdge a b)
    refine ⟨by simpa using hs, by simpa using hf, by simpa using hr, by simpa using hd,
      fun h => hn (nodup_edges_addEdge h a b), fun e => ?_⟩
    rw [List.foldl_cons, he, mem_edges_addEdge, List.mem_cons, Prod.ext_iff]
    tauto

/-! ## Digest entries -/

theorem mem_digests_register (g : Graph) (key : DigestKey) (id : VertexId)
    (e : DigestKey × VertexId) :
    e ∈ (g.register key id).digests ↔ e = (key, id) ∨ (e ∈ g.digests ∧ e.1 ≠ key) := by
  simp [register]

theorem mem_digests_unregister (g : Graph) (key : DigestKey) (id : VertexId)
    (e : DigestKey × VertexId) :
    e ∈ (g.unregister key id).digests ↔ e ∈ g.digests ∧ e ≠ (key, id) := by
  simp [unregister]

theorem mem_digests_purge (g : Graph) (ids : List VertexId) (e : DigestKey × VertexId) :
    e ∈ (g.purge ids).digests ↔ e ∈ g.digests ∧ e.2 ∉ ids := by
  simp [purge]

theorem digests_keys_nodup_register (h : (g.digests.map Prod.fst).Nodup) (key : DigestKey)
    (id : VertexId) : ((g.register key id).digests.map Prod.fst).Nodup := by
  rw [register, List.map_cons, List.nodup_cons]
  constructor
  · simp
  · exact h.sublist (List.filter_sublist.map _)

theorem mem_of_lookup {α β : Type} [BEq α] [LawfulBEq α] {entries : List (α × β)} {key : α}
    {value : β} (h : entries.lookup key = some value) : (key, value) ∈ entries := by
  obtain ⟨before, after, rfl, -⟩ := List.lookup_eq_some_iff.1 h
  exact List.mem_append_right before List.mem_cons_self

theorem lookup_of_mem {α β : Type} [BEq α] [LawfulBEq α] {entries : List (α × β)} {key : α}
    {value : β} (hnodup : (entries.map Prod.fst).Nodup) (h : (key, value) ∈ entries) :
    entries.lookup key = some value := by
  induction entries with
  | nil => cases h
  | cons e entries ih =>
    obtain ⟨k, i⟩ := e
    rw [List.map_cons, List.nodup_cons] at hnodup
    rcases List.mem_cons.1 h with heq | hmem
    · cases heq
      simp
    · have hne : key ≠ k := by
        rintro rfl
        exact hnodup.1 (List.mem_map.2 ⟨(key, value), hmem, rfl⟩)
      rw [List.lookup_cons, beq_false_of_ne hne]
      exact ih hnodup.2 hmem

/-- Looking up a key finds the one entry of that key. -/
theorem lookup_eq_some_iff (h : (g.digests.map Prod.fst).Nodup) :
    g.lookup key = some id ↔ (key, id) ∈ g.digests :=
  ⟨mem_of_lookup, lookup_of_mem h⟩

/-! ## Adding, replacing and removing vertices -/

/-- The free ids are unused slots, each listed once. -/
structure FreeUnused (g : Graph) : Prop where
  lt_size : ∀ id ∈ g.free, id < g.slots.size
  unused : ∀ id ∈ g.free, g.contains id = false
  nodup : g.free.Nodup

theorem FreeUnused.congr (h : g.FreeUnused) (hlive : ∀ i, g'.contains i = g.contains i)
    (hsize : g'.slots.size = g.slots.size) (hfree : g'.free = g.free) : g'.FreeUnused where
  lt_size i hi := hsize ▸ h.lt_size i (hfree ▸ hi)
  unused i hi := (hlive i).trans (h.unused i (hfree ▸ hi))
  nodup := hfree ▸ h.nodup

theorem FreeUnused.nextId_unused (h : g.FreeUnused) : g.contains g.nextId = false := by
  rw [nextId]
  cases hfree : g.free with
  | nil =>
    rw [List.headD_nil, contains, vertex?_eq_none_of_size_le le_rfl]
    rfl
  | cons id rest => exact h.unused id (by simp [hfree])

/-- The vertex that is made for an expression. -/
def freshVertex (g : Graph) (node : Node) (key : DigestKey) : Vertex :=
  ⟨node, .placeholder g.nextId node.traits node.rowType, key⟩

theorem vertex?_addVertex (h : g.FreeUnused) (node : Node) (key : DigestKey) (id : VertexId) :
    (g.addVertex node key).2.vertex? id =
      if id = g.nextId then some (g.freshVertex node key) else g.vertex? id := by
  unfold addVertex nextId freshVertex
  cases hfree : g.free with
  | nil =>
    simp only [vertex?, List.headD_nil, nextId, hfree, Array.getElem?_push]
    split_ifs <;> rfl
  | cons next rest =>
    have hlt : next < g.slots.size := h.lt_size next (by simp [hfree])
    by_cases hid : id = next
    · simp [vertex?, setVertex, nextId, hfree, hid, hlt]
    · simp [vertex?, setVertex, hfree, hid, Ne.symm hid]

theorem addVertex_fst (g : Graph) (node : Node) (key : DigestKey) :
    (g.addVertex node key).1 = g.nextId := by
  unfold addVertex
  split <;> rfl

theorem addVertex_edges (g : Graph) (node : Node) (key : DigestKey) :
    (g.addVertex node key).2.edges = g.edges := by
  unfold addVertex
  split <;> rfl

theorem addVertex_root (g : Graph) (node : Node) (key : DigestKey) :
    (g.addVertex node key).2.root = g.root := by
  unfold addVertex
  split <;> rfl

theorem addVertex_digests (g : Graph) (node : Node) (key : DigestKey) :
    (g.addVertex node key).2.digests = g.digests := by
  unfold addVertex
  split <;> rfl

theorem FreeUnused.addVertex (h : g.FreeUnused) (node : Node) (key : DigestKey) :
    (g.addVertex node key).2.FreeUnused := by
  have hvertex := vertex?_addVertex h node key
  have hfree : (g.addVertex node key).2.free = g.free.tail := by
    unfold Graph.addVertex
    split <;> simp [*]
  have hsize : g.slots.size ≤ (g.addVertex node key).2.slots.size := by
    unfold Graph.addVertex
    split <;> simp [setVertex]
  refine ⟨fun id hid => ?_, fun id hid => ?_, ?_⟩
  · rw [hfree] at hid
    exact (h.lt_size id (List.mem_of_mem_tail hid)).trans_le hsize
  · rw [hfree] at hid
    have hne : id ≠ g.nextId := by
      rintro rfl
      cases hf : g.free with
      | nil => simp [hf] at hid
      | cons next rest =>
        have hnodup := h.nodup
        rw [hf, List.nodup_cons] at hnodup
        rw [hf, List.tail_cons, nextId, hf, List.headD_cons] at hid
        exact hnodup.1 hid
    rw [contains, hvertex, if_neg hne, ← contains]
    exact h.unused id (List.mem_of_mem_tail hid)
  · rw [hfree]
    exact h.nodup.tail

/-- What inserting an expression does. -/
structure Inserted (g : Graph) (node : Node) (key : DigestKey) (id : VertexId) (g' : Graph) :
    Prop where
  id_eq : id = g.nextId
  vertex : ∀ i, g'.vertex? i = if i = id then some (g.freshVertex node key) else g.vertex? i
  free : g'.FreeUnused
  edges : ∀ e, e ∈ g'.edges ↔ (e.1 = id ∧ e.2 ∈ node.references) ∨ e ∈ g.edges
  edges_nodup : g.edges.Nodup → g'.edges.Nodup
  root : g'.root = g.root
  digests : g'.digests = (g.register key id).digests

theorem inserted_insert (h : g.FreeUnused) (node : Node) (key : DigestKey) :
    Inserted g node key (g.insert node key).1 (g.insert node key).2 := by
  have hid := addVertex_fst g node key
  have hv := vertex?_addVertex h node key
  have he := addVertex_edges g node key
  have hr := addVertex_root g node key
  have hd := addVertex_digests g node key
  have hf := h.addVertex node key
  unfold insert
  generalize g.addVertex node key = added at *
  obtain ⟨id, g₁⟩ := added
  obtain ⟨hslots, hfree, hroot, hdigests, hnodup, hedges⟩ :=
    foldl_addEdge id node.references (g₁.register key id)
  simp only at hid hv he hr hd hf ⊢
  have hvertex : ∀ i, Graph.vertex? (node.references.foldl
      (fun g input => g.addEdge id input) (g₁.register key id)) i = g₁.vertex? i :=
    vertex?_congr hslots
  refine ⟨hid, fun i => ?_, ?_, fun e => ?_, fun hn => hnodup ?_, ?_, ?_⟩
  · rw [hvertex, hv, hid]
  · refine ⟨fun i hi => ?_, fun i hi => ?_, ?_⟩
    · rw [hslots]
      exact hf.lt_size i (hfree ▸ hi)
    · rw [contains, hvertex, ← contains]
      exact hf.unused i (hfree ▸ hi)
    · rw [hfree]
      exact hf.nodup
  · rw [hedges, register, he]
  · rw [register, he]
    exact hn
  · rw [hroot, register, hr]
  · rw [hdigests, register, register, hd]

/-- What replacing the expression of a vertex does to vertices. -/
theorem vertex?_replace (g : Graph) (id : VertexId) (node : Node) (key : DigestKey)
    (id' : VertexId) :
    (g.replace id node key).vertex? id' = if id' = id then
      (g.vertex? id).map fun v => { v with current := node, key } else g.vertex? id' := by
  unfold replace
  cases hv : g.vertex? id with
  | none =>
    by_cases h : id' = id
    · simp [h, hv]
    · simp [h]
  | some old =>
    have hlt : id < g.slots.size := lt_size_of_contains (by simp [contains, hv])
    have hslots : (((g.setCurrent id node key).unregister old.key id).register key id).slots =
        (g.setVertex id { old with current := node, key }).slots := by
      simp only [setCurrent, hv, unregister, register]
    rw [vertex?_congr hslots, vertex?_setVertex]
    by_cases h : id' = id
    · simp [h, hlt]
    · simp [h, Ne.symm h]

theorem setCurrent_eq (g : Graph) (id : VertexId) (node : Node) (key : DigestKey) :
    (g.setCurrent id node key).slots.size = g.slots.size ∧
      (g.setCurrent id node key).free = g.free ∧ (g.setCurrent id node key).edges = g.edges ∧
      (g.setCurrent id node key).root = g.root ∧
      (g.setCurrent id node key).digests = g.digests := by
  unfold setCurrent
  split <;> simp [setVertex]

theorem replace_eq (g : Graph) (id : VertexId) (node : Node) (key : DigestKey) :
    (g.replace id node key).slots.size = g.slots.size ∧
      (g.replace id node key).free = g.free ∧ (g.replace id node key).edges = g.edges ∧
      (g.replace id node key).root = g.root := by
  obtain ⟨hs, hf, he, hr, -⟩ := setCurrent_eq g id node key
  unfold replace
  split <;> simp [unregister, register, *]

theorem mem_digests_replace {old : DigestKey} (hold : g.key? id = some old) (node : Node)
    (key : DigestKey) (e : DigestKey × VertexId) :
    e ∈ (g.replace id node key).digests ↔
      e = (key, id) ∨ (e ∈ g.digests ∧ e ≠ (old, id) ∧ e.1 ≠ key) := by
  obtain ⟨v, hv, rfl⟩ := Option.map_eq_some_iff.1 hold
  have hd := (setCurrent_eq g id node key).2.2.2.2
  simp only [replace, hv, mem_digests_register, mem_digests_unregister, hd, and_assoc]

theorem digests_keys_nodup_replace (h : (g.digests.map Prod.fst).Nodup) (id : VertexId)
    (node : Node) (key : DigestKey) :
    ((g.replace id node key).digests.map Prod.fst).Nodup := by
  have hd := (setCurrent_eq g id node key).2.2.2.2
  unfold replace
  split
  · refine digests_keys_nodup_register ?_ _ _
    rw [unregister, hd]
    exact h.sublist (List.filter_sublist.map _)
  · exact h

/-- Removing a vertex empties its slot and drops its edges. -/
theorem vertex?_removeVertex (g : Graph) (id id' : VertexId) :
    (g.removeVertex id).vertex? id' = if id' = id then none else g.vertex? id' := by
  unfold removeVertex
  split_ifs with hc h h
  · subst h
    simp [vertex?, lt_size_of_contains hc]
  · simp [vertex?, Ne.symm h]
  · rw [h]
    simpa [contains] using hc
  · rfl

theorem mem_edges_removeVertex (hg : ∀ e ∈ g.edges, g.contains e.1 = true ∧ g.contains e.2 = true)
    (id : VertexId) (e : VertexId × VertexId) :
    e ∈ (g.removeVertex id).edges ↔ e ∈ g.edges ∧ e.1 ≠ id ∧ e.2 ≠ id := by
  unfold removeVertex
  split_ifs with hc
  · simp
  · refine ⟨fun he => ⟨he, ?_, ?_⟩, And.left⟩
    · rintro rfl
      exact hc (hg e he).1
    · rintro rfl
      exact hc (hg e he).2

theorem removeVertex_eq (g : Graph) (id : VertexId) :
    (g.removeVertex id).slots.size = g.slots.size ∧ (g.removeVertex id).root = g.root ∧
      (g.removeVertex id).digests = g.digests := by
  unfold removeVertex
  split_ifs <;> simp

theorem FreeUnused.removeVertex (h : g.FreeUnused) (id : VertexId) :
    (g.removeVertex id).FreeUnused := by
  have hvertex := vertex?_removeVertex g id
  have hsize := (removeVertex_eq g id).1
  by_cases hc : g.contains id = true
  · have hfree : (g.removeVertex id).free = id :: g.free := by simp [Graph.removeVertex, hc]
    refine ⟨fun i hi => ?_, fun i hi => ?_, ?_⟩
    · rw [hsize]
      rcases List.mem_cons.1 (hfree ▸ hi) with rfl | hi
      · exact lt_size_of_contains hc
      · exact h.lt_size i hi
    · rw [contains, hvertex]
      split_ifs with heq
      · rfl
      · exact h.unused i ((List.mem_cons.1 (hfree ▸ hi)).resolve_left heq)
    · rw [hfree, List.nodup_cons]
      refine ⟨fun hmem => ?_, h.nodup⟩
      rw [h.unused id hmem] at hc
      cases hc
  · rwa [Graph.removeVertex, if_neg hc]

end Graph

end QueryPlanner
