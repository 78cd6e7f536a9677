import QueryPlanner.Proofs.Graph.Traversal

/-!
# Consistent graphs

A graph is consistent if its edges, its placeholders, its keys and its digest entries all agree with
the expressions of its vertices, if it has no cycle and if its root exists. Inserting an expression
over placeholders keeps a graph consistent.
-/

namespace QueryPlanner

theorem Node.mem_references {n : Node} {id : VertexId} :
    id ∈ n.references ↔ ∃ i ∈ n.inputs, i.vertexId? = some id := by
  simp [references]

theorem Node.vertexId?_eq_none {n : Node} :
    n.vertexId? = none ↔ ∀ id, n.operator ≠ .vertex id := by
  obtain ⟨op, inputs, traits, rowType⟩ := n
  cases op <;> simp [Node.vertexId?]

@[simp] theorem Node.vertexId?_placeholder (id : VertexId) (traits : TraitSet) (rowType : Schema) :
    (Node.placeholder id traits rowType).vertexId? = some id := rfl

namespace Graph

variable {mode : DigestMode} {g g' : Graph} {node : Node} {id : VertexId}

/-- The inputs of the node are the placeholders of vertices, and it is none itself. -/
structure OverVertices (g : Graph) (node : Node) : Prop where
  isOperator : node.vertexId? = none
  inputs : ∀ i ∈ node.inputs, ∃ j, g.placeholder? j = some i

/-- Edges, placeholders, keys and digest entries agree with the expressions of the vertices. -/
structure Linked (mode : DigestMode) (g : Graph) : Prop where
  free : g.FreeUnused
  /-- A placeholder stands for its own vertex. -/
  placeholders : ∀ id n, g.placeholder? id = some n →
    ∃ traits rowType, n = .placeholder id traits rowType
  /-- Every input of an expression is the placeholder that some vertex has. -/
  currents : ∀ id n, g.current? id = some n → g.OverVertices n
  /-- The edges of a vertex lead to what its expression refers to, and there are no others. -/
  edges : ∀ a b, g.Edge a b ↔ ∃ n, g.current? a = some n ∧ b ∈ n.references
  edges_nodup : g.edges.Nodup
  /-- A vertex has the key of its expression. -/
  keys : ∀ id n, g.current? id = some n → g.key? id = some (n.key mode)
  /-- A digest entry leads to a vertex of its key. -/
  digests : ∀ key id, (key, id) ∈ g.digests → g.key? id = some key
  digests_nodup : (g.digests.map Prod.fst).Nodup

structure Consistent (mode : DigestMode) (g : Graph) : Prop extends Linked mode g where
  acyclic : g.Acyclic
  root : ∀ id, g.root = some id → g.contains id = true

theorem linked_empty (mode : DigestMode) : Linked mode empty where
  free := ⟨by simp [empty], by simp [empty], by simp [empty]⟩
  placeholders := by simp [empty, placeholder?, vertex?]
  currents := by simp [empty, current?, vertex?]
  edges := by simp [empty, Edge, current?, vertex?]
  edges_nodup := by simp [empty]
  keys := by simp [empty, current?, vertex?]
  digests := by simp [empty]
  digests_nodup := by simp [empty]

theorem consistent_empty (mode : DigestMode) : Consistent mode empty where
  toLinked := linked_empty mode
  acyclic := acyclic_of_ranked (fun _ => 0) fun a b h => by simp [empty, Edge] at h
  root := by simp [empty]

theorem contains_of_key {key : DigestKey} (h : g.key? id = some key) : g.contains id = true := by
  obtain ⟨v, hv, -⟩ := Option.map_eq_some_iff.1 h
  rw [contains, hv, Option.isSome_some]

theorem OverVertices.congr (h : ∀ id, g'.placeholder? id = g.placeholder? id)
    (hn : g.OverVertices node) : g'.OverVertices node where
  isOperator := hn.isOperator
  inputs i hi := by
    obtain ⟨j, hj⟩ := hn.inputs i hi
    exact ⟨j, (h j).trans hj⟩

namespace Linked

theorem vertexId?_placeholder (h : g.Linked mode) {n : Node} (hn : g.placeholder? id = some n) :
    n.vertexId? = some id := by
  obtain ⟨traits, rowType, rfl⟩ := h.placeholders id n hn
  rfl

theorem exists_current (h : g.contains id = true) : ∃ n, g.current? id = some n :=
  contains_iff_current.1 h

theorem exists_placeholder (h : g.contains id = true) : ∃ n, g.placeholder? id = some n := by
  obtain ⟨v, hv⟩ := exists_vertex_of_contains h
  exact ⟨v.placeholder, by rw [placeholder?, hv, Option.map_some]⟩

theorem isSome_vertexId? (h : g.Linked mode) (hn : g.OverVertices node) :
    ∀ i ∈ node.inputs, i.vertexId?.isSome = true := by
  intro i hi
  obtain ⟨j, hj⟩ := hn.inputs i hi
  rw [h.vertexId?_placeholder hj]
  rfl

theorem contains_of_reference (h : g.Linked mode) (hn : g.OverVertices node)
    (hid : id ∈ node.references) : g.contains id = true := by
  obtain ⟨i, hi, hv⟩ := Node.mem_references.1 hid
  obtain ⟨j, hj⟩ := hn.inputs i hi
  rw [h.vertexId?_placeholder hj] at hv
  cases hv
  exact contains_of_placeholder hj

theorem edges_live (h : g.Linked mode) :
    ∀ e ∈ g.edges, g.contains e.1 = true ∧ g.contains e.2 = true := by
  rintro ⟨a, b⟩ hab
  obtain ⟨n, hn, hb⟩ := (h.edges a b).1 hab
  exact ⟨contains_of_current hn, h.contains_of_reference (h.currents a n hn) hb⟩

theorem edge_of_input (h : g.Linked mode) (hn : g.current? id = some node) {input : Node}
    (hinput : input ∈ node.inputs) {j : VertexId} (hj : input.vertexId? = some j) : g.Edge id j :=
  (h.edges id j).2 ⟨node, hn, Node.mem_references.2 ⟨input, hinput, hj⟩⟩

/-- Every input of the expression of a vertex stands for a vertex that it has an edge to. -/
theorem exists_edge_of_input (h : g.Linked mode) (hn : g.current? id = some node) {input : Node}
    (hinput : input ∈ node.inputs) : ∃ j, input.vertexId? = some j ∧ g.Edge id j := by
  obtain ⟨j, hj⟩ := Option.isSome_iff_exists.1 (h.isSome_vertexId? (h.currents id node hn) input hinput)
  exact ⟨j, hj, h.edge_of_input hn hinput hj⟩

theorem exists_input_of_edge (h : g.Linked mode) (hn : g.current? id = some node) {j : VertexId}
    (hj : g.Edge id j) : ∃ input ∈ node.inputs, input.vertexId? = some j := by
  obtain ⟨n, hn', hj⟩ := (h.edges id j).1 hj
  obtain rfl := Option.some.inj (hn.symm.trans hn')
  exact Node.mem_references.1 hj

theorem congr (h : g.Linked mode) (hg : g.Alike g') : g'.Linked mode where
  free := ⟨fun i hi => by rw [hg.size]; exact h.free.lt_size i (hg.free ▸ hi),
    fun i hi => by rw [hg.contains]; exact h.free.unused i (hg.free ▸ hi), hg.free ▸ h.free.nodup⟩
  placeholders i n hn := h.placeholders i n (hg.placeholder? i ▸ hn)
  currents i n hn := (h.currents i n (hg.current? i ▸ hn)).congr hg.placeholder?
  edges a b := by
    rw [Edge, hg.edges, hg.current?]
    exact h.edges a b
  edges_nodup := hg.edges ▸ h.edges_nodup
  keys i n hn := by
    rw [hg.key?]
    exact h.keys i n (hg.current? i ▸ hn)
  digests key i hi := by
    rw [hg.key?]
    exact h.digests key i (hg.digests ▸ hi)
  digests_nodup := hg.digests ▸ h.digests_nodup

theorem setRoot (h : g.Linked mode) (root : Option VertexId) :
    Linked mode { g with root := root } where
  free := ⟨h.free.lt_size, h.free.unused, h.free.nodup⟩
  placeholders := h.placeholders
  currents i n hn := ⟨(h.currents i n hn).isOperator, (h.currents i n hn).inputs⟩
  edges := h.edges
  edges_nodup := h.edges_nodup
  keys := h.keys
  digests := h.digests
  digests_nodup := h.digests_nodup

end Linked

theorem Consistent.setRoot (h : g.Consistent mode) (hid : g.contains id = true) :
    Consistent mode { g with root := some id } where
  toLinked := h.toLinked.setRoot _
  acyclic := h.acyclic
  root i hi := by
    cases hi
    exact hid

theorem Consistent.congr (h : g.Consistent mode) (hg : g.Alike g') : g'.Consistent mode where
  toLinked := h.toLinked.congr hg
  acyclic := by
    have hedge : g'.Edge = g.Edge := by
      funext a b
      rw [Edge, hg.edges, Edge]
    rw [Acyclic, hedge]
    exact h.acyclic
  root i hi := by
    rw [hg.contains]
    exact h.root i (hg.root ▸ hi)

/-! ## Inserting -/

section Insert

variable {key : DigestKey}

theorem Inserted.current? (h : Inserted g node key id g') (i : VertexId) :
    g'.current? i = if i = id then some node else g.current? i := by
  rw [Graph.current?, Graph.current?, h.vertex]
  split_ifs <;> rfl

theorem Inserted.placeholder? (h : Inserted g node key id g') (i : VertexId) :
    g'.placeholder? i =
      if i = id then some (.placeholder id node.traits node.rowType) else g.placeholder? i := by
  rw [Graph.placeholder?, Graph.placeholder?, h.vertex]
  split_ifs
  · rw [h.id_eq]; rfl
  · rfl

theorem Inserted.key? (h : Inserted g node key id g') (i : VertexId) :
    g'.key? i = if i = id then some key else g.key? i := by
  rw [Graph.key?, Graph.key?, h.vertex]
  split_ifs <;> rfl

section Free

variable (hf : g.FreeUnused) (h : Inserted g node key id g')
include hf h

theorem Inserted.unused : g.contains id = false := h.id_eq ▸ hf.nextId_unused

theorem Inserted.ne_of_contains {i : VertexId} (hi : g.contains i = true) : i ≠ id := by
  rintro rfl
  rw [h.unused hf] at hi
  cases hi

/-- Existing vertices stay as they are. -/
theorem Inserted.placeholder?_of_some {i : VertexId} {n : Node} (hi : g.placeholder? i = some n) :
    g'.placeholder? i = some n := by
  rw [h.placeholder?, if_neg (h.ne_of_contains hf (contains_of_placeholder hi)), hi]

theorem Inserted.current?_of_some {i : VertexId} {n : Node} (hi : g.current? i = some n) :
    g'.current? i = some n := by
  rw [h.current?, if_neg (h.ne_of_contains hf (contains_of_current hi)), hi]

end Free

variable (hg : g.Linked mode) (h : Inserted g node key id g')
include hg h

theorem Inserted.linked (hn : g.OverVertices node) (hk : key = node.key mode) :
    g'.Linked mode where
  free := h.free
  placeholders i n hi := by
    rw [h.placeholder?] at hi
    split_ifs at hi with hid
    · cases hi
      exact ⟨node.traits, node.rowType, by rw [hid]⟩
    · exact hg.placeholders i n hi
  currents i n hi := by
    rw [h.current?] at hi
    have hn' : g.OverVertices n := by
      split_ifs at hi with hid
      · cases hi
        exact hn
      · exact hg.currents i n hi
    exact ⟨hn'.isOperator, fun m hm =>
      (hn'.inputs m hm).imp fun j hj => h.placeholder?_of_some hg.free hj⟩
  edges a b := by
    rw [Edge, h.edges, h.current?]
    split_ifs with ha
    · subst ha
      have hnot : (a, b) ∉ g.edges := fun hab => by
        have := (hg.edges_live _ hab).1
        rw [h.unused hg.free] at this
        cases this
      simp [hnot]
    · simp only [ha, false_and, false_or]
      exact hg.edges a b
  edges_nodup := h.edges_nodup hg.edges_nodup
  keys i n hi := by
    rw [h.current?] at hi
    rw [h.key?]
    split_ifs at hi ⊢ with hid
    · cases hi
      rw [hk]
    · exact hg.keys i n hi
  digests k i hi := by
    rw [h.digests, mem_digests_register] at hi
    rw [h.key?]
    rcases hi with heq | ⟨hi, -⟩
    · cases heq
      simp
    · have hki := hg.digests k i hi
      rw [if_neg (h.ne_of_contains hg.free (contains_of_key hki)), hki]
  digests_nodup := by
    rw [h.digests]
    exact digests_keys_nodup_register hg.digests_nodup key id

end Insert

/-- A new vertex ranks above everything it refers to. -/
theorem Inserted.consistent {key : DigestKey} (hg : g.Consistent mode)
    (h : Inserted g node key id g') (hn : g.OverVertices node) (hk : key = node.key mode) :
    g'.Consistent mode where
  toLinked := h.linked hg.toLinked hn hk
  acyclic := by
    obtain ⟨rank, hrank⟩ := hg.acyclic.exists_ranked
    let top := 1 + (node.references.map rank).sum
    refine acyclic_of_ranked (fun i => if i = id then top else rank i) fun a b hab => ?_
    rcases (h.edges _).1 hab with ⟨ha, hb⟩ | hab
    · have hne := h.ne_of_contains hg.free (hg.contains_of_reference hn hb)
      have hle := List.le_sum_of_mem (List.mem_map_of_mem (f := rank) hb)
      simp only [show a = id from ha, if_true, show (if b = id then top else rank b) = rank b from
        if_neg hne]
      exact hle.trans_lt (by omega)
    · obtain ⟨ha, hb⟩ := hg.edges_live _ hab
      simp only [if_neg (h.ne_of_contains hg.free ha), if_neg (h.ne_of_contains hg.free hb)]
      exact hrank a b hab
  root i hi := by
    have hc := hg.root i (h.root ▸ hi)
    obtain ⟨n, hn⟩ := contains_iff_current.1 hc
    exact contains_of_current (h.current?_of_some hg.free hn)

end Graph

end QueryPlanner
