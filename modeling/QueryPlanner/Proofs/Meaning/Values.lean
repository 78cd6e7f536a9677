import QueryPlanner.Proofs.Graph.Unfolding

/-!
# Values of expressions in a graph

An interpretation gives every operator a function from the values of its inputs to a value. The value
of an expression in a graph is found by unfolding placeholders through their vertices, so it is the
value of the tree. In a consistent graph everything has exactly one value. Growing and sweeping keep
the values of the vertices that remain, and so does a merge of vertices of equal value.
-/

namespace QueryPlanner

/-- A value for every operator over the values of its inputs. -/
abbrev Interpretation (V : Type*) := Operator → List V → V

variable {V : Type*} {I : Interpretation V}

mutual

/-- The value of an expression without placeholders. -/
def Node.value (I : Interpretation V) : Node → V
  | ⟨op, inputs, _, _⟩ => I op (valuesOf I inputs)

def Node.valuesOf (I : Interpretation V) : List Node → List V
  | [] => []
  | n :: ns => n.value I :: valuesOf I ns

end

theorem Node.valuesOf_eq_map (ns : List Node) : valuesOf I ns = ns.map (value I) := by
  induction ns with
  | nil => rfl
  | cons n ns ih => rw [valuesOf, ih, List.map_cons]

namespace Graph

variable {mode : DigestMode} {s : Settings} {g g' : Graph} {node : Node} {id : VertexId} {v w : V}

/-- The value of an expression in a graph. -/
inductive Means (g : Graph) (I : Interpretation V) : Node → V → Prop
  | vertex {id : VertexId} {inputs : List Node} {traits : TraitSet} {rowType : Schema}
      {node : Node} {v : V} (hcurrent : g.current? id = some node) (hv : Means g I node v) :
      Means g I ⟨.vertex id, inputs, traits, rowType⟩ v
  | operator {op : Operator} {inputs : List Node} {traits : TraitSet} {rowType : Schema}
      {vs : List V} (hop : ∀ id, op ≠ .vertex id) (hlength : vs.length = inputs.length)
      (hvs : ∀ (i : Nat) (n : Node) (v : V),
        inputs[i]? = some n → vs[i]? = some v → Means g I n v) :
      Means g I ⟨op, inputs, traits, rowType⟩ (I op vs)

/-- The value of a vertex is that of its expression. -/
def ValueOf (g : Graph) (I : Interpretation V) (id : VertexId) (v : V) : Prop :=
  ∃ node, g.current? id = some node ∧ g.Means I node v

theorem ValueOf.contains (h : g.ValueOf I id v) : g.contains id = true := by
  obtain ⟨node, hn, -⟩ := h
  exact contains_of_current hn

theorem means_of_vertexId? (h : node.vertexId? = some id) :
    g.Means I node v ↔ g.ValueOf I id v := by
  obtain ⟨op, inputs, traits, rowType⟩ := node
  obtain rfl : op = .vertex id := by
    cases op <;> simp_all [Node.vertexId?]
  constructor
  · intro hv
    cases hv with
    | vertex hcurrent hv => exact ⟨_, hcurrent, hv⟩
    | operator hop => exact absurd rfl (hop id)
  · rintro ⟨n, hcurrent, hv⟩
    exact .vertex hcurrent hv

theorem means_operator (h : node.vertexId? = none) :
    g.Means I node v ↔ ∃ vs, List.Forall₂ (g.Means I) node.inputs vs ∧ v = I node.operator vs := by
  have hop := Node.vertexId?_eq_none.1 h
  obtain ⟨op, inputs, traits, rowType⟩ := node
  constructor
  · intro hv
    cases hv with
    | vertex => exact absurd rfl (hop _)
    | operator _ hlength hvs =>
      refine ⟨_, List.forall₂_iff_get.2 ⟨hlength.symm, fun i h h' => ?_⟩, rfl⟩
      exact hvs i _ _ (by simp) (by simp)
  · rintro ⟨vs, hvs, rfl⟩
    obtain ⟨hlength, hvs⟩ := List.forall₂_iff_get.1 hvs
    apply Means.operator hop hlength.symm
    intro i n v hn hv
    obtain ⟨hi, rfl⟩ := List.getElem?_eq_some_iff.1 hn
    obtain ⟨hi', rfl⟩ := List.getElem?_eq_some_iff.1 hv
    exact hvs i hi hi'

/-- The values of placeholders are those of the vertices that they stand for. -/
theorem forall₂_means_references {ns : List Node} {vs : List V}
    (h : ∀ n ∈ ns, n.vertexId?.isSome = true) : List.Forall₂ (g.Means I) ns vs ↔
      List.Forall₂ (g.ValueOf I) (ns.filterMap Node.vertexId?) vs := by
  induction ns generalizing vs with
  | nil => simp
  | cons n ns ih =>
    rw [List.forall_mem_cons] at h
    obtain ⟨j, hj⟩ := Option.isSome_iff_exists.1 h.1
    rw [List.filterMap_cons_some hj, List.forall₂_cons_left_iff, List.forall₂_cons_left_iff]
    simp only [means_of_vertexId? hj, ih h.2]

/-- The value of an expression is that of its tree. -/
theorem means_iff : g.Means I node v ↔ ∃ t, g.Unfolds node t ∧ t.value I = v := by
  constructor
  · intro h
    induction h with
    | vertex hcurrent _ ih =>
      obtain ⟨t, ht, hv⟩ := ih
      exact ⟨t, .vertex hcurrent ht, hv⟩
    | @operator op inputs traits rowType vs hop hlength _ ih =>
      have htrees : List.Forall₂ (fun n v => ∃ t, g.Unfolds n t ∧ t.value I = v) inputs vs :=
        List.forall₂_iff_get.2 ⟨hlength.symm, fun i h h' => ih i _ _ (by simp) (by simp)⟩
      obtain ⟨ts, hvs, hts⟩ := exists_forall₂_of_forall₂ (Q := Eq) (S := fun v t => t.value I = v)
        (R := g.Unfolds) (by
          rintro n v _ ⟨t, ht, hv⟩ rfl
          exact ⟨t, hv, ht⟩) htrees (List.forall₂_same.2 fun _ _ => rfl)
      have hvalues : Node.valuesOf I ts = vs := by
        rw [Node.valuesOf_eq_map, ← List.forall₂_eq_eq_eq, List.forall₂_map_left_iff]
        exact hvs.flip
      refine ⟨_, (unfolds_operator (Node.vertexId?_eq_none.2 hop)).2 ⟨ts, hts, rfl⟩, ?_⟩
      rw [Node.value, hvalues]
  · rintro ⟨t, ht, rfl⟩
    induction ht with
    | vertex hcurrent _ ih => exact .vertex hcurrent ih
    | operator hop hlength _ ih =>
      rw [Node.value, Node.valuesOf_eq_map]
      refine .operator hop (by simpa using hlength) fun i n v hn hv => ?_
      rw [List.getElem?_map, Option.map_eq_some_iff] at hv
      obtain ⟨t, ht, rfl⟩ := hv
      exact ih i n t hn ht

theorem valueOf_iff : g.ValueOf I id v ↔ ∃ t, g.UnfoldsTo id t ∧ t.value I = v := by
  simp only [ValueOf, UnfoldsTo, means_iff]
  constructor
  · rintro ⟨node, hn, t, ht, hv⟩
    exact ⟨t, ⟨node, hn, ht⟩, hv⟩
  · rintro ⟨t, ⟨node, hn, ht⟩, hv⟩
    exact ⟨node, hn, t, ht, hv⟩

theorem ValueOf.unique (h : g.ValueOf I id v) (h' : g.ValueOf I id w) : v = w := by
  obtain ⟨t, ht, rfl⟩ := valueOf_iff.1 h
  obtain ⟨u, hu, rfl⟩ := valueOf_iff.1 h'
  rw [ht.unique hu]

/-- Everything in a consistent graph has a value. -/
theorem Consistent.exists_value (hg : g.Consistent mode) (hid : g.contains id = true) :
    ∃ v, g.ValueOf I id v := by
  obtain ⟨t, ht⟩ := hg.exists_tree hid
  exact ⟨_, valueOf_iff.2 ⟨t, ht, rfl⟩⟩

/-! ## Growing -/

/-- What exists keeps its value while the graph grows. -/
theorem Means.extends (hext : g.Extends g') (h : g.Means I node v) : g'.Means I node v := by
  obtain ⟨t, ht, hv⟩ := means_iff.1 h
  exact means_iff.2 ⟨t, ht.extends hext, hv⟩

theorem ValueOf.mono (hg : ∀ id n, g.current? id = some n → g'.current? id = some n)
    (h : g.ValueOf I id v) : g'.ValueOf I id v := by
  obtain ⟨t, ht, hv⟩ := valueOf_iff.1 h
  exact valueOf_iff.2 ⟨t, ht.mono hg, hv⟩

theorem ValueOf.extends (hext : g.Extends g') (h : g.ValueOf I id v) : g'.ValueOf I id v :=
  h.mono fun _ _ => hext.current?_of_some

/-- In every graph, expressions over vertices that have the same key have the same value. -/
def KeysDetermine (I : Interpretation V) (mode : DigestMode) : Prop :=
  ∀ (g : Graph) (n n' : Node), g.Consistent mode → g.OverVertices n → g.OverVertices n' →
    n.key mode = n'.key mode → ∀ v, g.Means I n v → g.Means I n' v

theorem congruence_value (I : Interpretation V) : Node.Congruence fun t u => t.value I = u.value I where
  refl _ := rfl
  trans := Eq.trans
  inputs n ts us h := by
    have hmap : ts.map (Node.value I) = us.map (Node.value I) := by
      rw [← List.forall₂_eq_eq_eq, List.forall₂_map_left_iff, List.forall₂_map_right_iff]
      exact h
    rw [Node.value, Node.value, Node.valuesOf_eq_map, Node.valuesOf_eq_map, hmap]

/-- An expression is placed at a vertex of its value. -/
theorem Places.valueOf (hkeys : s.dag = true → KeysDetermine I s.digestMode)
    (hg : g.Consistent s.digestMode) (hplaces : Places s g node id) (hv : g.Means I node v) :
    g.ValueOf I id v := by
  obtain ⟨t, ht, rfl⟩ := means_iff.1 hv
  have hrelate : g.KeysRelate s (fun _ _ => True) fun t u => t.value I = u.value I := by
    intro hdag n n' i hn _ hn' hkey t ht
    obtain ⟨u, hu, hut⟩ := means_iff.1 (hkeys hdag g n n' hg hn (hg.currents i n' hn') hkey _
      (means_iff.2 ⟨t, ht, rfl⟩))
    exact ⟨u, hu, hut.symm⟩
  obtain ⟨u, hu, htu⟩ := Places.related (congruence_value I) hg hrelate node id t hplaces
    (Node.within_true node) ht
  exact valueOf_iff.2 ⟨u, hu, htu.symm⟩

/-! ## Rewiring -/

/-- A vertex that survives a sweep keeps its value. -/
theorem ValueOf.sweep (hg : g.Consistent mode) (h : g.Sweep g') (hid : g'.contains id = true)
    (hv : g.ValueOf I id v) : g'.ValueOf I id v := by
  obtain ⟨t, ht, hv⟩ := valueOf_iff.1 hv
  exact valueOf_iff.2 ⟨t, ht.sweep hg h hid, hv⟩

/-- Redirecting parents to a vertex of equal value keeps all values. -/
theorem ValueOf.contracted {preserved discarded : VertexId} {placeholder : Node}
    {parents : List VertexId} (hg : g.Linked mode)
    (hr : g.Redirectable preserved discarded placeholder parents)
    (h : Contracted mode preserved discarded placeholder parents g g') (hg' : g'.Consistent mode)
    (hequal : ∀ v, g.ValueOf I discarded v → g.ValueOf I preserved v)
    (hid : g'.contains id = true) (hv : g.ValueOf I id v) : g'.ValueOf I id v := by
  obtain ⟨t, ht, rfl⟩ := valueOf_iff.1 hv
  obtain ⟨u, hu, htu⟩ := ht.contracted (congruence_value I) hg hr h hg'.acyclic (fun t ht => by
    obtain ⟨u, hu, hut⟩ := valueOf_iff.1 (hequal _ (valueOf_iff.2 ⟨t, ht, rfl⟩))
    exact ⟨u, hu, hut.symm⟩) hid
  exact valueOf_iff.2 ⟨u, hu, htu.symm⟩

end Graph

end QueryPlanner
