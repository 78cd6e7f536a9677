import QueryPlanner.Proofs.Graph.Vertices

/-!
# Estimating changes caches alone

Row counts and costs are kept in the graph as they are found. Whatever is asked for, the graph
afterwards is `Alike` the graph before.
-/

namespace QueryPlanner.Graph

variable {α β : Type}

/-- The operation changes cached costs alone. -/
def Caching (x : StateM Graph α) : Prop := ∀ g, Alike g (x g).2

theorem caching_pure (a : α) : Caching (pure a) := fun g => .refl g

theorem caching_get : Caching get := fun g => .refl g

theorem caching_modify {f : Graph → Graph} (hf : ∀ g, Alike g (f g)) : Caching (modify f) := hf

theorem Caching.bind {x : StateM Graph α} {f : α → StateM Graph β} (hx : Caching x)
    (hf : ∀ a, Caching (f a)) : Caching (x >>= f) := fun g => (hx g).trans (hf _ _)

section RowCounts

variable {ofVertex : VertexId → StateM Graph Float}

mutual

theorem caching_rowCountOver (hvertex : ∀ id, Caching (ofVertex id)) :
    ∀ n, Caching (rowCountOver ofVertex n)
  | ⟨op, inputs, traits, rowType⟩ => by
    rw [rowCountOver]
    apply caching_get.bind
    intro g
    split
    · exact hvertex _
    · exact (caching_rowCountsOver hvertex inputs).bind fun _ => caching_pure _

theorem caching_rowCountsOver (hvertex : ∀ id, Caching (ofVertex id)) :
    ∀ ns, Caching (rowCountsOver ofVertex ns)
  | [] => by
    rw [rowCountsOver]
    exact caching_pure _
  | n :: ns => by
    rw [rowCountsOver]
    exact (caching_rowCountOver hvertex n).bind fun _ =>
      (caching_rowCountsOver hvertex ns).bind fun _ => caching_pure _

end

end RowCounts

theorem caching_vertexRowCount (n : Nat) : ∀ id, Caching (vertexRowCount n id) := by
  induction n with
  | zero => exact fun _ => caching_pure _
  | succ n ih =>
    intro id
    rw [vertexRowCount]
    apply caching_get.bind
    intro g
    split
    · exact caching_pure _
    · split
      · exact caching_pure _
      · exact (caching_rowCountOver ih _).bind fun rows =>
          (caching_modify fun g => alike_noteRowCount g id rows).bind fun _ => caching_pure _

theorem caching_rowCount (node : Node) : Caching (rowCount node) := by
  rw [rowCount]
  exact caching_get.bind fun _ => caching_rowCountOver (caching_vertexRowCount _) node

theorem caching_rowCounts (nodes : List Node) : Caching (rowCounts nodes) := by
  induction nodes with
  | nil => exact caching_pure _
  | cons n ns ih =>
    rw [rowCounts]
    exact (caching_rowCount n).bind fun _ => ih.bind fun _ => caching_pure _

section Costs

variable {ofVertex : VertexId → StateM Graph Cost} (model : CostModel)

mutual

theorem caching_costOver (hvertex : ∀ id, Caching (ofVertex id)) :
    ∀ n, Caching (costOver model ofVertex n)
  | ⟨op, inputs, traits, rowType⟩ => by
    rw [costOver]
    apply caching_get.bind
    intro g
    split
    · exact hvertex _
    · exact (caching_rowCounts inputs).bind fun _ => caching_addCostsOver hvertex _ inputs

theorem caching_addCostsOver (hvertex : ∀ id, Caching (ofVertex id)) :
    ∀ cost ns, Caching (addCostsOver model ofVertex cost ns)
  | _, [] => by
    rw [addCostsOver]
    exact caching_pure _
  | cost, n :: ns => by
    rw [addCostsOver]
    exact (caching_costOver hvertex n).bind fun _ => caching_addCostsOver hvertex _ ns

end

end Costs

theorem caching_vertexCost (model : CostModel) (n : Nat) :
    ∀ id, Caching (vertexCost model n id) := by
  induction n with
  | zero => exact fun _ => caching_pure _
  | succ n ih =>
    intro id
    rw [vertexCost]
    apply caching_get.bind
    intro g
    split
    · exact caching_pure _
    · split
      · exact caching_pure _
      · exact (caching_costOver model ih _).bind fun cost =>
          (caching_modify fun g => alike_noteCost g id cost).bind fun _ => caching_pure _

theorem caching_cumulativeCost (model : CostModel) (node : Node) :
    Caching (cumulativeCost model node) := by
  rw [cumulativeCost]
  exact caching_get.bind fun _ => caching_costOver model (caching_vertexCost model _) node

end QueryPlanner.Graph
