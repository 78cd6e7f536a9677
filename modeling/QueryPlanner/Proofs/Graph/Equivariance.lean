import QueryPlanner.Proofs.Graph.Renaming
import QueryPlanner.Proofs.Graph.Sharing
import QueryPlanner.Proofs.Planner.Survivors

/-!
# Changes of graphs with renamed vertices

What is done to a graph and, with renamed vertices, to a renamed one leaves renamed graphs. Parents may
be redirected in another order. Garbage may be removed in another order: the ids that become free are
then used again in another order, so other names are needed afterwards.
-/

namespace QueryPlanner.Graph

variable {mode : DigestMode} {π : Equiv.Perm VertexId} {g g' : Graph} {node placeholder : Node}
  {id preserved discarded : VertexId} {key key' : DigestKey}

/-! ## Inputs after a change -/

theorem successors_congr (h : g'.edges = g.edges) : g'.successors = g.successors := by
  funext i
  rw [successors, successors, h]

theorem successors_addEdge (g : Graph) (a b i : VertexId) :
    (g.addEdge a b).successors i =
      if i = a ∧ b ∉ g.successors a then b :: g.successors i else g.successors i := by
  simp only [mem_successors, addEdge]
  by_cases hmem : (a, b) ∈ g.edges
  · simp [hmem]
  · by_cases hi : i = a
    · simp [hmem, hi, successors]
    · simp [hmem, hi, successors, Ne.symm hi]

theorem successors_removeEdge (g : Graph) (a b i : VertexId) :
    (g.removeEdge a b).successors i =
      if i = a then (g.successors i).filter (· ≠ b) else g.successors i := by
  rw [successors, successors, removeEdge, List.filter_filter]
  split_ifs with hi
  · subst hi
    rw [List.filter_map, List.filter_filter]
    congr 1
    refine List.filter_congr fun e _ => ?_
    by_cases he : e.1 = i
    · simp [he, Prod.ext_iff]
    · simp [he]
  · congr 1
    refine List.filter_congr fun e _ => ?_
    by_cases he : e.1 = i
    · simp [he, Prod.ext_iff, hi]
    · simp [he]

/-- Inputs of a parent that is redirected. -/
def rewire (preserved discarded : VertexId) (ids : List VertexId) : List VertexId :=
  let kept := ids.filter (· ≠ discarded)
  if preserved ∈ kept then kept else preserved :: kept

theorem rewire_map (π : Equiv.Perm VertexId) (preserved discarded : VertexId)
    (ids : List VertexId) :
    rewire (π preserved) (π discarded) (ids.map π) = (rewire preserved discarded ids).map π := by
  have hkept : (ids.map π).filter (· ≠ π discarded) = (ids.filter (· ≠ discarded)).map π := by
    rw [List.filter_map]
    congr 1
    refine List.filter_congr fun i _ => ?_
    simp
  simp only [rewire, hkept, List.mem_map_of_injective π.injective]
  split_ifs <;> rfl

/-- What redirecting a vertex does to sizes, free ids and inputs. -/
theorem redirect_frame (mode : DigestMode) (preserved discarded : VertexId) (placeholder : Node)
    {parent : VertexId} (hnode : g.current? parent = some node) :
    let g' := g.redirect mode preserved discarded placeholder parent
    g'.slots.size = g.slots.size ∧ g'.free = g.free ∧ ∀ i, g'.successors i =
      if i = parent then rewire preserved discarded (g.successors i) else g.successors i := by
  have hforget := alike_forget g (g.ancestors parent)
  simp only [redirect, hnode]
  generalize node.redirect discarded placeholder = node'
  obtain ⟨hsize, hfree, hedges, -⟩ := replace_eq (((g.forget (g.ancestors parent)).removeEdge parent
    discarded).addEdge parent preserved) parent node' (node'.key mode)
  refine ⟨?_, ?_, fun i => ?_⟩
  · rw [hsize, addEdge_slots, removeEdge, hforget.size]
  · rw [hfree, addEdge_free, removeEdge, hforget.free]
  · rw [successors_congr hedges, successors_addEdge, successors_removeEdge, successors_removeEdge,
      hforget.successors, if_pos rfl]
    by_cases hi : i = parent
    · subst hi
      by_cases hmem : preserved ∈ (g.successors i).filter (· ≠ discarded)
      · simp only [rewire, hmem, not_true_eq_false, and_false, if_false, if_true]
      · simp only [rewire, hmem, not_false_eq_true, and_self, if_false, if_true]
    · simp only [hi, false_and, if_false]

theorem foldl_redirect_frame {parents : List VertexId} (hg : g.Linked mode)
    (hplaceholder : g.placeholder? preserved = some placeholder) (hnodup : parents.Nodup)
    (hedge : ∀ p ∈ parents, g.Edge p discarded) :
    let g' := parents.foldl (redirect mode preserved discarded placeholder) g
    g'.slots.size = g.slots.size ∧ g'.free = g.free ∧ ∀ i, g'.successors i =
      if i ∈ parents then rewire preserved discarded (g.successors i) else g.successors i := by
  induction parents generalizing g with
  | nil => exact ⟨rfl, rfl, fun i => by simp⟩
  | cons parent parents ih =>
    rw [List.nodup_cons] at hnodup
    have hparent := hedge parent List.mem_cons_self
    obtain ⟨node, hnode⟩ := Linked.exists_current (hg.edges_live _ hparent).1
    have hr := redirected_redirect mode preserved discarded placeholder hnode
    obtain ⟨hsize, hfree, hsuccessors⟩ := redirect_frame mode preserved discarded placeholder hnode
    obtain ⟨hsize', hfree', hsuccessors'⟩ := ih (hr.linked hg hnode hplaceholder (.inl hparent))
      ((hr.placeholders preserved).trans hplaceholder) hnodup.2 fun p hp => by
        have hne : p ≠ parent := fun heq => hnodup.1 (heq ▸ hp)
        exact (hr.edges _).2 (.inr ⟨fun heq => hne (Prod.mk.inj heq).1,
          hedge p (List.mem_cons_of_mem _ hp)⟩)
    refine ⟨hsize'.trans hsize, hfree'.trans hfree, fun i => ?_⟩
    rw [List.foldl_cons, hsuccessors', hsuccessors]
    by_cases hi : i = parent
    · simp [hi, hnodup.1]
    · simp [hi]

namespace Renamed

/-! ## Edges and the root -/

theorem withRoot (hr : g.Renamed π g') (root : Option VertexId) :
    Renamed π { g with root } { g' with root := root.map π } :=
  ⟨hr.size, hr.fixed, hr.current, hr.placeholder, hr.successors, hr.free, rfl⟩

theorem addEdge (hr : g.Renamed π g') (a b : VertexId) :
    (g.addEdge a b).Renamed π (g'.addEdge (π a) (π b)) where
  size := by rw [addEdge_slots, addEdge_slots, hr.size]
  fixed i hi := hr.fixed i (addEdge_slots g a b ▸ hi)
  current i := by
    rw [current?, current?, vertex?_congr (addEdge_slots g' _ _), vertex?_congr (addEdge_slots g a b),
      ← current?, ← current?, hr.current]
  placeholder i := by
    rw [placeholder?, placeholder?, vertex?_congr (addEdge_slots g' _ _),
      vertex?_congr (addEdge_slots g a b), ← placeholder?, ← placeholder?, hr.placeholder]
  successors i := by
    rw [successors_addEdge, successors_addEdge, hr.successors, hr.successors]
    simp only [π.apply_eq_iff_eq, List.mem_map_of_injective π.injective]
    split_ifs <;> rfl
  free := by rw [addEdge_free, addEdge_free, hr.free]
  root := by rw [addEdge_root, addEdge_root, hr.root]

theorem foldl_addEdge (hr : g.Renamed π g') (a : VertexId) (bs : List VertexId) :
    (bs.foldl (fun g b => g.addEdge a b) g).Renamed π
      ((bs.map π).foldl (fun g b => g.addEdge (π a) b) g') := by
  induction bs generalizing g g' with
  | nil => exact hr
  | cons b bs ih => exact ih (hr.addEdge a b)

/-! ## Adding and replacing expressions -/

theorem addVertex (hr : g.Renamed π g') (hg : g.FreeUnused) (hg' : g'.FreeUnused) (node : Node)
    (key key' : DigestKey) :
    (g.addVertex node key).2.Renamed π (g'.addVertex (node.rename π) key').2 := by
  have hsize : ∀ (h : Graph) (node : Node) (key : DigestKey), (h.addVertex node key).2.slots.size =
      if h.free = [] then h.slots.size + 1 else h.slots.size := by
    intro h node key
    unfold Graph.addVertex
    split <;> simp [setVertex, *]
  have hfree : ∀ (h : Graph) (node : Node) (key : DigestKey),
      (h.addVertex node key).2.free = h.free.tail := by
    intro h node key
    unfold Graph.addVertex
    split <;> simp [*]
  refine ⟨?_, fun i hi => hr.fixed i ?_, fun i => ?_, fun i => ?_, fun i => ?_, ?_, ?_⟩
  · simp only [hsize, hr.size, hr.free, List.map_eq_nil_iff]
  · rw [hsize] at hi
    split_ifs at hi <;> omega
  · rw [current?, current?, vertex?_addVertex hg', vertex?_addVertex hg, hr.nextId]
    simp only [π.apply_eq_iff_eq]
    split_ifs
    · rfl
    · rw [← current?, ← current?, hr.current]
  · rw [placeholder?, placeholder?, vertex?_addVertex hg', vertex?_addVertex hg, hr.nextId]
    simp only [π.apply_eq_iff_eq]
    split_ifs
    · simp [freshVertex, hr.nextId]
    · rw [← placeholder?, ← placeholder?, hr.placeholder]
  · rw [successors_congr (addVertex_edges g' _ _), successors_congr (addVertex_edges g node key),
      hr.successors]
  · rw [hfree, hfree, hr.free, List.map_tail]
  · rw [addVertex_root, addVertex_root, hr.root]

theorem register (hr : g.Renamed π g') (key key' : DigestKey) (id id' : VertexId) :
    (g.register key id).Renamed π (g'.register key' id') :=
  ⟨hr.size, hr.fixed, hr.current, hr.placeholder, hr.successors, hr.free, hr.root⟩

/-- A new vertex gets the same id up to its name. -/
theorem insert (hr : g.Renamed π g') (hg : g.FreeUnused) (hg' : g'.FreeUnused) (node : Node)
    (key key' : DigestKey) :
    (g'.insert (node.rename π) key').1 = π (g.insert node key).1 ∧
      (g.insert node key).2.Renamed π (g'.insert (node.rename π) key').2 := by
  have hfst : (g'.addVertex (node.rename π) key').1 = π (g.addVertex node key).1 := by
    rw [addVertex_fst, addVertex_fst, hr.nextId]
  have hsnd := hr.addVertex hg hg' node key key'
  unfold Graph.insert
  generalize g.addVertex node key = added at *
  generalize g'.addVertex (node.rename π) key' = added' at *
  obtain ⟨id, g₁⟩ := added
  obtain ⟨id', g₁'⟩ := added'
  obtain rfl : id' = π id := hfst
  refine ⟨rfl, ?_⟩
  simp only [Node.references_rename]
  exact (hsnd.register key key' id (π id)).foldl_addEdge id _

theorem replace (hr : g.Renamed π g') (id : VertexId) (node : Node) (key key' : DigestKey) :
    (g.replace id node key).Renamed π (g'.replace (π id) (node.rename π) key') := by
  obtain ⟨hsize, hfree, hedges, hroot⟩ := replace_eq g id node key
  obtain ⟨hsize', hfree', hedges', hroot'⟩ := replace_eq g' (π id) (node.rename π) key'
  refine ⟨by rw [hsize, hsize', hr.size], fun i hi => hr.fixed i (hsize ▸ hi), fun i => ?_,
    fun i => ?_, fun i => ?_, by rw [hfree, hfree', hr.free], by rw [hroot, hroot', hr.root]⟩
  · have hlive := hr.contains id
    rw [Graph.contains, Graph.contains] at hlive
    rw [current?, current?, vertex?_replace, vertex?_replace]
    simp only [π.apply_eq_iff_eq]
    split_ifs
    · cases hb : g.vertex? id <;> cases hb' : g'.vertex? (π id) <;> simp_all
    · rw [← current?, ← current?, hr.current]
  · have hkept := hr.placeholder i
    rw [placeholder?, placeholder?] at hkept ⊢
    rw [vertex?_replace, vertex?_replace]
    simp only [π.apply_eq_iff_eq]
    split_ifs with hi
    · subst hi
      simpa [Function.comp_def] using hkept
    · exact hkept
  · rw [successors_congr hedges, successors_congr hedges', hr.successors]

/-! ## Redirecting -/

section Redirect

variable {parents parents' : List VertexId}

/-- Parents are redirected in any order. -/
theorem foldl_redirect (hr : g.Renamed π g') (hg : g.Linked mode) (hg' : g'.Linked mode)
    (hplaceholder : g.placeholder? preserved = some placeholder) (hnodup : parents.Nodup)
    (hedge : ∀ p ∈ parents, g.Edge p discarded) (hperm : parents'.Perm (parents.map π)) :
    (parents.foldl (redirect mode preserved discarded placeholder) g).Renamed π
      (parents'.foldl (redirect mode (π preserved) (π discarded) (placeholder.rename π)) g') := by
  have hplaceholder' : g'.placeholder? (π preserved) = some (placeholder.rename π) := by
    rw [hr.placeholder, hplaceholder, Option.map_some]
  have hnodup' : parents'.Nodup := hperm.nodup_iff.2 (hnodup.map π.injective)
  have hmem : ∀ i, π i ∈ parents' ↔ i ∈ parents := fun i => by
    rw [hperm.mem_iff, List.mem_map_of_injective π.injective]
  have hedge' : ∀ p ∈ parents', g'.Edge p (π discarded) := by
    intro p hp
    obtain ⟨p, rfl⟩ := π.surjective p
    exact hr.edge.2 (hedge p ((hmem p).1 hp))
  obtain ⟨-, hroot, hplaceholders, hcurrent⟩ :=
    contracted_foldl_redirect hg hplaceholder hnodup hedge
  obtain ⟨-, hroot', hplaceholders', hcurrent'⟩ :=
    contracted_foldl_redirect hg' hplaceholder' hnodup' hedge'
  obtain ⟨hsize, hfree, hsuccessors⟩ := foldl_redirect_frame hg hplaceholder hnodup hedge
  obtain ⟨hsize', hfree', hsuccessors'⟩ := foldl_redirect_frame hg' hplaceholder' hnodup' hedge'
  refine ⟨by rw [hsize, hsize', hr.size], fun i hi => hr.fixed i (hsize ▸ hi), fun i => ?_,
    fun i => ?_, fun i => ?_, by rw [hfree, hfree', hr.free], by rw [hroot, hroot', hr.root]⟩
  · simp only [hcurrent, hcurrent', hmem, hr.current]
    split_ifs
    · rw [Option.map_map, Option.map_map]
      congr 1
      funext n
      exact (n.rename_redirect placeholder discarded).symm
    · rfl
  · rw [hplaceholders, hplaceholders', hr.placeholder]
  · simp only [hsuccessors, hsuccessors', hmem, hr.successors, rewire_map]
    split_ifs <;> rfl

theorem redirectable (hr : g.Renamed π g')
    (h : g.Redirectable preserved discarded placeholder parents)
    (hperm : parents'.Perm (parents.map π)) :
    g'.Redirectable (π preserved) (π discarded) (placeholder.rename π) parents' where
  placeholder_eq := by rw [hr.placeholder, h.placeholder_eq, Option.map_some]
  discarded_live := by rw [hr.contains, h.discarded_live]
  ne := π.injective.ne h.ne
  edge p hp := by
    obtain ⟨parent, hparent, rfl⟩ := List.mem_map.1 (hperm.mem_iff.1 hp)
    exact hr.edge.2 (h.edge parent hparent)
  nodup := hperm.nodup_iff.2 (h.nodup.map π.injective)
  notMem := by
    rw [hperm.mem_iff, List.mem_map_of_injective π.injective]
    exact h.notMem

theorem merge (hr : g.Renamed π g') (hg : g.Linked mode) (hg' : g'.Linked mode)
    (hnode : g.current? preserved = some node)
    (h : g.Redirectable preserved discarded placeholder parents)
    (hperm : parents'.Perm (parents.map π)) :
    (g.merge mode preserved discarded node placeholder parents).Renamed π
      (g'.merge mode (π preserved) (π discarded) (node.rename π) (placeholder.rename π) parents') := by
  have hnode' : g'.current? (π preserved) = some (node.rename π) := by
    rw [hr.current, hnode, Option.map_some]
  have hredirect := h.replace_current hg hnode
  have hfold := (hr.replace preserved node (node.key mode) ((node.rename π).key mode)).foldl_redirect
    (replace_current hg hnode).1 (replace_current hg' hnode').1 hredirect.placeholder_eq
    hredirect.nodup hredirect.edge hperm
  have hroot : ∀ r : Option VertexId, r.map π = some (π discarded) ↔ r = some discarded := by
    rintro (_ | r) <;> simp
  unfold Graph.merge Graph.contract
  simp only
  rw [hfold.root]
  simp only [hroot]
  split_ifs
  · exact hfold.withRoot (some preserved)
  · exact hfold

end Redirect

/-! ## Removing garbage -/

/-- A permutation of names takes one list to another with the same elements. -/
theorem exists_rearranging {ids ids' : List VertexId} (h : ids'.Perm ids) (hnodup : ids.Nodup) :
    ∃ σ : Equiv.Perm VertexId, ids.map σ = ids' ∧ ∀ i ∉ ids, σ i = i := by
  induction h with
  | nil => exact ⟨1, rfl, fun _ _ => rfl⟩
  | @cons x ids' ids _ ih =>
    rw [List.nodup_cons] at hnodup
    obtain ⟨σ, hσ, hfixed⟩ := ih hnodup.2
    refine ⟨σ, by rw [List.map_cons, hσ, hfixed x hnodup.1], fun i hi => hfixed i fun hmem => ?_⟩
    exact hi (List.mem_cons_of_mem x hmem)
  | swap x y ids =>
    simp only [List.nodup_cons, List.mem_cons, not_or] at hnodup
    obtain ⟨⟨-, hx⟩, hy, -⟩ := hnodup
    refine ⟨Equiv.swap x y, ?_, fun i hi => ?_⟩
    · have hrest : ids.map (Equiv.swap x y) = ids := by
        refine (List.map_congr_left fun i hi => ?_).trans (List.map_id ids)
        exact Equiv.swap_apply_of_ne_of_ne (fun h => hx (h ▸ hi)) fun h => hy (h ▸ hi)
      simp [hrest]
    · simp only [List.mem_cons, not_or] at hi
      exact Equiv.swap_apply_of_ne_of_ne hi.1 hi.2.1
  | @trans ids' middle ids hleft hright ihleft ihright =>
    obtain ⟨σ, hσ, hfixed⟩ := ihleft (hright.nodup_iff.2 hnodup)
    obtain ⟨τ, hτ, hfixed'⟩ := ihright hnodup
    refine ⟨σ * τ, ?_, fun i hi => ?_⟩
    · rw [← hσ, ← hτ, List.map_map]
      rfl
    · rw [Equiv.Perm.mul_apply, hfixed' i hi, hfixed i fun hmem => hi (hright.mem_iff.1 hmem)]

end Renamed

/-- Vertices that are removed are used again, the last one first. -/
theorem free_foldl_evict (order : List VertexId) (hnodup : order.Nodup) :
    ∀ g : Graph, (∀ i ∈ order, g.contains i = true) →
      (order.foldl evict g).free = order.reverse ++ g.free := by
  induction order with
  | nil => exact fun _ _ => rfl
  | cons i order ih =>
    intro g hlive
    rw [List.nodup_cons] at hnodup
    rw [List.forall_mem_cons] at hlive
    have hrest : ∀ j ∈ order, (g.evict i).contains j = true := by
      intro j hj
      have hne : j ≠ i := fun heq => hnodup.1 (heq ▸ hj)
      rw [contains, vertex?_evict, if_neg hne]
      exact hlive.2 j hj
    have hfree : (g.evict i).free = i :: g.free := by
      rw [(alike_evict g i).free, removeVertex, if_pos hlive.1]
    rw [List.foldl_cons, ih hnodup.2 _ hrest, hfree]
    simp

/-- Renaming an expression depends on the names of its inputs alone. -/
theorem OverVertices.rename_congr {σ : Equiv.Perm VertexId} (hg : g.Linked mode)
    (hn : g.OverVertices node) (h : ∀ i ∈ node.references, σ i = π i) :
    node.rename σ = node.rename π := by
  have hinput : ∀ input ∈ node.inputs, input.rename σ = input.rename π := by
    intro input hinput
    obtain ⟨j, hj⟩ := hn.inputs input hinput
    have href := h j (Node.mem_references.2 ⟨input, hinput, hg.vertexId?_placeholder hj⟩)
    obtain ⟨traits, rowType, rfl⟩ := hg.placeholders j input hj
    rw [Node.rename_placeholder, Node.rename_placeholder, href]
  have hop : node.operator.rename σ = node.operator.rename π := by
    rw [Operator.rename_of_ne (Node.vertexId?_eq_none.1 hn.isOperator),
      Operator.rename_of_ne (Node.vertexId?_eq_none.1 hn.isOperator)]
  obtain ⟨op, inputs, traits, rowType⟩ := node
  rw [Node.rename_mk, Node.rename_mk, hop, List.map_congr_left hinput]

section Discard

variable {h h' : Graph} {σ : Equiv.Perm VertexId}
  {garbage garbage' order order' : List VertexId}

theorem Discardable.renamed (hr : g.Renamed π g') (hd : g.Discardable garbage)
    (hmem : ∀ i, π i ∈ garbage' ↔ i ∈ garbage) : g'.Discardable garbage' where
  notReferenced a b hab hb := by
    obtain ⟨a, rfl⟩ := π.surjective a
    obtain ⟨b, rfl⟩ := π.surjective b
    exact (hmem a).2 (hd.notReferenced a b (hr.edge.1 hab) ((hmem b).1 hb))
  notRoot i hi hroot := by
    rw [hr.root] at hroot
    obtain ⟨root, hroot', rfl⟩ := Option.map_eq_some_iff.1 hroot
    exact hd.notRoot root ((hmem root).1 hi) hroot'

theorem Pruned.successors_eq_nil (hp : g.Pruned garbage g') (hid : id ∈ garbage) :
    g'.successors id = [] :=
  List.eq_nil_iff_forall_not_mem.2 fun _ hj => (hp.edges _ (mem_successors.1 hj)).1 hid

/-- Without the garbage, names may be different where garbage was. -/
theorem Renamed.pruned (hr : g.Renamed π g') (hg : g.Linked mode) (hd : g.Discardable garbage)
    (hlive : ∀ i ∈ garbage, g.contains i = true) (hp : g.Pruned garbage h)
    (hp' : g'.Pruned garbage' h') (hkept : ∀ i ∉ garbage, σ i = π i)
    (hgone : ∀ i, σ i ∈ garbage' ↔ i ∈ garbage) (hfree : h'.free = h.free.map σ) :
    h.Renamed σ h' := by
  refine ⟨by rw [hp.size, hp'.size, hr.size], fun i hi => ?_, fun i => ?_, fun i => ?_,
    fun i => ?_, hfree, ?_⟩
  · rw [hp.size] at hi
    rw [hkept i fun hmem => absurd (lt_size_of_contains (hlive i hmem)) (Nat.not_lt.2 hi),
      hr.fixed i hi]
  · simp only [current?, hp.vertex, hp'.vertex, hgone]
    split_ifs with hi
    · rfl
    · have hcurrent := hr.current i
      rw [current?, current?] at hcurrent
      rw [hkept i hi, hcurrent]
      cases hv : g.vertex? i with
      | none => rfl
      | some v =>
        have hover := hg.currents i v.current (by rw [current?, hv, Option.map_some])
        have hnames : v.current.rename σ = v.current.rename π := by
          refine hover.rename_congr hg fun j hj => hkept j fun hj' => hi ?_
          refine hd.notReferenced i j ((hg.edges i j).2 ⟨v.current, ?_, hj⟩) hj'
          rw [current?, hv, Option.map_some]
        simp only [Option.map_some, hnames]
  · simp only [placeholder?, hp.vertex, hp'.vertex, hgone]
    split_ifs with hi
    · rfl
    · have hplaceholder := hr.placeholder i
      rw [placeholder?, placeholder?] at hplaceholder
      rw [hkept i hi, hplaceholder]
      cases hv : g.vertex? i with
      | none => rfl
      | some v =>
        obtain ⟨traits, rowType, heq⟩ := hg.placeholders i v.placeholder
          (by rw [placeholder?, hv, Option.map_some])
        simp only [Option.map_some, heq, Node.rename_placeholder, hkept i hi]
  · by_cases hi : i ∈ garbage
    · rw [hp.successors_eq_nil hi, hp'.successors_eq_nil ((hgone i).2 hi), List.map_nil]
    · rw [hp.successors i hi, hp'.successors _ (fun hmem => hi ((hgone i).1 hmem)), hkept i hi,
        hr.successors]
      refine List.map_congr_left fun j hj => (hkept j fun hj' => hi ?_).symm
      exact hd.notReferenced i j (mem_successors.1 hj) hj'
  · rw [hp.root, hp'.root, hr.root]
    cases hroot : g.root with
    | none => rfl
    | some root =>
      rw [Option.map_some, Option.map_some, hkept root fun hmem => hd.notRoot root hmem hroot]

/-- Garbage that is removed in another order leaves a renamed graph. The names of the vertices that
stay are the same. -/
theorem Renamed.discard (hr : g.Renamed π g') (hg : g.Linked mode) (hg' : g'.Linked mode)
    (hd : g.Discardable garbage) (hlive : ∀ i ∈ garbage, g.contains i = true)
    (hnodup : garbage.Nodup) (hgarbage : garbage'.Perm (garbage.map π))
    (horder : order.Perm garbage) (horder' : order'.Perm garbage') :
    ∃ σ, (g.discard order garbage).Renamed σ (g'.discard order' garbage') ∧
      ∀ i ∉ garbage, σ i = π i := by
  have hmem : ∀ i, π i ∈ garbage' ↔ i ∈ garbage := fun i => by
    rw [hgarbage.mem_iff, List.mem_map_of_injective π.injective]
  have hnodup' : order.Nodup := horder.nodup_iff.2 hnodup
  -- the orders are matched with each other, vertex by vertex
  obtain ⟨τ, hτ, hfixed⟩ := Renamed.exists_rearranging
    ((horder'.trans hgarbage).trans (horder.map π).symm) (hnodup'.map π.injective)
  rw [List.map_map, ← Equiv.Perm.coe_mul] at hτ
  have hkept : ∀ i ∉ garbage, (τ * π) i = π i := fun i hi => hfixed _ fun hi' =>
    hi (horder.mem_iff.1 ((List.mem_map_of_injective π.injective).1 hi'))
  refine ⟨τ * π, hr.pruned hg hd hlive (pruned_discard hg horder hd)
    (pruned_discard hg' horder' (hd.renamed hr hmem)) hkept (fun i => ?_) ?_, hkept⟩
  · rw [← horder'.mem_iff, ← hτ, ← horder.mem_iff, List.mem_map_of_injective (τ * π).injective]
  · have hfree : (g.discard order garbage).free = order.reverse ++ g.free :=
      free_foldl_evict order hnodup' g fun i hi => hlive i (horder.mem_iff.1 hi)
    have hfree' : (g'.discard order' garbage').free = order'.reverse ++ g'.free := by
      refine free_foldl_evict order' ?_ g' fun i hi => ?_
      · rw [← hτ]
        exact hnodup'.map (τ * π).injective
      · obtain ⟨i, rfl⟩ := π.surjective i
        rw [hr.contains]
        exact hlive i ((hmem i).1 (horder'.mem_iff.1 hi))
    rw [hfree, hfree', List.map_append, List.map_reverse, hτ, hr.free]
    congr 1
    refine List.map_congr_left fun i hi => (hkept i fun hi' => ?_).symm
    exact Bool.false_ne_true ((hg.free.unused i hi).symm.trans (hlive i hi'))

end Discard

/-- The vertices that are left have kept their names, and the same vertices are gone. -/
structure Keeps (π σ : Equiv.Perm VertexId) (g g' : Graph) : Prop where
  kept : ∀ i, g.contains i = true → σ i = π i
  gone : ∀ i, g'.contains (π i) = g.contains i

/-- Sweeping in another order gives other names to the vertices of later expressions alone. -/
theorem Renamed.sweep (hr : g.Renamed π g') (hg : g.Linked mode) (hg' : g'.Linked mode)
    {root : VertexId} (hroot : g.root = some root) (hlive : g.contains root = true)
    {order order' : List VertexId} (horder : order.Perm (g.garbage root))
    (horder' : order'.Perm (g'.garbage (π root))) :
    ∃ σ, (g.discard order (g.garbage root)).Renamed σ (g'.discard order' (g'.garbage (π root))) ∧
      Keeps π σ (g.discard order (g.garbage root)) (g'.discard order' (g'.garbage (π root))) := by
  have hgarbage := hr.garbage hg.edges_nodup hg'.edges_nodup root
  have hin : ∀ i ∈ g.garbage root, g.contains i = true := fun i hi =>
    mem_vertexIds.1 (List.mem_filter.1 hi).1
  have hunreachable : g.Discardable (g.garbage root) := discardable_unreachable hg hroot hlive
  obtain ⟨σ, hσ, hkept⟩ := hr.discard hg hg' hunreachable hin (nodup_garbage g root) hgarbage horder
    horder'
  have hd := discarded_discard hg horder
  have hd' := discarded_discard hg' horder'
  refine ⟨σ, hσ, fun i hi => hkept i fun hgone => ?_, fun i => ?_⟩
  · rw [Graph.contains, hd.vertex, if_pos hgone] at hi
    cases hi
  · rw [Graph.contains, Graph.contains, hd.vertex, hd'.vertex]
    simp only [hgarbage.mem_iff, List.mem_map_of_injective π.injective]
    split_ifs
    · rfl
    · exact hr.contains i

end QueryPlanner.Graph
