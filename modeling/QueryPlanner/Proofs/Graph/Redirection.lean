import QueryPlanner.Proofs.Graph.Consistency

/-!
# Redirecting parents

Redirecting parents from one vertex to another keeps everything linked: the expressions of the
parents, their edges, their keys and their digest entries change together. It may close a cycle,
for which the graph has to be checked, and it may give a parent the key of another vertex, whose
digest entry is then lost.
-/

namespace QueryPlanner

/-- Redirecting replaces a reference and keeps the others. -/
theorem Node.mem_references_redirect {n placeholder : Node} {preserved discarded id : VertexId}
    (hp : placeholder.vertexId? = some preserved) :
    id ∈ (n.redirect discarded placeholder).references ↔
      (id = preserved ∧ discarded ∈ n.references) ∨ (id ∈ n.references ∧ id ≠ discarded) := by
  simp only [mem_references, redirect, List.mem_map, exists_exists_and_eq_and]
  constructor
  · rintro ⟨i, hi, hid⟩
    split_ifs at hid with h
    · obtain rfl : preserved = id := by simpa [hp] using hid
      exact .inl ⟨rfl, i, hi, h⟩
    · refine .inr ⟨⟨i, hi, hid⟩, ?_⟩
      rintro rfl
      exact h hid
  · rintro (⟨rfl, i, hi, h⟩ | ⟨⟨i, hi, h⟩, hne⟩)
    · exact ⟨i, hi, by rw [if_pos h, hp]⟩
    · refine ⟨i, hi, ?_⟩
      rw [if_neg, h]
      rw [h]
      simpa using hne

namespace Graph

variable {mode : DigestMode} {g g' : Graph} {node : Node} {id : VertexId}

/-- Makes a parent refer to one vertex, whose placeholder is given, instead of another. -/
def redirect (mode : DigestMode) (preserved discarded : VertexId) (placeholder : Node) (g : Graph)
    (parent : VertexId) : Graph :=
  match g.current? parent with
  | some node =>
    let node := node.redirect discarded placeholder
    (((g.forget (g.ancestors parent)).removeEdge parent discarded).addEdge parent preserved).replace
      parent node (node.key mode)
  | none => g

section Redirect

variable {preserved discarded parent : VertexId} {placeholder : Node}

/-- What redirecting a parent does, which makes `node` its expression. -/
structure Redirected (mode : DigestMode) (preserved discarded : VertexId) (g : Graph)
    (parent : VertexId) (node : Node) (g' : Graph) : Prop where
  current : ∀ i, g'.current? i = if i = parent then some node else g.current? i
  placeholders : ∀ i, g'.placeholder? i = g.placeholder? i
  key : ∀ i, g'.key? i = if i = parent then some (node.key mode) else g.key? i
  free : g.FreeUnused → g'.FreeUnused
  edges : ∀ e, e ∈ g'.edges ↔ e = (parent, preserved) ∨ (e ≠ (parent, discarded) ∧ e ∈ g.edges)
  edges_nodup : g.edges.Nodup → g'.edges.Nodup
  root : g'.root = g.root
  digests : ∀ old, g.key? parent = some old → ∀ e, e ∈ g'.digests ↔
    e = (node.key mode, parent) ∨ (e ∈ g.digests ∧ e ≠ (old, parent) ∧ e.1 ≠ node.key mode)
  digests_nodup : (g.digests.map Prod.fst).Nodup → (g'.digests.map Prod.fst).Nodup

theorem redirected_redirect (mode : DigestMode) (preserved discarded : VertexId)
    (placeholder : Node) (hnode : g.current? parent = some node) :
    Redirected mode preserved discarded g parent (node.redirect discarded placeholder)
      (g.redirect mode preserved discarded placeholder parent) := by
  have hforget := alike_forget g (g.ancestors parent)
  simp only [redirect, hnode]
  generalize node.redirect discarded placeholder = node'
  generalize hg₁ : ((g.forget (g.ancestors parent)).removeEdge parent discarded).addEdge parent
    preserved = g₁
  have hslots : g₁.slots = (g.forget (g.ancestors parent)).slots := by
    rw [← hg₁, addEdge_slots, removeEdge]
  have hvertex₁ : ∀ i, g₁.vertex? i = g.vertex? i := fun i =>
    (vertex?_congr hslots i).trans (hforget.vertex? i)
  have hfree₁ : g₁.free = g.free := by rw [← hg₁, addEdge_free, removeEdge, hforget.free]
  have hroot₁ : g₁.root = g.root := by rw [← hg₁, addEdge_root, removeEdge, hforget.root]
  have hdigests₁ : g₁.digests = g.digests := by
    rw [← hg₁, addEdge_digests, removeEdge, hforget.digests]
  obtain ⟨hsize, hfree, hedges, hroot⟩ := replace_eq g₁ parent node' (node'.key mode)
  have hvertex := vertex?_replace g₁ parent node' (node'.key mode)
  obtain ⟨v, hv⟩ := exists_vertex_of_contains (contains_of_current hnode)
  simp only [hvertex₁, hv] at hvertex
  refine ⟨fun i => ?_, fun i => ?_, fun i => ?_, fun h => ⟨fun i hi => ?_, fun i hi => ?_, ?_⟩,
    fun e => ?_, fun h => ?_, ?_, fun old hold e => ?_, fun h => ?_⟩
  · rw [current?, current?, hvertex]
    split_ifs <;> rfl
  · rw [placeholder?, placeholder?, hvertex]
    split_ifs with hi
    · rw [hi, hv]; rfl
    · rfl
  · rw [key?, key?, hvertex]
    split_ifs <;> rfl
  · rw [hsize, hslots, hforget.size]
    exact h.lt_size i (by rwa [hfree, hfree₁] at hi)
  · rw [hfree, hfree₁] at hi
    have hne : i ≠ parent := by
      rintro rfl
      cases (contains_of_current hnode).symm.trans (h.unused i hi)
    rw [contains, hvertex, if_neg hne, ← contains]
    exact h.unused i hi
  · rw [hfree, hfree₁]
    exact h.nodup
  · rw [hedges, ← hg₁, mem_edges_addEdge, mem_edges_removeEdge, hforget.edges]
  · rw [hedges, ← hg₁]
    refine nodup_edges_addEdge ?_ _ _
    rw [removeEdge, hforget.edges]
    exact h.filter _
  · rw [hroot, hroot₁]
  · have hold₁ : g₁.key? parent = some old := by rw [key?, hvertex₁, ← key?, hold]
    rw [mem_digests_replace hold₁, hdigests₁]
  · exact digests_keys_nodup_replace (hdigests₁ ▸ h) _ _ _

/-- Redirecting a parent of the discarded vertex keeps everything linked, also if this was done
before. -/
theorem Redirected.linked (hg : g.Linked mode)
    (h : Redirected mode preserved discarded g parent (node.redirect discarded placeholder) g')
    (hnode : g.current? parent = some node)
    (hplaceholder : g.placeholder? preserved = some placeholder)
    (hedge : g.Edge parent discarded ∨ preserved ≠ discarded ∧ g.Edge parent preserved) :
    g'.Linked mode := by
  have hpid := hg.vertexId?_placeholder hplaceholder
  have hmem : ∀ b, (parent, b) ∈ g.edges ↔ b ∈ node.references := by
    refine fun b => (hg.edges parent b).trans ⟨?_, fun hb => ⟨node, hnode, hb⟩⟩
    rintro ⟨n, hn, hb⟩
    rw [hnode] at hn
    cases hn
    exact hb
  have href : discarded ∈ node.references ∨
      preserved ≠ discarded ∧ preserved ∈ node.references :=
    hedge.imp (hmem _).1 (And.imp_right (hmem _).1)
  have hkey := hg.keys parent node hnode
  refine ⟨h.free hg.free, fun i n hi => hg.placeholders i n (h.placeholders i ▸ hi),
    fun i n hi => ?_, fun a b => ?_, h.edges_nodup hg.edges_nodup, fun i n hi => ?_,
    fun k i hi => ?_, h.digests_nodup hg.digests_nodup⟩
  · rw [h.current] at hi
    refine OverVertices.congr h.placeholders ?_
    split_ifs at hi with hid
    · cases hi
      have hover := hg.currents parent node hnode
      refine ⟨hover.isOperator, fun m hm => ?_⟩
      obtain ⟨i, hi, rfl⟩ := List.mem_map.1 hm
      split_ifs
      · exact ⟨preserved, hplaceholder⟩
      · exact hover.inputs i hi
    · exact hg.currents i n hi
  · rw [Edge, h.edges, h.current]
    split_ifs with ha
    · subst ha
      simp only [Option.some.injEq, exists_eq_left', Node.mem_references_redirect hpid,
        Prod.mk.injEq, true_and, hmem, ne_eq]
      rcases href with href | ⟨hne, href⟩
      · simp only [href, and_true]
        tauto
      · have hb : b = preserved → b ∈ node.references ∧ ¬ b = discarded := by
          rintro rfl
          exact ⟨href, hne⟩
        tauto
    · have hne : ∀ c, (a, b) ≠ (parent, c) := fun c heq => ha (Prod.mk.inj heq).1
      simp only [hne, false_or, ne_eq, not_false_eq_true, true_and]
      exact hg.edges a b
  · rw [h.current] at hi
    rw [h.key]
    split_ifs at hi ⊢ with hid
    · cases hi
      rfl
    · exact hg.keys i n hi
  · rw [h.digests _ hkey] at hi
    rw [h.key]
    rcases hi with heq | ⟨hi, hne, hk⟩
    · cases heq
      rw [if_pos rfl]
    · have hold := hg.digests k i hi
      rw [if_neg, hold]
      rintro rfl
      rw [hkey] at hold
      cases hold
      exact hne rfl

end Redirect

/-- Makes the parents refer to `preserved` instead of `discarded`, and the root if it is
`discarded`. -/
def contract (mode : DigestMode) (preserved discarded : VertexId) (placeholder : Node)
    (parents : List VertexId) (g : Graph) : Graph :=
  let g := parents.foldl (redirect mode preserved discarded placeholder) g
  if g.root = some discarded then { g with root := some preserved } else g

/-- The parents refer to `discarded`, and can be made to refer to `preserved`, whose placeholder is
given. -/
structure Redirectable (g : Graph) (preserved discarded : VertexId) (placeholder : Node)
    (parents : List VertexId) : Prop where
  placeholder_eq : g.placeholder? preserved = some placeholder
  discarded_live : g.contains discarded = true
  ne : preserved ≠ discarded
  edge : ∀ p ∈ parents, g.Edge p discarded
  nodup : parents.Nodup
  notMem : preserved ∉ parents

/-- What redirecting several parents does. -/
structure Contracted (mode : DigestMode) (preserved discarded : VertexId) (placeholder : Node)
    (parents : List VertexId) (g g' : Graph) : Prop where
  linked : g'.Linked mode
  current : ∀ i, g'.current? i =
    if i ∈ parents then (g.current? i).map (·.redirect discarded placeholder) else g.current? i
  placeholders : ∀ i, g'.placeholder? i = g.placeholder? i
  root : g'.root = if g.root = some discarded then some preserved else g.root

section Contract

variable {preserved discarded : VertexId} {placeholder : Node} {parents : List VertexId}

theorem contracted_foldl_redirect (hg : g.Linked mode)
    (hplaceholder : g.placeholder? preserved = some placeholder) (hnodup : parents.Nodup)
    (hedge : ∀ p ∈ parents, g.Edge p discarded) :
    let g' := parents.foldl (redirect mode preserved discarded placeholder) g
    g'.Linked mode ∧ g'.root = g.root ∧ (∀ i, g'.placeholder? i = g.placeholder? i) ∧
      ∀ i, g'.current? i =
        if i ∈ parents then (g.current? i).map (·.redirect discarded placeholder)
        else g.current? i := by
  induction parents generalizing g with
  | nil => exact ⟨hg, rfl, fun _ => rfl, fun i => by simp⟩
  | cons parent parents ih =>
    rw [List.nodup_cons] at hnodup
    have hparent := hedge parent List.mem_cons_self
    obtain ⟨node, hnode⟩ := Linked.exists_current (hg.edges_live _ hparent).1
    have h := redirected_redirect mode preserved discarded placeholder hnode
    obtain ⟨hlinked, hroot, hplaceholders, hcurrent⟩ := ih
      (h.linked hg hnode hplaceholder (.inl hparent))
      ((h.placeholders preserved).trans hplaceholder) hnodup.2 fun p hp => by
        -- the edges of the parents to come are not those that were just moved
        have hne : p ≠ parent := fun heq => hnodup.1 (heq ▸ hp)
        exact (h.edges _).2 (.inr ⟨fun heq => hne (Prod.mk.inj heq).1,
          hedge p (List.mem_cons_of_mem _ hp)⟩)
    refine ⟨hlinked, hroot.trans h.root,
      fun i => (hplaceholders i).trans (h.placeholders i), fun i => ?_⟩
    rw [List.foldl_cons, hcurrent, h.current]
    by_cases hi : i = parent
    · subst hi
      simp [hnodup.1, hnode]
    · simp [hi]

theorem contracted_contract (hg : g.Linked mode)
    (h : g.Redirectable preserved discarded placeholder parents) :
    Contracted mode preserved discarded placeholder parents g
      (g.contract mode preserved discarded placeholder parents) := by
  obtain ⟨hlinked, hroot, hplaceholders, hcurrent⟩ :=
    contracted_foldl_redirect hg h.placeholder_eq h.nodup h.edge
  unfold contract
  simp only
  generalize parents.foldl (redirect mode preserved discarded placeholder) g = g₁ at *
  split_ifs with hdiscarded
  · exact ⟨hlinked.setRoot _, hcurrent, hplaceholders, by rw [← hroot, if_pos hdiscarded]⟩
  · exact ⟨hlinked, hcurrent, hplaceholders, by rw [← hroot, if_neg hdiscarded]⟩

/-- An edge after a contraction was there before, or leads from a redirected parent to the preserved
vertex. -/
theorem Contracted.edge (hg : g.Linked mode)
    (hr : g.Redirectable preserved discarded placeholder parents)
    (h : Contracted mode preserved discarded placeholder parents g g') {a b : VertexId}
    (hab : g'.Edge a b) : g.Edge a b ∨ a ∈ parents ∧ b = preserved := by
  obtain ⟨n, hn, hb⟩ := (h.linked.edges a b).1 hab
  rw [h.current] at hn
  split_ifs at hn with hmem
  · obtain ⟨m, hm, rfl⟩ := Option.map_eq_some_iff.1 hn
    rcases (Node.mem_references_redirect (hg.vertexId?_placeholder hr.placeholder_eq)).1 hb with
      ⟨rfl, -⟩ | ⟨hb, -⟩
    · exact .inr ⟨hmem, rfl⟩
    · exact .inl ((hg.edges a b).2 ⟨m, hm, hb⟩)
  · exact .inl ((hg.edges a b).2 ⟨n, hn, hb⟩)

open Classical in
/-- Redirecting parents to a vertex from which none of them is reached closes no cycle: what reaches
one of them can be ranked above everything else. -/
theorem Contracted.acyclic (hg : g.Linked mode) (hacyclic : g.Acyclic)
    (hpath : ∀ i ∈ parents, ¬ Relation.ReflTransGen g.Edge preserved i)
    (hr : g.Redirectable preserved discarded placeholder parents)
    (h : Contracted mode preserved discarded placeholder parents g g') : g'.Acyclic := by
  obtain ⟨rank, hrank, hle⟩ := hacyclic.exists_ranked_le hg.edges_live
  let above (a : VertexId) : Prop := ∃ i ∈ parents, Relation.ReflTransGen g.Edge a i
  refine acyclic_of_ranked (fun a => rank a + if above a then g.slots.size + 1 else 0) ?_
  intro a b hab
  simp only
  rcases h.edge hg hr hab with hab | ⟨ha, rfl⟩
  · have hlt := hrank a b hab
    by_cases hb : above b
    · obtain ⟨i, hi, hbi⟩ := hb
      rw [if_pos ⟨i, hi, hbi⟩, if_pos ⟨i, hi, hbi.head hab⟩]
      exact Nat.add_lt_add_right hlt _
    · rw [if_neg hb]
      split_ifs <;> omega
  · have hb : ¬ above b := fun ⟨i, hi, hbi⟩ => hpath i hi hbi
    have hle := hle b
    rw [if_neg hb, if_pos ⟨a, ha, .refl⟩]
    omega

theorem Contracted.contains {id : VertexId}
    (h : Contracted mode preserved discarded placeholder parents g g')
    (hid : g.contains id = true) : g'.contains id = true := by
  obtain ⟨n, hn⟩ := Linked.exists_placeholder hid
  exact contains_of_placeholder ((h.placeholders id).trans hn)

/-- Contraction is harmless but for cycles. -/
theorem Contracted.consistent (hg : g.Consistent mode)
    (hr : g.Redirectable preserved discarded placeholder parents)
    (h : Contracted mode preserved discarded placeholder parents g g')
    (hcheck : g'.isAcyclic = true) : g'.Consistent mode where
  toLinked := h.linked
  acyclic := acyclic_of_isAcyclic h.linked.edges_live hcheck
  root i hi := by
    rw [h.root] at hi
    split_ifs at hi
    · cases hi
      exact h.contains (contains_of_placeholder hr.placeholder_eq)
    · exact h.contains (hg.root i hi)

end Contract

/-- Registering the expression of a vertex once more changes digest entries alone. -/
theorem replace_current (hg : g.Linked mode) (hnode : g.current? id = some node) :
    let g' := g.replace id node (node.key mode)
    g'.Linked mode ∧ (∀ i, g'.vertex? i = g.vertex? i) ∧ g'.edges = g.edges ∧ g'.root = g.root := by
  obtain ⟨hsize, hfree, hedges, hroot⟩ := replace_eq g id node (node.key mode)
  have hkey := hg.keys id node hnode
  have hvertex : ∀ i, (g.replace id node (node.key mode)).vertex? i = g.vertex? i := by
    intro i
    rw [vertex?_replace]
    split_ifs with hi
    · subst hi
      obtain ⟨v, hv⟩ := exists_vertex_of_contains (contains_of_current hnode)
      obtain rfl : v.current = node := by simpa [current?, hv] using hnode
      have hsnd : v.key = v.current.key mode := by simpa [key?, hv] using hkey
      rw [hv, Option.map_some, ← hsnd]
    · rfl
  have hcurrent : ∀ i, (g.replace id node (node.key mode)).current? i = g.current? i :=
    fun i => by rw [current?, current?, hvertex]
  have hplaceholder : ∀ i, (g.replace id node (node.key mode)).placeholder? i = g.placeholder? i :=
    fun i => by rw [placeholder?, placeholder?, hvertex]
  have hkeys : ∀ i, (g.replace id node (node.key mode)).key? i = g.key? i :=
    fun i => by rw [key?, key?, hvertex]
  refine ⟨⟨⟨fun i hi => ?_, fun i hi => ?_, ?_⟩, fun i n hi => ?_, fun i n hi => ?_, fun a b => ?_,
    ?_, fun i n hi => ?_, fun k i hi => ?_, digests_keys_nodup_replace hg.digests_nodup _ _ _⟩,
    hvertex, hedges, hroot⟩
  · rw [hsize]
    exact hg.free.lt_size i (hfree ▸ hi)
  · rw [contains, hvertex, ← contains]
    exact hg.free.unused i (hfree ▸ hi)
  · rw [hfree]
    exact hg.free.nodup
  · exact hg.placeholders i n (hplaceholder i ▸ hi)
  · exact (hg.currents i n (hcurrent i ▸ hi)).congr hplaceholder
  · rw [Edge, hedges, hcurrent]
    exact hg.edges a b
  · rw [hedges]
    exact hg.edges_nodup
  · rw [hkeys]
    exact hg.keys i n (hcurrent i ▸ hi)
  · rw [mem_digests_replace hkey] at hi
    rw [hkeys]
    rcases hi with heq | ⟨hi, -, -⟩
    · cases heq
      exact hkey
    · exact hg.digests k i hi

/-- Redirects parents to a vertex whose expression, given with its placeholder, is registered once
more before. -/
def merge (mode : DigestMode) (preserved discarded : VertexId) (node placeholder : Node)
    (parents : List VertexId) (g : Graph) : Graph :=
  (g.replace preserved node (node.key mode)).contract mode preserved discarded placeholder parents

section Merge

variable {preserved discarded : VertexId} {placeholder : Node} {parents : List VertexId}

/-- Registering an expression once more leaves what is to be redirected as it is. -/
theorem Redirectable.replace_current (hg : g.Linked mode) (hnode : g.current? preserved = some node)
    (h : g.Redirectable preserved discarded placeholder parents) :
    (g.replace preserved node (node.key mode)).Redirectable preserved discarded placeholder
      parents := by
  obtain ⟨-, hvertex, hedges, -⟩ := Graph.replace_current hg hnode
  refine ⟨?_, ?_, h.ne, fun p hp => ?_, h.nodup, h.notMem⟩
  · rw [placeholder?, hvertex, ← placeholder?]
    exact h.placeholder_eq
  · rw [contains, hvertex, ← contains]
    exact h.discarded_live
  · rw [Edge, hedges]
    exact h.edge p hp

theorem contracted_merge (hg : g.Linked mode) (hnode : g.current? preserved = some node)
    (h : g.Redirectable preserved discarded placeholder parents) :
    Contracted mode preserved discarded placeholder parents g
      (g.merge mode preserved discarded node placeholder parents) := by
  obtain ⟨hlinked, hvertex, -, hroot⟩ := Graph.replace_current hg hnode
  have hc := contracted_contract hlinked (h.replace_current hg hnode)
  refine ⟨hc.linked, fun i => ?_, fun i => ?_, ?_⟩
  · rw [merge, hc.current, current?, hvertex, ← current?]
  · rw [merge, hc.placeholders, placeholder?, hvertex, ← placeholder?]
  · rw [merge, hc.root, hroot]

end Merge

end Graph

end QueryPlanner
