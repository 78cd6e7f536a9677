import QueryPlanner.Proofs.Graph.Exactness

/-!
# Graph operations keep graphs exact

Of a new vertex nothing is known, also if its id was in use before, and nothing refers to it. Redirecting
a parent changes what is below the parent and below everything above it; these are the vertices that are
forgotten first, found along the edges as they are before the parent's own edge is moved. Removing
garbage takes nothing from below a vertex that remains, and what is known of the garbage goes with it.
-/

namespace QueryPlanner.Graph

open Relation

variable {mode : DigestMode} {model : CostModel} {g g' g'' : Graph} {node : Node} {id : VertexId}
  {key : DigestKey}

theorem Linked.contains_of_reachable (hg : g.Linked mode) {a b : VertexId}
    (h : ReflTransGen g.Edge a b) (ha : g.contains a = true) : g.contains b = true := by
  induction h with
  | refl => exact ha
  | tail _ hbc _ => exact (hg.edges_live _ hbc).2

/-! ## What operations on vertices and edges leave alone -/

/-- What is known of vertices. -/
def known (g : Graph) : List (VertexId × Float) × List (VertexId × Cost) :=
  (g.knownRowCounts, g.knownCosts)

theorem known_addEdge (g : Graph) (a b : VertexId) : (g.addEdge a b).known = g.known := by
  unfold addEdge
  split_ifs <;> rfl

theorem known_foldl_addEdge (a : VertexId) (bs : List VertexId) : ∀ g : Graph,
    (bs.foldl (fun g b => g.addEdge a b) g).known = g.known := by
  induction bs with
  | nil => exact fun _ => rfl
  | cons b bs ih => exact fun g => (ih _).trans (known_addEdge g a b)

theorem known_insert (g : Graph) (node : Node) (key : DigestKey) :
    (g.insert node key).2.known = g.known := by
  have hadd : (g.addVertex node key).2.known = g.known := by
    unfold addVertex
    split <;> rfl
  unfold insert
  generalize g.addVertex node key = added at *
  obtain ⟨id, g₁⟩ := added
  exact (known_foldl_addEdge id node.references _).trans hadd

theorem known_replace (g : Graph) (id : VertexId) (node : Node) (key : DigestKey) :
    (g.replace id node key).known = g.known := by
  unfold replace setCurrent
  split <;> rfl

theorem known_removeVertex (g : Graph) (id : VertexId) : (g.removeVertex id).known = g.known := by
  unfold removeVertex
  split_ifs <;> rfl

/-! ## What is forgotten -/

/-- Of these vertices nothing is known any more, and of the others what was known before. -/
structure Forgets (g : Graph) (ids : List VertexId) (g' : Graph) : Prop where
  rowCounts : g'.knownRowCounts = g.knownRowCounts.filter (·.1 ∉ ids)
  costs : g'.knownCosts = g.knownCosts.filter (·.1 ∉ ids)

theorem forgets_of_known (h : g'.known = g.known) : g.Forgets [] g' :=
  ⟨by simpa using (Prod.mk.inj h).1, by simpa using (Prod.mk.inj h).2⟩

theorem forgets_forgetVertex (g : Graph) (id : VertexId) : g.Forgets [id] (g.forgetVertex id) :=
  ⟨by simp [forgetVertex], by simp [forgetVertex]⟩

namespace Forgets

variable {ids ids' : List VertexId}

theorem trans (h : g.Forgets ids g') (h' : g'.Forgets ids' g'') : g.Forgets (ids ++ ids') g'' where
  rowCounts := by
    rw [h'.rowCounts, h.rowCounts, List.filter_filter]
    exact List.filter_congr fun e _ => by simp [Bool.and_comm]
  costs := by
    rw [h'.costs, h.costs, List.filter_filter]
    exact List.filter_congr fun e _ => by simp [Bool.and_comm]

theorem foldl {f : Graph → VertexId → Graph} (h : ∀ (g : Graph) id, g.Forgets [id] (f g id))
    (ids : List VertexId) (g : Graph) : g.Forgets ids (ids.foldl f g) := by
  induction ids generalizing g with
  | nil => exact forgets_of_known rfl
  | cons id ids ih => exact (h g id).trans (ih (f g id))

theorem knows (h : g.Forgets ids g') : g'.Knows id ↔ g.Knows id ∧ id ∉ ids := by
  have hmap : ∀ {α : Type} (entries : List (VertexId × α)),
      id ∈ (entries.filter (·.1 ∉ ids)).map Prod.fst ↔ id ∈ entries.map Prod.fst ∧ id ∉ ids := by
    intro α entries
    simp only [List.mem_map, List.mem_filter, decide_eq_true_eq]
    constructor
    · rintro ⟨e, ⟨he, hkept⟩, rfl⟩
      exact ⟨⟨e, he, rfl⟩, hkept⟩
    · rintro ⟨⟨e, he, rfl⟩, hkept⟩
      exact ⟨e, ⟨he, hkept⟩, rfl⟩
  rw [Knows, h.rowCounts, h.costs, hmap, hmap, Knows, or_and_right]

/-- It is enough to look at what remains known. -/
theorem retains (h : g.Forgets ids g') (hbelow : ∀ id ∉ ids, g.Knows id →
    ∀ j, ReflTransGen g.Edge id j → g'.current? j = g.current? j) : g.Retains g' := by
  refine ⟨h.rowCounts ▸ List.filter_subset_self _, h.costs ▸ List.filter_subset_self _,
    fun id hid => ?_⟩
  obtain ⟨hid, hkept⟩ := h.knows.1 hid
  exact hbelow id hkept hid

end Forgets

/-! ## Inserting -/

/-- What is known is known of vertices, and the id of the new one was none of theirs. -/
theorem Exact.retains_insert (hg : g.Linked mode) (h : g.Exact model) (node : Node)
    (key : DigestKey) : g.Retains (g.insert node key).2 := by
  refine (forgets_of_known (known_insert g node key)).retains fun id _ hid j hj => ?_
  have hins := inserted_insert hg.free node key
  have hlive := hg.contains_of_reachable hj (h.contains hid)
  rw [hins.current?, if_neg (hins.ne_of_contains hg.free hlive)]

/-! ## Redirecting -/

section Redirect

variable {preserved discarded parent : VertexId} {placeholder : Node} {parents : List VertexId}

theorem forgets_redirect (hnode : g.current? parent = some node) :
    g.Forgets (g.ancestors parent) (g.redirect mode preserved discarded placeholder parent) := by
  have hforget : g.Forgets (g.ancestors parent) (g.forget (g.ancestors parent)) :=
    Forgets.foldl forgets_forgetVertex _ g
  have hrest : (g.forget (g.ancestors parent)).Forgets []
      (g.redirect mode preserved discarded placeholder parent) :=
    forgets_of_known (by simp only [redirect, hnode, known_replace, known_addEdge]; rfl)
  simpa using hforget.trans hrest

theorem retains_redirect (hnode : g.current? parent = some node) :
    g.Retains (g.redirect mode preserved discarded placeholder parent) := by
  refine (forgets_redirect hnode).retains fun id hid _ j hj => ?_
  have hne : j ≠ parent := by
    rintro rfl
    exact hid (mem_ancestors hj)
  rw [(redirected_redirect mode preserved discarded placeholder hnode).current, if_neg hne]

theorem exact_foldl_redirect (hg : g.Linked mode) (hexact : g.Exact model)
    (hplaceholder : g.placeholder? preserved = some placeholder) (hnodup : parents.Nodup)
    (hedge : ∀ p ∈ parents, g.Edge p discarded) :
    (parents.foldl (redirect mode preserved discarded placeholder) g).Exact model := by
  induction parents generalizing g with
  | nil => exact hexact
  | cons parent parents ih =>
    rw [List.nodup_cons] at hnodup
    have hparent := hedge parent List.mem_cons_self
    obtain ⟨node, hnode⟩ := Linked.exists_current (hg.edges_live _ hparent).1
    have h := redirected_redirect mode preserved discarded placeholder hnode
    refine ih (h.linked hg hnode hplaceholder (.inl hparent))
      (hexact.retained hg (retains_redirect hnode))
      ((h.placeholders preserved).trans hplaceholder) hnodup.2 fun p hp => ?_
    have hne : p ≠ parent := fun heq => hnodup.1 (heq ▸ hp)
    exact (h.edges _).2 (.inr ⟨fun heq => hne (Prod.mk.inj heq).1,
      hedge p (List.mem_cons_of_mem _ hp)⟩)

theorem retains_replace_current (hg : g.Linked mode) (hnode : g.current? id = some node) :
    g.Retains (g.replace id node (node.key mode)) := by
  obtain ⟨-, hvertex, -, -⟩ := replace_current hg hnode
  refine (forgets_of_known (known_replace g id node _)).retains fun _ _ _ j _ => ?_
  rw [current?, current?, hvertex]

theorem Exact.setRoot (h : g.Exact model) (root : Option VertexId) :
    Exact model { g with root := root } := by
  have hcurrent : current? { g with root := root } = g.current? := rfl
  refine ⟨fun id rows hrows => ?_, fun id cost hcost => ?_⟩
  · rw [hcurrent, hasRowCount_congr hcurrent]
    exact h.rowCount id rows hrows
  · rw [hcurrent, hasCost_congr hcurrent]
    exact h.cost id cost hcost

theorem Exact.merge (hg : g.Linked mode) (h : g.Exact model)
    (hnode : g.current? preserved = some node)
    (hr : g.Redirectable preserved discarded placeholder parents) :
    (g.merge mode preserved discarded node placeholder parents).Exact model := by
  have hg' := (replace_current hg hnode).1
  have hr' := hr.replace_current hg hnode
  have hfold := exact_foldl_redirect hg' (h.retained hg (retains_replace_current hg hnode))
    hr'.placeholder_eq hr'.nodup hr'.edge
  unfold Graph.merge contract
  simp only
  split_ifs
  · exact hfold.setRoot _
  · exact hfold

end Redirect

/-! ## Removing -/

theorem forgets_evict (g : Graph) (id : VertexId) : g.Forgets [id] (g.evict id) :=
  (forgets_of_known (known_removeVertex g id)).trans (forgets_forgetVertex _ id)

theorem forgets_discard (order garbage : List VertexId) (g : Graph) :
    g.Forgets order (g.discard order garbage) := by
  obtain ⟨hrows, hcosts⟩ := Forgets.foldl forgets_evict order g
  exact ⟨hrows, hcosts⟩

variable {order garbage : List VertexId}

theorem retains_discard (hg : g.Linked mode) (hperm : order.Perm garbage)
    (hd : g.Discardable garbage) : g.Retains (g.discard order garbage) := by
  refine (forgets_discard order garbage g).retains fun id hid _ j hj => ?_
  have hkept : j ∉ garbage := by
    induction hj with
    | refl => exact fun hmem => hid (hperm.mem_iff.2 hmem)
    | tail _ hab ih => exact fun hmem => ih (hd.notReferenced _ _ hab hmem)
  rw [(discarded_discard hg hperm).current?, if_neg hkept]

end QueryPlanner.Graph
