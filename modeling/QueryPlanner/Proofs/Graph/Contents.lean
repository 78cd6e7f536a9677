import QueryPlanner.Proofs.Graph.Collection

/-!
# The contents of a graph

The vertices with their current expressions. Inserting adds one, replacing exchanges one, discarding
takes some away.
-/

namespace QueryPlanner.Graph

variable {g g' : Graph} {id : VertexId} {node old : Node} {order garbage : List VertexId}

/-- These vertices with their expressions, as far as they have one. -/
def contentsOf (g : Graph) (ids : List VertexId) : List (VertexId × Node) :=
  ids.filterMap fun id => (g.current? id).map (id, ·)

/-- The vertices with their expressions. -/
def contents (g : Graph) : List (VertexId × Node) := g.contentsOf g.vertexIds

theorem mem_contentsOf {ids : List VertexId} :
    (id, node) ∈ g.contentsOf ids ↔ id ∈ ids ∧ g.current? id = some node := by
  simp [contentsOf]

theorem mem_contents : (id, node) ∈ g.contents ↔ g.current? id = some node :=
  mem_contentsOf.trans ⟨And.right, fun h => ⟨mem_vertexIds.2 (contains_of_current h), h⟩⟩

theorem contentsOf_cons (g : Graph) (id : VertexId) (ids : List VertexId) :
    g.contentsOf (id :: ids) = ((g.current? id).map (id, ·)).toList ++ g.contentsOf ids := by
  rw [contentsOf, List.filterMap_cons]
  cases g.current? id <;> rfl

theorem nodup_contentsOf (g : Graph) {ids : List VertexId} (h : ids.Nodup) :
    (g.contentsOf ids).Nodup := by
  refine h.filterMap fun i j c hi hj => ?_
  obtain ⟨_, -, rfl⟩ := Option.map_eq_some_iff.1 hi
  obtain ⟨_, -, heq⟩ := Option.map_eq_some_iff.1 hj
  exact (congrArg Prod.fst heq).symm

theorem nodup_contents (g : Graph) : g.contents.Nodup :=
  g.nodup_contentsOf g.nodup_vertexIds

/-- A list without repetition of what the vertices hold is the contents. -/
theorem perm_contents {cs : List (VertexId × Node)} (hnodup : cs.Nodup)
    (h : ∀ id node, (id, node) ∈ cs ↔ g.current? id = some node) : cs.Perm g.contents :=
  (List.perm_ext_iff_of_nodup hnodup g.nodup_contents).2 fun c => (h c.1 c.2).trans mem_contents.symm

theorem contents_congr (h : ∀ id, g'.current? id = g.current? id) : g'.contents.Perm g.contents :=
  perm_contents g'.nodup_contents fun i n => by rw [mem_contents, h]

theorem FreeUnused.insert (h : g.FreeUnused) (node : Node) (key : DigestKey) :
    (g.insert node key).2.FreeUnused := (inserted_insert h node key).free

theorem contents_insert (h : g.FreeUnused) (node : Node) (key : DigestKey) :
    (((g.insert node key).1, node) :: g.contents).Perm (g.insert node key).2.contents := by
  have hins := inserted_insert h node key
  have hfresh : g.current? (g.insert node key).1 = none := by
    have hunused := h.nextId_unused
    rw [← hins.id_eq, contains] at hunused
    have hnone := Option.not_isSome_iff_eq_none.1 (ne_true_of_eq_false hunused)
    rw [current?, hnone]
    rfl
  refine perm_contents (List.nodup_cons.2 ⟨?_, g.nodup_contents⟩) fun i n => ?_
  · rw [mem_contents, hfresh]
    simp
  · rw [List.mem_cons, mem_contents, hins.current?, Prod.mk.injEq]
    split_ifs with hi
    · subst hi
      simp [hfresh, eq_comm]
    · simp [hi]

theorem contains_replace (g : Graph) (id : VertexId) (node : Node) (key : DigestKey) (i : VertexId) :
    (g.replace id node key).contains i = g.contains i := by
  rw [contains, vertex?_replace, contains]
  split_ifs with hi
  · rw [hi, Option.isSome_map]
  · rfl

theorem FreeUnused.replace (h : g.FreeUnused) (id : VertexId) (node : Node) (key : DigestKey) :
    (g.replace id node key).FreeUnused :=
  h.congr (g.contains_replace id node key) (replace_eq g id node key).1 (replace_eq g id node key).2.1

theorem current?_replace (hold : g.current? id = some old) (node : Node) (key : DigestKey)
    (i : VertexId) :
    (g.replace id node key).current? i = if i = id then some node else g.current? i := by
  obtain ⟨v, hv⟩ := exists_vertex_of_contains (contains_of_current hold)
  rw [current?, vertex?_replace, current?]
  split_ifs
  · rw [hv]
    rfl
  · rfl

/-- A new expression has come and the old one is gone. -/
theorem contents_replace (hold : g.current? id = some old) (node : Node) (key : DigestKey) :
    ((id, node) :: g.contents).Perm ((id, old) :: (g.replace id node key).contents) := by
  have hcurrent := current?_replace hold node key
  -- what both have in common
  have hrest : ∀ (g : Graph) (n : Node), g.current? id = some n →
      ((id, n) :: g.contents.filter (·.1 ≠ id)).Perm g.contents := by
    intro g n hn
    refine perm_contents (List.nodup_cons.2 ⟨by simp, g.nodup_contents.filter _⟩) fun i m => ?_
    rw [List.mem_cons, Prod.mk.injEq, List.mem_filter, mem_contents]
    by_cases hi : i = id
    · subst hi
      simp [hn, eq_comm]
    · simp [hi]
  have hsame : (g.replace id node key).contents.filter (·.1 ≠ id) |>.Perm
      (g.contents.filter (·.1 ≠ id)) := by
    refine (List.perm_ext_iff_of_nodup ((nodup_contents _).filter _)
      ((nodup_contents _).filter _)).2 fun c => ?_
    simp only [List.mem_filter, ne_eq, decide_not, Bool.not_eq_true', decide_eq_false_iff_not]
    refine and_congr_left fun hc => ?_
    rw [show c = (c.1, c.2) from rfl, mem_contents, mem_contents, hcurrent, if_neg hc]
  have hnew := hrest (g.replace id node key) node (by rw [hcurrent, if_pos rfl])
  have hboth : ((id, node) :: g.contents).Perm
      ((id, old) :: (id, node) :: g.contents.filter (·.1 ≠ id)) :=
    ((hrest g old hold).symm.cons _).trans (.swap _ _ _)
  exact hboth.trans (((hsame.symm.cons _).trans hnew).cons _)

theorem FreeUnused.discard (h : g.FreeUnused) (order garbage : List VertexId) :
    (g.discard order garbage).FreeUnused := by
  have hremoved : (order.foldl Graph.evict g).FreeUnused := by
    induction order generalizing g with
    | nil => exact h
    | cons id order ih => exact ih (h.evict id)
  exact ⟨hremoved.lt_size, hremoved.unused, hremoved.nodup⟩

theorem contents_discard (hperm : order.Perm garbage) (hnodup : garbage.Nodup) :
    (g.contentsOf garbage ++ (g.discard order garbage).contents).Perm g.contents := by
  have hcurrent : ∀ i, (g.discard order garbage).current? i =
      if i ∈ garbage then none else g.current? i := by
    intro i
    rw [current?, vertex?_discard, current?]
    simp only [hperm.mem_iff]
    split_ifs <;> rfl
  refine perm_contents (List.nodup_append.2 ⟨g.nodup_contentsOf hnodup, nodup_contents _, ?_⟩)
    fun i n => ?_
  · rintro ⟨i, n⟩ hgone _ hleft rfl
    rw [mem_contents, hcurrent, if_pos (mem_contentsOf.1 hgone).1] at hleft
    cases hleft
  · rw [List.mem_append, mem_contentsOf, mem_contents, hcurrent]
    split_ifs with hi <;> simp [hi]

end QueryPlanner.Graph
