import QueryPlanner.Proofs.Planner.Firing

/-!
# Sharing of equal expressions

Where expressions of equal key share a vertex, every vertex should be the one that its key leads to.
Growing and sweeping keep it so. A merge gives parents new keys without looking them up; afterwards
every key still leads to a vertex, but if a parent was given the key of another vertex, one of the
two is lost.
-/

namespace QueryPlanner.Graph

variable {mode : DigestMode} {s : Settings} {g g' : Graph} {node : Node} {id : VertexId}

/-- No two vertices have the same key. -/
def Distinct (g : Graph) : Prop :=
  ∀ i j key, g.key? i = some key → g.key? j = some key → i = j

/-- No two vertices have the same key, and the key of a vertex leads to it. -/
structure Shared (g : Graph) : Prop where
  distinct : g.Distinct
  lookup : ∀ i key, g.key? i = some key → g.lookup key = some i

/-- Every vertex has a digest entry of its own. -/
def Entered (g : Graph) : Prop := ∀ i key, g.key? i = some key → (key, i) ∈ g.digests

/-- The vertices outside a list have keys that lead to vertices outside it. -/
def Answered (g : Graph) (pending : List VertexId) : Prop :=
  ∀ i key, g.key? i = some key → i ∉ pending → ∃ j, (key, j) ∈ g.digests ∧ j ∉ pending

theorem shared_iff_entered (hg : g.Linked mode) : g.Shared ↔ g.Entered := by
  constructor
  · exact fun h i key hi => (lookup_eq_some_iff hg.digests_nodup).1 (h.lookup i key hi)
  · intro h
    have hlookup : ∀ i key, g.key? i = some key → g.lookup key = some i := fun i key hi =>
      (lookup_eq_some_iff hg.digests_nodup).2 (h i key hi)
    refine ⟨fun i j key hi hj => ?_, hlookup⟩
    exact Option.some.inj ((hlookup i key hi).symm.trans (hlookup j key hj))

theorem Entered.answered (h : g.Entered) (pending : List VertexId) : g.Answered pending :=
  fun i key hi hp => ⟨i, h i key hi, hp⟩

/-- If no two vertices have the same key, one that the key of a vertex leads to is that vertex. -/
theorem Answered.entered (hg : g.Linked mode) (h : g.Answered []) (hd : g.Distinct) : g.Entered := by
  intro i key hi
  obtain ⟨j, hj, -⟩ := h i key hi List.not_mem_nil
  rwa [hd i j key hi (hg.digests key j hj)]

theorem Entered.congr (h : g.Entered) (hg : g.Alike g') : g'.Entered := by
  intro i key hi
  rw [hg.digests]
  exact h i key (hg.key? i ▸ hi)

theorem Inserted.entered {key : DigestKey} (hg : g.Linked mode) (he : g.Entered)
    (hfresh : g.lookup key = none) (h : Inserted g node key id g') : g'.Entered := by
  intro i k hi
  rw [h.digests, mem_digests_register]
  rw [h.key?] at hi
  split_ifs at hi with hid
  · cases hi
    exact .inl (by rw [hid])
  · refine .inr ⟨he i k hi, ?_⟩
    rintro rfl
    rw [(lookup_eq_some_iff hg.digests_nodup).2 (he i _ hi)] at hfresh
    cases hfresh

theorem Growth.entered (hg : g.Consistent s.digestMode) (hdag : s.dag = true) (he : g.Entered)
    (h : Growth s g g') : g'.Entered := by
  induction h with
  | refl => exact he
  | tail hs h ih =>
    have hc := Growth.consistent hg hs
    cases h with
    | costs h _ => exact ih.congr h
    | insert hn hfresh =>
      exact (inserted_insert hc.free _ _).entered hc.toLinked ih (hfresh hdag)

theorem Sweep.entered (hg : g.Linked mode) (he : g.Entered) (h : g.Sweep g') : g'.Entered := by
  obtain ⟨hroot, hlive, hperm⟩ := h
  have hd := discarded_discard hg hperm
  intro i key hi
  rw [hd.key?] at hi
  split_ifs at hi with hmem
  exact (mem_digests_discard hg _).2 ⟨he i key hi, hmem⟩

section Merge

variable {preserved discarded : VertexId} {placeholder : Node} {parents : List VertexId}

/-- A parent that is redirected is entered under its new key. What led to it before may have led to
another vertex as well, but only to one that is still to be redirected. -/
theorem Redirected.answered {parent : VertexId} {pending : List VertexId} {old : DigestKey}
    (h : Redirected mode preserved discarded g parent node g') (hold : g.key? parent = some old)
    (hparent : parent ∉ pending) (hc : g.Answered (parent :: pending)) : g'.Answered pending := by
  intro i key hi hp
  have hnew : (node.key mode, parent) ∈ g'.digests := (h.digests old hold _).2 (.inl rfl)
  by_cases hk : key = node.key mode
  · exact ⟨parent, hk ▸ hnew, hparent⟩
  · rw [h.key] at hi
    split_ifs at hi with hid
    · cases hi
      exact absurd rfl hk
    · obtain ⟨j, hj, hjp⟩ := hc i key hi (by simp [hid, hp])
      rw [List.mem_cons, not_or] at hjp
      exact ⟨j, (h.digests old hold _).2 (.inr ⟨hj, fun heq => hjp.1 (Prod.mk.inj heq).2, hk⟩),
        hjp.2⟩

theorem answered_foldl_redirect (hg : g.Linked mode)
    (hplaceholder : g.placeholder? preserved = some placeholder) (hnodup : parents.Nodup)
    (hedge : ∀ p ∈ parents, g.Edge p discarded) (hc : g.Answered parents) :
    (parents.foldl (redirect mode preserved discarded placeholder) g).Answered [] := by
  induction parents generalizing g with
  | nil => exact hc
  | cons parent parents ih =>
    rw [List.nodup_cons] at hnodup
    have hparent := hedge parent List.mem_cons_self
    obtain ⟨node, hnode⟩ := Linked.exists_current (hg.edges_live _ hparent).1
    have h := redirected_redirect mode preserved discarded placeholder hnode
    refine ih (h.linked hg hnode hplaceholder (.inl hparent))
      ((h.placeholders preserved).trans hplaceholder) hnodup.2 (fun p hp => ?_)
      (h.answered (hg.keys parent node hnode) hnodup.1 hc)
    have hne : p ≠ parent := fun heq => hnodup.1 (heq ▸ hp)
    exact (h.edges _).2 (.inr ⟨fun heq => hne (Prod.mk.inj heq).1,
      hedge p (List.mem_cons_of_mem _ hp)⟩)

theorem entered_replace_current (hg : g.Linked mode) (hnode : g.current? id = some node)
    (he : g.Entered) : (g.replace id node (node.key mode)).Entered := by
  obtain ⟨-, hvertex, -, -⟩ := replace_current hg hnode
  have hkey := hg.keys id node hnode
  intro i key hi
  rw [key?, hvertex, ← key?] at hi
  rw [mem_digests_replace hkey]
  by_cases hid : i = id
  · subst hid
    rw [hkey] at hi
    cases hi
    exact .inl rfl
  · refine .inr ⟨he i key hi, fun heq => hid (Prod.mk.inj heq).2, ?_⟩
    rintro rfl
    exact hid (((shared_iff_entered hg).2 he).distinct i id _ hi hkey)

/-- A merge that leaves the keys distinct keeps the vertices entered. -/
theorem Merged.entered {old : Graph} (hg : g.Linked mode) (he : g.Entered)
    (h : g.Merged mode preserved discarded old g') (hd : g'.Distinct) : g'.Entered := by
  obtain ⟨_, _, -, -, hc⟩ := h.contracted hg
  refine Answered.entered hc.linked ?_ hd
  obtain ⟨hnode, hr, -⟩ := h
  have hr' := hr.replace_current hg hnode
  have hanswered := answered_foldl_redirect (replace_current hg hnode).1 hr'.placeholder_eq
    hr'.nodup hr'.edge ((entered_replace_current hg hnode he).answered _)
  unfold Graph.merge Graph.contract
  simp only
  split_ifs
  · exact hanswered
  · exact hanswered

/-- A vertex from before is given the key that another vertex has. -/
def Collision (old g : Graph) : Prop :=
  ∃ i j key, old.contains i = true ∧ old.key? i ≠ some key ∧ g.key? i = some key ∧
    g.key? j = some key ∧ i ≠ j

/-- A merge without a collision leaves the keys distinct: the vertices that are new, or have kept
their keys, were distinct before it. -/
theorem Merged.distinct {old : Graph} (hg : g.Linked mode) (hd : g.Distinct) (hext : old.Extends g)
    (h : g.Merged mode preserved discarded old g') (hcollision : ¬ old.Collision g') :
    g'.Distinct := by
  obtain ⟨placeholder, parents, hold, -, hc⟩ := h.contracted hg
  have hkeeps : ∀ i key, g'.key? i = some key → (old.contains i = true → old.key? i = some key) →
      g.key? i = some key := by
    intro i key hi hsame
    by_cases hlive : old.contains i = true
    · rw [hext.key? hlive]
      exact hsame hlive
    · obtain ⟨node, hnode⟩ := contains_iff_current.1 (contains_of_key hi)
      have hnode' := hnode
      rw [hc.current, if_neg fun hmem => hlive (hold i hmem)] at hnode'
      rw [hg.keys i node hnode', ← hi, hc.linked.keys i node hnode]
  intro i j key hi hj
  by_contra hne
  have hi' : old.contains i = true → old.key? i = some key := fun hlive => by
    by_contra hk
    exact hcollision ⟨i, j, key, hlive, hk, hi, hj, hne⟩
  have hj' : old.contains j = true → old.key? j = some key := fun hlive => by
    by_contra hk
    exact hcollision ⟨j, i, key, hlive, hk, hj, hi, Ne.symm hne⟩
  exact hne (hd i j key (hkeeps i key hi hi') (hkeeps j key hj hj'))

end Merge

end QueryPlanner.Graph
