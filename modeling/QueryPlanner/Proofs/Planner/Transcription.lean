import QueryPlanner.Proofs.Graph.Matching
import QueryPlanner.Proofs.Planner.Verdicts

/-!
# What the plan keeps of the graph

The final plan is the graph itself: one entry for each vertex, with the expression of the vertex over
the entries of the vertices that it refers to, so what was shared stays shared. While the plan is
assembled, the entries of the built vertices are exactly the positions handed out so far. A vertex that
holds a request for traits, and nothing else, leaves the graph without a plan.
-/

namespace QueryPlanner

open QueryPlanner.Graph Planning Relation

/-- No node of the tree is a placeholder or a request for traits. -/
def Node.Implemented (t : Node) : Prop :=
  t.Everywhere fun n => n.vertexId? = none ∧ n.kind ≠ .abstractConverter

/-- The plan has one entry for each vertex: its expression over the entries of the vertices that it
refers to. -/
structure Plan.Transcribes (plan : Plan) (g : Graph) (root : VertexId) (position : VertexId → ℕ) :
    Prop where
  root : plan.root = position root
  entry : ∀ id node, g.current? id = some node → plan.entries[position id]? =
    some ⟨node.operator, node.references.map position, node.traits, node.rowType⟩
  injective : ∀ i j, g.contains i = true → g.contains j = true → position i = position j → i = j
  surjective : ∀ i < plan.entries.size, ∃ id, g.contains id = true ∧ position id = i

namespace Planner

variable {g : Graph} {mode : DigestMode} {p q : Planner} {root : VertexId}

/-! ## Assembling -/

namespace Assembly

variable {a b : Assembly}

/-- The entries are those of the vertices that are built, each the expression of its vertex over the
entries of what that refers to. -/
structure Exact (g : Graph) (a : Assembly) : Prop where
  entry : ∀ id i, (id, i) ∈ a.built → ∃ node inputs, g.current? id = some node ∧
    a.entries[i]? = some ⟨node.operator, inputs, node.traits, node.rowType⟩ ∧
    List.Forall₂ (fun j i => (j, i) ∈ a.built) node.references inputs
  positions : (a.built.map Prod.snd).Perm (List.range a.entries.size)

theorem exact_empty (g : Graph) : empty.Exact g where
  entry := by simp [empty]
  positions := by simp [empty]

/-- A vertex is built by an entry at the next position. -/
theorem Exact.push (ha : a.Exact g) {id : VertexId} {node : Node} {inputs : List ℕ}
    (hnode : g.current? id = some node)
    (hinputs : List.Forall₂ (fun j i => (j, i) ∈ a.built) node.references inputs) :
    let pushed := (a.push node inputs).2
    Exact g { pushed with built := (id, (a.push node inputs).1) :: pushed.built } where
  entry := by
    have hkept : ∀ {js is}, List.Forall₂ (fun j i => (j, i) ∈ a.built) js is →
        List.Forall₂ (fun j i => (j, i) ∈ (id, a.entries.size) :: a.built) js is :=
      List.Forall₂.imp fun j i => List.mem_cons_of_mem _
    intro j i hbuilt
    rcases List.mem_cons.1 hbuilt with hnew | hold
    · cases hnew
      exact ⟨node, inputs, hnode, Array.getElem?_push_size, hkept hinputs⟩
    · obtain ⟨m, ms, hm, hentry, hms⟩ := ha.entry j i hold
      have hlt : i < a.entries.size := (Array.getElem?_eq_some_iff.1 hentry).1
      refine ⟨m, ms, hm, ?_, hkept hms⟩
      show (a.entries.push _)[i]? = _
      rw [Array.getElem?_push, if_neg (by omega)]
      exact hentry
  positions := by
    show (a.entries.size :: a.built.map Prod.snd).Perm (List.range (a.entries.push _).size)
    rw [Array.size_push, List.range_succ]
    exact (ha.positions.cons _).trans (List.perm_append_singleton _ _).symm

/-- The position of a vertex that is built. -/
def position (a : Assembly) (id : VertexId) : ℕ := (a.built.lookup id).getD 0

theorem Settled.position_eq (ha : a.Settled g) {id : VertexId} {i : ℕ} (h : (id, i) ∈ a.built) :
    a.position id = i := by
  have hlookup : a.built.lookup id = some i := lookup_of_mem ha.nodup h
  rw [position, hlookup, Option.getD_some]

theorem Settled.map_position (ha : a.Settled g) {ids : List VertexId} {is : List ℕ}
    (h : List.Forall₂ (fun j i => (j, i) ∈ a.built) ids is) : ids.map a.position = is := by
  induction h with
  | nil => rfl
  | cons hji _ ih => rw [List.map_cons, ha.position_eq hji, ih]

theorem mem_ids {id : VertexId} : id ∈ a.ids ↔ ∃ i, (id, i) ∈ a.built := by
  simp [ids]

/-- Different vertices have different positions. -/
theorem Exact.eq_of_position (ha : a.Exact g) {i j : VertexId} {k : ℕ} (hi : (i, k) ∈ a.built)
    (hj : (j, k) ∈ a.built) : i = j := by
  have hnodup : (a.built.map Prod.snd).Nodup := ha.positions.nodup_iff.2 List.nodup_range
  have heq : (i, k) = (j, k) := List.inj_on_of_nodup_map hnodup hi hj rfl
  exact (Prod.mk.inj heq).1

end Assembly

open Assembly

/-! ## Extracting -/

/-- A vertex is extracted into entries that are exact. -/
def TranscribesBelow (g : Graph) (ofVertex : VertexId → Assembly → Planning (Nat × Assembly)) :
    Prop :=
  ∀ id a p r q, p.graph = g → a.Exact g → ofVertex id a p = .ok r q →
    q.graph = g ∧ r.2.Exact g ∧ a.built ⊆ r.2.built ∧ (id, r.1) ∈ r.2.built

theorem transcribes_extractInputs {ofVertex : VertexId → Assembly → Planning (Nat × Assembly)}
    (hvertex : TranscribesBelow g ofVertex) {ns : List Node}
    (hns : ∀ n ∈ ns, n.vertexId?.isSome = true) :
    ∀ a p r q, p.graph = g → a.Exact g → extractInputs ofVertex ns a p = .ok r q →
      q.graph = g ∧ r.2.Exact g ∧ a.built ⊆ r.2.built ∧
        List.Forall₂ (fun j i => (j, i) ∈ r.2.built) (ns.filterMap Node.vertexId?) r.1 := by
  induction ns with
  | nil =>
    rintro a p _ _ hp ha ⟨⟩
    exact ⟨hp, ha, List.Subset.refl _, .nil⟩
  | cons n ns ih =>
    intro a p r q hp ha h
    rw [List.forall_mem_cons] at hns
    obtain ⟨id, hid⟩ := Option.isSome_iff_exists.1 hns.1
    rw [extractInputs] at h
    simp only [hid] at h
    obtain ⟨⟨i, b⟩, p₁, hfirst, hrest⟩ := bind_eq_ok.1 h
    obtain ⟨hp₁, hb, hab, hi⟩ := hvertex id a p _ p₁ hp ha hfirst
    obtain ⟨⟨is, c⟩, p₂, hinputs, hlast⟩ := bind_eq_ok.1 hrest
    obtain ⟨hp₂, hc, hbc, his⟩ := ih hns.2 b p₁ _ p₂ hp₁ hb hinputs
    cases hlast
    refine ⟨hp₂, hc, List.Subset.trans hab hbc, ?_⟩
    rw [List.filterMap_cons_some hid]
    exact .cons (hbc hi) his

/-- Extraction is exact: by induction on the depth. -/
theorem transcribesBelow_extract (hg : g.Linked mode) (n : ℕ) : TranscribesBelow g (extract n) := by
  induction n with
  | zero =>
    intro id a p r q _ _ h
    cases h
  | succ n ih =>
    intro id a p r q hp ha h
    obtain ⟨i, hbuilt, rfl, rfl⟩ | ⟨hbuilt, node, inputs, b, p₁, hnode, -, hobserve, hinputs, rfl⟩ :=
      extract_succ_eq_ok h
    · exact ⟨hp, ha, List.Subset.refl _, mem_of_lookup hbuilt⟩
    · have hp₁ : p₁.graph = g := by
        rw [observe_chosen id] at hobserve
        cases hobserve
        rw [announced_graph, hp]
      have hcurrent : g.current? id = some node := hp ▸ hnode
      have hvertices := hg.isSome_vertexId? (hg.currents id node hcurrent)
      obtain ⟨hq, hb, hab, his⟩ := transcribes_extractInputs ih hvertices a p₁ _ q hp₁ ha hinputs
      refine ⟨hq, hb.push hcurrent his, ?_, List.mem_cons_self⟩
      exact List.Subset.trans hab (List.subset_cons_self _ _)

/-- The final plan is what was assembled below the root. -/
theorem finalPlan_eq_ok {plan : Plan} (h : finalPlan root p = .ok plan q) :
    ∃ a, extract p.graph.depthBound root .empty p = .ok (plan.root, a) q ∧
      plan.entries = a.entries := by
  obtain ⟨_, _, ⟨⟩, h⟩ := bind_eq_ok.1 h
  obtain ⟨⟨i, a⟩, p₁, hextract, h⟩ := bind_eq_ok.1 h
  simp only at h
  split_ifs at h
  · cases h
    exact ⟨a, hextract, rfl⟩
  · cases h

/-- A plan has one entry for each vertex, if there is no garbage in the graph. -/
theorem transcribes_finalPlan (hp : p.graph.Consistent mode) (hroot : p.graph.root = some root)
    (hspanned : p.graph.Spanned) {plan : Plan} (h : finalPlan root p = .ok plan q) :
    ∃ position, plan.Transcribes p.graph root position := by
  obtain ⟨a, hextract, hentries⟩ := finalPlan_eq_ok h
  obtain ⟨rank, hrank, -⟩ := hp.acyclic.exists_ranked_le hp.edges_live
  have hempty : Assembly.empty.Settled p.graph := ⟨.nil, by simp [Assembly.ids, Assembly.empty]⟩
  obtain ⟨⟨choices, -, -, henlarged, -⟩, hmem⟩ :=
    extractsBelow_extract hp.toLinked hrank _ root _ p _ q rfl hempty hextract
  have hsettled : a.Settled p.graph := henlarged.settled
  obtain ⟨-, hexact, -, hbuilt⟩ :=
    transcribesBelow_extract hp.toLinked _ root _ p _ q rfl (exact_empty _) hextract
  -- every vertex is below the root, so it is built
  have hall : ∀ id, p.graph.contains id = true → ∃ i, (id, i) ∈ a.built := fun id hid =>
    mem_ids.1 (hsettled.mem_of_reachable hmem (hspanned root hroot id hid))
  refine ⟨a.position, ?_, ?_, ?_, ?_⟩
  · exact (hsettled.position_eq hbuilt).symm
  · intro id node hnode
    obtain ⟨i, hi⟩ := hall id (contains_of_current hnode)
    obtain ⟨node', inputs, hnode', hentry, hinputs⟩ := hexact.entry id i hi
    obtain rfl : node' = node := Option.some.inj (hnode'.symm.trans hnode)
    rw [hsettled.position_eq hi, hsettled.map_position hinputs, hentries]
    exact hentry
  · intro i j hi hj hij
    obtain ⟨k, hk⟩ := hall i hi
    obtain ⟨l, hl⟩ := hall j hj
    rw [hsettled.position_eq hk, hsettled.position_eq hl] at hij
    subst hij
    exact hexact.eq_of_position hk hl
  · intro i hi
    rw [hentries] at hi
    have hposition : i ∈ a.built.map Prod.snd := hexact.positions.mem_iff.2 (List.mem_range.2 hi)
    obtain ⟨⟨id, _⟩, hid, rfl⟩ := List.mem_map.1 hposition
    obtain ⟨node, _, hnode, -⟩ := hexact.entry id _ hid
    exact ⟨id, contains_of_current hnode, hsettled.position_eq hid⟩

/-! ## Requests -/

/-- There are no placeholders in the tree of a vertex. -/
theorem everywhere_operator (hg : g.Consistent mode) {id : VertexId} {t : Node}
    (ht : g.UnfoldsTo id t) : t.Everywhere fun n => n.vertexId? = none := by
  apply (ht.everywhere_iff hg).2
  rintro j _ - ⟨node, hnode, hunfolds⟩
  have hoperator : node.vertexId? = none := (hg.currents j node hnode).isOperator
  obtain ⟨us, -, rfl⟩ := (unfolds_operator hoperator).1 hunfolds
  exact hoperator

/-- The requests in the tree of the root are those that vertices hold. -/
theorem met_iff_of_spanned (hg : g.Consistent mode) (hroot : g.root = some root)
    (hspanned : g.Spanned) {t : Node} (ht : g.UnfoldsTo root t) :
    t.Met ↔ ∀ id node, g.current? id = some node → node.kind ≠ .abstractConverter := by
  have hkind : ∀ {id node u}, g.current? id = some node → g.Unfolds node u → u.kind = node.kind := by
    intro id node u hnode hunfolds
    obtain ⟨us, -, rfl⟩ := (unfolds_operator (hg.currents id node hnode).isOperator).1 hunfolds
    rfl
  unfold Node.Met
  rw [ht.everywhere_iff hg]
  constructor
  · intro h id node hnode
    have hlive := contains_of_current hnode
    obtain ⟨u, hu⟩ := hg.exists_tree hlive
    have hunmet := h id u (hspanned root hroot id hlive) hu
    obtain ⟨node', hnode', hunfolds⟩ := hu
    obtain rfl : node' = node := Option.some.inj (hnode'.symm.trans hnode)
    rwa [hkind hnode hunfolds] at hunmet
  · rintro h id u - ⟨node, hnode, hunfolds⟩
    rw [hkind hnode hunfolds]
    exact h id node hnode

/-- A graph without garbage has a plan unless some vertex holds a request, and then the fault names
one. The plan unfolds to the tree of the root and has neither placeholders nor requests; it has one
entry for each vertex; and each vertex is chosen once. -/
theorem finalPlan_of_spanned (hp : p.graph.Consistent mode) (hroot : p.graph.root = some root)
    (hspanned : p.graph.Spanned) :
    ((∃ f q, finalPlan root p = .error f q) ↔
      ∃ id node, p.graph.current? id = some node ∧ node.kind = .abstractConverter) ∧
    (∀ f q, finalPlan root p = .error f q → p.graph.Requests f) ∧
    ((∀ id node, p.graph.current? id = some node → node.kind ≠ .abstractConverter) →
      ∃ plan choices position, finalPlan root p = .ok plan (p.announced choices) ∧
        p.graph.UnfoldsTo root plan.tree ∧ plan.tree.Implemented ∧
        plan.Transcribes p.graph root position ∧ choices.Perm p.graph.contents) := by
  obtain ⟨t, ht⟩ := hp.exists_tree (hp.root root hroot)
  have hmet := met_iff_of_spanned hp hroot hspanned ht
  have hends := ends_finalPlan hp ht
  refine ⟨⟨?_, ?_⟩, fun f q hend => (hends.error hend).2, fun hnone => ?_⟩
  · rintro ⟨f, q, hend⟩
    obtain ⟨id, node, hnode, hkind, -⟩ := (hends.error hend).2
    exact ⟨id, node, hnode, hkind⟩
  · rintro ⟨id, node, hnode, hkind⟩
    cases hend : finalPlan root p with
    | ok plan q => exact absurd hkind (hmet.1 (hends.ok hend).2 id node hnode)
    | error f q => exact ⟨f, q, rfl⟩
  · cases hend : finalPlan root p with
    | error f q => exact absurd (hmet.2 hnone) (hends.error hend).1
    | ok plan q =>
      have htree : plan.tree = t := (hends.ok hend).1
      obtain ⟨choices, -, rfl, hcontents, -⟩ := exists_chosen_finalPlan hp hroot hspanned hend
      obtain ⟨position, hposition⟩ := transcribes_finalPlan hp hroot hspanned hend
      refine ⟨plan, choices, position, rfl, ?_, ?_, hposition, hcontents⟩
      · rw [htree]
        exact ht
      · rw [htree]
        exact Node.Everywhere.and t (everywhere_operator hp ht) (hmet.2 hnone)

/-- A union over a limit and over another limit on that limit, which the two branches share. -/
def observedUnion : Planner :=
  left (build { Settings.default with observed := true } ⟨[]⟩ [] limitedUnion)

/-- Its garbage was collected. -/
def sweptUnion : Planner := left (collectGarbage observedUnion)

theorem finalPlan_of_spanned_sweptUnion :
    ∃ plan choices position, finalPlan 3 sweptUnion = .ok plan (sweptUnion.announced choices) ∧
      sweptUnion.graph.UnfoldsTo 3 plan.tree ∧ plan.tree.Implemented ∧
      plan.Transcribes sweptUnion.graph 3 position ∧ choices.Perm sweptUnion.graph.contents := by
  have hloaded : observedUnion.Tidy := tidy_of_build (eq_ok_of_succeeded (by decide +kernel))
  have hswept : collectGarbage observedUnion = .ok () sweptUnion :=
    eq_ok_of_succeeded (by decide +kernel)
  obtain ⟨htidy, hspanned⟩ :=
    hloaded.sweep ((ends_collectGarbage observedUnion fun _ _ => True).ok hswept)
  have hroot : sweptUnion.graph.root = some 3 := by decide +kernel
  have hnone : ∀ c ∈ sweptUnion.graph.contents, c.2.kind ≠ .abstractConverter := by decide +kernel
  apply (finalPlan_of_spanned htidy.consistent hroot hspanned).2.2
  intro id node hnode
  exact hnone (id, node) (mem_contents.2 hnode)

end Planner

end QueryPlanner
