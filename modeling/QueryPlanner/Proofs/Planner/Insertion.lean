import QueryPlanner.Planner.Insertion
import QueryPlanner.Proofs.Graph.Growth
import QueryPlanner.Proofs.Graph.Redirection
import QueryPlanner.Proofs.Planner.Questions

/-!
# Adding and redirecting

Adding an expression makes the graph grow until the expression is placed. Redirecting parents is the
merge of two vertices in the graph; it never fails on parents of the discarded vertex.
-/

namespace QueryPlanner.Planner

open QueryPlanner.Graph Planning

variable {p q r : Planner} {node : Node} {id : VertexId}

/-- The graph has grown, and nothing else has changed but counters and reports. -/
structure Extended (p q : Planner) : Prop where
  settings : q.settings = p.settings
  program : q.program = p.program
  registry : q.registry = p.registry
  execution : q.execution = p.execution
  growth : Growth p.settings p.graph q.graph

namespace Extended

theorem refl (p : Planner) : p.Extended p := ⟨rfl, rfl, rfl, rfl, .refl⟩

theorem trans (h : p.Extended q) (h' : q.Extended r) : p.Extended r where
  settings := h'.settings.trans h.settings
  program := h'.program.trans h.program
  registry := h'.registry.trans h.registry
  execution := h'.execution.trans h.execution
  growth := h.growth.trans (h.settings ▸ h'.growth)

theorem consistent (h : p.Extended q) (hp : p.graph.Consistent p.settings.digestMode) :
    q.graph.Consistent q.settings.digestMode := by
  rw [h.settings]
  exact h.growth.consistent hp

theorem exact (h : p.Extended q) (hp : p.Exact) : q.Exact :=
  ⟨h.consistent hp.consistent, h.settings ▸ h.growth.exact hp.consistent hp.caches⟩

theorem graph (h : p.Extended q) (hp : p.graph.Consistent p.settings.digestMode) :
    p.graph.Extends q.graph := h.growth.extends hp

end Extended

theorem Undisturbed.extended (h : p.Undisturbed q) : p.Extended q where
  settings := h.settings
  program := h.program
  registry := h.registry
  execution := h.execution
  growth := .single (.costs h.graph fun hc he => h.settings ▸ (h.exact ⟨hc, he⟩).caches)

/-! ## Adding -/

/-- The vertex that an expression over placeholders shares. -/
def shared? (p : Planner) (node : Node) : Option VertexId :=
  if p.settings.dag then p.graph.lookup (node.key p.settings.digestMode) else none

theorem place_eq (node : Node) (p : Planner) : place node p = match p.shared? node with
    | some id => .ok id p
    | none =>
      let inserted := p.graph.insert node (node.key p.settings.digestMode)
      .ok inserted.1 { p with graph := inserted.2, transformations := p.transformations + 1 } := by
  show (match p.shared? node with
    | some id => pure id
    | none => do
      set { p with graph := (p.graph.insert node (node.key p.settings.digestMode)).2 }
      countTransformation
      return (p.graph.insert node (node.key p.settings.digestMode)).1 : Planning VertexId) p = _
  cases p.shared? node <;> rfl

/-- The vertex that an expression over placeholders is put at has its key. -/
theorem ends_place (hp : p.graph.Consistent p.settings.digestMode) (hn : p.graph.OverVertices node)
    (E : Fault → Planner → Prop) :
    Ends (place node) p (fun id q => p.Extended q ∧ ∃ n, q.graph.current? id = some n ∧
      n.key p.settings.digestMode = node.key p.settings.digestMode ∧
      (p.settings.dag = false → n = node)) E := by
  refine ends_bind.2 (ends_get.2 ?_)
  simp only
  split
  · next id hid =>
    -- the registered vertex has the key, for digest entries are right
    have hdag : p.settings.dag = true := by
      by_contra h
      simp [h] at hid
    rw [if_pos hdag, lookup_eq_some_iff hp.digests_nodup] at hid
    have hkey := hp.digests _ _ hid
    obtain ⟨n, hcurrent⟩ := contains_iff_current.1 (contains_of_key hkey)
    have hn := hp.keys id n hcurrent
    rw [hkey] at hn
    refine ends_pure.2 ⟨.refl p, n, hcurrent, (Option.some.inj hn).symm, fun h => ?_⟩
    rw [hdag] at h
    cases h
  · next hnone =>
    have hins := inserted_insert hp.free node (node.key p.settings.digestMode)
    refine ends_bind.2 (ends_set.2 (ends_bind.2 (ends_modify.2 (ends_pure.2 ⟨?_, node, ?_⟩))))
    · exact ⟨rfl, rfl, rfl, rfl, .single (.insert hn fun hdag => by rwa [if_pos hdag] at hnone)⟩
    · exact ⟨(hins.current? _).trans (if_pos rfl), rfl, fun _ => rfl⟩

section Placing

variable {R : Planner → Planner → Prop}

mutual

/-- A relation between states that every placement keeps is kept by every addition, also by one that
fails half way. -/
theorem ends_add_of_place (refl : ∀ p, R p p) (trans : ∀ {p q r}, R p q → R q r → R p r)
    (hplace : ∀ node p, Ends (place node) p (fun _ q => R p q) fun _ _ => False) :
    ∀ (n : Node) (p : Planner), Ends (add n) p (fun _ q => R p q) fun _ q => R p q
  | ⟨op, inputs, traits, rowType⟩, p => by
    by_cases hop : ∃ j, op = .vertex j
    · obtain ⟨j, rfl⟩ := hop
      rw [add]
      apply ends_bind.2
      apply ends_get.2
      split
      · exact ends_bind.2 (ends_structuralFault.2 (refl p))
      · exact ends_pure.2 (refl p)
    · rw [add]
      · apply (ends_addInputs_of_place refl trans hplace inputs p).bind
        intro placeholders q hpq
        apply (hplace ⟨op, placeholders, traits, rowType⟩ q).mono
        · intro _ r hqr
          exact trans hpq hqr
        · intro _ _ h
          exact h.elim
      · exact fun j hj => hop ⟨j, hj⟩

theorem ends_addInputs_of_place (refl : ∀ p, R p p) (trans : ∀ {p q r}, R p q → R q r → R p r)
    (hplace : ∀ node p, Ends (place node) p (fun _ q => R p q) fun _ _ => False) :
    ∀ (ns : List Node) (p : Planner), Ends (addInputs ns) p (fun _ q => R p q) fun _ q => R p q
  | [], p => by
    rw [addInputs]
    exact ends_pure.2 (refl p)
  | n :: ns, p => by
    rw [addInputs]
    apply (ends_add_of_place refl trans hplace n p).bind
    intro id q hpq
    apply ends_bind.2
    apply ends_bind.2
    apply ends_get.2
    split
    · apply ends_pure.2
      apply ends_bind.2
      apply (ends_addInputs_of_place refl trans hplace ns q).mono
      · intro _ r hqr
        exact ends_pure.2 (trans hpq hqr)
      · intro _ r hqr
        exact trans hpq hqr
    · exact ends_structuralFault.2 hpq

end

end Placing

mutual

/-- Adding an expression places it; an addition that fails has added some of its inputs. -/
theorem ends_add : ∀ (n : Node) (p : Planner), p.graph.Consistent p.settings.digestMode →
    Ends (add n) p (fun id q => p.Extended q ∧ Places p.settings q.graph n id)
      fun _ q => p.Extended q
  | ⟨op, inputs, traits, rowType⟩, p, hp => by
    by_cases hop : ∃ j, op = .vertex j
    · obtain ⟨j, rfl⟩ := hop
      rw [add]
      refine ends_bind.2 (ends_get.2 ?_)
      split
      · exact ends_bind.2 (ends_structuralFault.2 (.refl p))
      · next h => exact ends_pure.2 ⟨.refl p, places_vertex.2 ⟨rfl, by simpa using h⟩⟩
    · have hop : ∀ j, op ≠ .vertex j := fun j hj => hop ⟨j, hj⟩
      rw [add]
      · apply (ends_addInputs inputs p hp).bind
        rintro placeholders q ⟨hq, hall⟩
        have hover : q.graph.OverVertices ⟨op, placeholders, traits, rowType⟩ := by
          refine ⟨?_, hall.overVertices⟩
          cases op <;> first | rfl | exact absurd rfl (hop _)
        refine (ends_place (hq.consistent hp) hover _).mono ?_ fun _ _ hr => hr
        rintro id r ⟨hr, n, hn, hkey, htree⟩
        rw [hq.settings] at hkey htree
        exact ⟨hq.trans hr, (places_operator hop).2 ⟨placeholders,
          hall.extends (hr.graph (hq.consistent hp)), n, hn, hkey, htree⟩⟩
      · exact hop

theorem ends_addInputs : ∀ (ns : List Node) (p : Planner),
    p.graph.Consistent p.settings.digestMode →
    Ends (addInputs ns) p (fun placeholders q =>
      p.Extended q ∧ PlacesAll p.settings q.graph ns placeholders) fun _ q => p.Extended q
  | [], p, hp => by
    rw [addInputs]
    exact ends_pure.2 ⟨.refl p, by rw [PlacesAll]⟩
  | n :: ns, p, hp => by
    rw [addInputs]
    apply (ends_add n p hp).bind
    rintro id q ⟨hq, hplaces⟩
    have hqc := hq.consistent hp
    obtain ⟨placeholder, hplaceholder⟩ := Linked.exists_placeholder hplaces.contains
    refine ends_bind.2 (ends_bind.2 (ends_get.2 ?_))
    rw [hplaceholder]
    refine ends_bind.2 ((ends_addInputs ns q hqc).mono ?_ fun _ _ hr => hq.trans hr)
    rintro rest r ⟨hr, hall⟩
    have hext := hr.graph hqc
    refine ends_pure.2 ⟨hq.trans hr, ?_⟩
    rw [PlacesAll]
    exact ⟨id, placeholder, rest, rfl, hplaces.extends hext,
      hext.placeholder?_of_some hplaceholder, hq.settings ▸ hall⟩

end

section Steps

variable {op : Operator} {inputs placeholders : List Node} {traits : TraitSet} {rowType : Schema}

theorem add_vertex_eq_ok {j : VertexId} : add ⟨.vertex j, inputs, traits, rowType⟩ p = .ok id q ↔
    p.graph.contains j = true ∧ id = j ∧ q = p := by
  rw [add]
  show (if !p.graph.contains j then structuralFault (.removedReference j) none >>= fun _ => pure j
    else pure j : Planning VertexId) p = .ok id q ↔ _
  split_ifs with h
  · simp only [Bool.not_eq_true'] at h
    rw [h]
    constructor
    · intro hok
      cases hok
    · rintro ⟨hlive, -⟩
      cases hlive
  · simp only [Bool.not_eq_true', Bool.not_eq_false] at h
    constructor
    · intro hok
      cases hok
      exact ⟨h, rfl, rfl⟩
    · rintro ⟨-, rfl, rfl⟩
      rfl

/-- An expression is placed over the placeholders of its inputs. -/
theorem add_operator_eq_ok (hop : ∀ j, op ≠ .vertex j) :
    add ⟨op, inputs, traits, rowType⟩ p = .ok id q ↔ ∃ placeholders p₁,
      addInputs inputs p = .ok placeholders p₁ ∧
        place ⟨op, placeholders, traits, rowType⟩ p₁ = .ok id q := by
  rw [add]
  · exact bind_eq_ok
  · exact hop

theorem placeholder_eq_ok : placeholder id p = .ok node q ↔
    p.graph.placeholder? id = some node ∧ q = p := by
  refine bind_eq_ok.trans ?_
  constructor
  · rintro ⟨_, _, ⟨⟩, h⟩
    cases hnode : p.graph.placeholder? id with
    | none =>
      rw [hnode] at h
      cases h
    | some n =>
      rw [hnode] at h
      cases h
      exact ⟨rfl, rfl⟩
  · rintro ⟨h, rfl⟩
    refine ⟨q, q, rfl, ?_⟩
    rw [h]
    rfl

theorem current_eq_ok : current id p = .ok node q ↔
    p.graph.current? id = some node ∧ q = p := by
  refine bind_eq_ok.trans ?_
  constructor
  · rintro ⟨_, _, ⟨⟩, h⟩
    cases hnode : p.graph.current? id with
    | none =>
      rw [hnode] at h
      cases h
    | some n =>
      rw [hnode] at h
      cases h
      exact ⟨rfl, rfl⟩
  · rintro ⟨h, rfl⟩
    refine ⟨q, q, rfl, ?_⟩
    rw [h]
    rfl

theorem addInputs_cons_eq_ok {ns : List Node} :
    addInputs (node :: ns) p = .ok placeholders q ↔ ∃ id placeholder rest p₁,
      add node p = .ok id p₁ ∧ p₁.graph.placeholder? id = some placeholder ∧
        addInputs ns p₁ = .ok rest q ∧ placeholders = placeholder :: rest := by
  rw [addInputs]
  simp only [bind_eq_ok, placeholder_eq_ok]
  constructor
  · rintro ⟨id, p₁, hadd, n, _, ⟨hn, rfl⟩, rest, p₂, hrest, hok⟩
    cases hok
    exact ⟨id, n, rest, _, hadd, hn, hrest, rfl⟩
  · rintro ⟨id, n, rest, p₁, hadd, hn, hrest, rfl⟩
    exact ⟨id, p₁, hadd, n, p₁, ⟨hn, rfl⟩, rest, q, hrest, rfl⟩

end Steps

/-- A new root is where the plan is placed. -/
theorem ends_setRoot (plan : Node) (p : Planner) (hp : p.graph.Consistent p.settings.digestMode) :
    Ends (setRoot plan) p (fun _ q => ∃ r id, add plan p = .ok id r ∧ p.Extended r ∧
      Places p.settings r.graph plan id ∧
        Reported { r with graph := { r.graph with root := some id } } q) fun _ q => p.Extended q := by
  refine ends_bind.2 (((ends_self _ p).and (ends_add plan p hp)).mono ?_ fun _ _ h => h.2)
  rintro id r ⟨hadd, hr, hplaces⟩
  refine ends_bind.2 (ends_modify.2 (ends_bind.2 (ends_get.2 ?_)))
  exact (ends_log _ _ _).mono (fun _ q hq => ⟨r, id, hadd, hr, hplaces, hq⟩) fun _ _ h => h

/-! ## Redirecting -/

/-- Planners that differ in the graph and in reports alone. -/
def Regraphed (p : Planner) (g : Graph) (q : Planner) : Prop :=
  ∃ events, q = { p with graph := g, events }

theorem ends_replace (hid : p.graph.contains id = true) (isNew : Bool)
    (E : Fault → Planner → Prop) :
    Ends (replace id node isNew) p (fun _ q =>
      p.Regraphed (p.graph.replace id node (node.key p.settings.digestMode)) q) E := by
  refine ends_bind.2 (ends_get.2 ?_)
  obtain ⟨old, hold⟩ := Option.isSome_iff_exists.1 hid
  rw [hold]
  refine ends_bind.2 (ends_modify.2 ?_)
  split
  · refine (ends_observe _ _ _).mono ?_ fun _ _ h => h
    rintro _ q ⟨events, rfl⟩
    exact ⟨events, rfl⟩
  · exact ends_pure.2 ⟨p.events, rfl⟩

section Redirect

variable {preserved discarded parent : VertexId} {placeholder : Node} {parents : List VertexId}

theorem ends_redirect (hnode : p.graph.current? parent = some node)
    (E : Fault → Planner → Prop) :
    Ends (redirect preserved discarded placeholder parent) p (fun _ q => p.Regraphed
      (p.graph.redirect p.settings.digestMode preserved discarded placeholder parent) q) E := by
  refine ends_bind.2 (ends_bind.2 (ends_get.2 ?_))
  rw [hnode]
  refine ends_bind.2 (ends_modify.2 ((ends_replace ?_ true E).mono ?_ fun _ _ h => h))
  · show (((p.graph.forget (p.graph.ancestors parent)).removeEdge parent discarded).addEdge parent
      preserved).contains parent = true
    rw [contains, vertex?_congr (addEdge_slots _ _ _), removeEdge]
    show ((p.graph.forget (p.graph.ancestors parent)).vertex? parent).isSome = true
    rw [← contains, (alike_forget _ _).contains]
    exact contains_of_current hnode
  · rintro _ q ⟨events, rfl⟩
    exact ⟨events, by simp only [Graph.redirect, hnode]⟩

/-- The parents are redirected one after the other; those to come are still as they were. -/
theorem ends_forM_redirect (hg : p.graph.Linked p.settings.digestMode)
    (hplaceholder : p.graph.placeholder? preserved = some placeholder)
    (hedge : ∀ i ∈ parents, p.graph.Edge i discarded) (hnodup : parents.Nodup)
    (E : Fault → Planner → Prop) :
    Ends (parents.forM (redirect preserved discarded placeholder)) p (fun _ q => p.Regraphed
      (parents.foldl (Graph.redirect p.settings.digestMode preserved discarded placeholder) p.graph)
      q) E := by
  induction parents generalizing p with
  | nil => exact ends_pure.2 ⟨p.events, rfl⟩
  | cons parent parents ih =>
    rw [List.nodup_cons] at hnodup
    have hparent := hedge parent List.mem_cons_self
    obtain ⟨node, hnode⟩ := Linked.exists_current (hg.edges_live _ hparent).1
    apply (ends_redirect hnode E).bind
    rintro _ q ⟨events, rfl⟩
    have h := redirected_redirect p.settings.digestMode preserved discarded placeholder hnode
    let q : Planner := { p with
      graph := p.graph.redirect p.settings.digestMode preserved discarded placeholder parent, events }
    refine (ih (p := q) (h.linked hg hnode hplaceholder (.inl hparent))
      ((h.placeholders preserved).trans hplaceholder) (fun i hi => ?_) hnodup.2).mono ?_
        fun _ _ h => h
    · have hne : i ≠ parent := fun heq => hnodup.1 (heq ▸ hi)
      exact (h.edges _).2 (.inr ⟨fun heq => hne (Prod.mk.inj heq).1,
        hedge i (List.mem_cons_of_mem _ hi)⟩)
    · rintro _ r ⟨events', rfl⟩
      exact ⟨events', rfl⟩

/-- Contraction is the merge of two vertices. -/
theorem ends_contract (hg : p.graph.Linked p.settings.digestMode)
    (hnode : p.graph.current? preserved = some node)
    (h : p.graph.Redirectable preserved discarded placeholder parents)
    (E : Fault → Planner → Prop) :
    Ends (contract preserved discarded parents) p (fun _ q => p.Regraphed
      (p.graph.merge p.settings.digestMode preserved discarded node placeholder parents) q) E := by
  unfold contract
  rw [if_neg h.ne]
  refine ends_bind.2 (ends_bind.2 (ends_get.2 ?_))
  rw [hnode]
  apply (ends_replace (contains_of_current hnode) false E).bind
  rintro _ q ⟨events, rfl⟩
  have hr := h.replace_current hg hnode
  refine ends_bind.2 (ends_bind.2 (ends_get.2 ?_))
  simp only [hr.placeholder_eq]
  apply (ends_forM_redirect (replace_current hg hnode).1 hr.placeholder_eq hr.edge hr.nodup E).bind
  rintro _ r ⟨events', rfl⟩
  refine ends_bind.2 (ends_get.2 ?_)
  split
  · next hroot => exact ends_modify.2 ⟨events', by rw [merge, Graph.contract, if_pos hroot]⟩
  · next hroot => exact ends_pure.2 ⟨events', by rw [merge, Graph.contract, if_neg hroot]⟩

end Redirect

end QueryPlanner.Planner
