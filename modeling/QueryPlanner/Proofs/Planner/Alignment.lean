import QueryPlanner.Proofs.Planner.Observation
import QueryPlanner.Proofs.Planner.Renaming
import QueryPlanner.Proofs.Planner.Sharing

/-!
# Firing in planners with renamed vertices

Two planners whose graphs differ in the names of vertices add the same expressions, redirect the same
parents, in whatever order these come, and fire a rule with the same effect, as long as no firing gives
a vertex the key of another one where vertices are shared.
-/

namespace QueryPlanner

open QueryPlanner.Graph Planning

mutual

theorem Node.within_rename {F : Operator → TraitSet → Prop} {π : Equiv.Perm VertexId} :
    ∀ n : Node, n.Within F → (n.rename π).Within F
  | ⟨op, inputs, traits, rowType⟩, h => by
    by_cases hop : ∃ j, op = .vertex j
    · obtain ⟨j, rfl⟩ := hop
      exact within_vertex (vertexId?_rename _)
    · have hnone : (⟨op, inputs, traits, rowType⟩ : Node).vertexId? = none :=
        vertexId?_eq_none.2 fun j hj => hop ⟨j, hj⟩
      obtain ⟨hF, hinputs⟩ := (within_operator hnone).1 h
      refine (within_operator (vertexId?_rename_eq_none hnone)).2 ⟨?_, ?_⟩
      · rwa [operator_rename_of_operator hnone, traits_rename]
      · rw [inputs_rename]
        exact List.forall_mem_map.2 (Node.all_within_rename inputs hinputs)

theorem Node.all_within_rename {F : Operator → TraitSet → Prop} {π : Equiv.Perm VertexId} :
    ∀ ns : List Node, (∀ n ∈ ns, n.Within F) → ∀ n ∈ ns, (n.rename π).Within F
  | [], _ => by simp
  | n :: ns, h => by
    rw [List.forall_mem_cons] at h ⊢
    exact ⟨Node.within_rename n h.1, Node.all_within_rename ns h.2⟩

end

namespace Planner

variable {π : Equiv.Perm VertexId} {A : Rule → Prop} {p q p' q' : Planner} {node : Node}
  {id : VertexId} {E : Fault → Fault → Planner → Planner → Prop}

/-! ## Adding -/

theorem Impartial.extended (h : p.Impartial A) (hq : p.Extended q)
    (hplain : p.settings.dag = true → q.graph.Within PlainTraits) : q.Impartial A :=
  h.congr hq.settings hq.registry ⟨hq.exact h.tame.exact, fun hdag => hplain (hq.settings ▸ hdag)⟩
    (h.allows.congr hq.registry hq.execution)
    fun hdag => hq.growth.entered h.tame.exact.consistent hdag (h.entered hdag)

theorem ends_add_impartial {n : Node} (h : p.Impartial A)
    (hn : p.settings.dag = true → n.Within PlainTraits) :
    Ends (add n) p (fun _ q => q.Impartial A ∧ q.settings = p.settings) fun _ _ => True := by
  refine ((ends_self _ p).and (ends_add n p h.tame.exact.consistent)).mono ?_ fun _ _ _ => trivial
  rintro id q ⟨hadd, hq, -⟩
  refine ⟨h.extended hq fun hdag => ?_, hq.settings⟩
  exact within_add n p q id h.tame.exact.consistent (h.tame.discerning hdag) (hn hdag) hadd

/-- The inputs of an expression are placeholders of the graph when they are added. -/
theorem ends_addInputs_impartial {ns : List Node} (h : p.Impartial A)
    (hn : p.settings.dag = true → ∀ n ∈ ns, n.Within PlainTraits) :
    Ends (addInputs ns) p (fun placeholders q => q.Impartial A ∧ q.settings = p.settings ∧
      ∀ i ∈ placeholders, ∃ j, q.graph.placeholder? j = some i) fun _ _ => True := by
  refine ((ends_self _ p).and (ends_addInputs ns p h.tame.exact.consistent)).mono ?_
    fun _ _ _ => trivial
  rintro placeholders q ⟨hadd, hq, hall⟩
  refine ⟨h.extended hq fun hdag => ?_, hq.settings, hall.overVertices⟩
  exact within_addInputs ns p q placeholders h.tame.exact.consistent (h.tame.discerning hdag)
    (hn hdag) hadd

theorem Renamed.withGraph {g g' : Graph} (h : p.Renamed π q) (hg : g.Renamed π g') :
    Renamed π { p with graph := g } { q with graph := g' } :=
  ⟨h.settings, h.program, h.registry, h.execution, hg, h.transformations, h.transformationsAtSweep,
    h.sizeAtSweep⟩

theorem Renamed.count (h : p.Renamed π q) :
    Renamed π { p with transformations := p.transformations + 1 }
      { q with transformations := q.transformations + 1 } :=
  ⟨h.settings, h.program, h.registry, h.execution, h.graph, congrArg (· + 1) h.transformations,
    h.transformationsAtSweep, h.sizeAtSweep⟩

theorem paired_place (h : p.Renamed π q) (hp : p.Impartial A) (hq : q.Impartial A)
    (hn : p.graph.OverVertices node)
    (htraits : p.settings.dag = true → PlainTraits node.operator node.traits) :
    Paired (place node) (place (node.rename π)) p q (fun i j p' q' => j = π i ∧ p'.Renamed π q')
      E := by
  have hshared : q.shared? (node.rename π) = (p.shared? node).map π := by
    have hlinked := hq.linked
    rw [shared?, shared?, h.settings.dag, h.settings.digestMode]
    rw [h.settings.digestMode] at hlinked
    split_ifs with hdag
    · exact h.graph.lookup hp.linked hlinked (hp.entered hdag)
        (hq.entered (h.settings.dag.trans hdag)) (hp.tame.discerning hdag) hn (htraits hdag)
    · rfl
  have hplaced := place_eq node p
  have hplaced' := place_eq (node.rename π) q
  rw [hshared] at hplaced'
  cases hcase : p.shared? node with
  | some id =>
    rw [hcase] at hplaced hplaced'
    exact paired_of_eq_ok hplaced hplaced' ⟨rfl, h⟩
  | none =>
    rw [hcase] at hplaced hplaced'
    obtain ⟨hid, hg⟩ := h.graph.insert hp.linked.free hq.linked.free node
      (node.key p.settings.digestMode) ((node.rename π).key q.settings.digestMode)
    exact paired_of_eq_ok hplaced hplaced' ⟨hid, (h.withGraph hg).count⟩

mutual

/-- Adding an expression adds the same vertices, up to their names. -/
theorem paired_add : ∀ (n : Node) (p q : Planner), p.Renamed π q → p.Impartial A → q.Impartial A →
    (p.settings.dag = true → n.Within PlainTraits) →
      Paired (add n) (add (n.rename π)) p q (fun i j p' q' => j = π i ∧ p'.Renamed π q') Blurred
  | ⟨op, inputs, traits, rowType⟩, p, q, h, hp, hq, hn => by
    by_cases hop : ∃ j, op = .vertex j
    · obtain ⟨j, rfl⟩ := hop
      rw [Node.rename_mk]
      show Paired (add ⟨.vertex j, inputs, traits, rowType⟩)
        (add ⟨.vertex (π j), inputs.map (Node.rename π), traits, rowType⟩) p q _ _
      rw [add, add]
      refine paired_get ?_
      rw [h.graph.contains]
      split
      · refine Paired.bind (Q := fun (_ _ : PUnit) _ _ => False)
          (paired_structuralFault ?_ none p q _) fun _ _ _ _ h => h.elim
        rfl
      · exact paired_pure ⟨rfl, h⟩
    · have hop : ∀ j, op ≠ .vertex j := fun j hj => hop ⟨j, hj⟩
      have hnone : (⟨op, inputs, traits, rowType⟩ : Node).vertexId? = none :=
        Node.vertexId?_eq_none.2 hop
      have hwithin := fun hdag => (Node.within_operator hnone).1 (hn hdag)
      have hwithin' : q.settings.dag = true →
          ∀ n ∈ inputs.map (Node.rename π), n.Within PlainTraits := fun hdag =>
        List.forall_mem_map.2 (Node.all_within_rename inputs (hwithin (h.settings.dag ▸ hdag)).2)
      rw [Node.rename_mk, Operator.rename_of_ne hop, add, add]
      · refine ((paired_addInputs inputs p q h hp hq fun hdag => (hwithin hdag).2).and
          (ends_addInputs_impartial hp fun hdag => (hwithin hdag).2)
          (ends_addInputs_impartial hq hwithin')).bind ?_
        rintro placeholders _ p' q' ⟨⟨rfl, h'⟩, ⟨hp', hsettings, hover⟩, hq', -⟩
        have hover' : p'.graph.OverVertices ⟨op, placeholders, traits, rowType⟩ :=
          ⟨Node.vertexId?_eq_none.2 hop, hover⟩
        have hplaced := paired_place (E := Blurred) h' hp' hq' hover' fun hdag =>
          (hwithin (hsettings ▸ hdag)).1
        rwa [Node.rename_mk, Operator.rename_of_ne hop] at hplaced
      · exact hop
      · exact hop

theorem paired_addInputs : ∀ (ns : List Node) (p q : Planner), p.Renamed π q → p.Impartial A →
    q.Impartial A → (p.settings.dag = true → ∀ n ∈ ns, n.Within PlainTraits) →
      Paired (addInputs ns) (addInputs (ns.map (Node.rename π))) p q
        (fun ms ms' p' q' => ms' = ms.map (Node.rename π) ∧ p'.Renamed π q') Blurred
  | [], p, q, h, hp, hq, hn => by
    rw [List.map_nil, addInputs]
    exact paired_pure ⟨rfl, h⟩
  | n :: ns, p, q, h, hp, hq, hn => by
    rw [List.map_cons, addInputs, addInputs]
    have hn : p.settings.dag = true → n.Within PlainTraits ∧ ∀ m ∈ ns, m.Within PlainTraits :=
      fun hdag => List.forall_mem_cons.1 (hn hdag)
    refine ((paired_add n p q h hp hq fun hdag => (hn hdag).1).and
      (ends_add_impartial hp fun hdag => (hn hdag).1) (ends_add_impartial hq fun hdag =>
        Node.within_rename n (hn (h.settings.dag ▸ hdag)).1)).bind ?_
    rintro id _ p₁ q₁ ⟨⟨rfl, h₁⟩, ⟨hp₁, hsettings⟩, hq₁, -⟩
    refine ((tallies_placeholder id).paired h₁ hp₁ hq₁).bind ?_
    rintro placeholder _ p₂ q₂ ⟨rfl, h₂, ⟨hp₂, hundisturbed⟩, hq₂, -⟩
    refine (paired_addInputs ns p₂ q₂ h₂ hp₂ hq₂ fun hdag => (hn ?_).2).bind ?_
    · rwa [← hsettings, ← hundisturbed.settings]
    · rintro placeholders _ p₃ q₃ ⟨rfl, h₃⟩
      exact paired_pure ⟨rfl, h₃⟩

end

/-! ## Redirecting -/

theorem paired_contract {preserved discarded : VertexId} {placeholder : Node}
    {parents parents' : List VertexId} (h : p.Renamed π q)
    (hp : p.graph.Linked p.settings.digestMode) (hq : q.graph.Linked q.settings.digestMode)
    (hnode : p.graph.current? preserved = some node)
    (hr : p.graph.Redirectable preserved discarded placeholder parents)
    (hperm : parents'.Perm (parents.map π)) :
    Paired (contract preserved discarded parents) (contract (π preserved) (π discarded) parents') p q
      (fun _ _ p' q' => p'.Renamed π q' ∧ p'.graph.Linked p'.settings.digestMode ∧
        q'.graph.Linked q'.settings.digestMode) E := by
  have hnode' : q.graph.current? (π preserved) = some (node.rename π) := by
    rw [h.graph.current, hnode, Option.map_some]
  have hr' := h.graph.redirectable hr hperm
  obtain ⟨_, p', hendp, events, rfl⟩ := (ends_contract hp hnode hr fun _ _ => False).exists_ok
  obtain ⟨_, q', hendq, events', rfl⟩ := (ends_contract hq hnode' hr' fun _ _ => False).exists_ok
  have hmerge := contracted_merge hp hnode hr
  have hmerge' := contracted_merge hq hnode' hr'
  rw [h.settings.digestMode] at hq hmerge'
  refine paired_of_eq_ok hendp hendq ⟨?_, hmerge.linked, ?_⟩
  · rw [h.settings.digestMode]
    have hg := h.graph.merge hp hq hnode hr hperm
    exact ⟨h.settings, h.program, h.registry, h.execution, hg, h.transformations,
      h.transformationsAtSweep, h.sizeAtSweep⟩
  · simp only [h.settings.digestMode]
    exact hmerge'.linked

theorem paired_checkAcyclic (h : p.Renamed π q) (hp : p.graph.Linked p.settings.digestMode)
    (hq : q.graph.Linked q.settings.digestMode) (rule : Option String) :
    Paired (checkAcyclic rule) (checkAcyclic rule) p q (fun _ _ p' q' => p' = p ∧ q' = q) Blurred := by
  rw [h.settings.digestMode] at hq
  refine paired_get ?_
  rw [h.graph.isAcyclic hp hq]
  split_ifs
  · exact paired_structuralFault rfl rule p q _
  · exact paired_pure ⟨rfl, rfl⟩

/-! ## Firing -/

/-- Of renamed proposals the same one is put in place of the vertex. -/
theorem paired_substitute (h : p.Renamed π q) (hp : p.Impartial A) (hq : q.Impartial A)
    (hid : p.graph.contains id = true) (rule : Rule) {accepts accepts' : Node → Bool}
    (haccepts : ∀ n : Node, accepts' (n.rename π) = accepts n) (first : Node) (others : List Node)
    (hproposed : p.settings.dag = true → ∀ n ∈ first :: others, n.Within PlainTraits) :
    Paired (substitute rule id accepts first others)
      (substitute rule (π id) accepts' (first.rename π) (others.map (Node.rename π))) p q
      (fun result result' p' q' => result' = result.map π ∧ p'.Renamed π q') Blurred := by
  have hrest : ∀ {p q : Planner} {result : VertexId}, p.Renamed π q →
      p.graph.Linked p.settings.digestMode → q.graph.Linked q.settings.digestMode →
      Paired (do
          log (.substituted rule.description id result)
          checkAcyclic (some rule.description)
          return some result)
        (do
          log (.substituted rule.description (π id) (π result))
          checkAcyclic (some rule.description)
          return some (π result)) p q
        (fun result result' p' q' => result' = result.map π ∧ p'.Renamed π q') Blurred := by
    intro p q result h hp hq
    refine (paired_log _ _ p q _).bind ?_
    rintro _ _ _ _ ⟨⟨events, rfl⟩, events', rfl⟩
    have h' : Renamed π { p with events } { q with events := events' } :=
      h.alike (Reported.undisturbed ⟨events, rfl⟩).toAlike
        (Reported.undisturbed ⟨events', rfl⟩).toAlike
    refine (paired_checkAcyclic h' hp hq _).bind ?_
    rintro _ _ _ _ ⟨rfl, rfl⟩
    exact paired_pure ⟨rfl, h'⟩
  refine (((tallies_cheapest first others).paired h hp hq).and (ends_cheapest first others p)
    (ends_self _ q)).bind ?_
  rintro best _ p₁ q₁ ⟨⟨rfl, h₁, ⟨hp₁, hundisturbed⟩, hq₁, -⟩, ⟨hbest, -⟩, -⟩
  have hplain : p₁.settings.dag = true → best.Within PlainTraits := fun hdag =>
    hproposed (hundisturbed.settings ▸ hdag) best hbest
  have hplain' : q₁.settings.dag = true → (best.rename π).Within PlainTraits := fun hdag =>
    Node.within_rename best (hplain (h₁.settings.dag ▸ hdag))
  refine paired_get ?_
  have hperm := h₁.parents_filter hp₁ hq₁ haccepts id
  refine ((paired_add best p₁ q₁ h₁ hp₁ hq₁ hplain).and
    ((ends_add_impartial hp₁ hplain).and (ends_add best p₁ hp₁.tame.exact.consistent))
    (ends_add_impartial hq₁ hplain')).bind ?_
  rintro result _ p₂ q₂ ⟨⟨rfl, h₂⟩, ⟨⟨hp₂, -⟩, hextended, hplaces⟩, hq₂, -⟩
  have hmem : π result ∈ ((q₁.graph.parents (π id)).filter fun i =>
      (q₁.graph.current? i).any accepts') ↔
      result ∈ ((p₁.graph.parents id).filter fun i => (p₁.graph.current? i).any accepts) := by
    rw [hperm.mem_iff, List.mem_map_of_injective π.injective]
  simp only [hmem, ne_eq, π.apply_eq_iff_eq]
  split_ifs with hloop hsame
  · exact paired_pure ⟨rfl, h₂⟩
  · subst hsame
    unfold contract
    rw [if_pos rfl, if_pos rfl]
    exact hrest h₂ hp₂.linked hq₂.linked
  · obtain ⟨node, hnode⟩ := contains_iff_current.1 hplaces.contains
    obtain ⟨placeholder, hplaceholder⟩ := Linked.exists_placeholder hplaces.contains
    have hr := (hextended.graph hp₁.tame.exact.consistent).redirectable hp₁.tame.exact.consistent
      (by rwa [hundisturbed.graph.contains]) hplaceholder hsame _ hloop
    refine (paired_contract h₂ hp₂.linked hq₂.linked hnode hr hperm).bind ?_
    rintro _ _ p₃ q₃ ⟨h₃, hp₃, hq₃⟩
    exact hrest h₃.count hp₃ hq₃

/-! ## What the planner may come to -/

/-- States that a planner may come to: rules of some kind are tried on vertices, garbage is swept in
any order, and what does not concern vertices and their expressions may change at any time. -/
inductive Leads (A : Rule → Prop) (p : Planner) : Planner → Prop
  | refl : Leads A p p
  | undisturbed {q r : Planner} (h : Leads A p q) (hr : q.Undisturbed r) : Leads A p r
  | executed {q : Planner} (h : Leads A p q) (e : Execution) : Leads A p { q with execution := e }
  | swept {q r : Planner} (h : Leads A p q) (hr : q.Swept r) : Leads A p r
  | attempted {q r : Planner} {rule : Rule} {id : VertexId} {force : Bool}
      {replacement : Option Replacement} (h : Leads A p q) (hrule : A rule)
      (hr : attempt rule id force q = .ok replacement r) : Leads A p r

theorem Leads.trans {r : Planner} (h : p.Leads A q) (h' : q.Leads A r) : p.Leads A r := by
  induction h' with
  | refl => exact h
  | undisturbed _ hr ih => exact ih.undisturbed hr
  | executed _ e ih => exact ih.executed e
  | swept _ hr ih => exact ih.swept hr
  | attempted _ hrule hr ih => exact ih.attempted hrule hr

/-- Whatever is done, no vertex gets the key of another one. -/
def Apart (A : Rule → Prop) (p : Planner) : Prop := ∀ q, p.Leads A q → q.graph.Distinct

/-- An impartial planner that visits vertices in arbitrary order, and in which no vertex ever gets the
key of another one. -/
structure Orderless (A : Rule → Prop) (p : Planner) : Prop extends p.Impartial A where
  apart : p.settings.dag = true → p.Apart A
  arbitrary : p.execution.order = .arbitrary

theorem Orderless.undisturbed (h : p.Orderless A) (hq : p.Undisturbed q) : q.Orderless A where
  toImpartial := h.toImpartial.undisturbed hq
  apart hdag r hr := by
    rw [hq.settings] at hdag
    exact h.apart hdag r (((Leads.refl).undisturbed hq).trans hr)
  arbitrary := by rw [hq.execution, h.arbitrary]

/-- Trying a rule on a vertex of an orderless planner. -/
theorem ends_attempt_orderless {rule : Rule} {force : Bool} (h : p.Orderless A) (hrule : A rule) :
    Ends (attempt rule id force) p (fun _ q => q.Orderless A) fun _ _ => True := by
  have hentered : Ends (attempt rule id force) p
      (fun _ q => p.settings.dag = true → q.graph.Distinct → q.graph.Entered) fun _ _ => True := by
    by_cases hdag : p.settings.dag = true
    · refine (ends_attempt_entered h.tame.exact.consistent hdag (h.entered hdag) rule id force).mono ?_
        fun _ _ _ => trivial
      rintro _ q hq - hdistinct
      exact hq.2 fun ⟨i, j, key, _, _, hi, hj, hne⟩ => hne (hdistinct i j key hi hj)
    · exact (ends_self _ p).mono (fun _ _ _ hd => absurd hd hdag) fun _ _ _ => trivial
  refine ((ends_self _ p).and ((ends_attempt_tame h.tame (h.rules rule hrule).2).and
    hentered)).mono ?_ fun _ _ _ => trivial
  rintro replacement q ⟨hq, ⟨htame, hsettings, hregistry, hexecution, -⟩, hentered⟩
  have hleads : p.Leads A q := Leads.refl.attempted hrule hq
  have hapart : p.settings.dag = true → q.Apart A := fun hdag r hr => h.apart hdag r (hleads.trans hr)
  refine ⟨h.congr hsettings hregistry htame (h.allows.congr hregistry hexecution) fun hdag =>
    hentered hdag (hapart hdag q .refl), ?_, ?_⟩
  · rwa [hsettings]
  · rw [hexecution, h.arbitrary]

/-- Orderless planners that differ in the names of vertices. -/
structure Aligned (A : Rule → Prop) (π : Equiv.Perm VertexId) (p q : Planner) : Prop where
  renamed : p.Renamed π q
  left : p.Orderless A
  right : q.Orderless A

theorem Aligned.undisturbed (h : Aligned A π p q) (hp : p.Undisturbed p') (hq : q.Undisturbed q') :
    Aligned A π p' q' :=
  ⟨h.renamed.alike hp.toAlike hq.toAlike, h.left.undisturbed hp, h.right.undisturbed hq⟩

/-! ## Trying rules -/

section Trying

variable {rule : Rule} {rules : List Rule} {force : Bool}

/-- Asking leaves planners aligned. -/
theorem Aligned.tallies {α β : Type} {R : α → β → Prop} {x : Planning α} {y : Planning β}
    (h : Aligned A π p q) (hx : Tallies A π R x y) :
    Paired x y p q (fun a b p' q' => R a b ∧ Aligned A π p' q' ∧ p.Undisturbed p') Blurred :=
  (hx p q h.renamed h.left.toImpartial h.right.toImpartial).mono
    (fun _ _ _ _ ⟨hab, hp, hq⟩ => ⟨hab, h.undisturbed hp hq, hp⟩) fun _ _ _ _ h => h.1

/-- Proposals of a rule are plain where vertices are shared. -/
theorem Orderless.plain_proposed {node : Node} {proposed : List Node} (h : p.Orderless A)
    (hrule : A rule) (hproposes : p.Proposes rule id force node proposed) :
    p.settings.dag = true → ∀ n ∈ proposed, n.Within PlainTraits := fun hdag =>
  (h.rules rule hrule).2 hdag p id force node proposed h.tame.exact.consistent (h.tame.discerning hdag)
    hproposes

/-- A rule does the same on a renamed vertex. -/
theorem paired_attempt (h : Aligned A π p q) (hrule : A rule) (id : VertexId) (force : Bool) :
    Paired (attempt rule id force) (attempt rule (π id) force) p q
      (fun r r' p' q' => r'.map Replacement.result = (r.map Replacement.result).map π ∧
        Aligned A π p' q') Blurred := by
  have hblind := (h.left.rules rule hrule).1
  suffices hmain : Paired (attempt rule id force) (attempt rule (π id) force) p q
      (fun r r' p' q' => r'.map Replacement.result = (r.map Replacement.result).map π ∧
        p'.Renamed π q') Blurred by
    refine (hmain.and (ends_attempt_orderless h.left hrule)
      (ends_attempt_orderless h.right hrule)).mono ?_ fun _ _ _ _ h => h
    exact fun _ _ _ _ ⟨⟨hresult, hr⟩, hp, hq⟩ => ⟨hresult, hr, hp, hq⟩
  refine paired_get ?_
  rw [h.renamed.graph.contains]
  cases hid : p.graph.contains id
  · exact paired_pure ⟨rfl, h.renamed⟩
  refine ((h.tallies (tallies_occasion? rule id force)).and (ends_self _ p) (ends_self _ q)).bind ?_
  rintro _ _ p₁ q₁ ⟨⟨@⟨occasion, occasion', hoccasion⟩ | _, h₁, hu₁⟩, hp₁, -⟩
  swap
  · exact paired_pure ⟨rfl, h₁.renamed⟩
  refine ((h₁.tallies (tallies_current id)).and (ends_self _ p₁) (ends_self _ q₁)).bind ?_
  rintro node _ p₂ q₂ ⟨⟨rfl, h₂, -⟩, hcurrent, -⟩
  obtain ⟨hnode, rfl⟩ := current_eq_ok.1 hcurrent
  refine paired_get ?_
  have hbind : SameOutcome (Binding.RenamedTo π) (p₂.graph.bind rule.pattern node .empty)
      (q₂.graph.bind rule.pattern (node.rename π) .empty) :=
    h₂.renamed.graph.bind rule.pattern hblind.pattern node .empty
  obtain ⟨b, b', hb, hb', hbound⟩ | ⟨f, f', hf, hf', hblurred⟩ := hbind.cases_on
  swap
  · rw [hf, hf']
    exact paired_throw hblurred
  rw [hb, hb', hbound]
  rcases b with _ | binding
  · exact paired_pure ⟨rfl, h₂.renamed⟩
  have hcall : Call.Renamed π ⟨binding.rels, binding.inputs, occasion.parents⟩
      ⟨(binding.rename π).rels, (binding.rename π).inputs, occasion'.parents⟩ :=
    ⟨rfl, rfl, hoccasion.parents⟩
  refine ((h₂.tallies (tallies_fire hblind node hcall)).and (ends_self _ p₂) (ends_self _ q₂)).bind ?_
  rintro proposed _ p₃ q₃ ⟨⟨rfl, h₃, hu₃⟩, hfire, -⟩
  have hplain := h.left.plain_proposed hrule ⟨occasion, binding, p₂, p₃, hp₁, hnode, hb, hfire⟩
  rcases proposed with _ | ⟨first, others⟩
  · exact paired_pure ⟨rfl, h₃.renamed⟩
  have hu := hu₁.trans hu₃
  refine (paired_substitute h₃.renamed h₃.left.toImpartial h₃.right.toImpartial
    (by rwa [hu.graph.contains]) rule hoccasion.accepts first others (hu.settings ▸ hplain)).bind ?_
  rintro (_ | result) _ p₄ q₄ ⟨rfl, h₄⟩
  · exact paired_pure ⟨rfl, h₄⟩
  · exact paired_pure ⟨rfl, h₄⟩

/-- Nobody observes, so nothing is done after a rule was tried. -/
theorem paired_apply (h : Aligned A π p q) (hrule : A rule) (id : VertexId) (force : Bool) :
    Paired (apply rule id force) (apply rule (π id) force) p q
      (fun r r' p' q' => r' = r.map π ∧ Aligned A π p' q') Blurred := by
  have hreport : ∀ {r : Planner} {replacement : Replacement}, r.settings.observed = false →
      reportProduction rule replacement r = .ok () r := by
    intro r replacement hr
    show (if r.settings.observed = true then _ else pure () : Planning Unit) r = _
    rw [hr]
    rfl
  refine (paired_attempt h hrule id force).bind ?_
  rintro (_ | replacement) (_ | replacement') p₁ q₁ ⟨hresult, h₁⟩
  · exact paired_pure ⟨rfl, h₁⟩
  · cases hresult
  · cases hresult
  · refine (paired_of_eq_ok (E := Blurred) (hreport h₁.left.unobserved) (hreport h₁.right.unobserved)
      (Q := fun _ _ => Aligned A π) h₁).bind fun _ _ _ _ h => paired_pure ⟨hresult, h⟩

theorem paired_visit (hrules : ∀ r ∈ rules, A r) (force : Bool) (id : VertexId) :
    ∀ {p q}, Aligned A π p q →
      Paired (visit rules force id) (visit rules force (π id)) p q
        (fun r r' p' q' => r' = r.map π ∧ Aligned A π p' q') Blurred := by
  induction rules with
  | nil => exact fun h => paired_pure ⟨rfl, h⟩
  | cons rule rest ih =>
    intro p q h
    rw [List.forall_mem_cons] at hrules
    rw [visit, visit]
    refine (paired_apply h hrules.1 id force).bind ?_
    rintro (_ | result) _ p' q' ⟨rfl, h'⟩
    · exact ih hrules.2 h'
    · simp only [Option.map_some, ne_eq, π.apply_eq_iff_eq]
      split_ifs
      · exact ih hrules.2 h'
      · exact paired_pure ⟨rfl, h'⟩

end Trying

end Planner

end QueryPlanner
