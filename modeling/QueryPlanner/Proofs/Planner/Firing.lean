import QueryPlanner.Planner.Firing
import QueryPlanner.Proofs.Planner.Insertion
import QueryPlanner.Proofs.Planner.Sweep

/-!
# Firing

A firing makes the graph grow by the best of the proposed expressions and merges the vertex with the
one that the expression was put at, and the graph has no cycle afterwards. Where a firing fails, the
graph has grown at most, unless the merge was found to close a cycle.
-/

namespace QueryPlanner

open QueryPlanner.Graph Planning

namespace Graph

/-- Some parents of a vertex, all from an older graph, were made to refer to another one. -/
inductive Merged (mode : DigestMode) (preserved discarded : VertexId) (g old : Graph) : Graph → Prop
  | merge {node placeholder : Node} {parents : List VertexId}
      (hnode : g.current? preserved = some node)
      (hr : g.Redirectable preserved discarded placeholder parents)
      (hold : ∀ i ∈ parents, old.contains i = true) :
      Merged mode preserved discarded g old
        (g.merge mode preserved discarded node placeholder parents)

/-- Parents from before a graph has grown can be redirected to what was added. -/
theorem Extends.redirectable {mode : DigestMode} {g g' : Graph} {id result : VertexId}
    {placeholder : Node} (hext : g.Extends g') (hg : g.Consistent mode) (hid : g.contains id = true)
    (hplaceholder : g'.placeholder? result = some placeholder) (hne : result ≠ id)
    (accepts : VertexId → Bool) (hloop : result ∉ (g.parents id).filter accepts) :
    g'.Redirectable result id placeholder ((g.parents id).filter accepts) := by
  refine ⟨hplaceholder, hext.contains hid, hne, fun i hi => ?_,
    (parents_nodup hg.edges_nodup id).filter _, hloop⟩
  rw [List.mem_filter, mem_parents] at hi
  exact (hext.edge i id (hg.edges_live _ hi.1).1).2 hi.1

section Merged

variable {mode : DigestMode} {preserved discarded : VertexId} {g g' old : Graph}

theorem Merged.contracted (hg : g.Linked mode) (h : g.Merged mode preserved discarded old g') :
    ∃ placeholder parents, (∀ i ∈ parents, old.contains i = true) ∧
      g.Redirectable preserved discarded placeholder parents ∧
        Contracted mode preserved discarded placeholder parents g g' := by
  obtain ⟨hnode, hr, hold⟩ := h
  exact ⟨_, _, hold, hr, contracted_merge hg hnode hr⟩

theorem Merged.consistent (hg : g.Consistent mode) (h : g.Merged mode preserved discarded old g')
    (hcheck : g'.isAcyclic = true) : g'.Consistent mode := by
  obtain ⟨placeholder, parents, -, hr, h⟩ := h.contracted hg.toLinked
  exact h.consistent hg hr hcheck

theorem Merged.of_contains {older : Graph} (h : g.Merged mode preserved discarded old g')
    (hold : ∀ i, old.contains i = older.contains i) :
    g.Merged mode preserved discarded older g' := by
  obtain ⟨hnode, hr, h⟩ := h
  exact .merge hnode hr fun i hi => hold i ▸ h i hi

end Merged

end Graph

/-- Whether the fault reports a cycle that a firing has closed. -/
def Fault.reportsCycle : Fault → Bool
  | .structural (some _) .cycle _ => true
  | _ => false

namespace Planner

variable {p q r : Planner} {rule : Rule} {id result : VertexId} {force : Bool}

/-- A rule that has an occasion at a vertex matches its expression and proposes others. -/
def Proposes (p : Planner) (rule : Rule) (id : VertexId) (force : Bool) (node : Node)
    (proposed : List Node) : Prop :=
  ∃ occasion binding p₁ p₂, occasion? rule id force p = .ok (some occasion) p₁ ∧
    p₁.graph.current? id = some node ∧
    p₁.graph.bind rule.pattern node .empty = .ok (some binding) ∧
    fire rule node ⟨binding.rels, binding.inputs, occasion.parents⟩ p₁ = .ok proposed p₂

/-- What is proposed is proposed in place of the expression of the vertex. -/
theorem Proposes.current {node : Node} {proposed : List Node}
    (h : p.Proposes rule id force node proposed) :
    p.graph.current? id = some node := by
  obtain ⟨occasion, binding, p₁, p₂, hoccasion, hcurrent, -, -⟩ := h
  have h₁ := (asks_occasion? rule id force).ends.ok hoccasion
  rwa [h₁.graph.current?] at hcurrent

/-- The expression was placed at `result`, which has taken the place of the vertex `id`. -/
structure Replaced (p : Planner) (id : VertexId) (best : Node) (result : VertexId) (q : Planner) :
    Prop where
  settings : q.settings = p.settings
  program : q.program = p.program
  registry : q.registry = p.registry
  execution : q.execution = p.execution
  graph : ∃ g, Growth p.settings p.graph g ∧ Places p.settings g best result ∧
    (result = id ∧ q.graph = g ∨
      g.Merged p.settings.digestMode result id p.graph q.graph ∧ q.graph.isAcyclic = true)

/-- An operation was given up: the graph has grown, or a merge has closed a cycle, which was found. -/
structure Aborted (p : Planner) (f : Fault) (q : Planner) : Prop where
  settings : q.settings = p.settings
  program : q.program = p.program
  registry : q.registry = p.registry
  execution : q.execution = p.execution
  graph : Growth p.settings p.graph q.graph ∨ ∃ g preserved discarded,
    Growth p.settings p.graph g ∧
      g.Merged p.settings.digestMode preserved discarded p.graph q.graph ∧
        q.graph.isAcyclic = false ∧ f.reportsCycle = true

theorem Extended.aborted {f : Fault} (h : p.Extended q) : p.Aborted f q :=
  ⟨h.settings, h.program, h.registry, h.execution, .inl h.growth⟩

theorem Undisturbed.aborted_trans {f : Fault} (h : p.Undisturbed r) (h' : r.Aborted f q) :
    p.Aborted f q where
  settings := h'.settings.trans h.settings
  program := h'.program.trans h.program
  registry := h'.registry.trans h.registry
  execution := h'.execution.trans h.execution
  graph := by
    have hgraph := h'.graph
    rw [h.settings] at hgraph
    rcases hgraph with hg | ⟨g, preserved, discarded, hg, hm, hcheck⟩
    · exact .inl (h.extended.growth.trans hg)
    · exact .inr ⟨g, preserved, discarded, h.extended.growth.trans hg,
        hm.of_contains h.graph.contains, hcheck⟩

theorem Undisturbed.replaced_trans {best : Node} (h : p.Undisturbed r)
    (h' : r.Replaced id best result q) : p.Replaced id best result q where
  settings := h'.settings.trans h.settings
  program := h'.program.trans h.program
  registry := h'.registry.trans h.registry
  execution := h'.execution.trans h.execution
  graph := by
    obtain ⟨g, hg, hplaces, hm⟩ := h'.graph
    rw [h.settings] at hg hplaces hm
    exact ⟨g, h.extended.growth.trans hg, hplaces, hm.imp_right fun ⟨hm, hcheck⟩ =>
      ⟨hm.of_contains h.graph.contains, hcheck⟩⟩

theorem Replaced.consistent {best : Node} (hp : p.graph.Consistent p.settings.digestMode)
    (h : p.Replaced id best result q) : q.graph.Consistent q.settings.digestMode := by
  rw [h.settings]
  obtain ⟨g, hgrowth, -, ⟨-, heq⟩ | ⟨hm, hcheck⟩⟩ := h.graph
  · rw [heq]
    exact hgrowth.consistent hp
  · exact hm.consistent (hgrowth.consistent hp) hcheck

theorem Replaced.contains {best : Node} (hp : p.graph.Consistent p.settings.digestMode)
    (h : p.Replaced id best result q) : q.graph.contains result = true := by
  obtain ⟨g, hgrowth, hplaces, ⟨-, heq⟩ | ⟨hm, -⟩⟩ := h.graph
  · rw [heq]
    exact hplaces.contains
  · obtain ⟨_, _, -, -, hc⟩ := hm.contracted (hgrowth.consistent hp).toLinked
    obtain ⟨placeholder, hplaceholder⟩ := Linked.exists_placeholder hplaces.contains
    exact contains_of_placeholder ((hc.placeholders result).trans hplaceholder)

/-! ## Choosing -/

theorem ends_cheapest_go_mem (others : List Node) :
    ∀ best cost p, Ends (cheapest.go best cost others) p
      (fun result _ => result = best ∨ result ∈ others) fun _ _ => True := by
  induction others with
  | nil => exact fun best _ p => ends_pure.2 (.inl rfl)
  | cons node rest ih =>
    intro best cost p
    rw [cheapest.go]
    refine ends_bind.2 ((ends_self _ p).mono (fun c q _ => ?_) fun _ _ _ => trivial)
    refine ends_bind.2 (ends_get.2 ?_)
    split
    · refine (ih node c q).mono (fun result _ h => .inr ?_) fun _ _ h => h
      rcases h with rfl | h
      · exact List.mem_cons_self
      · exact List.mem_cons_of_mem _ h
    · exact (ih best cost q).mono (fun result _ h => h.imp_right (List.mem_cons_of_mem _))
        fun _ _ h => h

/-- The best expression is one of those proposed. -/
theorem ends_cheapest (first : Node) (others : List Node) (p : Planner) :
    Ends (cheapest first others) p (fun best q => best ∈ first :: others ∧ p.Undisturbed q)
      fun _ q => p.Undisturbed q := by
  have hmem : Ends (cheapest first others) p (fun best _ => best ∈ first :: others)
      fun _ _ => True := by
    unfold cheapest
    split
    · exact ends_pure.2 List.mem_cons_self
    · refine ends_bind.2 ((ends_self _ p).mono (fun c q _ => ?_) fun _ _ _ => trivial)
      exact (ends_cheapest_go_mem others first c q).mono (fun _ _ h => List.mem_cons.2 h)
        fun _ _ h => h
  exact (hmem.and (asks_cheapest first others).ends).mono (fun _ _ h => h) fun _ _ h => h.2

/-! ## Substituting -/

/-- What a substitution does that does not fail: one of the candidates is added, and found to be a
vertex from before that cannot take the place of the vertex, found to be the vertex itself, or put
in its place. -/
inductive Substituted (p : Planner) (id : VertexId) (candidates : List Node) :
    Option VertexId → Planner → Prop
  | circular {best : Node} {result : VertexId} {p₁ q : Planner} (hbest : best ∈ candidates)
      (h : p.Undisturbed p₁) (hadd : add best p₁ = .ok result q)
      (hlive : p.graph.contains result = true) : Substituted p id candidates none q
  | kept {best : Node} {p₁ p₂ q : Planner} (hbest : best ∈ candidates) (h : p.Undisturbed p₁)
      (hadd : add best p₁ = .ok id p₂) (hq : p₂.Reported q) :
      Substituted p id candidates (some id) q
  | merged {best : Node} {result : VertexId} {p₁ p₂ : Planner} {g : Graph} {events : Array Event}
      (hbest : best ∈ candidates) (h : p.Undisturbed p₁) (hadd : add best p₁ = .ok result p₂)
      (hne : result ≠ id) (hg : p₂.graph.Merged p.settings.digestMode result id p.graph g)
      (hcheck : g.isAcyclic = true) :
      Substituted p id candidates (some result)
        { p₂ with graph := g, transformations := p₂.transformations + 1, events }

/-- Redirecting parents to a vertex is reported and checked for cycles. -/
theorem ends_displace {node placeholder : Node} {parents : List VertexId}
    (hp : p.graph.Linked p.settings.digestMode) (hnode : p.graph.current? result = some node)
    (hr : p.graph.Redirectable result id placeholder parents) :
    let g := p.graph.merge p.settings.digestMode result id node placeholder parents
    Ends (do
        contract result id parents
        countTransformation
        log (.substituted rule.description id result)
        checkAcyclic (some rule.description)
        return some result) p
      (fun r q => r = some result ∧ g.isAcyclic = true ∧ ∃ events,
        q = { p with graph := g, transformations := p.transformations + 1, events })
      fun f q => (g.isAcyclic = false ∧ f.reportsCycle = true) ∧ ∃ events,
        q = { p with graph := g, transformations := p.transformations + 1, events } := by
  intro g
  apply (ends_contract hp hnode hr _).bind
  rintro _ _ ⟨events, rfl⟩
  refine ends_bind.2 (ends_modify.2 (ends_bind.2 ?_))
  refine (ends_log _ _ _).mono ?_ fun _ _ h => h
  rintro _ _ ⟨events', rfl⟩
  refine ends_bind.2 (ends_bind.2 (ends_get.2 ?_))
  split_ifs with hcheck
  · exact ends_structuralFault.2 ⟨⟨by simpa using hcheck, rfl⟩, events', rfl⟩
  · exact ends_pure.2 (ends_pure.2 ⟨rfl, by simpa using hcheck, events', rfl⟩)

/-- An expression that a vertex has already takes its place without a change. -/
theorem ends_substitute_same (parents : List VertexId) :
    Ends (do
        contract id id parents
        log (.substituted rule.description id id)
        checkAcyclic (some rule.description)
        return some id) p
      (fun r q => r = some id ∧ p.Reported q) fun _ q => p.Reported q := by
  unfold contract
  rw [if_pos rfl]
  refine ends_bind.2 (ends_pure.2 (ends_bind.2 ?_))
  refine (ends_log _ p _).mono ?_ fun _ _ h => h
  rintro _ _ ⟨events, rfl⟩
  refine ends_bind.2 (ends_bind.2 (ends_get.2 ?_))
  split_ifs
  · exact ends_structuralFault.2 ⟨events, rfl⟩
  · exact ends_pure.2 (ends_pure.2 ⟨rfl, events, rfl⟩)

/-- The ways in which one of several expressions takes the place of a vertex: it is added, and found to
be a parent, to be the vertex itself, or parents are redirected to it and a circle is looked for. -/
theorem ends_substitute_of {Q : Option VertexId → Planner → Prop} {E : Fault → Planner → Prop}
    (hp : p.graph.Consistent p.settings.digestMode) (hid : p.graph.contains id = true)
    (accepts : Node → Bool) (first : Node) (others : List Node)
    (hfault : ∀ f q, p.Extended q → E f q)
    (hadded : ∀ best p₁ result p₂, best ∈ first :: others → p.Undisturbed p₁ →
      add best p₁ = .ok result p₂ → p.Extended p₂ →
        let parents := (p₁.graph.parents id).filter fun i => (p₁.graph.current? i).any accepts
        (result ∈ parents → Q none p₂) ∧
        (result = id → ∀ q, p₂.Reported q → Q (some id) q) ∧
        ∀ node placeholder events, result ≠ id → p₂.graph.current? result = some node →
          p₂.graph.Redirectable result id placeholder parents →
          let g := p₂.graph.merge p₂.settings.digestMode result id node placeholder parents
          let q := { p₂ with graph := g, transformations := p₂.transformations + 1, events }
          (g.isAcyclic = true → Q (some result) q) ∧
            ∀ f : Fault, g.isAcyclic = false → f.reportsCycle = true → E f q) :
    Ends (substitute rule id accepts first others) p Q E := by
  refine ends_bind.2 ((ends_cheapest first others p).mono ?_ fun f q h => hfault f q h.extended)
  rintro best p₁ ⟨hbest, h₁⟩
  have hp₁ := h₁.extended.consistent hp
  refine ends_bind.2 (ends_get.2 ?_)
  refine ends_bind.2 (((ends_self _ p₁).and (ends_add best p₁ hp₁)).mono ?_
    fun f q h => hfault f q (h₁.extended.trans h.2))
  rintro result p₂ ⟨hadd, h₂, hplaces⟩
  have hp₂ := h₂.consistent hp₁
  have hall := h₁.extended.trans h₂
  obtain ⟨hcircular, hkept, hmerged⟩ := hadded best p₁ result p₂ hbest h₁ hadd hall
  split_ifs with hloop hne
  · exact ends_pure.2 (hcircular hloop)
  · obtain ⟨node, hnode⟩ := contains_iff_current.1 hplaces.contains
    obtain ⟨placeholder, hplaceholder⟩ := Linked.exists_placeholder hplaces.contains
    have hr := (h₂.graph hp₁).redirectable hp₁ (by rwa [h₁.graph.contains]) hplaceholder hne _ hloop
    refine (ends_displace hp₂.toLinked hnode hr).mono ?_ ?_
    · rintro _ _ ⟨rfl, hcheck, events, rfl⟩
      exact (hmerged node placeholder events hne hnode hr).1 hcheck
    · rintro f _ ⟨⟨hcheck, hf⟩, events, rfl⟩
      exact (hmerged node placeholder events hne hnode hr).2 f hcheck hf
  · -- the vertex has the best expression already
    obtain rfl : result = id := not_not.1 hne
    refine (ends_substitute_same _).mono ?_ ?_
    · rintro _ q ⟨rfl, hq⟩
      exact hkept rfl q hq
    · rintro f _ ⟨events, rfl⟩
      exact hfault f _ ⟨hall.settings, hall.program, hall.registry, hall.execution, hall.growth⟩

theorem ends_substitute (hp : p.graph.Consistent p.settings.digestMode)
    (hid : p.graph.contains id = true) (accepts : Node → Bool) (first : Node)
    (others : List Node) :
    Ends (substitute rule id accepts first others) p (p.Substituted id (first :: others))
      fun f q => p.Aborted f q := by
  refine ends_substitute_of hp hid accepts first others (fun _ _ h => h.aborted) ?_
  intro best p₁ result p₂ hbest h₁ hadd hall parents
  have hold : ∀ i ∈ parents, p.graph.contains i = true := by
    intro i hi
    rw [← h₁.graph.contains]
    exact ((h₁.extended.consistent hp).edges_live _
      (mem_parents.1 (List.mem_filter.1 hi).1)).1
  refine ⟨fun hloop => .circular hbest h₁ hadd (hold result hloop), ?_, ?_⟩
  · rintro rfl q hq
    exact .kept hbest h₁ hadd hq
  · intro node placeholder events hne hnode hr g q
    have hmerged : p₂.graph.Merged p₂.settings.digestMode result id p.graph g := .merge hnode hr hold
    rw [congrArg Settings.digestMode hall.settings] at hmerged
    refine ⟨fun hcheck => .merged hbest h₁ hadd hne hmerged hcheck, fun f hcheck hf => ?_⟩
    exact ⟨hall.settings, hall.program, hall.registry, hall.execution,
      .inr ⟨p₂.graph, result, id, hall.growth, hmerged, hcheck, hf⟩⟩

theorem Substituted.extended {candidates : List Node}
    (hp : p.graph.Consistent p.settings.digestMode) (h : p.Substituted id candidates none q) :
    p.Extended q := by
  obtain ⟨-, h₁, hadd, -⟩ := h
  have hp₁ := h₁.extended.consistent hp
  exact h₁.extended.trans ((ends_add _ _ hp₁).ok hadd).1

theorem Substituted.replaced {candidates : List Node}
    (hp : p.graph.Consistent p.settings.digestMode)
    (h : p.Substituted id candidates (some result) q) :
    ∃ best ∈ candidates, p.Replaced id best result q := by
  have hadded : ∀ {best : Node} {p₁ p₂ : Planner}, p.Undisturbed p₁ →
      add best p₁ = .ok result p₂ → p.Extended p₂ ∧ Places p.settings p₂.graph best result := by
    intro best p₁ p₂ h₁ hadd
    obtain ⟨h₂, hplaces⟩ := (ends_add best p₁ (h₁.extended.consistent hp)).ok hadd
    exact ⟨h₁.extended.trans h₂, h₁.settings ▸ hplaces⟩
  cases h with
  | @kept best p₁ p₂ _ hbest h₁ hadd hq =>
    obtain ⟨h₂, hplaces⟩ := hadded h₁ hadd
    obtain ⟨events, rfl⟩ := hq
    exact ⟨best, hbest, h₂.settings, h₂.program, h₂.registry, h₂.execution, p₂.graph, h₂.growth,
      hplaces, .inl ⟨rfl, rfl⟩⟩
  | @merged best _ p₁ p₂ g events hbest h₁ hadd hne hg hcheck =>
    obtain ⟨h₂, hplaces⟩ := hadded h₁ hadd
    exact ⟨best, hbest, h₂.settings, h₂.program, h₂.registry, h₂.execution, p₂.graph, h₂.growth,
      hplaces, .inr ⟨hg, hcheck⟩⟩

/-! ## Attempts -/

/-- What an attempt does that does not fail: nothing but asking, or a substitution by what the rule
proposes. -/
inductive Attempted (p : Planner) (rule : Rule) (id : VertexId) (force : Bool) :
    Option Replacement → Planner → Prop
  | idle {q : Planner} (h : p.Undisturbed q) : Attempted p rule id force none q
  | tried {node : Node} {proposed : List Node} {p₁ q : Planner} {result : Option VertexId}
      (hproposes : p.Proposes rule id force node proposed) (h : p.Undisturbed p₁)
      (hs : p₁.Substituted id proposed result q) :
      Attempted p rule id force (result.map fun result => ⟨node, result, proposed.length⟩) q

/-- The stages of a try: the rule has an occasion, its pattern matches, it proposes expressions, and one
of them takes the place of the vertex. -/
theorem ends_attempt_of {Q : Option Replacement → Planner → Prop} {E : Fault → Planner → Prop}
    (hgone : p.graph.contains id = false → Q none p)
    (hlive : ∀ node, p.graph.current? id = some node →
      Ends (occasion? rule id force) p (fun occasion q => match occasion with
        | none => Q none q
        | some occasion => q.graph.current? id = some node ∧
          match q.graph.bind rule.pattern node .empty with
          | .error f => E f q
          | .ok none => Q none q
          | .ok (some binding) =>
            Ends (fire rule node ⟨binding.rels, binding.inputs, occasion.parents⟩) q
              (fun proposed r => match proposed with
                | [] => Q none r
                | first :: others => Ends (substitute rule id occasion.accepts first others) r
                    (fun result s => Q (result.map (⟨node, ·, others.length + 1⟩)) s) E) E) E) :
    Ends (attempt rule id force) p Q E := by
  refine ends_bind.2 (ends_get.2 ?_)
  cases hid : p.graph.contains id with
  | false => exact ends_pure.2 (hgone hid)
  | true =>
    obtain ⟨node, hnode⟩ := contains_iff_current.1 hid
    refine ends_bind.2 ((hlive node hnode).mono ?_ fun _ _ h => h)
    rintro (_ | occasion) q h
    · exact ends_pure.2 h
    · obtain ⟨hnode', h⟩ := h
      refine ends_bind.2 (ends_bind.2 (ends_get.2 ?_))
      rw [hnode']
      refine ends_pure.2 (ends_bind.2 (ends_get.2 ?_))
      generalize q.graph.bind rule.pattern node .empty = binding at h ⊢
      rcases binding with f | _ | binding
      · exact ends_throw.2 h
      · exact ends_pure.2 h
      · refine ends_bind.2 (Ends.mono h ?_ fun _ _ h => h)
        rintro (_ | ⟨first, others⟩) r h
        · exact ends_pure.2 h
        · refine ends_bind.2 (Ends.mono h ?_ fun _ _ h => h)
          rintro (_ | result) s h
          · exact ends_pure.2 h
          · exact ends_pure.2 h

theorem ends_attempt_cases (hp : p.graph.Consistent p.settings.digestMode) (rule : Rule)
    (id : VertexId) (force : Bool) :
    Ends (attempt rule id force) p (p.Attempted rule id force) fun f q => p.Aborted f q := by
  refine ends_attempt_of (fun _ => .idle (.refl p)) fun node hnode => ?_
  refine ((ends_self _ p).and (asks_occasion? rule id force).ends).mono ?_
    fun _ _ h => h.2.extended.aborted
  rintro (_ | occasion) p₁ ⟨hoccasion, h₁⟩
  · exact .idle h₁
  have hnode₁ := (h₁.graph.current? id).trans hnode
  refine ⟨hnode₁, ?_⟩
  split
  · exact h₁.extended.aborted
  · exact .idle h₁
  · next binding hbinding =>
    refine ((ends_self _ p₁).and (asks_fire rule node _).ends).mono ?_
      fun _ _ h => (h₁.trans h.2).extended.aborted
    rintro (_ | ⟨first, others⟩) p₂ ⟨hfire, h₂⟩
    · exact .idle (h₁.trans h₂)
    have h := h₁.trans h₂
    refine (ends_substitute (h.extended.consistent hp)
      (by rw [h.graph.contains, contains_of_current hnode]) occasion.accepts first others).mono ?_
      fun _ _ => h.aborted_trans
    intro result q hq
    exact .tried ⟨occasion, binding, p₁, p₂, hoccasion, hnode₁, hbinding, hfire⟩ h hq

/-- A rule that is tried on a vertex replaces its expression by one that it proposes, or nothing is
replaced. -/
theorem ends_attempt (hp : p.graph.Consistent p.settings.digestMode) (rule : Rule) (id : VertexId)
    (force : Bool) :
    Ends (attempt rule id force) p
      (fun replacement q => match replacement with
        | none => p.Extended q
        | some replacement => ∃ proposed, p.Proposes rule id force replacement.before proposed ∧
            ∃ best ∈ proposed, p.Replaced id best replacement.result q)
      fun f q => p.Aborted f q := by
  refine (ends_attempt_cases hp rule id force).mono ?_ fun _ _ h => h
  intro replacement q hq
  cases hq with
  | idle h => exact h.extended
  | @tried node proposed p₁ _ result hproposes h hs =>
    have hp₁ := h.extended.consistent hp
    cases result with
    | none => exact h.extended.trans (hs.extended hp₁)
    | some result =>
      obtain ⟨best, hbest, hreplaced⟩ := hs.replaced hp₁
      exact ⟨proposed, hproposes, best, hbest, h.replaced_trans hreplaced⟩

/-! ## Reports -/

/-- Reporting a firing shows its costs and sweeps. It fails only if the result is gone. -/
theorem ends_reportProduction (rule : Rule) (replacement : Replacement) (p : Planner) :
    Ends (reportProduction rule replacement) p
      (fun _ q => p.Undisturbed q ∨ ∃ r, p.Undisturbed r ∧ r.Swept q)
      fun _ q => p.Undisturbed q ∧ p.graph.contains replacement.result = false := by
  refine ends_bind.2 (ends_get.2 ?_)
  split_ifs
  · refine ends_bind.2 (ends_bind.2 (ends_get.2 ?_))
    cases hafter : p.graph.current? replacement.result with
    | none =>
      refine ends_structuralFault.2 ⟨.refl p, ?_⟩
      rw [← Bool.not_eq_true, contains_iff_current]
      simp [hafter]
    | some after =>
      refine ends_pure.2 (ends_bind.2 (ends_get.2 ?_))
      refine ends_bind.2 (ends_onGraph.2 (ends_bind.2 (ends_onGraph.2 (ends_bind.2 ?_))))
      have h₁ := undisturbed_cumulativeCost replacement.before p
      have h₂ := h₁.trans (undisturbed_cumulativeCost after _)
      refine ends_modify.2 ((ends_collectGarbage _ _).mono (fun _ q hq => .inr ⟨_, ?_, hq⟩)
        fun _ _ h => h)
      exact h₂.trans (Reported.undisturbed ⟨_, rfl⟩)
  · exact ends_pure.2 (.inl (.refl p))

end Planner

end QueryPlanner
