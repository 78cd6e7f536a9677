import QueryPlanner.Proofs.Conversion.Consumers
import QueryPlanner.Proofs.Planner.Collection
import QueryPlanner.Proofs.Planner.Reporting
import QueryPlanner.Proofs.Planner.Selection

/-!
# Costs that are reported

What an expression costs depends on what is below it. A firing changes nothing below the vertex that it
rewrites, or it would have closed a cycle, so the old expression costs in the end what it cost before.
A sweep changes nothing below a vertex that it keeps. It keeps the result of a firing if there was no
garbage before, for whoever was made to refer to the result can be reached from the root.
-/

namespace QueryPlanner

open QueryPlanner.Graph Planning Relation

namespace Graph

variable {mode : DigestMode} {model : CostModel} {g g' : Graph} {id : VertexId} {node held : Node}

/-- Estimates of a vertex depend on the expressions below it alone. -/
theorem Linked.plainCost_below (hg : g.Linked mode) (hid : g.contains id = true)
    (hsame : ∀ j, ReflTransGen g.Edge id j → g'.current? j = g.current? j)
    (hnode : node.vertexId? = some id) (n : Nat) :
    g'.plainCost model n node = g.plainCost model n node := by
  refine (plain_agree (S := ReflTransGen g.Edge id) ?_ model n node (.inl ⟨id, hnode, .refl⟩)).2
  intro j hj
  obtain ⟨held, hheld⟩ := contains_iff_current.1 (hg.contains_of_reachable hj hid)
  refine ⟨held, hheld, (hsame j hj).trans hheld, fun input hinput => ?_⟩
  obtain ⟨k, hk, hedge⟩ := hg.exists_edge_of_input hheld hinput
  exact ⟨k, hk, hj.tail hedge⟩

/-- A vertex costs what its expression costs. -/
theorem Linked.plainCost_current (hg : g.Linked mode) (hheld : g.current? id = some held)
    (hnode : node.vertexId? = some id) (n : Nat) :
    g.plainCost model n held = g.plainCost model n node := by
  cases n with
  | zero => rfl
  | succ n =>
    rw [plainCost, plainCost, resolve_of_vertexId? hnode hheld,
      resolve_operator (hg.currents id held hheld).isOperator]

theorem mem_garbage {root : VertexId} (hroot : g.contains root = true) :
    id ∈ g.garbage root ↔ g.contains id = true ∧ ¬ ReflTransGen g.Edge root id := by
  rw [garbage, List.mem_filter, mem_vertexIds, decide_eq_true_eq, mem_reachableFrom_iff hroot]

/-- A sweep changes no expression below a vertex that it keeps. -/
theorem Sweep.current?_below (hg : g.Linked mode) (h : g.Sweep g') (hid : g'.contains id = true)
    {j : VertexId} (hj : ReflTransGen g.Edge id j) : g'.current? j = g.current? j := by
  obtain ⟨root, hroot, hlive, hd⟩ := h.discarded hg
  have hkept : id ∉ g.garbage root := by
    intro hgarbage
    rw [contains, hd.vertex, if_pos hgarbage] at hid
    cases hid
  have hkeptj : j ∉ g.garbage root := by
    induction hj with
    | refl => exact hkept
    | tail _ hedge ih =>
      exact fun hgarbage => ih ((discardable_unreachable hg hroot hlive).notReferenced _ _ hedge
        hgarbage)
  rw [hd.current?, if_neg hkeptj]

/-- A sweep keeps what can be reached from the root. -/
theorem Sweep.contains_of_reached (hg : g.Linked mode) (h : g.Sweep g')
    (hid : g.contains id = true)
    (hreached : ∀ root, g.root = some root → ReflTransGen g.Edge root id) :
    g'.contains id = true := by
  obtain ⟨root, hroot, hlive, hd⟩ := h.discarded hg
  rw [contains, hd.vertex, if_neg fun hgarbage => ((mem_garbage hlive).1 hgarbage).2
    (hreached root hroot), ← contains, hid]

end Graph

namespace Planner

variable {p q r : Planner} {rule : Rule} {id result : VertexId} {force : Bool} {node : Node}

/-- What an expression costs in a state. -/
def price (p : Planner) (node : Node) : Cost :=
  (cumulativeCost p.settings.model node p.graph).1

namespace Exact

theorem hasCost_price (hp : p.Exact) (node : Node) :
    p.graph.HasCost p.settings.model node (p.price node) := by
  obtain ⟨n, rows, cost, -, hcost⟩ := hp.consistent.exists_estimates p.settings.model node
  have hfound := finds_cumulativeCost hp.consistent ⟨n, hcost⟩ p.graph (.refl _) hp.caches
  rw [price, hfound.1]
  exact ⟨n, hcost⟩

/-- Expressions that cost the same without a cache cost the same. -/
theorem price_congr (hp : p.Exact) (hq : q.Exact) (hsettings : q.settings = p.settings)
    {node' : Node} (h : ∀ n, q.graph.plainCost p.settings.model n node' =
      p.graph.plainCost p.settings.model n node) : q.price node' = p.price node := by
  obtain ⟨n, hn⟩ := hq.hasCost_price node'
  rw [hsettings, h] at hn
  exact (hp.hasCost_price node).eq hn

theorem price_current (hp : p.Exact) {held : Node} (hheld : p.graph.current? id = some held)
    (hnode : node.vertexId? = some id) : p.price held = p.price node :=
  hp.price_congr hp rfl (hp.consistent.toLinked.plainCost_current hheld hnode)

theorem price_below (hp : p.Exact) (hq : q.Exact) (hsettings : q.settings = p.settings)
    (hid : p.graph.contains id = true)
    (hsame : ∀ j, ReflTransGen p.graph.Edge id j → q.graph.current? j = p.graph.current? j)
    (hnode : node.vertexId? = some id) : q.price node = p.price node :=
  hp.price_congr hq hsettings (hp.consistent.toLinked.plainCost_below hid hsame hnode)

end Exact

theorem Undisturbed.price (h : p.Undisturbed q) (hp : p.Exact) (node : Node) :
    q.price node = p.price node :=
  hp.price_congr (h.exact hp) h.settings fun n => by rw [h.graph.plainCost]

/-! ## Below the rewritten vertex -/

/-- Nothing changes below a vertex that is rewritten: a parent of it that is below it would be on a
cycle. -/
theorem Replaced.current?_below {best : Node} (hp : p.graph.Consistent p.settings.digestMode)
    (h : p.Replaced id best result q) (hid : p.graph.contains id = true) {j : VertexId}
    (hj : ReflTransGen p.graph.Edge id j) : q.graph.current? j = p.graph.current? j := by
  obtain ⟨g, hgrowth, -, hg⟩ := h.graph
  have hext := hgrowth.extends hp
  have hgrown := hext.current? (hp.toLinked.contains_of_reachable hj hid)
  rcases hg with ⟨-, heq⟩ | ⟨hm, -⟩
  · rw [heq, hgrown]
  · obtain ⟨placeholder, parents, hold, hr, hc⟩ := hm.contracted (hgrowth.consistent hp).toLinked
    rw [hc.current, if_neg, hgrown]
    intro hparent
    exact hp.acyclic id (.tail' hj ((hext.edge j id (hold j hparent)).1 (hr.edge j hparent)))

/-- What a firing replaces costs afterwards what the vertex cost before. -/
theorem Replaced.price_before {best before : Node} (hp : p.Exact) (h : p.Replaced id best result r)
    (hbefore : p.graph.current? id = some before) (hnode : node.vertexId? = some id) :
    r.price before = p.price node := by
  have hid := contains_of_current hbefore
  have hsame := fun j => h.current?_below hp.consistent hid (j := j)
  have hr := h.exact hp
  rw [hr.price_current ((hsame id .refl).trans hbefore) hnode]
  exact hp.price_below hr h.settings hid hsame hnode

/-! ## Survival -/

/-- A vertex is at the root, or somebody refers to it. -/
def Held (p : Planner) (id : VertexId) : Prop := p.graph.root = some id ∨ ∃ i, p.graph.Edge i id

/-- Where there is no garbage every vertex is held. -/
theorem held_of_spanned (hroot : ∃ root, p.graph.root = some root) (h : p.graph.Spanned)
    (hid : p.graph.contains id = true) : p.Held id := by
  obtain ⟨root, hroot⟩ := hroot
  rcases ReflTransGen.cases_tail (h root hroot id hid) with rfl | ⟨i, -, hi⟩
  · exact .inl hroot
  · exact .inr ⟨i, hi⟩

/-- The vertex is at the root, or somebody who has referred to it was made to refer to `result`. -/
def Inherits (p : Planner) (id result : VertexId) (q : Planner) : Prop :=
  p.graph.root = some id ∨ ∃ i, p.graph.Edge i id ∧ q.graph.Edge i result

/-- The occasion of a rule at a vertex that is held is accepted by one of those who hold it. -/
theorem ends_occasion?_accepted (hp : p.graph.Consistent p.settings.digestMode) (hheld : p.Held id)
    (rule : Rule) (force : Bool) (E : Fault → Planner → Prop) :
    Ends (occasion? rule id force) p (fun occasion q => q = p ∧ ∀ o, occasion = some o →
      p.graph.root = some id ∨ ∃ i n, p.graph.Edge i id ∧ p.graph.current? i = some n ∧
        o.accepts n = true) E := by
  have hall : p.graph.root = some id ∨ ∃ i n, p.graph.Edge i id ∧ p.graph.current? i = some n := by
    refine hheld.imp_right fun ⟨i, hi⟩ => ?_
    obtain ⟨n, hn⟩ := contains_iff_current.1 (hp.edges_live _ hi).1
    exact ⟨i, n, hi, hn⟩
  have heverybody : ∀ {parents : Option (List Node)} {o : Occasion},
      some ⟨fun _ => true, parents⟩ = some o → p.graph.root = some id ∨
        ∃ i n, p.graph.Edge i id ∧ p.graph.current? i = some n ∧ o.accepts n = true := by
    rintro parents _ ⟨⟩
    exact hall.imp_right fun ⟨i, n, hi, hn⟩ => ⟨i, n, hi, hn, rfl⟩
  unfold occasion?
  split
  · next c _ _ =>
    split_ifs
    · refine ends_bind.2 ((ends_isWanted E).mono ?_ fun _ _ h => h)
      rintro wanted _ ⟨rfl, hwanted⟩
      cases wanted with
      | false => exact ends_pure.2 ⟨rfl, by simp⟩
      | true =>
        refine ends_pure.2 ⟨rfl, ?_⟩
        rintro _ ⟨⟩
        rcases hwanted.1 rfl with ⟨i, n, hi, hn, hconverter⟩ | ⟨hroot, -⟩
        · exact .inr ⟨i, n, hi, hn, Conversion.wantedBy_iff.2 hconverter⟩
        · exact .inl hroot
    · exact ends_pure.2 ⟨rfl, fun _ => heverybody⟩
  · refine ends_bind.2 (ends_get.2 ?_)
    simp only
    split_ifs
    · exact ends_pure.2 ⟨rfl, by simp⟩
    · exact ends_pure.2 ⟨rfl, fun _ => heverybody⟩
  · exact ends_pure.2 ⟨rfl, fun _ => heverybody⟩

/-- Who held a rewritten vertex and accepts the result comes to refer to it. -/
theorem ends_substitute_inherits (hp : p.graph.Consistent p.settings.digestMode)
    (hid : p.graph.contains id = true) {accepts : Node → Bool}
    (haccepts : p.graph.root = some id ∨ ∃ i n, p.graph.Edge i id ∧ p.graph.current? i = some n ∧
      accepts n = true) (first : Node) (others : List Node) :
    Ends (substitute rule id accepts first others) p
      (fun result q => ∀ i, result = some i → i ≠ id → p.Inherits id i q) fun _ _ => True := by
  refine ends_substitute_of hp hid accepts first others (fun _ _ _ => trivial) ?_
  intro best p₁ result p₂ _ h₁ _ hall parents
  refine ⟨?_, ?_, ?_⟩
  · rintro - _ ⟨⟩
  · rintro rfl q - _ ⟨⟩ hne
    exact absurd rfl hne
  · intro node placeholder events hne hnode hr g q
    refine ⟨?_, fun _ _ _ => trivial⟩
    rintro - _ ⟨⟩ -
    refine haccepts.imp_right ?_
    rintro ⟨i, n, hi, hn, haccepts⟩
    have hlinked := (hall.consistent hp).toLinked
    have hc := contracted_merge hlinked hnode hr
    have hmem : i ∈ parents := by
      rw [List.mem_filter, mem_parents, h₁.graph.edges, h₁.graph.current?, hn]
      exact ⟨hi, haccepts⟩
    -- the parent has a reference to the vertex that is replaced by one to the result
    obtain ⟨m, hm, href⟩ := (hlinked.edges i id).1 (hr.edge i hmem)
    refine ⟨i, hi, (hc.linked.edges i result).2 ⟨m.redirect id placeholder, ?_, ?_⟩⟩
    · rw [hc.current, if_pos hmem, hm, Option.map_some]
    · exact (Node.mem_references_redirect (hlinked.vertexId?_placeholder hr.placeholder_eq)).2
        (.inl ⟨rfl, href⟩)

theorem ends_attempt_inherits (hp : p.graph.Consistent p.settings.digestMode) (hheld : p.Held id)
    (rule : Rule) (force : Bool) :
    Ends (attempt rule id force) p
      (fun replacement q => ∀ x, replacement = some x → x.result ≠ id → p.Inherits id x.result q)
      fun _ _ => True := by
  refine ends_attempt_of (fun _ _ h => by cases h) fun node hnode => ?_
  refine (ends_occasion?_accepted hp hheld rule force _).mono ?_ fun _ _ h => h
  rintro (_ | occasion) _ ⟨rfl, haccepts⟩
  · exact fun _ h => by cases h
  refine ⟨hnode, ?_⟩
  split
  · trivial
  · exact fun _ h => by cases h
  refine (asks_fire rule node _).ends.mono ?_ fun _ _ _ => trivial
  rintro (_ | ⟨first, others⟩) q hq
  · exact fun _ h => by cases h
  have haccepts := haccepts occasion rfl
  simp only [← hq.graph.root, Edge, ← hq.graph.edges, ← hq.graph.current?] at haccepts
  refine (ends_substitute_inherits (hq.extended.consistent hp)
    (by rw [hq.graph.contains, contains_of_current hnode]) haccepts first others).mono ?_
    fun _ _ h => h
  rintro result s hs x hx hne
  obtain ⟨i, rfl, rfl⟩ := Option.map_eq_some_iff.1 hx
  have hinherits := hs i rfl hne
  simp only [Inherits, hq.graph.root, Edge, hq.graph.edges] at hinherits
  exact hinherits

/-- The result of a firing can be reached from the root if somebody who can be reached, or the root
itself, inherits it: the way to the parent does not lead through the vertex that is rewritten. -/
theorem Replaced.reached {best : Node} (hp : p.graph.Consistent p.settings.digestMode)
    (h : p.Replaced id best result q) (hid : p.graph.contains id = true) (hspanned : p.graph.Spanned)
    (hinherits : result ≠ id → p.Inherits id result q) {root : VertexId}
    (hroot : q.graph.root = some root) : ReflTransGen q.graph.Edge root result := by
  obtain ⟨g, hgrowth, -, hg⟩ := h.graph
  have hext := hgrowth.extends hp
  have hedges : ∀ a b, p.graph.Edge a b → g.Edge a b := fun a b hab =>
    (hext.edge a b (hp.edges_live _ hab).1).2 hab
  rcases hg with ⟨rfl, heq⟩ | ⟨hm, -⟩
  · rw [heq, hext.root] at hroot
    rw [heq]
    exact ReflTransGen.mono hedges _ _ (hspanned root hroot result hid)
  · obtain ⟨placeholder, parents, hold, hr, hc⟩ := hm.contracted (hgrowth.consistent hp).toLinked
    rw [hc.root, hext.root] at hroot
    split_ifs at hroot with hdiscarded
    · cases hroot
      exact .refl
    · obtain ⟨i, hi, hinherited⟩ := (hinherits hr.ne).resolve_left hdiscarded
      have hkept : ∀ {a b}, p.graph.Edge a b → b ≠ id → q.graph.Edge a b := by
        intro a b hab hne
        obtain ⟨m, hm, hb⟩ := ((hgrowth.consistent hp).edges a b).1 (hedges a b hab)
        refine (hc.linked.edges a b).2 ?_
        by_cases ha : a ∈ parents
        · refine ⟨m.redirect id placeholder, by rw [hc.current, if_pos ha, hm, Option.map_some], ?_⟩
          exact (Node.mem_references_redirect ((hgrowth.consistent hp).vertexId?_placeholder
            hr.placeholder_eq)).2 (.inr ⟨hb, hne⟩)
        · exact ⟨m, by rw [hc.current, if_neg ha, hm], hb⟩
      -- a way to the parent through the vertex would lead back to the vertex
      have hway : ∀ a, ReflTransGen p.graph.Edge a i → ReflTransGen q.graph.Edge a i := by
        intro a ha
        induction ha using ReflTransGen.head_induction_on with
        | refl => exact .refl
        | head hab hb ih =>
          refine .head (hkept hab ?_) ih
          rintro rfl
          exact hp.acyclic _ (.tail' hb hi)
      exact .tail (hway root (hspanned root hroot i (hp.edges_live _ hi).1)) hinherited

/-! ## Reports -/

/-- Looking for garbage adds to the reports. -/
theorem ends_collectGarbage_events (p : Planner) (E : Fault → Planner → Prop) :
    Ends collectGarbage p (fun _ q => ∃ later, q.events = p.events ++ later) E := by
  have hfollowing := oblivious_collectGarbage p.events { p with events := #[] }
  have hp : following p.events { p with events := #[] } = p := by
    simp [following]
  rw [hp] at hfollowing
  refine ((ends_collectGarbage p E).and (ends_self collectGarbage p)).mono ?_ fun _ _ h => h.1
  rintro _ q ⟨-, hq⟩
  rw [hfollowing] at hq
  cases hend : collectGarbage { p with events := #[] } with
  | error f r =>
    rw [hend] at hq
    cases hq
  | ok a r =>
    rw [hend] at hq
    cases hq
    exact ⟨r.events, rfl⟩

/-- A report of a firing at a vertex that has led from `p` to `r`: it names the rule, the expression
that was rewritten and the one that has taken its place, and tells what the first cost before and
what the other one costs after it. -/
structure Truthful (p r : Planner) (rule : Rule) (id : VertexId) (replacement : Replacement)
    (production : Production) : Prop where
  rule : production.rule = rule.description
  candidates : production.candidates = replacement.candidates
  before : p.graph.current? id = some replacement.before ∧
    production.before = replacement.before.digest .full
  after : ∃ n, r.graph.current? replacement.result = some n ∧ production.after = n.digest .full
  beforeCost : ∀ node, node.vertexId? = some id → production.beforeCost = p.price node
  afterCost : ∀ node, node.vertexId? = some replacement.result →
    production.afterCost = r.price node

/-- What is reported of a firing, before garbage is looked for. -/
theorem ends_reportProduction_truthful {replacement : Replacement} {best : Node} (hp : p.Exact)
    (hbefore : p.graph.current? id = some replacement.before)
    (h : p.Replaced id best replacement.result r) (hobserved : r.settings.observed = true)
    (rule : Rule) (E : Fault → Planner → Prop) :
    Ends (reportProduction rule replacement) r (fun _ q => ∃ production r' later,
      p.Truthful r rule id replacement production ∧ r.Undisturbed r' ∧ r'.Swept q ∧
        q.events = r.events.push (.produced production) ++ later) E := by
  obtain ⟨after, hafter⟩ := contains_iff_current.1 (h.contains hp.consistent)
  have hr := h.exact hp
  have h₁ := undisturbed_cumulativeCost replacement.before r
  have h₂ := h₁.trans (undisturbed_cumulativeCost after _)
  refine ends_bind.2 (ends_get.2 ?_)
  rw [if_pos hobserved]
  refine ends_bind.2 (ends_bind.2 (ends_get.2 ?_))
  rw [hafter]
  refine ends_pure.2 (ends_bind.2 (ends_get.2 ?_))
  refine ends_bind.2 (ends_onGraph.2 (ends_bind.2 (ends_onGraph.2 (ends_bind.2 ?_))))
  refine ends_modify.2 (((ends_collectGarbage _ E).and (ends_collectGarbage_events _ E)).mono ?_
    fun _ _ h => h.1)
  rintro _ q ⟨hswept, later, hevents⟩
  refine ⟨_, _, later, ⟨rfl, rfl, ⟨hbefore, rfl⟩, ⟨after, hafter, rfl⟩, fun node hnode => ?_,
    fun node hnode => ?_⟩, h₂.trans (Reported.undisturbed ⟨_, rfl⟩), hswept, hevents⟩
  · exact h.price_before hp hbefore hnode
  · exact (h₁.price hr after).trans (hr.price_current hafter hnode)

/-- A report of a firing tells the truth about costs: that of the rewritten vertex is what it was just
before, and that of the result is what it is when the rule has fired. It is still so after the sweep
that follows if the result was kept, and it was kept if there was no garbage before. -/
theorem reported_costs (hp : p.Exact) (hobserved : p.settings.observed = true)
    (h : apply rule id force p = .ok (some result) q) :
    ∃ replacement r production later, attempt rule id force p = .ok (some replacement) r ∧
      replacement.result = result ∧ q.events = r.events.push (.produced production) ++ later ∧
      p.Truthful r rule id replacement production ∧
      (q.graph.contains result = true → ∀ node, node.vertexId? = some result →
        production.afterCost = q.price node) ∧
      ((∃ root, p.graph.root = some root) → p.graph.Spanned → q.graph.contains result = true) := by
  obtain ⟨replacement, r, hattempt, h⟩ := bind_eq_ok.1 h
  cases replacement with
  | none => cases h
  | some replacement =>
    obtain ⟨_, _, hreport, h⟩ := bind_eq_ok.1 h
    cases h
    obtain ⟨proposed, hproposes, best, -, hreplaced⟩ := (ends_attempt hp.consistent rule id force).ok
      hattempt
    have hbefore := hproposes.current
    have hid := contains_of_current hbefore
    have hr := hreplaced.exact hp
    obtain ⟨production, r', later, htruthful, hundisturbed, hswept, hevents⟩ :=
      (ends_reportProduction_truthful hp hbefore hreplaced (by rw [hreplaced.settings, hobserved])
        rule fun _ _ => True).ok hreport
    have hr' := hundisturbed.exact hr
    have hlive := hreplaced.contains hp.consistent
    have hlive' : r'.graph.contains replacement.result = true := by rwa [hundisturbed.graph.contains]
    refine ⟨replacement, r, production, later, hattempt, rfl, hevents, htruthful, ?_, ?_⟩
    · intro hkept node hnode
      rw [htruthful.afterCost node hnode, ← hundisturbed.price hr node]
      refine (hr'.price_below (hswept.exact hr') hswept.settings hlive' (fun j hj => ?_) hnode).symm
      rcases hswept.graph with heq | hsweep
      · rw [heq]
      · exact hsweep.current?_below hr'.consistent.toLinked hkept hj
    · intro hroot hspanned
      rcases hswept.graph with heq | hsweep
      · rwa [heq]
      · refine hsweep.contains_of_reached hr'.consistent.toLinked hlive' fun root hroot' => ?_
        rw [hundisturbed.graph.root] at hroot'
        have hinherits := (ends_attempt_inherits hp.consistent (held_of_spanned hroot hspanned hid) rule
          force).ok hattempt replacement rfl
        have hreached := hreplaced.reached hp.consistent hid hspanned hinherits hroot'
        have hedge : r'.graph.Edge = r.graph.Edge := by
          funext a b
          rw [Edge, Edge, hundisturbed.graph.edges]
        exact hedge ▸ hreached

/-- A planner that is observed, with a limit on a limit. -/
def watchedLimits : Planner :=
  left (build { Settings.default with observed := true } ⟨[]⟩ [] stackedLimits)

theorem driven_watchedLimits : Driven watchedLimits := by
  have hbuild : succeeded (build { Settings.default with observed := true } ⟨[]⟩ []
      stackedLimits) = true := by decide +kernel
  exact .built (eq_ok_of_succeeded hbuild)

theorem reported_costs_watchedLimits : ∃ replacement r production later,
    attempt Rule.removeLimit 2 true watchedLimits = .ok (some replacement) r ∧
      replacement.result = 1 ∧
      (left (apply Rule.removeLimit 2 true watchedLimits)).events =
        r.events.push (.produced production) ++ later ∧
      watchedLimits.Truthful r Rule.removeLimit 2 replacement production ∧
      ∀ node, node.vertexId? = some 1 → production.afterCost =
        (left (apply Rule.removeLimit 2 true watchedLimits)).price node := by
  have hfires : yields (· = some 1) (apply Rule.removeLimit 2 true watchedLimits) = true := by
    decide +kernel
  obtain ⟨result, hok, rfl⟩ := exists_ok_of_yields hfires
  obtain ⟨replacement, r, production, later, hattempt, hresult, hevents, htruthful, hafter, -⟩ :=
    reported_costs driven_watchedLimits.exact (by decide +kernel) hok
  exact ⟨replacement, r, production, later, hattempt, hresult, hevents, htruthful,
    hafter (by decide +kernel)⟩

/-- The costs of the results that were reported. -/
def afterCosts (p : Planner) : List Cost :=
  p.events.toList.filterMap fun
    | .produced production => some production.afterCost
    | _ => none

/-- After a sweep the plan is replaced by what is below its limits, which no transformation counts. -/
def uncoveredWatched : Planner :=
  left (setRoot (.placeholder 0 .default .empty) (left (collectGarbage watchedLimits)))

/-- The limits are garbage then. Merging them is reported, but the sweep removes the result. -/
theorem not_reported_costs_uncoveredWatched : ¬ ∀ (p q : Planner) (rule : Rule) (id : VertexId)
    (force : Bool) (result : VertexId), Driven p → p.settings.observed = true →
      apply rule id force p = .ok (some result) q →
        ∃ production, Event.produced production ∈ q.events.toList ∧
          ∀ node, node.vertexId? = some result → production.afterCost = q.price node := by
  intro h
  have huncovered : Driven uncoveredWatched :=
    .rooted (.collected driven_watchedLimits (eq_ok_of_succeeded (by decide +kernel)))
      (eq_ok_of_succeeded (by decide +kernel))
  have hfires : yields (· = some 1) (apply Rule.removeLimit 2 true uncoveredWatched) = true := by
    decide +kernel
  obtain ⟨result, hok, rfl⟩ := exists_ok_of_yields hfires
  obtain ⟨production, hmem, hcost⟩ := h _ _ _ _ _ _ huncovered (by decide +kernel) hok
  have hcosts : ∀ c ∈ (left (apply Rule.removeLimit 2 true uncoveredWatched)).afterCosts,
      c ≠ (left (apply Rule.removeLimit 2 true uncoveredWatched)).price
        (.placeholder 1 .default .empty) := by
    decide +kernel
  refine hcosts production.afterCost ?_ (hcost _ rfl)
  exact List.mem_filterMap.2 ⟨_, hmem, rfl⟩

end Planner

end QueryPlanner
