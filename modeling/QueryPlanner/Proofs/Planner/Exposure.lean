import QueryPlanner.Proofs.Node.Tree
import QueryPlanner.Proofs.Planner.Alignment
import QueryPlanner.Proofs.Simplification.Proposals

/-!
# Expressions that nothing refers to

A vertex gets the key of another one only where its parents are redirected. So the vertices stay apart
if nothing refers to the expressions that are replaced. This is seen from the rules and the plan: the
kinds of the expressions that the rules match are not those of inputs, neither in the plan nor in
what the rules propose.
-/

namespace QueryPlanner

open QueryPlanner.Graph Planning

variable {kinds : List OperatorKind}

/-- A plan without placeholders in which no input is of the kinds. -/
def Node.Exposes (kinds : List OperatorKind) (n : Node) : Prop :=
  n.Everywhere fun m => m.vertexId? = none ∧ ∀ i ∈ m.inputs, i.kind ∉ kinds

namespace Graph

variable {mode : DigestMode} {s : Settings} {g g' : Graph} {node : Node} {id : VertexId}

/-- No expression refers to a vertex of the kinds. -/
def Exposes (kinds : List OperatorKind) (g : Graph) : Prop :=
  ∀ i n, g.current? i = some n → ∀ j ∈ n.references, ∀ m, g.current? j = some m → m.kind ∉ kinds

theorem exposes_empty : empty.Exposes kinds := by simp [Exposes, empty, current?, vertex?]

theorem Exposes.of_current (h : g.Exposes kinds)
    (hcurrent : ∀ i n, g'.current? i = some n → g.current? i = some n) : g'.Exposes kinds :=
  fun i n hn j hj m hm => h i n (hcurrent i n hn) j hj m (hcurrent j m hm)

theorem Inserted.exposes {key : DigestKey} (hg : g.Linked mode) (hins : Inserted g node key id g')
    (h : g.Exposes kinds) (hover : g.OverVertices node)
    (hn : ∀ j ∈ node.references, ∀ m, g.current? j = some m → m.kind ∉ kinds) :
    g'.Exposes kinds := by
  -- what is referred to was in the graph before
  have hold : ∀ {n : Node} {j m}, g.OverVertices n → j ∈ n.references → g'.current? j = some m →
      g.current? j = some m := by
    intro n j m hn hj hm
    rwa [hins.current?, if_neg (hins.ne_of_contains hg.free (hg.contains_of_reference hn hj))] at hm
  intro i n hi j hj m hm
  rw [hins.current?] at hi
  split_ifs at hi
  · cases hi
    exact hn j hj m (hold hover hj hm)
  · exact h i n hi j hj m (hold (hg.currents i n hi) hj hm)

/-- An expression is placed at a vertex of its kind. -/
theorem Places.exists_kind (hg : g.Linked s.digestMode) (hn : node.vertexId? = none)
    (h : Places s g node id) : ∃ m, g.current? id = some m ∧ m.kind = node.kind := by
  obtain ⟨op, inputs, traits, rowType⟩ := node
  have hop := Node.vertexId?_eq_none.1 hn
  obtain ⟨placeholders, -, m, hm, hkey, -⟩ := (places_operator hop).1 h
  have hdigest := congrArg DigestKey.digest hkey
  have hnone : Node.vertexId? ⟨op, placeholders, traits, rowType⟩ = none :=
    Node.vertexId?_eq_none.2 hop
  simp only [Node.key] at hdigest
  rw [Node.digest_eq_render (hg.currents id m hm).isOperator,
    Node.digest_eq_render hnone] at hdigest
  exact ⟨m, hm, Node.kind_eq_of_render_eq hdigest⟩

theorem PlacesAll.exposes (hg : g.Linked s.digestMode) : ∀ {ns placeholders : List Node},
    PlacesAll s g ns placeholders → (∀ n ∈ ns, n.vertexId? = none ∧ n.kind ∉ kinds) →
      ∀ i ∈ placeholders, ∀ j, i.vertexId? = some j → ∀ m, g.current? j = some m → m.kind ∉ kinds
  | [], _, h, _ => by
    rw [PlacesAll] at h
    simp [h]
  | n :: ns, _, h, hns => by
    rw [PlacesAll] at h
    rw [List.forall_mem_cons] at hns
    obtain ⟨id, placeholder, rest, rfl, hplaces, hplaceholder, hall⟩ := h
    rw [List.forall_mem_cons]
    refine ⟨fun j hj m hm => ?_, PlacesAll.exposes hg hall hns.2⟩
    rw [hg.vertexId?_placeholder hplaceholder, Option.some.injEq] at hj
    obtain ⟨held, hheld, hkind⟩ := hplaces.exists_kind hg hns.1.1
    rw [← hj, hheld, Option.some.injEq] at hm
    rw [← hm, hkind]
    exact hns.1.2

end Graph

/-- The rule replaces expressions of the kinds by plans in which no input is of the kinds. -/
def Rule.Replaces (kinds : List OperatorKind) (rule : Rule) : Prop :=
  ∀ (p : Planner) (id : VertexId) (force : Bool) (node : Node) (proposed : List Node),
    p.Proposes rule id force node proposed → node.kind ∈ kinds ∧ ∀ n ∈ proposed, n.Exposes kinds

namespace Planner

variable {p q : Planner} {A : Rule → Prop} {id : VertexId} {node : Node}

/-- Vertices are shared, every one is found by its key, and none of the kinds is referred to. -/
structure Exposed (kinds : List OperatorKind) (p : Planner) : Prop where
  consistent : p.graph.Consistent p.settings.digestMode
  shares : p.settings.dag = true
  entered : p.graph.Entered
  exposes : p.graph.Exposes kinds

theorem Exposed.distinct (h : p.Exposed kinds) : p.graph.Distinct :=
  ((shared_iff_entered h.consistent.toLinked).2 h.entered).distinct

theorem Exposed.congr (h : p.Exposed kinds) (hs : q.settings = p.settings)
    (hg : p.graph.Alike q.graph) : q.Exposed kinds where
  consistent := by rw [hs]; exact h.consistent.congr hg
  shares := by rw [hs]; exact h.shares
  entered := h.entered.congr hg
  exposes := h.exposes.of_current fun i _ hn => (hg.current? i).symm.trans hn

theorem Exposed.swept (h : p.Exposed kinds) (hq : p.Swept q) : q.Exposed kinds where
  consistent := hq.consistent h.consistent
  shares := by rw [hq.settings]; exact h.shares
  entered := hq.entered h.consistent.toLinked h.entered
  exposes := by
    rcases hq.graph with heq | hsweep
    · rw [heq]
      exact h.exposes
    · obtain ⟨_, -, -, hd⟩ := hsweep.discarded h.consistent.toLinked
      refine h.exposes.of_current fun i n hn => ?_
      rw [hd.current?] at hn
      split_ifs at hn
      exact hn

/-! ## Adding -/

theorem exposes_place (hp : p.graph.Consistent p.settings.digestMode) (hg : p.graph.Exposes kinds)
    (hover : p.graph.OverVertices node)
    (hn : ∀ j ∈ node.references, ∀ m, p.graph.current? j = some m → m.kind ∉ kinds)
    (h : place node p = .ok id q) : q.graph.Exposes kinds := by
  rw [place_eq] at h
  split at h
  · cases h
    exact hg
  · cases h
    exact (inserted_insert hp.free node _).exposes hp.toLinked hg hover hn

mutual

theorem exposes_add : ∀ (n : Node) (p q : Planner) (id : VertexId),
    p.graph.Consistent p.settings.digestMode → p.graph.Exposes kinds → n.Exposes kinds →
      add n p = .ok id q → q.graph.Exposes kinds
  | ⟨op, inputs, traits, rowType⟩, p, q, id, hp, hg, hn, h => by
    obtain ⟨⟨hnone, hkinds⟩, hinputs⟩ := Node.everywhere_iff.1 hn
    have hop : ∀ j, op ≠ .vertex j := Node.vertexId?_eq_none.1 hnone
    obtain ⟨placeholders, p₁, hadd, hplace⟩ := (add_operator_eq_ok hop).1 h
    obtain ⟨hp₁, hall⟩ := (ends_addInputs inputs p hp).ok hadd
    rw [← hp₁.settings] at hall
    have hc := hp₁.consistent hp
    refine exposes_place hc (exposes_addInputs inputs p p₁ placeholders hp hg hinputs hadd)
      ⟨Node.vertexId?_eq_none.2 hop, hall.overVertices⟩ (fun j hj => ?_) hplace
    obtain ⟨i, hi, hj⟩ := Node.mem_references.1 hj
    exact hall.exposes hc.toLinked
      (fun n hn => ⟨(Node.everywhere_iff.1 (hinputs n hn)).1.1, hkinds n hn⟩) i hi j hj

theorem exposes_addInputs : ∀ (ns : List Node) (p q : Planner) (placeholders : List Node),
    p.graph.Consistent p.settings.digestMode → p.graph.Exposes kinds → (∀ n ∈ ns, n.Exposes kinds) →
      addInputs ns p = .ok placeholders q → q.graph.Exposes kinds
  | [], p, q, placeholders, hp, hg, hns, h => by
    rw [addInputs] at h
    cases h
    exact hg
  | n :: ns, p, q, placeholders, hp, hg, hns, h => by
    rw [List.forall_mem_cons] at hns
    obtain ⟨id, placeholder, rest, p₁, hadd, -, hrest, rfl⟩ := addInputs_cons_eq_ok.1 h
    have hp₁ := ((ends_add n p hp).ok hadd).1.consistent hp
    exact exposes_addInputs ns p₁ q rest hp₁ (exposes_add n p p₁ id hp hg hns.1 hadd) hns.2 hrest

end

theorem Exposed.add (hp : p.Exposed kinds) (hn : node.Exposes kinds) (h : add node p = .ok id q) :
    q.Exposed kinds := by
  obtain ⟨hq, -⟩ := (ends_add node p hp.consistent).ok h
  exact ⟨hq.consistent hp.consistent, hq.settings ▸ hp.shares,
    hq.growth.entered hp.consistent hp.shares hp.entered,
    exposes_add node p q id hp.consistent hp.exposes hn h⟩

/-! ## Firing -/

/-- A vertex that nothing refers to has no parents to be redirected. -/
theorem Exposed.merged {preserved : VertexId} {g : Graph} (hp : p.Exposed kinds) {old : Graph}
    (hnode : p.graph.current? id = some node) (hkind : node.kind ∈ kinds)
    (h : p.graph.Merged p.settings.digestMode preserved id old g) (hcheck : g.isAcyclic = true) :
    g.Consistent p.settings.digestMode ∧ g.Entered ∧ g.Exposes kinds := by
  have hlinked := hp.consistent.toLinked
  obtain ⟨placeholder, parents, -, hr, hc⟩ := h.contracted hlinked
  obtain rfl : parents = [] := by
    refine List.eq_nil_iff_forall_not_mem.2 fun i hi => ?_
    obtain ⟨n, hn, hid⟩ := (hlinked.edges i id).1 (hr.edge i hi)
    exact hp.exposes i n hn id hid node hnode hkind
  have hcurrent : ∀ i, g.current? i = p.graph.current? i := fun i => by
    rw [hc.current, if_neg List.not_mem_nil]
  have hkey : ∀ i key, g.key? i = some key → p.graph.key? i = some key := by
    intro i key hi
    obtain ⟨n, hn⟩ := contains_iff_current.1 (contains_of_key hi)
    rw [hlinked.keys i n ((hcurrent i).symm.trans hn), ← hi, hc.linked.keys i n hn]
  refine ⟨h.consistent hp.consistent hcheck, h.entered hlinked hp.entered ?_,
    hp.exposes.of_current fun i n hn => (hcurrent i).symm.trans hn⟩
  exact fun i j key hi hj => hp.distinct i j key (hkey i key hi) (hkey j key hj)

theorem Substituted.exposed {candidates : List Node} {result : Option VertexId}
    (hp : p.Exposed kinds) (hnode : p.graph.current? id = some node) (hkind : node.kind ∈ kinds)
    (hcandidates : ∀ n ∈ candidates, n.Exposes kinds)
    (h : p.Substituted id candidates result q) : q.Exposed kinds := by
  have hadded : ∀ {best : Node} {result : VertexId} {p₁ p₂ : Planner}, best ∈ candidates →
      p.Undisturbed p₁ → add best p₁ = .ok result p₂ → p₂.Exposed kinds ∧ p.Extended p₂ := by
    intro best result p₁ p₂ hbest h₁ hadd
    have hp₁ := hp.congr h₁.settings h₁.graph
    exact ⟨hp₁.add (hcandidates best hbest) hadd,
      h₁.extended.trans ((ends_add best p₁ hp₁.consistent).ok hadd).1⟩
  cases h with
  | circular hbest h₁ hadd hlive => exact (hadded hbest h₁ hadd).1
  | kept hbest h₁ hadd hq =>
    obtain ⟨events, rfl⟩ := hq
    obtain ⟨hp₂, -⟩ := hadded hbest h₁ hadd
    exact ⟨hp₂.consistent, hp₂.shares, hp₂.entered, hp₂.exposes⟩
  | @merged best result p₁ p₂ g events hbest h₁ hadd hne hg hcheck =>
    obtain ⟨hp₂, hext⟩ := hadded hbest h₁ hadd
    rw [← hext.settings] at hg
    have hnode := (hext.graph hp.consistent).current?_of_some hnode
    obtain ⟨hc, he, hx⟩ := hp₂.merged hnode hkind hg hcheck
    exact ⟨hc, hp₂.shares, he, hx⟩

theorem Exposed.attempted {rule : Rule} {force : Bool} {replacement : Option Replacement}
    (hp : p.Exposed kinds) (hrule : rule.Replaces kinds)
    (hattempt : attempt rule id force p = .ok replacement q) : q.Exposed kinds := by
  cases (ends_attempt_cases hp.consistent rule id force).ok hattempt with
  | idle h => exact hp.congr h.settings h.graph
  | tried hproposes h hs =>
    obtain ⟨hkind, hproposed⟩ := hrule p id force _ _ hproposes
    exact hs.exposed (hp.congr h.settings h.graph)
      ((h.graph.current? id).trans hproposes.current) hkind hproposed

/-- Whatever is done with rules that replace what nothing refers to, nothing comes to refer to it. -/
theorem Exposed.leads (hA : ∀ r, A r → r.Replaces kinds) (hp : p.Exposed kinds) (h : p.Leads A q) :
    q.Exposed kinds := by
  induction h with
  | refl => exact hp
  | undisturbed _ hr ih => exact ih.congr hr.settings hr.graph
  | executed _ e ih => exact ⟨ih.consistent, ih.shares, ih.entered, ih.exposes⟩
  | swept _ hr ih => exact ih.swept hr
  | attempted _ hrule hr ih => exact ih.attempted (hA _ hrule) hr

/-- If only what nothing refers to is replaced, no vertex ever gets the key of another one. -/
theorem Exposed.apart (hA : ∀ r, A r → r.Replaces kinds) (hp : p.Exposed kinds) : p.Apart A :=
  fun _ hq => (hp.leads hA hq).distinct

/-- A planner starts exposed if its plan does. -/
theorem exposed_build {settings : Settings} {program : Program} {rules : List Rule} {plan : Node}
    (hdag : settings.dag = true) (hplan : plan.Exposes kinds)
    (h : build settings program rules plan = .ok () p) : p.Exposed kinds := by
  have hinit := ready_initial settings program fun _ => True
  obtain ⟨-, hloaded⟩ := (ends_load plan (by simp [Closed]) hinit).ok h
  obtain ⟨r, r', id, hs, hg, hadd, hq⟩ := hloaded.added
  have hr : r.Exposed kinds := by
    refine ⟨?_, ?_, ?_, ?_⟩
    · rw [hs, hg]
      exact hinit.consistent
    · rw [hs]
      exact hdag
    · rw [hg]
      intro i key hi
      simp [initial, Graph.empty, Graph.key?, Graph.vertex?] at hi
    · rw [hg]
      exact exposes_empty
  have hr' := hr.add hplan hadd
  refine ⟨(hloaded.consistent hinit.consistent).1, ?_, ?_, ?_⟩
  · rw [hloaded.settings]
    exact hdag
  · rw [hq]
    exact hr'.entered
  · rw [hq]
    exact hr'.exposes

end Planner

/-! ## Exchanging expressions -/

namespace Rule

variable {kind : OperatorKind} {node : Node}

/-- Puts an expression in place of every expression of a kind. -/
def exchange (kind : OperatorKind) (node : Node) : Rule :=
  .transformation ("Exchange " ++ node.digest .full) (.ofKind kind) fun _ => .offer node

theorem blind_exchange (h : ∀ π, node.rename π = node) : (exchange kind node).Blind := by
  refine Rule.blind_transformation (Pattern.blind_ofKind kind) fun π _ _ _ => ?_
  have hoffer := Inquiry.renamed_offer (π := π) node
  rwa [h] at hoffer

theorem companion_exchange (c : Rule) : (exchange kind node).companion ≠ .ok c := by
  rintro ⟨⟩

theorem proposes_exchange {p : Planner} {id : VertexId} {force : Bool} {n : Node}
    {proposed : List Node} (h : p.Proposes (exchange kind node) id force n proposed) :
    n.kind = kind ∧ proposed = [node] := by
  obtain ⟨binding, parents, p₁, p₂, hbind, hfire⟩ := h.bind
  refine ⟨(bind_ofKind hbind).1, ?_⟩
  exact (Planner.ends_fire_offer (fun _ _ => True) rfl rfl n p₁).ok hfire

theorem replaces_exchange {kinds : List OperatorKind} (hkind : kind ∈ kinds)
    (hnode : node.Exposes kinds) : (exchange kind node).Replaces kinds := by
  intro p id force n proposed h
  obtain ⟨rfl, rfl⟩ := proposes_exchange h
  exact ⟨hkind, by simpa using hnode⟩

theorem staysWithin_exchange {F : Operator → TraitSet → Prop} (hnode : node.Within F) :
    (exchange kind node).StaysWithin F := by
  intro p id force n proposed _ _ h
  obtain ⟨-, rfl⟩ := proposes_exchange h
  simpa using hnode

end Rule

namespace Planner

/-- A single row without columns. -/
def unitRow : Node := ⟨.values .empty [[]], [], .default, .empty⟩

def emptyScan (table : String) : Node :=
  ⟨.tableScan ⟨table, .empty, none, none⟩, [], .default, .empty⟩

/-- Two scans side by side. -/
def joinedScans : Node :=
  ⟨.join .inner (.literal (.boolean (some true))), [emptyScan "s", emptyScan "t"], .default, .empty⟩

def filteredScan : Node :=
  ⟨.filter (.literal (.boolean (some true))), [emptyScan "u"], .default, .empty⟩

end Planner

end QueryPlanner
