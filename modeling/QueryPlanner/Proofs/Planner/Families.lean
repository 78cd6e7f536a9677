import QueryPlanner.Proofs.Node.Tree
import QueryPlanner.Proofs.Planner.Reached

/-!
# Families of operators

What operators and traits the expressions of a graph have is known from the plan and from what the
rules propose: whatever family they belong to at first, adding, redirecting and sweeping bring in no
others.
-/

namespace QueryPlanner

open QueryPlanner.Graph Planning

variable {F : Operator → TraitSet → Prop}

mutual

/-- All operators of the expression are of the family with their traits, placeholders aside. -/
def Node.Within (F : Operator → TraitSet → Prop) : Node → Prop
  | ⟨op, inputs, traits, _⟩ =>
    match op with
    | .vertex _ => True
    | _ => F op traits ∧ Node.AllWithin F inputs

def Node.AllWithin (F : Operator → TraitSet → Prop) : List Node → Prop
  | [] => True
  | n :: ns => n.Within F ∧ Node.AllWithin F ns

end

namespace Node

variable {n : Node}

theorem allWithin_iff {ns : List Node} : AllWithin F ns ↔ ∀ n ∈ ns, n.Within F := by
  induction ns with
  | nil => simp [AllWithin]
  | cons n ns ih => simp [AllWithin, ih]

theorem within_vertex {id : VertexId} (h : n.vertexId? = some id) : n.Within F := by
  obtain ⟨op, inputs, traits, rowType⟩ := n
  cases op <;> cases h
  rw [Within]
  trivial

theorem within_operator (h : n.vertexId? = none) :
    n.Within F ↔ F n.operator n.traits ∧ ∀ i ∈ n.inputs, i.Within F := by
  obtain ⟨op, inputs, traits, rowType⟩ := n
  rw [Within, allWithin_iff]
  exact vertexId?_eq_none.1 h

mutual

/-- Everything belongs to the family of all operators. -/
theorem within_true : ∀ n : Node, n.Within fun _ _ => True
  | ⟨op, inputs, traits, rowType⟩ => by
    by_cases hop : ∃ j, op = .vertex j
    · obtain ⟨j, rfl⟩ := hop
      rw [Within]
      trivial
    · exact (within_operator (vertexId?_eq_none.2 fun j hj => hop ⟨j, hj⟩)).2
        ⟨trivial, allWithin_iff.1 (allWithin_true inputs)⟩

theorem allWithin_true : ∀ ns : List Node, AllWithin (fun _ _ => True) ns
  | [] => by
    rw [AllWithin]
    trivial
  | n :: ns => by
    rw [AllWithin]
    exact ⟨within_true n, allWithin_true ns⟩

end

mutual

theorem within_of_everywhere : ∀ n : Node, (n.Everywhere fun m => F m.operator m.traits) →
    n.Within F
  | ⟨op, inputs, traits, rowType⟩, h => by
    obtain ⟨hhead, hinputs⟩ := everywhere_iff.1 h
    by_cases hop : ∃ j, op = .vertex j
    · obtain ⟨j, rfl⟩ := hop
      exact within_vertex rfl
    · exact (within_operator (vertexId?_eq_none.2 fun j hj => hop ⟨j, hj⟩)).2
        ⟨hhead, allWithin_iff.1 (allWithin_of_everywhere inputs hinputs)⟩

theorem allWithin_of_everywhere : ∀ ns : List Node,
    (∀ n ∈ ns, n.Everywhere fun m => F m.operator m.traits) → AllWithin F ns
  | [], _ => by
    rw [AllWithin]
    trivial
  | n :: ns, h => by
    rw [List.forall_mem_cons] at h
    rw [AllWithin]
    exact ⟨within_of_everywhere n h.1, allWithin_of_everywhere ns h.2⟩

end

end Node

namespace Graph

variable {mode : DigestMode} {g g' : Graph} {node : Node} {id : VertexId}

/-- The expressions of the vertices are of the family. -/
def Within (F : Operator → TraitSet → Prop) (g : Graph) : Prop :=
  ∀ id n, g.current? id = some n → F n.operator n.traits

theorem within_empty : empty.Within F := by simp [Within, empty, current?, vertex?]

/-- What is over vertices belongs to the family if its operator does. -/
theorem OverVertices.within (hg : g.Linked mode) (hn : g.OverVertices node)
    (h : F node.operator node.traits) : node.Within F := by
  refine (Node.within_operator hn.isOperator).2 ⟨h, fun i hi => ?_⟩
  obtain ⟨j, hj⟩ := hn.inputs i hi
  exact Node.within_vertex (hg.vertexId?_placeholder hj)

theorem Within.of_current (h : g.Within F)
    (hcurrent : ∀ i n, g'.current? i = some n →
      ∃ m, g.current? i = some m ∧ n.operator = m.operator ∧ n.traits = m.traits) :
    g'.Within F := by
  intro i n hn
  obtain ⟨m, hm, hop, htraits⟩ := hcurrent i n hn
  rw [hop, htraits]
  exact h i m hm

theorem Within.congr (h : g.Within F) (hg : ∀ i, g'.current? i = g.current? i) : g'.Within F :=
  h.of_current fun i n hn => ⟨n, (hg i).symm.trans hn, rfl, rfl⟩

theorem Inserted.within {key : DigestKey} (hins : Inserted g node key id g') (h : g.Within F)
    (hn : F node.operator node.traits) : g'.Within F := by
  intro i n hi
  rw [hins.current?] at hi
  split_ifs at hi
  · cases hi
    exact hn
  · exact h i n hi

theorem Contracted.within {preserved discarded : VertexId} {placeholder : Node}
    {parents : List VertexId} (hc : Contracted mode preserved discarded placeholder parents g g')
    (h : g.Within F) : g'.Within F := by
  refine h.of_current fun i n hn => ?_
  rw [hc.current] at hn
  split_ifs at hn
  · obtain ⟨m, hm, rfl⟩ := Option.map_eq_some_iff.1 hn
    exact ⟨m, hm, rfl, rfl⟩
  · exact ⟨n, hn, rfl, rfl⟩

theorem Discarded.within {garbage : List VertexId} (hd : Discarded g garbage g') (h : g.Within F) :
    g'.Within F := by
  refine h.of_current fun i n hn => ⟨n, ?_, rfl, rfl⟩
  rw [hd.current?] at hn
  split_ifs at hn
  exact hn

/-! ## Placeholders -/

/-- Placeholders have the traits and the row types of the expressions that they stand for. Redirecting
changes the inputs of an expression, so the rest stays what it was when the placeholder was made. -/
def Truthful (g : Graph) : Prop :=
  ∀ id n placeholder, g.current? id = some n → g.placeholder? id = some placeholder →
    placeholder.traits = n.traits ∧ placeholder.rowType = n.rowType

theorem truthful_empty : empty.Truthful := by simp [Truthful, empty, current?, vertex?]

theorem Truthful.congr (h : g.Truthful) (hcurrent : ∀ i, g'.current? i = g.current? i)
    (hplaceholder : ∀ i, g'.placeholder? i = g.placeholder? i) : g'.Truthful :=
  fun i n placeholder hn hp => h i n placeholder (hcurrent i ▸ hn) (hplaceholder i ▸ hp)

theorem Inserted.truthful {key : DigestKey} (hins : Inserted g node key id g') (h : g.Truthful) :
    g'.Truthful := by
  intro i n placeholder hn hp
  rw [hins.current?] at hn
  rw [hins.placeholder?] at hp
  split_ifs at hn hp
  · cases hn
    cases hp
    exact ⟨rfl, rfl⟩
  · exact h i n placeholder hn hp

theorem Growth.truthful {s : Settings} (hg : g.Consistent s.digestMode) (h : g.Truthful)
    (hgrowth : Growth s g g') : g'.Truthful := by
  induction hgrowth with
  | refl => exact h
  | tail hs hgrow ih =>
    cases hgrow with
    | costs halike _ => exact ih.congr halike.current? halike.placeholder?
    | insert hn hfresh => exact (inserted_insert (Growth.consistent hg hs).free _ _).truthful ih

theorem Contracted.truthful {preserved discarded : VertexId} {placeholder : Node}
    {parents : List VertexId} (hc : Contracted mode preserved discarded placeholder parents g g')
    (h : g.Truthful) : g'.Truthful := by
  intro i n placeholder hn hp
  rw [hc.current] at hn
  rw [hc.placeholders] at hp
  split_ifs at hn
  · obtain ⟨m, hm, rfl⟩ := Option.map_eq_some_iff.1 hn
    exact h i m placeholder hm hp
  · exact h i n placeholder hn hp

theorem Discarded.truthful {garbage : List VertexId} (hd : Discarded g garbage g')
    (h : g.Truthful) : g'.Truthful := by
  intro i n placeholder hn hp
  rw [hd.current?] at hn
  rw [hd.placeholder?] at hp
  split_ifs at hn hp
  exact h i n placeholder hn hp

end Graph

/-- What the rule proposes is of the family where the graph is. -/
def Rule.StaysWithin (F : Operator → TraitSet → Prop) (rule : Rule) : Prop :=
  ∀ (p : Planner) (id : VertexId) (force : Bool) (node : Node) (proposed : List Node),
    p.graph.Consistent p.settings.digestMode → p.graph.Within F →
      p.Proposes rule id force node proposed → ∀ n ∈ proposed, n.Within F

namespace Planner

variable {p q : Planner}

theorem within_place (hp : p.graph.Consistent p.settings.digestMode) (hF : p.graph.Within F)
    {node : Node} (hn : F node.operator node.traits) {id : VertexId}
    (h : place node p = .ok id q) : q.graph.Within F := by
  have hends : Ends (place node) p (fun _ q => q.graph.Within F) fun _ _ => True := by
    refine ends_bind.2 (ends_get.2 ?_)
    simp only
    split
    · exact ends_pure.2 hF
    · refine ends_bind.2 (ends_set.2 (ends_bind.2 (ends_modify.2 (ends_pure.2 ?_))))
      exact (inserted_insert hp.free node (node.key p.settings.digestMode)).within hF hn
  exact hends.ok h

mutual

theorem within_add : ∀ (n : Node) (p q : Planner) (id : VertexId),
    p.graph.Consistent p.settings.digestMode → p.graph.Within F → n.Within F →
      add n p = .ok id q → q.graph.Within F
  | ⟨op, inputs, traits, rowType⟩, p, q, id, hp, hF, hn, h => by
    by_cases hop : ∃ j, op = .vertex j
    · obtain ⟨j, rfl⟩ := hop
      obtain ⟨-, -, rfl⟩ := add_vertex_eq_ok.1 h
      exact hF
    · have hop : ∀ j, op ≠ .vertex j := fun j hj => hop ⟨j, hj⟩
      have hn' : Node.vertexId? ⟨op, inputs, traits, rowType⟩ = none :=
        Node.vertexId?_eq_none.2 hop
      obtain ⟨hhead, hinputs⟩ : F op traits ∧ ∀ i ∈ inputs, i.Within F :=
        (Node.within_operator hn').1 hn
      obtain ⟨placeholders, p₁, hadd, hplace⟩ := (add_operator_eq_ok hop).1 h
      have hp₁ := ((ends_addInputs inputs p hp).ok hadd).1.consistent hp
      have hF₁ := within_addInputs inputs p p₁ placeholders hp hF hinputs hadd
      refine within_place hp₁ hF₁ ?_ hplace
      exact hhead

theorem within_addInputs : ∀ (ns : List Node) (p q : Planner) (placeholders : List Node),
    p.graph.Consistent p.settings.digestMode → p.graph.Within F → (∀ n ∈ ns, n.Within F) →
      addInputs ns p = .ok placeholders q → q.graph.Within F
  | [], p, q, placeholders, hp, hF, hn, h => by
    rw [addInputs] at h
    cases h
    exact hF
  | n :: ns, p, q, placeholders, hp, hF, hn, h => by
    rw [List.forall_mem_cons] at hn
    obtain ⟨id, placeholder, rest, p₁, hadd, -, hrest, rfl⟩ := addInputs_cons_eq_ok.1 h
    have hp₁ := ((ends_add n p hp).ok hadd).1.consistent hp
    exact within_addInputs ns p₁ q rest hp₁ (within_add n p p₁ id hp hF hn.1 hadd) hn.2 hrest

end

theorem Substituted.within {id : VertexId} {candidates : List Node} {result : Option VertexId}
    (hp : p.graph.Consistent p.settings.digestMode) (hF : p.graph.Within F)
    (hcandidates : ∀ n ∈ candidates, n.Within F) (h : p.Substituted id candidates result q) :
    q.graph.Within F := by
  have hadded : ∀ {best : Node} {result : VertexId} {p₁ p₂ : Planner}, best ∈ candidates →
      p.Undisturbed p₁ → add best p₁ = .ok result p₂ →
        p₂.graph.Consistent p₂.settings.digestMode ∧ p₂.graph.Within F := by
    intro best result p₁ p₂ hbest h₁ hadd
    have hp₁ := h₁.extended.consistent hp
    exact ⟨((ends_add best p₁ hp₁).ok hadd).1.consistent hp₁,
      within_add best p₁ p₂ result hp₁ (hF.congr h₁.graph.current?) (hcandidates best hbest) hadd⟩
  cases h with
  | circular hbest h₁ hadd hlive => exact (hadded hbest h₁ hadd).2
  | kept hbest h₁ hadd hq =>
    obtain ⟨events, rfl⟩ := hq
    exact (hadded hbest h₁ hadd).2
  | @merged best result p₁ p₂ g events hbest h₁ hadd hne hg hcheck =>
    obtain ⟨hp₂, hF₂⟩ := hadded hbest h₁ hadd
    rw [((ends_add best p₁ (h₁.extended.consistent hp)).ok hadd).1.settings, h₁.settings] at hp₂
    obtain ⟨placeholder, parents, -, -, hc⟩ := hg.contracted hp₂.toLinked
    exact hc.within hF₂

theorem Loaded.within {plan : Node} (hp : p.graph.Consistent p.settings.digestMode)
    (hF : p.graph.Within F) (hplan : plan.Within F) (h : p.Loaded plan q) : q.graph.Within F := by
  obtain ⟨r, r', id, hs, hg, hadd, hq⟩ := h.added
  rw [← hs, ← hg] at hp
  rw [← hg] at hF
  exact (within_add plan r r' id hp hF hplan hadd).congr fun i => by rw [hq]; rfl

/-- A planner starts with the operators of its plan. -/
theorem within_build {settings : Settings} {program : Program} {rules : List Rule} {plan : Node}
    (hplan : plan.Within F) (h : build settings program rules plan = .ok () p) : p.graph.Within F := by
  have hinit := ready_initial settings program fun _ => True
  obtain ⟨-, hloaded⟩ := (ends_load plan (by simp [Closed]) hinit).ok h
  exact hloaded.within hinit.consistent within_empty hplan

/-- Rules that stay within a family never lead out of it. -/
theorem law_within : Law (Rule.StaysWithin F) (fun p q => p.graph.Within F → q.graph.Within F)
    fun _ _ _ => True where
  undisturbed p q h hF := hF.congr h.graph.current?
  execution p e hF := hF
  trans p q r h h' := h' ∘ h
  swept p q hp h hF := by
    rcases h.graph with heq | h
    · rwa [heq]
    · obtain ⟨root, -, -, hd⟩ := h.discarded hp.toLinked
      exact hd.within hF
  attempt p rule id force hp hrule := by
    refine (ends_attempt_cases hp rule id force).mono (fun replacement q h hF => ?_)
      fun _ _ _ => trivial
    cases h with
    | idle h => exact hF.congr h.graph.current?
    | tried hproposes h hs =>
      exact hs.within (h.extended.consistent hp) (hF.congr h.graph.current?)
        (hrule p id force _ _ hp hF hproposes)
  fault _ _ _ _ := trivial
  fault_trans _ _ _ _ _ _ := trivial
  fault_execution _ _ _ _ _ := trivial

end Planner

end QueryPlanner
