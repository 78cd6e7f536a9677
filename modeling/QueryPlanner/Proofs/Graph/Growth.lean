import QueryPlanner.Planner.Basic
import QueryPlanner.Proofs.Graph.Retention

/-!
# Growing graphs

Adding expressions makes a graph grow: existing vertices stay as they are, with their edges and
their place below the root. An expression is placed at a vertex if the vertex has its key over the vertices
of its inputs.
-/

namespace QueryPlanner.Graph

open Relation

variable {mode : DigestMode} {g g' g'' : Graph} {node : Node} {id : VertexId} {s : Settings}

/-- The existing vertices stay as they are. -/
structure Extends (g g' : Graph) : Prop where
  vertex : ∀ i, g.contains i = true → g'.vertex? i = g.vertex? i
  edge : ∀ a b, g.contains a = true → (g'.Edge a b ↔ g.Edge a b)
  root : g'.root = g.root

namespace Extends

theorem contains (h : g.Extends g') (hid : g.contains id = true) : g'.contains id = true := by
  rw [Graph.contains, h.vertex id hid, ← Graph.contains, hid]

theorem current? (h : g.Extends g') (hid : g.contains id = true) :
    g'.current? id = g.current? id := by
  rw [Graph.current?, Graph.current?, h.vertex id hid]

theorem placeholder? (h : g.Extends g') (hid : g.contains id = true) :
    g'.placeholder? id = g.placeholder? id := by
  rw [Graph.placeholder?, Graph.placeholder?, h.vertex id hid]

theorem key? (h : g.Extends g') (hid : g.contains id = true) : g'.key? id = g.key? id := by
  rw [Graph.key?, Graph.key?, h.vertex id hid]

theorem current?_of_some (h : g.Extends g') (hn : g.current? id = some node) :
    g'.current? id = some node := (h.current? (contains_of_current hn)).trans hn

theorem placeholder?_of_some (h : g.Extends g') (hn : g.placeholder? id = some node) :
    g'.placeholder? id = some node := (h.placeholder? (contains_of_placeholder hn)).trans hn

theorem overVertices (h : g.Extends g') (hn : g.OverVertices node) : g'.OverVertices node where
  isOperator := hn.isOperator
  inputs i hi := (hn.inputs i hi).imp fun _ hj => h.placeholder?_of_some hj

theorem refl (g : Graph) : g.Extends g := ⟨fun _ _ => rfl, fun _ _ _ => .rfl, rfl⟩

theorem trans (h : g.Extends g') (h' : g'.Extends g'') : g.Extends g'' where
  vertex i hi := (h'.vertex i (h.contains hi)).trans (h.vertex i hi)
  edge a b ha := (h'.edge a b (h.contains ha)).trans (h.edge a b ha)
  root := h'.root.trans h.root

end Extends

theorem Alike.extends (h : g.Alike g') : g.Extends g' where
  vertex i _ := h.vertex? i
  edge a b _ := by rw [Edge, h.edges, Edge]
  root := h.root

theorem Inserted.extends {key : DigestKey} (hf : g.FreeUnused)
    (h : Inserted g node key id g') : g.Extends g' where
  vertex i hi := by rw [h.vertex, if_neg (h.ne_of_contains hf hi)]
  edge a b ha := by
    rw [Edge, h.edges]
    exact or_iff_right fun hab => h.ne_of_contains hf ha hab.1
  root := h.root

/-- A step in which a graph grows: an expression over its vertices is inserted, one that is not
registered where vertices are shared, or costs are noted, exact ones if the others are. -/
inductive Grow (s : Settings) : Graph → Graph → Prop
  | costs {g g' : Graph} (h : g.Alike g')
      (hexact : g.Consistent s.digestMode → g.Exact s.model → g'.Exact s.model) : Grow s g g'
  | insert {g : Graph} {node : Node} (hn : g.OverVertices node)
      (hfresh : s.dag = true → g.lookup (node.key s.digestMode) = none) :
      Grow s g (g.insert node (node.key s.digestMode)).2

abbrev Growth (s : Settings) : Graph → Graph → Prop := ReflTransGen (Grow s)

theorem Grow.consistent (hg : g.Consistent s.digestMode) (h : Grow s g g') :
    g'.Consistent s.digestMode := by
  cases h with
  | costs h _ => exact hg.congr h
  | insert hn hfresh => exact (inserted_insert hg.free _ _).consistent hg hn rfl

theorem Grow.extends (hg : g.Linked s.digestMode) (h : Grow s g g') : g.Extends g' := by
  cases h with
  | costs h _ => exact h.extends
  | insert hn hfresh => exact (inserted_insert hg.free _ _).extends hg.free

theorem Growth.consistent (hg : g.Consistent s.digestMode) (h : Growth s g g') :
    g'.Consistent s.digestMode := by
  induction h with
  | refl => exact hg
  | tail _ h ih => exact h.consistent ih

theorem Growth.extends (hg : g.Consistent s.digestMode) (h : Growth s g g') : g.Extends g' := by
  induction h with
  | refl => exact .refl g
  | tail hs h ih => exact ih.trans (h.extends (Growth.consistent hg hs).toLinked)

theorem Growth.exact (hg : g.Consistent s.digestMode) (hexact : g.Exact s.model)
    (h : Growth s g g') : g'.Exact s.model := by
  induction h with
  | refl => exact hexact
  | tail hs h ih =>
    have hc := Growth.consistent hg hs
    cases h with
    | costs _ hkeeps => exact hkeeps hc ih
    | insert hn hfresh => exact ih.retained hc.toLinked (ih.retains_insert hc.toLinked _ _)

/-! ## Placed expressions -/

mutual

/-- The vertex has the key that the expression has over the vertices of its inputs, and it has the
expression itself where vertices are not shared. -/
def Places (s : Settings) (g : Graph) : Node → VertexId → Prop
  | ⟨op, inputs, traits, rowType⟩, id =>
    match op with
    | .vertex j => id = j ∧ g.contains j = true
    | _ => ∃ placeholders, PlacesAll s g inputs placeholders ∧ ∃ n, g.current? id = some n ∧
        n.key s.digestMode = Node.key s.digestMode ⟨op, placeholders, traits, rowType⟩ ∧
        (s.dag = false → n = ⟨op, placeholders, traits, rowType⟩)

/-- The placeholders are those of the vertices of the expressions. -/
def PlacesAll (s : Settings) (g : Graph) : List Node → List Node → Prop
  | [], placeholders => placeholders = []
  | n :: ns, placeholders => ∃ id placeholder rest, placeholders = placeholder :: rest ∧
      Places s g n id ∧ g.placeholder? id = some placeholder ∧ PlacesAll s g ns rest

end

theorem places_vertex {traits : TraitSet} {rowType : Schema} {inputs : List Node} {j : VertexId} :
    Places s g ⟨.vertex j, inputs, traits, rowType⟩ id ↔ id = j ∧ g.contains j = true := by
  rw [Places]

theorem places_operator {op : Operator} {traits : TraitSet} {rowType : Schema} {inputs : List Node}
    (hop : ∀ j, op ≠ .vertex j) :
    Places s g ⟨op, inputs, traits, rowType⟩ id ↔
      ∃ placeholders, PlacesAll s g inputs placeholders ∧ ∃ n, g.current? id = some n ∧
        n.key s.digestMode = Node.key s.digestMode ⟨op, placeholders, traits, rowType⟩ ∧
        (s.dag = false → n = ⟨op, placeholders, traits, rowType⟩) := by
  rw [Places]
  exact hop

mutual

/-- What is placed stays placed. -/
theorem Places.extends (h : g.Extends g') :
    ∀ (n : Node) (id : VertexId), Places s g n id → Places s g' n id
  | ⟨op, inputs, traits, rowType⟩, id => by
    by_cases hop : ∃ j, op = .vertex j
    · obtain ⟨j, rfl⟩ := hop
      rw [places_vertex, places_vertex]
      exact fun ⟨hid, hj⟩ => ⟨hid, h.contains hj⟩
    · have hop : ∀ j, op ≠ .vertex j := fun j hj => hop ⟨j, hj⟩
      rw [places_operator hop, places_operator hop]
      rintro ⟨placeholders, hall, n, hn, hkey⟩
      exact ⟨placeholders, PlacesAll.extends h inputs placeholders hall, n,
        h.current?_of_some hn, hkey⟩

theorem PlacesAll.extends (h : g.Extends g') :
    ∀ ns placeholders, PlacesAll s g ns placeholders → PlacesAll s g' ns placeholders
  | [], _ => by
    rw [PlacesAll, PlacesAll]
    exact id
  | n :: ns, _ => by
    rw [PlacesAll, PlacesAll]
    rintro ⟨id, placeholder, rest, heq, hn, hp, hall⟩
    exact ⟨id, placeholder, rest, heq, Places.extends h n id hn, h.placeholder?_of_some hp,
      PlacesAll.extends h ns rest hall⟩

end

theorem Places.contains (h : Places s g node id) : g.contains id = true := by
  obtain ⟨op, inputs, traits, rowType⟩ := node
  by_cases hop : ∃ j, op = .vertex j
  · obtain ⟨j, rfl⟩ := hop
    obtain ⟨rfl, hj⟩ := places_vertex.1 h
    exact hj
  · obtain ⟨-, -, n, hn, -⟩ := (places_operator fun j hj => hop ⟨j, hj⟩).1 h
    exact contains_of_current hn

theorem PlacesAll.overVertices : ∀ {ns placeholders : List Node},
    PlacesAll s g ns placeholders → ∀ i ∈ placeholders, ∃ j, g.placeholder? j = some i
  | [], _, h => by
    rw [PlacesAll] at h
    simp [h]
  | n :: ns, _, h => by
    rw [PlacesAll] at h
    obtain ⟨id, placeholder, rest, rfl, -, hp, hall⟩ := h
    intro i hi
    rcases List.mem_cons.1 hi with rfl | hi
    · exact ⟨id, hp⟩
    · exact PlacesAll.overVertices hall i hi

end QueryPlanner.Graph
