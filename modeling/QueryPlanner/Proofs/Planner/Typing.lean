import QueryPlanner.Proofs.Node.Typing
import QueryPlanner.Proofs.Planner.Extraction
import QueryPlanner.Proofs.Planner.Reduction

/-!
# Typed graphs

A graph is typed if every expression passes the check over the row types of its placeholders, and
the placeholder of a vertex has the row type of the expression that the vertex holds now. Then the
tree of a vertex passes the check throughout. Where vertices are shared, an expression is taken for
another one of the same key, and the two must have the same row type. That they have is known from
their trees: these stay, up to a relation, what they were in the plan, and there trees that are
related have the same row type.
-/

namespace QueryPlanner

open QueryPlanner.Graph Planning

/-- The row types that a tree may have. -/
abbrev Annotation := Node → Schema → Prop

variable {F : Operator → TraitSet → Prop} {W : TypeCheck} {R : Node → Node → Prop} {T : Annotation}

namespace Graph

variable {mode : DigestMode} {g g' : Graph} {node t : Node} {id : VertexId}

mutual

/-- The expression passes the check, and its placeholders have the row types that they have in the
graph. -/
def Types (g : Graph) (W : TypeCheck) : Node → Prop
  | ⟨op, inputs, _, rowType⟩ =>
    match op with
    | .vertex id => ∃ placeholder, g.placeholder? id = some placeholder ∧
        placeholder.rowType = rowType
    | _ => W op (inputs.map Node.rowType) rowType ∧ TypesAll g W inputs

def TypesAll (g : Graph) (W : TypeCheck) : List Node → Prop
  | [] => True
  | n :: ns => g.Types W n ∧ TypesAll g W ns

end

theorem typesAll_iff {ns : List Node} : g.TypesAll W ns ↔ ∀ n ∈ ns, g.Types W n := by
  induction ns with
  | nil => simp [TypesAll]
  | cons n ns ih => simp [TypesAll, ih]

theorem types_vertex (h : node.vertexId? = some id) : g.Types W node ↔
    ∃ placeholder, g.placeholder? id = some placeholder ∧ placeholder.rowType = node.rowType := by
  obtain ⟨op, inputs, traits, rowType⟩ := node
  cases op <;> cases h
  rw [Types]

theorem types_operator (h : node.vertexId? = none) : g.Types W node ↔
    W node.operator (node.inputs.map Node.rowType) node.rowType ∧ ∀ i ∈ node.inputs, g.Types W i := by
  obtain ⟨op, inputs, traits, rowType⟩ := node
  rw [Types, typesAll_iff]
  exact Node.vertexId?_eq_none.1 h

/-- Placeholders of the graph are typed. -/
theorem Linked.types_placeholder (hg : g.Linked mode) (h : g.placeholder? id = some node) :
    g.Types W node := (types_vertex (hg.vertexId?_placeholder h)).2 ⟨node, h, rfl⟩

theorem OverVertices.types (hg : g.Linked mode) (hn : g.OverVertices node)
    (h : W node.operator (node.inputs.map Node.rowType) node.rowType) : g.Types W node := by
  refine (types_operator hn.isOperator).2 ⟨h, fun i hi => ?_⟩
  obtain ⟨j, hj⟩ := hn.inputs i hi
  exact hg.types_placeholder hj

mutual

theorem Types.mono (h : ∀ i n, g.placeholder? i = some n → g'.placeholder? i = some n) :
    ∀ n : Node, g.Types W n → g'.Types W n
  | ⟨op, inputs, traits, rowType⟩, hn => by
    by_cases hop : ∃ j, op = .vertex j
    · obtain ⟨j, rfl⟩ := hop
      obtain ⟨placeholder, hp, htype⟩ := (types_vertex rfl).1 hn
      exact (types_vertex rfl).2 ⟨placeholder, h j placeholder hp, htype⟩
    · have hop : ∀ j, op ≠ .vertex j := fun j hj => hop ⟨j, hj⟩
      rw [Types] at hn ⊢
      · exact ⟨hn.1, TypesAll.mono h inputs hn.2⟩
      all_goals exact hop

theorem TypesAll.mono (h : ∀ i n, g.placeholder? i = some n → g'.placeholder? i = some n) :
    ∀ ns : List Node, g.TypesAll W ns → g'.TypesAll W ns
  | [], _ => by
    rw [TypesAll]
    trivial
  | n :: ns, hns => by
    rw [TypesAll] at hns ⊢
    exact ⟨Types.mono h n hns.1, TypesAll.mono h ns hns.2⟩

end

/-- The expressions of the vertices pass the check, and the placeholders have their row types. -/
structure Typed (W : TypeCheck) (g : Graph) : Prop where
  current : ∀ id n, g.current? id = some n → W n.operator (n.inputs.map Node.rowType) n.rowType
  placeholder : ∀ id n placeholder, g.current? id = some n → g.placeholder? id = some placeholder →
    placeholder.rowType = n.rowType

theorem typed_empty : Typed W empty := by
  constructor <;> simp [empty, current?, vertex?]

theorem Typed.congr (h : g.Typed W) (hcurrent : ∀ i, g'.current? i = g.current? i)
    (hplaceholder : ∀ i, g'.placeholder? i = g.placeholder? i) : g'.Typed W where
  current i n hn := h.current i n (hcurrent i ▸ hn)
  placeholder i n placeholder hn hp :=
    h.placeholder i n placeholder (hcurrent i ▸ hn) (hplaceholder i ▸ hp)

theorem Inserted.typed {key : DigestKey} (hins : Inserted g node key id g') (h : g.Typed W)
    (hn : W node.operator (node.inputs.map Node.rowType) node.rowType) : g'.Typed W where
  current i n hi := by
    rw [hins.current?] at hi
    split_ifs at hi
    · cases hi
      exact hn
    · exact h.current i n hi
  placeholder i n placeholder hi hp := by
    rw [hins.current?] at hi
    rw [hins.placeholder?] at hp
    split_ifs at hi hp
    · cases hi
      cases hp
      rfl
    · exact h.placeholder i n placeholder hi hp

theorem Discarded.typed {garbage : List VertexId} (hd : Discarded g garbage g') (h : g.Typed W) :
    g'.Typed W where
  current i n hn := by
    rw [hd.current?] at hn
    split_ifs at hn
    exact h.current i n hn
  placeholder i n placeholder hn hp := by
    rw [hd.current?] at hn
    rw [hd.placeholder?] at hp
    split_ifs at hn hp
    exact h.placeholder i n placeholder hn hp

/-- Parents may be redirected to a vertex of the same row type. -/
theorem Contracted.typed {preserved discarded : VertexId} {placeholder old : Node}
    {parents : List VertexId} (hg : g.Linked mode)
    (hc : Contracted mode preserved discarded placeholder parents g g')
    (hold : g.placeholder? discarded = some old) (htype : placeholder.rowType = old.rowType)
    (h : g.Typed W) : g'.Typed W := by
  have hredirect : ∀ i n, g.current? i = some n →
      (n.redirect discarded placeholder).inputs.map Node.rowType = n.inputs.map Node.rowType := by
    intro i n hn
    rw [Node.redirect, List.map_map]
    refine List.map_congr_left fun m hm => ?_
    simp only [Function.comp_apply]
    split_ifs with hvertex
    · obtain ⟨j, hj⟩ := (hg.currents i n hn).inputs m hm
      rw [hg.vertexId?_placeholder hj, Option.some.injEq] at hvertex
      rw [hvertex, hold, Option.some.injEq] at hj
      rw [htype, hj]
    · rfl
  constructor
  · intro i n hn
    rw [hc.current] at hn
    split_ifs at hn
    · obtain ⟨m, hm, rfl⟩ := Option.map_eq_some_iff.1 hn
      rw [hredirect i m hm]
      exact h.current i m hm
    · exact h.current i n hn
  · intro i n p hn hp
    rw [hc.current] at hn
    rw [hc.placeholders] at hp
    split_ifs at hn
    · obtain ⟨m, hm, rfl⟩ := Option.map_eq_some_iff.1 hn
      exact h.placeholder i m p hm hp
    · exact h.placeholder i n p hn hp

/-- The tree of a typed expression passes the check throughout and has the row type of the
expression. -/
theorem Unfolds.throughout (hg : g.Linked mode) (h : g.Typed W) (ht : g.Unfolds node t)
    (hn : g.Types W node) : t.Throughout W ∧ t.rowType = node.rowType := by
  induction ht with
  | @vertex id inputs traits rowType current tree hcurrent _ ih =>
    obtain ⟨placeholder, hp, htype⟩ := (types_vertex rfl).1 hn
    obtain ⟨hall, hrow⟩ := ih ((hg.currents id current hcurrent).types hg
      (h.current id current hcurrent))
    exact ⟨hall, by rw [hrow, ← h.placeholder id current placeholder hcurrent hp, htype]⟩
  | @operator op inputs trees traits rowType hop hlength _ ih =>
    obtain ⟨hhead, hinputs⟩ := (types_operator (Node.vertexId?_eq_none.2 hop)).1 hn
    have htree : ∀ (i : Nat) (hi : i < inputs.length) (hi' : i < trees.length),
        trees[i].Throughout W ∧ trees[i].rowType = inputs[i].rowType := fun i hi hi' =>
      ih i _ _ (List.getElem?_eq_getElem hi) (List.getElem?_eq_getElem hi')
        (hinputs _ (List.getElem_mem hi))
    have hmap : trees.map Node.rowType = inputs.map Node.rowType := by
      apply List.ext_getElem (by simpa using hlength)
      intro i hi hi'
      rw [List.length_map] at hi hi'
      simpa using (htree i hi' hi).2
    refine ⟨Node.throughout_iff.2 ⟨hmap ▸ hhead, fun tree hmem => ?_⟩, rfl⟩
    obtain ⟨i, hi, rfl⟩ := List.getElem_of_mem hmem
    exact (htree i (hlength ▸ hi) hi).1

theorem UnfoldsTo.throughout (hg : g.Linked mode) (h : g.Typed W) (ht : g.UnfoldsTo id t) :
    t.Throughout W := by
  obtain ⟨n, hn, ht⟩ := ht
  exact (ht.throughout hg h ((hg.currents id n hn).types hg (h.current id n hn))).1

/-! ## Annotated graphs -/

/-- The expression and those below it, placeholders aside, have row types that their trees may
have. -/
def Annotates (g : Graph) (T : Annotation) (n : Node) : Prop :=
  n.Everywhere fun m => m.vertexId? = none → ∃ t, g.Unfolds m t ∧ T t m.rowType

/-- The expressions of the vertices have row types that their trees may have. -/
def Annotated (T : Annotation) (g : Graph) : Prop :=
  ∀ id n t, g.current? id = some n → g.Unfolds n t → T t n.rowType

theorem Annotates.mono (h : ∀ i n, g.current? i = some n → g'.current? i = some n)
    (hn : g.Annotates T node) : g'.Annotates T node :=
  Node.Everywhere.mono (fun _ hm hnone => (hm hnone).imp fun _ ht => ⟨ht.1.mono h, ht.2⟩) node hn

theorem Linked.annotates_placeholder (hg : g.Linked mode) (h : g.placeholder? id = some node) :
    g.Annotates T node := by
  obtain ⟨traits, rowType, rfl⟩ := hg.placeholders id node h
  refine Node.everywhere_iff.2 ⟨fun hnone => ?_, fun i hi => ?_⟩
  · cases hnone
  · cases hi

theorem OverVertices.annotates (hg : g.Linked mode) (hn : g.OverVertices node)
    (ht : g.Unfolds node t) (h : T t node.rowType) : g.Annotates T node := by
  refine Node.everywhere_iff.2 ⟨fun _ => ⟨t, ht, h⟩, fun i hi => ?_⟩
  obtain ⟨j, hj⟩ := hn.inputs i hi
  exact hg.annotates_placeholder hj

/-- A placeholder has a row type that the tree of its vertex may have. -/
theorem Annotated.placeholder (h : g.Annotated T) (htyped : g.Typed W) (hg : g.Linked mode)
    (hp : g.placeholder? id = some node) (ht : g.Unfolds node t) : T t node.rowType := by
  obtain ⟨n, hn, ht⟩ := (unfolds_of_vertexId? (hg.vertexId?_placeholder hp)).1 ht
  rw [htyped.placeholder id n node hn hp]
  exact h id n t hn ht

theorem annotated_empty : Annotated T empty := by
  simp [Annotated, empty, current?, vertex?]

theorem Annotated.congr (h : g.Annotated T) (hg : ∀ i, g'.current? i = g.current? i) :
    g'.Annotated T := fun i n t hn ht =>
  h i n t (hg i ▸ hn) (ht.mono fun j _ hm => (hg j) ▸ hm)

theorem Inserted.annotated {key : DigestKey} (hg : g.Consistent mode)
    (hins : Inserted g node key id g') (h : g.Annotated T) (ht : g.Unfolds node t)
    (hn : T t node.rowType) : g'.Annotated T := by
  have hext := hins.extends hg.free
  intro i n u hi hu
  rw [hins.current?] at hi
  split_ifs at hi
  · cases hi
    rwa [hu.unique (ht.extends hext)]
  · obtain ⟨v, hv⟩ := hg.exists_unfolds (hg.currents i n hi)
    rw [hu.unique (hv.extends hext)]
    exact h i n v hi hv

theorem Sweep.annotated (hg : g.Consistent mode) (hsweep : g.Sweep g') (h : g.Annotated T) :
    g'.Annotated T := by
  intro i n t hn ht
  obtain ⟨_, -, -, hd⟩ := hsweep.discarded hg.toLinked
  have hold := hn
  rw [hd.current?] at hold
  split_ifs at hold
  obtain ⟨u, hu⟩ := hg.exists_unfolds (hg.currents i n hold)
  obtain ⟨m, hm, hu'⟩ := UnfoldsTo.sweep hg hsweep (contains_of_current hn) ⟨n, hold, hu⟩
  obtain rfl := Option.some.inj (hn.symm.trans hm)
  rw [ht.unique hu']
  exact h i n u hold hu

/-- Parents may be redirected to a vertex of a related tree. -/
theorem Contracted.annotated {preserved discarded : VertexId} {placeholder : Node}
    {parents : List VertexId} (hR : Node.Congruence R)
    (hT : ∀ {t u rowType}, R t u → T t rowType → T u rowType) (hg : g.Consistent mode)
    (hr : g.Redirectable preserved discarded placeholder parents)
    (hc : Contracted mode preserved discarded placeholder parents g g') (hg' : g'.Acyclic)
    (hrelated : ∀ t, g.UnfoldsTo discarded t → ∃ u, g.UnfoldsTo preserved u ∧ R t u)
    (h : g.Annotated T) : g'.Annotated T := by
  intro i n t hn ht
  obtain ⟨m, hm, hrow⟩ : ∃ m, g.current? i = some m ∧ n.rowType = m.rowType := by
    rw [hc.current] at hn
    split_ifs at hn
    · obtain ⟨m, hm, rfl⟩ := Option.map_eq_some_iff.1 hn
      exact ⟨m, hm, rfl⟩
    · exact ⟨n, hn, rfl⟩
  obtain ⟨u, hu⟩ := hg.exists_unfolds (hg.currents i m hm)
  obtain ⟨v, ⟨n', hn', hv⟩, huv⟩ := UnfoldsTo.contracted hR hg.toLinked hr hc hg' hrelated
    (contains_of_current hn) ⟨m, hm, hu⟩
  obtain rfl := Option.some.inj (hn.symm.trans hn')
  rw [ht.unique hv, hrow]
  exact hT huv (h i m u hm hu)

end Graph

/-- What the rule proposes passes the check over a typed graph, and has the row type of the matched
expression. -/
def Rule.KeepsTypes (W : TypeCheck) (rule : Rule) : Prop :=
  ∀ (p : Planner) (id : VertexId) (force : Bool) (node : Node) (proposed : List Node),
    p.graph.Consistent p.settings.digestMode → p.graph.Typed W →
      p.Proposes rule id force node proposed →
        ∀ n ∈ proposed, p.graph.Types W n ∧ n.rowType = node.rowType

/-- Over an annotated graph, what the rule proposes is annotated, and its tree is related to that of the
matched expression. -/
def Rule.KeepsTrees (R : Node → Node → Prop) (W : TypeCheck) (T : Annotation) (rule : Rule) : Prop :=
  ∀ (p : Planner) (id : VertexId) (force : Bool) (node t : Node) (proposed : List Node),
    p.graph.Consistent p.settings.digestMode → p.graph.Typed W → p.graph.Annotated T →
      p.Proposes rule id force node proposed → p.graph.Unfolds node t →
        ∀ n ∈ proposed, p.graph.Annotates T n ∧ ∃ u, p.graph.Unfolds n u ∧ R t u

namespace Planner

variable {p q : Planner} {s : Settings}

/-- What is known of row types from trees: related trees may have the same ones. Where vertices are
shared, expressions of the family with equal keys have related trees, and a tree may have one row type
alone. -/
structure Tells (s : Settings) (F : Operator → TraitSet → Prop) (R : Node → Node → Prop)
    (T : Annotation) : Prop where
  congruence : Node.Congruence R
  related : ∀ {t u rowType}, R t u → T t rowType → T u rowType
  keys : KeysRelateIn s F R
  unique : s.dag = true → ∀ {t a b}, T t a → T t b → a = b

/-- Where vertices are not shared, nothing needs to be known. -/
theorem tells_of_unshared (h : s.dag = false) :
    Tells s (fun _ _ => True) Eq fun _ _ => True where
  congruence := Node.congruence_eq
  related _ _ := trivial
  keys := fun _ _ _ hdag => by simp [h] at hdag
  unique hdag := by simp [h] at hdag

/-- Expressions of the family that pass the check, over vertices of which this holds, with row types
that their trees may have. -/
structure WellFormed (s : Settings) (F : Operator → TraitSet → Prop) (W : TypeCheck) (T : Annotation)
    (p : Planner) : Prop where
  settings : p.settings = s
  consistent : p.graph.Consistent s.digestMode
  within : p.graph.Within F
  typed : p.graph.Typed W
  annotated : p.graph.Annotated T

theorem WellFormed.consistent_own (h : p.WellFormed s F W T) :
    p.graph.Consistent p.settings.digestMode := by
  rw [h.settings]
  exact h.consistent

theorem WellFormed.congr (h : p.WellFormed s F W T) (hs : q.settings = p.settings)
    (hg : p.graph.Alike q.graph) : q.WellFormed s F W T where
  settings := hs.trans h.settings
  consistent := h.consistent.congr hg
  within := h.within.congr hg.current?
  typed := h.typed.congr hg.current? hg.placeholder?
  annotated := h.annotated.congr hg.current?

/-- An expression is placed at a vertex of its row type. -/
theorem typed_place (htells : Tells s F R T) (hp : p.WellFormed s F W T) {node t : Node}
    (hover : p.graph.OverVertices node) (hF : F node.operator node.traits)
    (hn : W node.operator (node.inputs.map Node.rowType) node.rowType) (ht : p.graph.Unfolds node t)
    (hT : T t node.rowType) {id : VertexId} (h : place node p = .ok id q) : q.WellFormed s F W T ∧
      ∃ placeholder, q.graph.placeholder? id = some placeholder ∧
        placeholder.rowType = node.rowType := by
  obtain rfl := hp.settings
  have hends : Ends (place node) p (fun id q => q.WellFormed p.settings F W T ∧
      ∃ placeholder, q.graph.placeholder? id = some placeholder ∧
        placeholder.rowType = node.rowType) fun _ _ => True := by
    refine ends_bind.2 (ends_get.2 ?_)
    simp only
    split
    · next id hid =>
      have hdag : p.settings.dag = true := by
        by_contra h
        simp [h] at hid
      rw [if_pos hdag, lookup_eq_some_iff hp.consistent.digests_nodup] at hid
      have hkey := hp.consistent.digests _ _ hid
      obtain ⟨held, hheld⟩ := contains_iff_current.1 (contains_of_key hkey)
      obtain ⟨placeholder, hplaceholder⟩ := Linked.exists_placeholder (contains_of_key hkey)
      have hkeys := hp.consistent.keys id held hheld
      rw [hkey, Option.some.injEq] at hkeys
      -- the tree of the expression that is there is related, so both row types are known of it
      obtain ⟨u, hu, htu⟩ := htells.keys p.graph hp.consistent.toLinked hp.within hdag node held id
        hover hF hheld hkeys t ht
      have hrow : node.rowType = held.rowType := htells.unique hdag (htells.related htu hT)
        (hp.annotated id held u hheld hu)
      exact ends_pure.2 ⟨hp, placeholder, hplaceholder,
        (hp.typed.placeholder id held placeholder hheld hplaceholder).trans hrow.symm⟩
    · have hins := inserted_insert hp.consistent.free node (node.key p.settings.digestMode)
      refine ends_bind.2 (ends_set.2 (ends_bind.2 (ends_modify.2 (ends_pure.2 ⟨?_, ?_⟩))))
      · exact ⟨rfl, hins.consistent hp.consistent hover rfl, hins.within hp.within hF,
          hins.typed hp.typed hn, hins.annotated hp.consistent hp.annotated ht hT⟩
      · exact ⟨_, (hins.placeholder? _).trans (if_pos rfl), rfl⟩
  exact hends.ok h

mutual

theorem typed_add (htells : Tells s F R T) :
    ∀ (n : Node) (p q : Planner) (id : VertexId), p.WellFormed s F W T → n.Within F →
      p.graph.Types W n → p.graph.Annotates T n → add n p = .ok id q → q.WellFormed s F W T ∧
        ∃ placeholder, q.graph.placeholder? id = some placeholder ∧ placeholder.rowType = n.rowType
  | ⟨op, inputs, traits, rowType⟩, p, q, id, hp, hF, hn, hT, h => by
    by_cases hop : ∃ j, op = .vertex j
    · obtain ⟨j, rfl⟩ := hop
      obtain ⟨-, rfl, rfl⟩ := add_vertex_eq_ok.1 h
      exact ⟨hp, (types_vertex rfl).1 hn⟩
    · have hop : ∀ j, op ≠ .vertex j := fun j hj => hop ⟨j, hj⟩
      have hnone : ∀ is, Node.vertexId? ⟨op, is, traits, rowType⟩ = none := fun is =>
        Node.vertexId?_eq_none.2 hop
      obtain ⟨hhead, hinputs⟩ : F op traits ∧ ∀ i ∈ inputs, i.Within F :=
        (Node.within_operator (hnone inputs)).1 hF
      obtain ⟨hcheck, htypes⟩ := (types_operator (hnone inputs)).1 hn
      obtain ⟨hannotated, hbelow⟩ := Node.everywhere_iff.1 hT
      obtain ⟨_, ht, hT⟩ := hannotated (hnone inputs)
      obtain ⟨ts, hts, rfl⟩ := (unfolds_operator (hnone inputs)).1 ht
      obtain ⟨placeholders, p₁, hadd, hplace⟩ := (add_operator_eq_ok hop).1 h
      obtain ⟨hp₁, hmap⟩ :=
        typed_addInputs htells inputs p p₁ placeholders hp hinputs htypes hbelow hadd
      obtain ⟨hextended, hall⟩ := (ends_addInputs inputs p hp.consistent_own).ok hadd
      have hover := hall.overVertices
      rw [hp.settings] at hall
      -- the trees of the placeholders are related to those of the inputs
      obtain ⟨us, hus, htus⟩ := PlacesAll.related htells.congruence hp₁.consistent
        (htells.keys p₁.graph hp₁.consistent.toLinked hp₁.within) inputs placeholders ts hall hinputs
        (hts.imp fun _ _ h => h.extends (hextended.graph hp.consistent_own))
      refine typed_place htells hp₁ ⟨hnone _, hover⟩ hhead ?_
        ((unfolds_operator (hnone _)).2 ⟨us, hus, rfl⟩)
        (htells.related (htells.congruence.inputs ⟨op, inputs, traits, rowType⟩ htus) hT) hplace
      show W op (placeholders.map Node.rowType) rowType
      rw [hmap]
      exact hcheck

theorem typed_addInputs (htells : Tells s F R T) :
    ∀ (ns : List Node) (p q : Planner) (placeholders : List Node), p.WellFormed s F W T →
      (∀ n ∈ ns, n.Within F) → (∀ n ∈ ns, p.graph.Types W n) →
        (∀ n ∈ ns, p.graph.Annotates T n) → addInputs ns p = .ok placeholders q →
          q.WellFormed s F W T ∧ placeholders.map Node.rowType = ns.map Node.rowType
  | [], p, q, placeholders, hp, hF, hn, hT, h => by
    rw [addInputs] at h
    cases h
    exact ⟨hp, rfl⟩
  | n :: ns, p, q, placeholders, hp, hF, hn, hT, h => by
    rw [List.forall_mem_cons] at hF hn hT
    obtain ⟨id, placeholder, rest, p₁, hadd, hplaceholder, hrest, rfl⟩ := addInputs_cons_eq_ok.1 h
    obtain ⟨hp₁, _, hheld, htype⟩ := typed_add htells n p p₁ id hp hF.1 hn.1 hT.1 hadd
    obtain rfl := Option.some.inj (hheld.symm.trans hplaceholder)
    have hext := ((ends_add n p hp.consistent_own).ok hadd).1.graph hp.consistent_own
    obtain ⟨hq, hmap⟩ := typed_addInputs htells ns p₁ q rest hp₁ hF.2
      (fun m hm => (hn.2 m hm).mono (fun _ _ => hext.placeholder?_of_some) m)
      (fun m hm => (hT.2 m hm).mono fun _ _ => hext.current?_of_some) hrest
    exact ⟨hq, by rw [List.map_cons, List.map_cons, hmap, htype]⟩

end

/-- What a rule proposes for an expression of the row type and the tree. -/
structure Candidate (F : Operator → TraitSet → Prop) (R : Node → Node → Prop) (W : TypeCheck)
    (T : Annotation) (g : Graph) (t : Node) (rowType : Schema) (n : Node) : Prop where
  within : n.Within F
  types : g.Types W n
  annotates : g.Annotates T n
  rowType : n.rowType = rowType
  related : ∃ u, g.Unfolds n u ∧ R t u

theorem Candidate.alike {g g' : Graph} {n t : Node} {rowType : Schema} (hg : g.Alike g')
    (h : Candidate F R W T g t rowType n) : Candidate F R W T g' t rowType n where
  within := h.within
  types := h.types.mono (fun i _ hm => (hg.placeholder? i).trans hm) n
  annotates := h.annotates.mono fun i _ hm => (hg.current? i).trans hm
  rowType := h.rowType
  related := h.related.imp fun _ hu => ⟨hu.1.mono fun i _ hm => (hg.current? i).trans hm, hu.2⟩

theorem Substituted.typed (htells : Tells s F R T) {id : VertexId} {candidates : List Node}
    {result : Option VertexId} {old t : Node} (hp : p.WellFormed s F W T)
    (hold : p.graph.placeholder? id = some old) (ht : p.graph.UnfoldsTo id t)
    (hcandidates : ∀ n ∈ candidates, Candidate F R W T p.graph t old.rowType n)
    (h : p.Substituted id candidates result q) : q.WellFormed s F W T := by
  have hadded : ∀ {best : Node} {result : VertexId} {p₁ p₂ : Planner}, best ∈ candidates →
      p.Undisturbed p₁ → add best p₁ = .ok result p₂ → p₂.WellFormed s F W T ∧ p.Extended p₂ ∧
        (∃ placeholder, p₂.graph.placeholder? result = some placeholder ∧
          placeholder.rowType = old.rowType) ∧ ∃ u, p₂.graph.UnfoldsTo result u ∧ R t u := by
    intro best result p₁ p₂ hbest h₁ hadd
    have hcandidate := (hcandidates best hbest).alike h₁.graph
    have hp₁ := hp.congr h₁.settings h₁.graph
    obtain ⟨hp₂, placeholder, hplaceholder, htype⟩ := typed_add htells best p₁ p₂ result hp₁
      hcandidate.within hcandidate.types hcandidate.annotates hadd
    obtain ⟨hextended, hplaces⟩ := (ends_add best p₁ hp₁.consistent_own).ok hadd
    rw [hp₁.settings] at hplaces
    obtain ⟨u, hu, htu⟩ := hcandidate.related
    obtain ⟨v, hv, huv⟩ := hplaces.related htells.congruence hp₂.consistent
      (htells.keys p₂.graph hp₂.consistent.toLinked hp₂.within) best result u hcandidate.within
      (hu.extends (hextended.graph hp₁.consistent_own))
    exact ⟨hp₂, h₁.extended.trans hextended,
      ⟨placeholder, hplaceholder, htype.trans hcandidate.rowType⟩, v, hv,
      htells.congruence.trans htu huv⟩
  cases h with
  | circular hbest h₁ hadd hlive => exact (hadded hbest h₁ hadd).1
  | kept hbest h₁ hadd hq =>
    obtain ⟨events, rfl⟩ := hq
    obtain ⟨hp₂, -⟩ := hadded hbest h₁ hadd
    exact ⟨hp₂.settings, hp₂.consistent, hp₂.within, hp₂.typed, hp₂.annotated⟩
  | @merged best result p₁ p₂ g events hbest h₁ hadd hne hg hcheck =>
    obtain ⟨hp₂, hextended, ⟨placeholder, hplaceholder, htype⟩, u, hu, htu⟩ := hadded hbest h₁ hadd
    rw [← hextended.settings, hp₂.settings] at hg
    have hext := hextended.graph hp.consistent_own
    obtain ⟨placeholder', parents, -, hr, hc⟩ := hg.contracted hp₂.consistent.toLinked
    obtain rfl := Option.some.inj (hplaceholder.symm.trans hr.placeholder_eq)
    have hg' := hg.consistent hp₂.consistent hcheck
    refine ⟨hp₂.settings, hg', hc.within hp₂.within,
      hc.typed hp₂.consistent.toLinked (hext.placeholder?_of_some hold) htype hp₂.typed,
      hc.annotated htells.congruence htells.related hp₂.consistent hr hg'.acyclic
        (fun t' ht' => ?_) hp₂.annotated⟩
    rw [ht'.unique (ht.extends hext)]
    exact ⟨u, hu, htu⟩

/-- Rules that keep types and trees leave typed graphs typed. -/
theorem law_typed (htells : Tells s F R T) :
    Law (fun rule => rule.StaysWithin F ∧ rule.KeepsTypes W ∧ rule.KeepsTrees R W T)
      (fun p q => p.WellFormed s F W T → q.WellFormed s F W T) fun _ _ _ => True where
  undisturbed p q h hp := hp.congr h.settings h.graph
  execution p e hp := ⟨hp.settings, hp.consistent, hp.within, hp.typed, hp.annotated⟩
  trans p q r h h' := h' ∘ h
  swept p q hc h hp := by
    have hsettings := h.settings.trans hp.settings
    obtain ⟨hwithin, htyped, hannotated⟩ :
        q.graph.Within F ∧ q.graph.Typed W ∧ q.graph.Annotated T := by
      rcases h.graph with heq | hg
      · rw [heq]
        exact ⟨hp.within, hp.typed, hp.annotated⟩
      · obtain ⟨root, -, -, hd⟩ := hg.discarded hc.toLinked
        exact ⟨hd.within hp.within, hd.typed hp.typed, hg.annotated hc hp.annotated⟩
    have hq := h.consistent hc
    rw [hsettings] at hq
    exact ⟨hsettings, hq, hwithin, htyped, hannotated⟩
  attempt p rule id force hc hrule := by
    refine (ends_attempt_cases hc rule id force).mono (fun replacement q h hp => ?_)
      fun _ _ _ => trivial
    cases h with
    | idle h => exact hp.congr h.settings h.graph
    | @tried node proposed p₁ q result hproposes h hs =>
      obtain ⟨old, hold⟩ := Linked.exists_placeholder (contains_of_current hproposes.current)
      obtain ⟨t, ht⟩ := hc.exists_unfolds (hc.currents id node hproposes.current)
      have hmono : ∀ i m, p.graph.current? i = some m → p₁.graph.current? i = some m :=
        fun i m hm => (h.graph.current? i).trans hm
      refine hs.typed htells (hp.congr h.settings h.graph) ((h.graph.placeholder? id).trans hold)
        (UnfoldsTo.mono hmono ⟨node, hproposes.current, ht⟩) fun n hn => ?_
      obtain ⟨hwithin, htypes, htrees⟩ := hrule
      obtain ⟨htype, hrow⟩ := htypes p id force node proposed hc hp.typed hproposes n hn
      obtain ⟨hannotates, hrelated⟩ :=
        htrees p id force node t proposed hc hp.typed hp.annotated hproposes ht n hn
      exact Candidate.alike h.graph ⟨hwithin p id force node proposed hc hp.within hproposes n hn,
        htype, hannotates, hrow.trans (hp.typed.placeholder id node old hproposes.current hold).symm,
        hrelated⟩
  fault _ _ _ _ := trivial
  fault_trans _ _ _ _ _ _ := trivial
  fault_execution _ _ _ _ _ := trivial

mutual

/-- A plan that passes the check throughout is typed in every graph, for it has no placeholders. -/
theorem types_of_throughout
    (hW : ∀ op inputs rowType, W op inputs rowType → op.Derives inputs rowType) (g : Graph) :
    ∀ n : Node, n.Throughout W → g.Types W n
  | ⟨op, inputs, traits, rowType⟩, h => by
    obtain ⟨hcheck, hinputs⟩ := Node.throughout_iff.1 h
    have hop : ∀ id, op ≠ .vertex id := by
      rintro id rfl
      cases hW _ _ _ hcheck
    rw [Types]
    · exact ⟨hcheck, typesAll_of_throughout hW g inputs hinputs⟩
    · exact hop

theorem typesAll_of_throughout
    (hW : ∀ op inputs rowType, W op inputs rowType → op.Derives inputs rowType) (g : Graph) :
    ∀ ns : List Node, (∀ n ∈ ns, n.Throughout W) → g.TypesAll W ns
  | [], _ => by
    rw [TypesAll]
    trivial
  | n :: ns, h => by
    rw [List.forall_mem_cons] at h
    rw [TypesAll]
    exact ⟨types_of_throughout hW g n h.1, typesAll_of_throughout hW g ns h.2⟩

end

/-- A plan without placeholders is annotated in every graph if its subtrees are. -/
theorem annotates_of_subtrees (g : Graph) {plan : Node}
    (hplan : plan.Everywhere fun m => m.vertexId? = none)
    (hT : plan.Everywhere fun m => T m m.rowType) : g.Annotates T plan := by
  rw [Graph.Annotates, Node.everywhere_iff_subtrees]
  rw [Node.everywhere_iff_subtrees] at hT
  exact fun m hm _ => ⟨m, unfolds_self g m (Node.everywhere_of_mem_subtrees plan hplan m hm), hT m hm⟩

theorem wellFormed_build
    (hW : ∀ op inputs rowType, W op inputs rowType → op.Derives inputs rowType)
    {settings : Settings} {program : Program} {rules : List Rule} {plan : Node}
    (htells : Tells settings F R T) (hF : plan.Within F) (hplan : plan.Throughout W)
    (hT : plan.Everywhere fun m => T m m.rowType)
    (h : build settings program rules plan = .ok () p) : p.WellFormed settings F W T := by
  have hinit := ready_initial settings program fun _ => True
  obtain ⟨-, hloaded⟩ := (ends_load plan (by simp [Closed]) hinit).ok h
  obtain ⟨r, r', id, hs, hg, hadd, hq⟩ := hloaded.added
  have hr : r.WellFormed settings F W T := by
    refine ⟨hs, ?_, ?_, ?_, ?_⟩
    · rw [hg]
      exact consistent_empty _
    · rw [hg]
      exact within_empty
    · rw [hg]
      exact typed_empty
    · rw [hg]
      exact annotated_empty
  have htyped : plan.WellTyped := Node.Everywhere.mono (fun _ hm => hW _ _ _ hm) plan hplan
  obtain ⟨hr', -⟩ := typed_add htells plan r r' id hr hF (types_of_throughout hW _ plan hplan)
    (annotates_of_subtrees _ htyped.without_vertices hT) hadd
  refine ⟨hloaded.settings, ?_, ?_, ?_, ?_⟩
  · rw [← show p.settings = settings from hloaded.settings]
    exact (hloaded.consistent hinit.consistent).1
  · exact hr'.within.congr fun i => by rw [hq]; rfl
  · exact hr'.typed.congr (fun i => by rw [hq]; rfl) fun i => by rw [hq]; rfl
  · exact hr'.annotated.congr fun i => by rw [hq]; rfl

/-- Every node of the best plan passes the check that every node of the given one passed, if the
rules keep types and trees. -/
theorem ends_findBestPlan_typed (htells : Tells s F R T)
    (hp : p.Ready fun rule => rule.StaysWithin F ∧ rule.KeepsTypes W ∧ rule.KeepsTrees R W T)
    (hprogram : ∀ r ∈ p.program.rules,
      r.StaysWithin F ∧ r.KeepsTypes W ∧ r.KeepsTrees R W T)
    (hwf : p.WellFormed s F W T) (fuel : Nat) :
    Ends (findBestPlan fuel) p (fun plan _ => plan.tree.Throughout W) fun _ _ => True := by
  refine ((law_typed htells).findBestPlan hp hprogram fuel).mono ?_ fun _ _ h => h
  rintro plan - ⟨q, root, hrelated, hq, -, -, htree⟩
  exact htree.throughout hq.toLinked (hrelated hwf).typed

end Planner

end QueryPlanner
