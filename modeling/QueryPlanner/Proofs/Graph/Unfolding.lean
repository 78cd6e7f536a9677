import QueryPlanner.Proofs.Graph.Exactness
import QueryPlanner.Proofs.Node.Key
import QueryPlanner.Proofs.Node.Tree
import QueryPlanner.Proofs.Planner.Families

/-!
# Unfolding a graph into trees

The tree of an expression has the trees of the vertices in place of their placeholders. In a
consistent graph everything has exactly one tree. An expression is placed at a vertex of its tree, up
to what keys leave out. Growing and sweeping keep the trees of the vertices that remain. A merge puts
one tree in place of another wherever that occurs, so what relates the two trees relates the trees of
every vertex before and after.
-/

namespace QueryPlanner

/-- A relation of trees that holds between trees over related inputs. -/
structure Node.Congruence (R : Node → Node → Prop) : Prop where
  refl : ∀ t, R t t
  trans : ∀ {t u v}, R t u → R u v → R t v
  inputs : ∀ (n : Node) {ts us : List Node}, List.Forall₂ R ts us →
    R { n with inputs := ts } { n with inputs := us }

theorem Node.congruence_eq : Node.Congruence Eq where
  refl _ := rfl
  trans := Eq.trans
  inputs n ts us h := by
    rw [List.forall₂_eq_eq_eq] at h
    rw [h]

/-- Trees that are the same, row types aside. -/
theorem Node.congruence_bare : Node.Congruence fun t u => u.bare = t.bare where
  refl _ := rfl
  trans h h' := h'.trans h
  inputs n ts us h := by
    have hinputs : bares us = bares ts := by
      induction h with
      | nil => rfl
      | cons htu _ ih => rw [bares, bares, htu, ih]
    rw [bare, bare, hinputs]

/-- What relates the members of two lists takes a third one along. -/
theorem exists_forall₂_of_forall₂ {α β γ δ : Type*} {P : α → β → Prop} {Q : α → γ → Prop}
    {S : β → δ → Prop} {R : γ → δ → Prop}
    (h : ∀ a b c, P a b → Q a c → ∃ d, S b d ∧ R c d) {as : List α} {bs : List β}
    (hab : List.Forall₂ P as bs) : ∀ {cs : List γ}, List.Forall₂ Q as cs →
      ∃ ds, List.Forall₂ S bs ds ∧ List.Forall₂ R cs ds := by
  induction hab with
  | nil =>
    rintro _ ⟨⟩
    exact ⟨[], .nil, .nil⟩
  | cons hab _ ih =>
    rintro _ (_ | ⟨hac, hacs⟩)
    obtain ⟨d, hbd, hcd⟩ := h _ _ _ hab hac
    obtain ⟨ds, hbds, hcds⟩ := ih hacs
    exact ⟨d :: ds, .cons hbd hbds, .cons hcd hcds⟩

/-- Every member of the first list is related to one of the second. -/
theorem exists_of_mem_forall₂ {α β : Type*} {R : α → β → Prop} {as : List α} {bs : List β}
    (h : List.Forall₂ R as bs) : ∀ a ∈ as, ∃ b ∈ bs, R a b := by
  induction h with
  | nil => simp
  | @cons a b as bs hab _ ih =>
    rw [List.forall_mem_cons]
    refine ⟨⟨b, List.mem_cons_self, hab⟩, fun a' ha' => ?_⟩
    obtain ⟨b', hb', hab'⟩ := ih a' ha'
    exact ⟨b', List.mem_cons_of_mem b hb', hab'⟩

/-- A list that is related to another one and to its image relates members and images. -/
theorem exists_common_of_forall₂ {α β γ : Type*} {P : α → γ → Prop} {Q : β → γ → Prop} {f : α → β}
    {as : List α} {cs : List γ} (h : List.Forall₂ P as cs) :
    List.Forall₂ Q (as.map f) cs → ∀ a ∈ as, ∃ c, P a c ∧ Q (f a) c := by
  induction h with
  | nil => simp
  | @cons a c as cs hac _ ih =>
    rw [List.map_cons, List.forall₂_cons, List.forall_mem_cons]
    exact fun ⟨hfac, hfas⟩ => ⟨⟨c, hac, hfac⟩, ih hfas⟩

namespace Graph

open Relation

variable {mode : DigestMode} {g g' : Graph} {node t u : Node} {id : VertexId}

/-- The tree of an expression. -/
inductive Unfolds (g : Graph) : Node → Node → Prop
  | vertex {id : VertexId} {inputs : List Node} {traits : TraitSet} {rowType : Schema}
      {node tree : Node} (hcurrent : g.current? id = some node) (h : Unfolds g node tree) :
      Unfolds g ⟨.vertex id, inputs, traits, rowType⟩ tree
  | operator {op : Operator} {inputs trees : List Node} {traits : TraitSet} {rowType : Schema}
      (hop : ∀ id, op ≠ .vertex id) (hlength : trees.length = inputs.length)
      (h : ∀ (i : Nat) (n tree : Node),
        inputs[i]? = some n → trees[i]? = some tree → Unfolds g n tree) :
      Unfolds g ⟨op, inputs, traits, rowType⟩ ⟨op, trees, traits, rowType⟩

/-- The tree of a vertex is that of its expression. -/
def UnfoldsTo (g : Graph) (id : VertexId) (tree : Node) : Prop :=
  ∃ node, g.current? id = some node ∧ g.Unfolds node tree

theorem UnfoldsTo.contains (h : g.UnfoldsTo id t) : g.contains id = true := by
  obtain ⟨node, hn, -⟩ := h
  exact contains_of_current hn

theorem unfolds_of_vertexId? (h : node.vertexId? = some id) :
    g.Unfolds node t ↔ g.UnfoldsTo id t := by
  obtain ⟨op, inputs, traits, rowType⟩ := node
  obtain rfl : op = .vertex id := by
    cases op <;> simp_all [Node.vertexId?]
  constructor
  · intro ht
    cases ht with
    | vertex hcurrent ht => exact ⟨_, hcurrent, ht⟩
    | operator hop => exact absurd rfl (hop id)
  · rintro ⟨n, hcurrent, ht⟩
    exact .vertex hcurrent ht

theorem unfolds_operator (h : node.vertexId? = none) :
    g.Unfolds node t ↔ ∃ ts, List.Forall₂ g.Unfolds node.inputs ts ∧ t = { node with inputs := ts } := by
  have hop := Node.vertexId?_eq_none.1 h
  obtain ⟨op, inputs, traits, rowType⟩ := node
  constructor
  · intro ht
    cases ht with
    | vertex => exact absurd rfl (hop _)
    | operator _ hlength hts =>
      refine ⟨_, List.forall₂_iff_get.2 ⟨hlength.symm, fun i h h' => ?_⟩, rfl⟩
      exact hts i _ _ (by simp) (by simp)
  · rintro ⟨ts, hts, rfl⟩
    obtain ⟨hlength, hts⟩ := List.forall₂_iff_get.1 hts
    apply Unfolds.operator hop hlength.symm
    intro i n tree hn ht
    obtain ⟨hi, rfl⟩ := List.getElem?_eq_some_iff.1 hn
    obtain ⟨hi', rfl⟩ := List.getElem?_eq_some_iff.1 ht
    exact hts i hi hi'

mutual

/-- A tree without placeholders is its own tree. -/
theorem unfolds_self (g : Graph) : ∀ n : Node, (n.Everywhere fun m => m.vertexId? = none) →
    g.Unfolds n n
  | ⟨op, inputs, traits, rowType⟩, h => by
    obtain ⟨hnone, hinputs⟩ := Node.everywhere_iff.1 h
    exact (unfolds_operator hnone).2 ⟨inputs, forall₂_unfolds_self g inputs hinputs, rfl⟩

theorem forall₂_unfolds_self (g : Graph) : ∀ ns : List Node,
    (∀ n ∈ ns, n.Everywhere fun m => m.vertexId? = none) → List.Forall₂ g.Unfolds ns ns
  | [], _ => .nil
  | n :: ns, h => by
    rw [List.forall_mem_cons] at h
    exact .cons (unfolds_self g n h.1) (forall₂_unfolds_self g ns h.2)

end

/-- An expression has one tree at most. -/
theorem Unfolds.unique (h : g.Unfolds node t) : ∀ {u}, g.Unfolds node u → t = u := by
  induction h with
  | vertex hcurrent ht ih =>
    intro u hu
    obtain ⟨n, hn, hu⟩ := (unfolds_of_vertexId? rfl).1 hu
    obtain rfl := Option.some.inj (hcurrent.symm.trans hn)
    exact ih hu
  | @operator op inputs ts traits rowType hop hlength hts ih =>
    intro u hu
    obtain ⟨us, hus, rfl⟩ := (unfolds_operator (Node.vertexId?_eq_none.2 hop)).1 hu
    obtain ⟨hlength', hus⟩ := List.forall₂_iff_get.1 hus
    obtain rfl : ts = us := by
      apply List.ext_getElem (hlength.trans hlength')
      intro i h h'
      exact ih i _ _ (List.getElem?_eq_getElem (hlength ▸ h)) (List.getElem?_eq_getElem h)
        (hus i (hlength ▸ h) h')
    rfl

theorem UnfoldsTo.unique (h : g.UnfoldsTo id t) (h' : g.UnfoldsTo id u) : t = u := by
  obtain ⟨n, hn, ht⟩ := h
  obtain ⟨n', hn', hu⟩ := h'
  obtain rfl := Option.some.inj (hn.symm.trans hn')
  exact ht.unique hu

/-- What is over vertices that have trees has a tree. -/
theorem OverVertices.exists_unfolds (hg : g.Linked mode) (hn : g.OverVertices node)
    (h : ∀ j ∈ node.references, g.contains j = true → ∃ t, g.UnfoldsTo j t) :
    ∃ t, g.Unfolds node t := by
  obtain ⟨ts, hts⟩ : ∃ ts, List.Forall₂ g.Unfolds node.inputs ts := exists_forall₂ fun i hi => by
    obtain ⟨j, hj⟩ := hn.inputs i hi
    have hvertex := hg.vertexId?_placeholder hj
    obtain ⟨t, ht⟩ := h j (Node.mem_references.2 ⟨i, hi, hvertex⟩) (contains_of_placeholder hj)
    exact ⟨t, (unfolds_of_vertexId? hvertex).2 ht⟩
  exact ⟨_, (unfolds_operator hn.isOperator).2 ⟨ts, hts, rfl⟩⟩

/-- Every vertex of a consistent graph has a tree: by induction on a rank of the vertices. -/
theorem Consistent.exists_tree (hg : g.Consistent mode) (hid : g.contains id = true) :
    ∃ t, g.UnfoldsTo id t := by
  obtain ⟨rank, hrank⟩ := hg.acyclic.exists_ranked
  induction hr : rank id using Nat.strong_induction_on generalizing id with
  | _ r ih =>
    obtain ⟨node, hnode⟩ := contains_iff_current.1 hid
    obtain ⟨t, ht⟩ := (hg.currents id node hnode).exists_unfolds hg.toLinked fun j hj hlive =>
      ih (rank j) (hr ▸ hrank id j ((hg.edges id j).2 ⟨node, hnode, hj⟩)) hlive rfl
    exact ⟨t, node, hnode, ht⟩

theorem Consistent.exists_unfolds (hg : g.Consistent mode) (hn : g.OverVertices node) :
    ∃ t, g.Unfolds node t :=
  hn.exists_unfolds hg.toLinked fun _ _ => hg.exists_tree

/-! ## Neighbours -/

/-- The tree of an input is an input of the tree. -/
theorem UnfoldsTo.exists_input (hg : g.Linked mode) {a b : VertexId} (hab : g.Edge a b)
    (ht : g.UnfoldsTo a t) : ∃ u ∈ t.inputs, g.UnfoldsTo b u := by
  obtain ⟨n, hn, ht⟩ := ht
  obtain ⟨m, hm, hb⟩ := hg.exists_input_of_edge hn hab
  obtain ⟨ts, hts, rfl⟩ := (unfolds_operator (hg.currents a n hn).isOperator).1 ht
  obtain ⟨u, hu, hmu⟩ := exists_of_mem_forall₂ hts m hm
  exact ⟨u, hu, (unfolds_of_vertexId? hb).1 hmu⟩

/-- An input of the tree is the tree of an input. -/
theorem UnfoldsTo.exists_edge (hg : g.Linked mode) {a : VertexId} (ht : g.UnfoldsTo a t)
    (hu : u ∈ t.inputs) : ∃ b, g.Edge a b ∧ g.UnfoldsTo b u := by
  obtain ⟨n, hn, ht⟩ := ht
  obtain ⟨ts, hts, rfl⟩ := (unfolds_operator (hg.currents a n hn).isOperator).1 ht
  obtain ⟨m, hm, hmu⟩ := exists_of_mem_forall₂ hts.flip u hu
  obtain ⟨j, hj, hedge⟩ := hg.exists_edge_of_input hn hm
  exact ⟨j, hedge, (unfolds_of_vertexId? hj).1 hmu⟩

/-- The tree of an input has the traits and the row type that its placeholder shows. -/
theorem Truthful.shown_eq (h : g.Truthful) (hg : g.Linked mode) (hn : g.OverVertices node)
    {input : Node} (hinput : input ∈ node.inputs) (ht : g.Unfolds input t) :
    t.traits = input.traits ∧ t.rowType = input.rowType := by
  obtain ⟨j, hj⟩ := hn.inputs input hinput
  obtain ⟨n, hcurrent, ht⟩ := (unfolds_of_vertexId? (hg.vertexId?_placeholder hj)).1 ht
  obtain ⟨ts, -, rfl⟩ := (unfolds_operator (hg.currents j n hcurrent).isOperator).1 ht
  obtain ⟨htraits, hrowType⟩ := h j n input hcurrent hj
  exact ⟨htraits.symm, hrowType.symm⟩

/-- What holds everywhere in the tree of a vertex holds of the trees of all vertices below it. -/
theorem UnfoldsTo.everywhere_iff {P : Node → Prop} (hg : g.Consistent mode) (ht : g.UnfoldsTo id t) :
    t.Everywhere P ↔ ∀ j u, ReflTransGen g.Edge id j → g.UnfoldsTo j u → P u := by
  constructor
  · intro h j u hj hu
    induction hj using ReflTransGen.head_induction_on generalizing t with
    | refl =>
      rw [hu.unique ht]
      exact (Node.everywhere_iff.1 h).1
    | head hab _ ih =>
      obtain ⟨v, hv, hbv⟩ := ht.exists_input hg.toLinked hab
      exact ih hbv ((Node.everywhere_iff.1 h).2 v hv)
  · intro h
    obtain ⟨rank, hrank⟩ := hg.acyclic.exists_ranked
    induction hr : rank id using Nat.strong_induction_on generalizing id t with
    | _ r ih =>
      refine Node.everywhere_iff.2 ⟨h id t .refl ht, fun u hu => ?_⟩
      obtain ⟨b, hab, hbu⟩ := ht.exists_edge hg.toLinked hu
      exact ih (rank b) (hr ▸ hrank id b hab) hbu (fun j v hj => h j v (.head hab hj)) rfl

/-! ## Growing -/

/-- A tree depends on the expressions of vertices alone. -/
theorem Unfolds.mono (hg : ∀ id n, g.current? id = some n → g'.current? id = some n)
    (h : g.Unfolds node t) : g'.Unfolds node t := by
  induction h with
  | vertex hcurrent _ ih => exact .vertex (hg _ _ hcurrent) ih
  | operator hop hlength _ ih => exact .operator hop hlength ih

theorem UnfoldsTo.mono (hg : ∀ id n, g.current? id = some n → g'.current? id = some n)
    (h : g.UnfoldsTo id t) : g'.UnfoldsTo id t := by
  obtain ⟨node, hn, ht⟩ := h
  exact ⟨node, hg id node hn, ht.mono hg⟩

/-- What exists keeps its tree while the graph grows. -/
theorem Unfolds.extends (hext : g.Extends g') (h : g.Unfolds node t) : g'.Unfolds node t :=
  h.mono fun _ _ => hext.current?_of_some

theorem UnfoldsTo.extends (hext : g.Extends g') (h : g.UnfoldsTo id t) : g'.UnfoldsTo id t :=
  h.mono fun _ _ => hext.current?_of_some

/-! ## Placing -/

variable {R : Node → Node → Prop} {F : Operator → TraitSet → Prop}

/-- An expression of the family over vertices and one of the same key in the graph have related
trees. -/
def KeysRelate (s : Settings) (F : Operator → TraitSet → Prop) (R : Node → Node → Prop) (g : Graph) :
    Prop :=
  s.dag = true → ∀ (n n' : Node) (i : VertexId), g.OverVertices n → F n.operator n.traits →
    g.current? i = some n' → n.key s.digestMode = n'.key s.digestMode →
      ∀ t, g.Unfolds n t → ∃ u, g.Unfolds n' u ∧ R t u

theorem forall₂_unfolds_references {ns ts : List Node} (h : ∀ n ∈ ns, n.vertexId?.isSome = true) :
    List.Forall₂ g.Unfolds ns ts ↔ List.Forall₂ g.UnfoldsTo (ns.filterMap Node.vertexId?) ts := by
  induction ns generalizing ts with
  | nil => simp
  | cons n ns ih =>
    rw [List.forall_mem_cons] at h
    obtain ⟨j, hj⟩ := Option.isSome_iff_exists.1 h.1
    rw [List.filterMap_cons_some hj, List.forall₂_cons_left_iff, List.forall₂_cons_left_iff]
    simp only [unfolds_of_vertexId? hj, ih h.2]

/-- Where keys tell references and expressions of one key are related over the same trees, these have
related trees. -/
theorem keysRelate_of_references (hg : g.Linked s.digestMode) (hF : g.Within F)
    (hkeys : s.dag = true → ∀ n n' : Node, n.vertexId? = none → n'.vertexId? = none →
      (∀ i ∈ n.inputs, i.vertexId?.isSome = true) → (∀ i ∈ n'.inputs, i.vertexId?.isSome = true) →
      F n.operator n.traits → F n'.operator n'.traits → n.key s.digestMode = n'.key s.digestMode →
        n.references = n'.references ∧
          ∀ ts, R { n with inputs := ts } { n' with inputs := ts }) : g.KeysRelate s F R := by
  intro hdag n n' i hn hFn hcurrent hkey t ht
  have hn' := hg.currents i n' hcurrent
  have hin := hg.isSome_vertexId? hn
  have hin' := hg.isSome_vertexId? hn'
  obtain ⟨hreferences, hR⟩ := hkeys hdag n n' hn.isOperator hn'.isOperator hin hin' hFn
    (hF i n' hcurrent) hkey
  obtain ⟨ts, hts, rfl⟩ := (unfolds_operator hn.isOperator).1 ht
  rw [forall₂_unfolds_references hin] at hts
  refine ⟨{ n' with inputs := ts }, (unfolds_operator hn'.isOperator).2 ⟨ts, ?_, rfl⟩, hR ts⟩
  rw [forall₂_unfolds_references hin', ← Node.references, ← hreferences]
  exact hts

/-- Where keys tell expressions, those of the same key have the same trees, row types aside. -/
theorem keysRelate_bare (hg : g.Linked s.digestMode) (hF : g.Within F)
    (hkeys : s.dag = true → Node.KeysTellNodes F s.digestMode) :
    g.KeysRelate s F fun t u => u.bare = t.bare := by
  refine keysRelate_of_references hg hF fun hdag n n' hn hn' hin hin' hFn hFn' hkey => ?_
  obtain ⟨hop, htraits, hreferences⟩ := hkeys hdag n n' hn hn' hin hin' hFn hFn' hkey
  refine ⟨hreferences, fun ts => ?_⟩
  rw [Node.bare, Node.bare, hop, htraits]

mutual

/-- An expression is placed at a vertex of a related tree. -/
theorem Places.related (hR : Node.Congruence R) (hg : g.Consistent s.digestMode)
    (hkeys : g.KeysRelate s F R) : ∀ (n : Node) (id : VertexId) (t : Node),
      Places s g n id → n.Within F → g.Unfolds n t → ∃ u, g.UnfoldsTo id u ∧ R t u
  | ⟨op, inputs, traits, rowType⟩, id, t => by
    by_cases hop : ∃ j, op = .vertex j
    · obtain ⟨j, rfl⟩ := hop
      rw [places_vertex]
      rintro ⟨rfl, -⟩ - ht
      exact ⟨t, (unfolds_of_vertexId? rfl).1 ht, hR.refl t⟩
    · have hop : ∀ j, op ≠ .vertex j := fun j hj => hop ⟨j, hj⟩
      rw [places_operator hop]
      rintro ⟨placeholders, hall, n, hn, hkey, htree⟩ hF ht
      have hnone : ∀ is, Node.vertexId? ⟨op, is, traits, rowType⟩ = none := fun is =>
        Node.vertexId?_eq_none.2 hop
      obtain ⟨hhead, hinputs⟩ := (Node.within_operator (hnone inputs)).1 hF
      obtain ⟨ts, hts, rfl⟩ := (unfolds_operator (hnone inputs)).1 ht
      obtain ⟨us, hus, htus⟩ := PlacesAll.related hR hg hkeys inputs placeholders ts hall hinputs hts
      have hu : g.Unfolds ⟨op, placeholders, traits, rowType⟩ ⟨op, us, traits, rowType⟩ :=
        (unfolds_operator (hnone placeholders)).2 ⟨us, hus, rfl⟩
      have htu : R ⟨op, ts, traits, rowType⟩ ⟨op, us, traits, rowType⟩ :=
        hR.inputs ⟨op, inputs, traits, rowType⟩ htus
      by_cases hdag : s.dag = true
      · obtain ⟨w, hw, huw⟩ := hkeys hdag _ n id ⟨hnone _, hall.overVertices⟩ hhead hn hkey.symm _ hu
        exact ⟨w, ⟨n, hn, hw⟩, hR.trans htu huw⟩
      · rw [htree (by simpa using hdag)] at hn
        exact ⟨_, ⟨_, hn, hu⟩, htu⟩

theorem PlacesAll.related (hR : Node.Congruence R) (hg : g.Consistent s.digestMode)
    (hkeys : g.KeysRelate s F R) : ∀ (ns placeholders ts : List Node),
      PlacesAll s g ns placeholders → (∀ n ∈ ns, n.Within F) → List.Forall₂ g.Unfolds ns ts →
        ∃ us, List.Forall₂ g.Unfolds placeholders us ∧ List.Forall₂ R ts us
  | [], _, _ => by
    rw [PlacesAll]
    rintro rfl - ⟨⟩
    exact ⟨[], .nil, .nil⟩
  | n :: ns, _, _ => by
    rw [PlacesAll]
    rintro ⟨id, placeholder, rest, rfl, hn, hp, hall⟩ hF (_ | ⟨ht, hts⟩)
    rw [List.forall_mem_cons] at hF
    obtain ⟨u, hu, htu⟩ := Places.related hR hg hkeys n id _ hn hF.1 ht
    obtain ⟨us, hus, htus⟩ := PlacesAll.related hR hg hkeys ns rest _ hall hF.2 hts
    exact ⟨u :: us, .cons ((unfolds_of_vertexId? (hg.vertexId?_placeholder hp)).2 hu) hus,
      .cons htu htus⟩

end

/-! ## Rewiring -/

/-- If every reference of the later graph leads to a vertex whose tree was related to the one of what
stood in its place before, then the trees of every vertex are related: by induction on the later
graph, whatever was rewired. -/
theorem UnfoldsTo.rewired (hR : Node.Congruence R) (hg' : g'.Acyclic)
    (h : ∀ i n', g'.current? i = some n' → ∃ n, g.current? i = some n ∧ n.vertexId? = none ∧
      n'.operator = n.operator ∧ n'.traits = n.traits ∧ n'.rowType = n.rowType ∧
      List.Forall₂ (fun m m' => ∃ j, m'.vertexId? = some j ∧ g'.Edge i j ∧ g'.contains j = true ∧
        ∀ t, g.Unfolds m t → ∃ u, g.UnfoldsTo j u ∧ R t u) n.inputs n'.inputs)
    (hid : g'.contains id = true) (ht : g.UnfoldsTo id t) : ∃ u, g'.UnfoldsTo id u ∧ R t u := by
  obtain ⟨rank, hrank⟩ := hg'.exists_ranked
  induction hr : rank id using Nat.strong_induction_on generalizing id t with
  | _ r ih =>
    obtain ⟨n', hn'⟩ := contains_iff_current.1 hid
    obtain ⟨n, hn, hnone, hop, htraits, hrowType, hinputs⟩ := h id n' hn'
    obtain ⟨m, hm, ht⟩ := ht
    obtain rfl := Option.some.inj (hn.symm.trans hm)
    obtain ⟨ts, hts, rfl⟩ := (unfolds_operator hnone).1 ht
    -- input by input, what is behind the reference now is related to what was behind it
    obtain ⟨us, hus, htus⟩ := exists_forall₂_of_forall₂ (S := g'.Unfolds) (R := R)
      (fun m m' t ⟨j, hj, hedge, hlive, hrelated⟩ ht => by
        obtain ⟨u, hu, htu⟩ := hrelated t ht
        obtain ⟨v, hv, huv⟩ := ih (rank j) (hr ▸ hrank id j hedge) hlive hu rfl
        exact ⟨v, (unfolds_of_vertexId? hj).2 hv, hR.trans htu huv⟩) hinputs hts
    have hnone' : n'.vertexId? = none := by
      rw [Node.vertexId?, hop]
      exact hnone
    refine ⟨_, ⟨n', hn', (unfolds_operator hnone').2 ⟨us, hus, rfl⟩⟩, ?_⟩
    rw [hop, htraits, hrowType]
    exact hR.inputs n htus

/-- What is over vertices is rewired to itself. -/
theorem Linked.rewired_self (hR : Node.Congruence R) (hg : g.Linked mode) (hg' : g'.Linked mode)
    {i : VertexId} {n : Node} (hn' : g'.current? i = some n) (hn : g.current? i = some n) :
    List.Forall₂ (fun m m' => ∃ j, m'.vertexId? = some j ∧ g'.Edge i j ∧ g'.contains j = true ∧
      ∀ t, g.Unfolds m t → ∃ u, g.UnfoldsTo j u ∧ R t u) n.inputs n.inputs := by
  refine List.forall₂_same.2 fun m hm => ?_
  obtain ⟨j, hj, -⟩ := hg.exists_edge_of_input hn hm
  have hedge := hg'.edge_of_input hn' hm hj
  exact ⟨j, hj, hedge, (hg'.edges_live _ hedge).2,
    fun t ht => ⟨t, (unfolds_of_vertexId? hj).1 ht, hR.refl t⟩⟩

/-- A vertex that survives a sweep keeps its tree. -/
theorem UnfoldsTo.sweep (hg : g.Consistent mode) (h : g.Sweep g') (hid : g'.contains id = true)
    (ht : g.UnfoldsTo id t) : g'.UnfoldsTo id t := by
  have hg' := h.consistent hg
  obtain ⟨root, -, -, hd⟩ := h.discarded hg.toLinked
  obtain ⟨u, hu, rfl⟩ := ht.rewired Node.congruence_eq hg'.acyclic (fun i n' hn' => by
    have hn := hn'
    rw [hd.current?] at hn
    split_ifs at hn
    exact ⟨n', hn, (hg.currents i n' hn).isOperator, rfl, rfl, rfl,
      hg.toLinked.rewired_self Node.congruence_eq hg'.toLinked hn' hn⟩) hid
  exact hu

/-- Redirecting parents to a vertex of a related tree relates all trees. -/
theorem UnfoldsTo.contracted {preserved discarded : VertexId} {placeholder : Node}
    {parents : List VertexId} (hR : Node.Congruence R) (hg : g.Linked mode)
    (hr : g.Redirectable preserved discarded placeholder parents)
    (h : Contracted mode preserved discarded placeholder parents g g') (hg' : g'.Acyclic)
    (hrelated : ∀ t, g.UnfoldsTo discarded t → ∃ u, g.UnfoldsTo preserved u ∧ R t u)
    (hid : g'.contains id = true) (ht : g.UnfoldsTo id t) : ∃ u, g'.UnfoldsTo id u ∧ R t u := by
  refine ht.rewired hR hg' (fun i n' hn' => ?_) hid
  have hn := hn'
  rw [h.current] at hn
  split_ifs at hn
  · obtain ⟨n, hold, rfl⟩ := Option.map_eq_some_iff.1 hn
    have hover := hg.currents i n hold
    refine ⟨n, hold, hover.isOperator, rfl, rfl, rfl, ?_⟩
    refine List.forall₂_map_right_iff.2 (List.forall₂_same.2 fun m hm => ?_)
    have hmem := List.mem_map_of_mem (f := fun input => if input.vertexId? = some discarded then
      placeholder else input) hm
    have hedge : ∀ m' ∈ (n.redirect discarded placeholder).inputs, ∀ j, m'.vertexId? = some j →
        g'.Edge i j ∧ g'.contains j = true := by
      intro m' hm' j hj
      have hedge := h.linked.edge_of_input hn' hm' hj
      exact ⟨hedge, (h.linked.edges_live _ hedge).2⟩
    split_ifs at hmem ⊢ with hdiscarded
    · have hpreserved := hg.vertexId?_placeholder hr.placeholder_eq
      obtain ⟨he, hl⟩ := hedge _ hmem preserved hpreserved
      exact ⟨preserved, hpreserved, he, hl,
        fun t ht => hrelated t ((unfolds_of_vertexId? hdiscarded).1 ht)⟩
    · obtain ⟨j, hj⟩ := hover.inputs m hm
      have hvertex := hg.vertexId?_placeholder hj
      obtain ⟨he, hl⟩ := hedge _ hmem j hvertex
      exact ⟨j, hvertex, he, hl, fun t ht => ⟨t, (unfolds_of_vertexId? hvertex).1 ht, hR.refl t⟩⟩
  · exact ⟨n', hn, (hg.currents i n' hn).isOperator, rfl, rfl, rfl,
      hg.rewired_self hR h.linked hn' hn⟩

/-- If all parents of a vertex, along some of the edges, are redirected to one of another tree, the trees
of everything above it change. -/
theorem UnfoldsTo.contracted_ne {preserved discarded : VertexId} {placeholder : Node}
    {parents : List VertexId} {E : VertexId → VertexId → Prop} (hg : g.Consistent mode)
    (hr : g.Redirectable preserved discarded placeholder parents)
    (h : Contracted mode preserved discarded placeholder parents g g')
    (hE : ∀ a b, E a b → g.Edge a b) (hall : ∀ a, E a discarded → a ∈ parents)
    (hne : ∀ t, g.UnfoldsTo discarded t → ¬ g'.UnfoldsTo preserved t) {a : VertexId}
    (ha : TransGen E a discarded) (ht : g.UnfoldsTo a t) : ¬ g'.UnfoldsTo a t := by
  -- an input that stands for a vertex stands for it in the later graph, or for the preserved one
  have hinput : ∀ {a b t}, E a b → g.UnfoldsTo a t → g'.UnfoldsTo a t →
      ∃ v, g.UnfoldsTo b v ∧ g'.UnfoldsTo (if b = discarded then preserved else b) v := by
    intro a b t hab ht hu
    obtain ⟨n, hn, ht⟩ := ht
    obtain ⟨n', hn', hu⟩ := hu
    obtain ⟨m, hm, hb⟩ := hg.exists_input_of_edge hn (hE a b hab)
    obtain ⟨ts, hts, rfl⟩ := (unfolds_operator (hg.currents a n hn).isOperator).1 ht
    obtain ⟨us, hus, heq⟩ := (unfolds_operator (h.linked.currents a n' hn').isOperator).1 hu
    obtain rfl : ts = us := congrArg Node.inputs heq
    rw [h.current, hn] at hn'
    split_ifs at hn' with hparent
    · obtain rfl := Option.some.inj hn'
      obtain ⟨v, hv, hv'⟩ := exists_common_of_forall₂ hts hus m hm
      refine ⟨v, (unfolds_of_vertexId? hb).1 hv, ?_⟩
      simp only [hb, Option.some.injEq] at hv'
      split_ifs at hv' ⊢
      · exact (unfolds_of_vertexId? (hg.vertexId?_placeholder hr.placeholder_eq)).1 hv'
      · exact (unfolds_of_vertexId? hb).1 hv'
    · obtain rfl := Option.some.inj hn'
      obtain ⟨v, hv, hv'⟩ := exists_common_of_forall₂ (f := id) hts (by simpa using hus) m hm
      refine ⟨v, (unfolds_of_vertexId? hb).1 hv, ?_⟩
      rw [if_neg (by rintro rfl; exact hparent (hall a hab))]
      exact (unfolds_of_vertexId? hb).1 hv'
  induction ha using TransGen.head_induction_on generalizing t with
  | single hab =>
    intro hu
    obtain ⟨v, hv, hv'⟩ := hinput hab ht hu
    rw [if_pos rfl] at hv'
    exact hne v hv hv'
  | @head a b hab hbd ih =>
    intro hu
    obtain ⟨v, hv, hv'⟩ := hinput hab ht hu
    rw [if_neg (by rintro rfl; exact hg.acyclic _ (hbd.lift id hE))] at hv'
    exact ih hv hv'

end Graph

end QueryPlanner
