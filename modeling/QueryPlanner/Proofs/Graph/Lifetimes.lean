import QueryPlanner.Proofs.Graph.Contents
import QueryPlanner.Proofs.Graph.Growth
import QueryPlanner.Proofs.Graph.Redirection
import QueryPlanner.Proofs.Planner.Sweep

/-!
# Lives of vertices

A vertex is created for an expression, which gives it its placeholder, and lives until a sweep removes
it; its id may then be used for another vertex. A graph is changed in few ways, and none of them
touches the placeholder of a vertex or puts an expression at it that differs from the old one in
more than the vertices that its inputs refer to. Edges need not agree with references for that, nor need
there be no cycle: as long as there is an edge for every reference, a sweep removes nothing that is
still referred to.
-/

namespace QueryPlanner

/-- Expressions that differ in their inputs alone, and have as many. -/
structure Node.SameShape (n m : Node) : Prop where
  operator : m.operator = n.operator
  traits : m.traits = n.traits
  rowType : m.rowType = n.rowType
  arity : m.inputs.length = n.inputs.length

namespace Node.SameShape

variable {n m k : Node}

theorem refl (n : Node) : n.SameShape n := ⟨rfl, rfl, rfl, rfl⟩

theorem trans (h : n.SameShape m) (h' : m.SameShape k) : n.SameShape k :=
  ⟨h'.operator.trans h.operator, h'.traits.trans h.traits, h'.rowType.trans h.rowType,
    h'.arity.trans h.arity⟩

theorem redirect (n : Node) (id : VertexId) (placeholder : Node) :
    n.SameShape (n.redirect id placeholder) := ⟨rfl, rfl, rfl, by simp [Node.redirect]⟩

end Node.SameShape

namespace Graph

variable {mode : DigestMode} {g g' g'' : Graph} {node origin : Node} {id : VertexId}
  {sweeps sweeps' : List (List VertexId)}

/-- A placeholder tells the traits and the row type of the expression of its vertex, all inputs are
placeholders of vertices, and there is an edge for each of them. -/
structure Reliable (g : Graph) : Prop where
  free : g.FreeUnused
  placeholders : ∀ id n, g.current? id = some n →
    g.placeholder? id = some (.placeholder id n.traits n.rowType)
  currents : ∀ id n, g.current? id = some n → g.OverVertices n
  edges : ∀ id n, g.current? id = some n → ∀ j ∈ n.references, g.Edge id j
  edges_live : ∀ e ∈ g.edges, g.contains e.1 = true ∧ g.contains e.2 = true

/-- The ways in which a graph is changed: estimates are noted or forgotten, an expression over its
vertices is inserted, the expression of a vertex is registered once more, a parent is made to refer
to another vertex, a root is set, or garbage is removed. Of a sweep it is noted which ids it removes, in
which order. -/
inductive Change (mode : DigestMode) (g : Graph) : List (List VertexId) → Graph → Prop
  | noted {g' : Graph} (h : g.Alike g') : Change mode g [] g'
  | inserted {node : Node} (hn : g.OverVertices node) :
      Change mode g [] (g.insert node (node.key mode)).2
  | registered {id : VertexId} {node : Node} (h : g.current? id = some node) :
      Change mode g [] (g.replace id node (node.key mode))
  | redirected {preserved : VertexId} {placeholder : Node}
      (h : g.placeholder? preserved = some placeholder) (discarded parent : VertexId) :
      Change mode g [] (g.redirect mode preserved discarded placeholder parent)
  | rooted (root : Option VertexId) : Change mode g [] { g with root }
  | swept {root : VertexId} {order : List VertexId} (hroot : g.root = some root)
      (hlive : g.contains root = true) (hperm : order.Perm (g.garbage root)) :
      Change mode g [order] (g.discard order (g.garbage root))

/-- A graph changes into another one, with these sweeps on the way. -/
inductive Course (mode : DigestMode) (g : Graph) : List (List VertexId) → Graph → Prop
  | refl : Course mode g [] g
  | step {before now : List (List VertexId)} {a b : Graph} (h : Course mode g before a)
      (hc : Change mode a now b) : Course mode g (before ++ now) b

/-- A graph that comes about by changes of the empty one. -/
def Arises (mode : DigestMode) (g : Graph) : Prop := ∃ sweeps, Course mode empty sweeps g

/-- The expression was inserted at the vertex, which was not removed since then. -/
inductive Lives (mode : DigestMode) (origin : Node) (id : VertexId) : Graph → Prop
  | born {g : Graph} (hg : g.Arises mode) (hn : g.OverVertices origin)
      (hid : (g.insert origin (origin.key mode)).1 = id) :
      Lives mode origin id (g.insert origin (origin.key mode)).2
  | kept {g g' : Graph} {sweeps : List (List VertexId)} (h : Lives mode origin id g)
      (hg : Change mode g sweeps g') (hid : g'.contains id = true) : Lives mode origin id g'

/-- Of the sweeps on the way from one graph to another, the first one that has removed the id has ended
the life of the vertex. -/
inductive Ended (mode : DigestMode) (origin : Node) (id : VertexId) (g : Graph) :
    List (List VertexId) → Graph → Prop
  | swept {before after : List (List VertexId)} {removed : List VertexId} {a b g' : Graph}
      (hbefore : Course mode g before a) (hspared : ∀ spared ∈ before, id ∉ spared)
      (h : Lives mode origin id a) (hsweep : Change mode a [removed] b) (hremoved : id ∈ removed)
      (hgone : b.contains id = false) (hafter : Course mode b after g') :
      Ended mode origin id g (before ++ [removed] ++ after) g'

/-! ## Reliable graphs -/

theorem contains_congr (h : g'.placeholder? id = g.placeholder? id) :
    g'.contains id = g.contains id := by
  have hi := congrArg Option.isSome h
  rwa [placeholder?, placeholder?, Option.isSome_map, Option.isSome_map, ← contains,
    ← contains] at hi

namespace Reliable

theorem vertexId?_placeholder (hg : g.Reliable) (h : g.placeholder? id = some node) :
    node.vertexId? = some id := by
  obtain ⟨n, hn⟩ := contains_iff_current.1 (contains_of_placeholder h)
  obtain rfl := Option.some.inj (h.symm.trans (hg.placeholders id n hn))
  rfl

/-- An input is the placeholder of a vertex, and has the traits and the row type of its expression. -/
theorem exists_held (hg : g.Reliable) (hn : g.OverVertices node) {input : Node}
    (hinput : input ∈ node.inputs) :
    ∃ id held, g.current? id = some held ∧ input = .placeholder id held.traits held.rowType := by
  obtain ⟨id, hid⟩ := hn.inputs input hinput
  obtain ⟨held, hheld⟩ := contains_iff_current.1 (contains_of_placeholder hid)
  exact ⟨id, held, hheld, Option.some.inj (hid.symm.trans (hg.placeholders id held hheld))⟩

theorem contains_of_reference (hg : g.Reliable) (hn : g.OverVertices node) {j : VertexId}
    (hj : j ∈ node.references) : g.contains j = true := by
  obtain ⟨input, hinput, hid⟩ := Node.mem_references.1 hj
  obtain ⟨i, held, hheld, rfl⟩ := hg.exists_held hn hinput
  cases hid
  exact contains_of_current hheld

/-- Digests, estimates and the root do not matter. -/
theorem congr (hg : g.Reliable) (hcurrent : ∀ i, g'.current? i = g.current? i)
    (hplaceholder : ∀ i, g'.placeholder? i = g.placeholder? i) (hedges : g'.edges = g.edges)
    (hsize : g'.slots.size = g.slots.size) (hfree : g'.free = g.free) : g'.Reliable where
  free := hg.free.congr (fun i => contains_congr (hplaceholder i)) hsize hfree
  placeholders i n hn := by
    rw [hplaceholder]
    exact hg.placeholders i n (hcurrent i ▸ hn)
  currents i n hn := (hg.currents i n (hcurrent i ▸ hn)).congr hplaceholder
  edges i n hn j hj := by
    rw [Edge, hedges]
    exact hg.edges i n (hcurrent i ▸ hn) j hj
  edges_live e he := by
    rw [contains_congr (hplaceholder _), contains_congr (hplaceholder _)]
    exact hg.edges_live e (hedges ▸ he)

end Reliable

theorem reliable_empty : empty.Reliable where
  free := ⟨by simp [empty], by simp [empty], by simp [empty]⟩
  placeholders := by simp [empty, current?, vertex?]
  currents := by simp [empty, current?, vertex?]
  edges := by simp [empty, current?, vertex?]
  edges_live := by simp [empty]

/-! ## Inserting -/

theorem Inserted.reliable {key : DigestKey} (hg : g.Reliable) (h : Inserted g node key id g')
    (hn : g.OverVertices node) : g'.Reliable where
  free := h.free
  placeholders i n hi := by
    rw [h.current?] at hi
    rw [h.placeholder?]
    split_ifs at hi ⊢ with hid
    · cases hi
      rw [hid]
    · exact hg.placeholders i n hi
  currents i n hi := by
    rw [h.current?] at hi
    split_ifs at hi
    · cases hi
      exact (h.extends hg.free).overVertices hn
    · exact (h.extends hg.free).overVertices (hg.currents i n hi)
  edges i n hi j hj := by
    rw [h.current?] at hi
    refine (h.edges (i, j)).2 ?_
    split_ifs at hi with hid
    · cases hi
      exact .inl ⟨hid, hj⟩
    · exact .inr (hg.edges i n hi j hj)
  edges_live e he := by
    rcases (h.edges e).1 he with ⟨hid, href⟩ | he
    · refine ⟨?_, (h.extends hg.free).contains (hg.contains_of_reference hn href)⟩
      rw [hid]
      exact contains_of_current ((h.current? id).trans (if_pos rfl))
    · exact (hg.edges_live e he).imp (h.extends hg.free).contains (h.extends hg.free).contains

/-! ## Replacing -/

/-- Registering the expression of a vertex once more leaves all expressions and placeholders as they
are. -/
theorem bodies_replace (h : g.current? id = some node) (key : DigestKey) (i : VertexId) :
    (g.replace id node key).current? i = g.current? i ∧
      (g.replace id node key).placeholder? i = g.placeholder? i := by
  constructor
  · rw [current?_replace h]
    split_ifs with hi
    · rw [hi, h]
    · rfl
  · rw [placeholder?, vertex?_replace, placeholder?]
    split_ifs with hi
    · rw [hi, Option.map_map]
      rfl
    · rfl

theorem Reliable.register (hg : g.Reliable) {key : DigestKey} (h : g.current? id = some node) :
    (g.replace id node key).Reliable := by
  obtain ⟨hsize, hfree, hedges, -⟩ := replace_eq g id node key
  exact hg.congr (fun i => (bodies_replace h _ i).1) (fun i => (bodies_replace h _ i).2) hedges
    hsize hfree

section Redirect

variable {preserved discarded parent : VertexId} {placeholder : Node}

/-- Whoever is redirected, there is an edge for each reference afterwards. -/
theorem Redirected.reliable (hg : g.Reliable)
    (hplaceholder : g.placeholder? preserved = some placeholder)
    (hnode : g.current? parent = some node)
    (h : Redirected mode preserved discarded g parent (node.redirect discarded placeholder) g') :
    g'.Reliable := by
  have hcontains := fun i => contains_congr (h.placeholders i)
  have hover := hg.currents parent node hnode
  refine ⟨h.free hg.free, fun i n hi => ?_, fun i n hi => ?_, fun i n hi j hj => ?_,
    fun e he => ?_⟩
  · rw [h.current] at hi
    rw [h.placeholders]
    split_ifs at hi with hid
    · cases hi
      rw [hid]
      exact hg.placeholders parent node hnode
    · exact hg.placeholders i n hi
  · rw [h.current] at hi
    refine OverVertices.congr h.placeholders ?_
    split_ifs at hi
    · cases hi
      refine ⟨hover.isOperator, fun m hm => ?_⟩
      obtain ⟨input, hinput, rfl⟩ := List.mem_map.1 hm
      split_ifs
      · exact ⟨preserved, hplaceholder⟩
      · exact hover.inputs input hinput
    · exact hg.currents i n hi
  · rw [h.current] at hi
    refine (h.edges (i, j)).2 ?_
    split_ifs at hi with hid
    · cases hi
      subst hid
      rcases (Node.mem_references_redirect (hg.vertexId?_placeholder hplaceholder)).1 hj with
        ⟨rfl, -⟩ | ⟨hj, hne⟩
      · exact .inl rfl
      · exact .inr ⟨fun heq => hne (Prod.mk.inj heq).2, hg.edges i node hnode j hj⟩
    · exact .inr ⟨fun heq => hid (Prod.mk.inj heq).1, hg.edges i n hi j hj⟩
  · rw [hcontains, hcontains]
    rcases (h.edges e).1 he with rfl | ⟨-, he⟩
    · exact ⟨contains_of_current hnode, contains_of_placeholder hplaceholder⟩
    · exact hg.edges_live e he

end Redirect

/-! ## Sweeping -/

theorem Reliable.discarded (hg : g.Reliable) {order garbage : List VertexId}
    (hperm : order.Perm garbage) : Discarded g garbage (g.discard order garbage) := by
  have hd := (discarded_foldl_evict order hg.edges_live).1
  refine ⟨fun i => ?_, fun hf => ?_, fun e => ?_, hd.edges_nodup, hd.root⟩
  · exact (hd.vertex i).trans (by simp only [hperm.mem_iff])
  · exact ⟨(hd.free hf).lt_size, (hd.free hf).unused, (hd.free hf).nodup⟩
  · exact (hd.edges e).trans (by simp only [hperm.mem_iff])

/-- What is garbage is referred to by garbage alone. -/
theorem Reliable.mem_garbage_of_edge (hg : g.Reliable) (root : VertexId) (a b : VertexId)
    (hab : g.Edge a b) (hb : b ∈ g.garbage root) : a ∈ g.garbage root := by
  simp only [garbage, List.mem_filter, decide_eq_true_eq] at hb ⊢
  exact ⟨mem_vertexIds.2 (hg.edges_live _ hab).1, fun ha => hb.2 (mem_reachableFrom_of_edge ha hab)⟩

theorem Discarded.reliable {garbage : List VertexId} (hg : g.Reliable) (h : Discarded g garbage g')
    (hclosed : ∀ a b, g.Edge a b → b ∈ garbage → a ∈ garbage) : g'.Reliable where
  free := h.free hg.free
  placeholders i n hi := by
    rw [h.current?] at hi
    rw [h.placeholder?]
    split_ifs at hi ⊢
    exact hg.placeholders i n hi
  currents i n hi := by
    rw [h.current?] at hi
    split_ifs at hi with hkept
    refine ⟨(hg.currents i n hi).isOperator, fun input hinput => ?_⟩
    obtain ⟨j, hj⟩ := (hg.currents i n hi).inputs input hinput
    have hedge := hg.edges i n hi j
      (Node.mem_references.2 ⟨input, hinput, hg.vertexId?_placeholder hj⟩)
    refine ⟨j, ?_⟩
    rw [h.placeholder?, if_neg fun hmem => hkept (hclosed i j hedge hmem), hj]
  edges i n hi j hj := by
    rw [h.current?] at hi
    split_ifs at hi with hkept
    have hedge := hg.edges i n hi j hj
    exact (h.edges (i, j)).2 ⟨hedge, hkept, fun hmem => hkept (hclosed i j hedge hmem)⟩
  edges_live e he := by
    obtain ⟨he, h₁, h₂⟩ := (h.edges e).1 he
    rw [contains, contains, h.vertex, h.vertex, if_neg h₁, if_neg h₂, ← contains,
      ← contains]
    exact hg.edges_live e he

/-! ## Changes -/

theorem Change.reliable (hg : g.Reliable) (h : Change mode g sweeps g') : g'.Reliable := by
  cases h with
  | noted h => exact hg.congr h.current? h.placeholder? h.edges h.size h.free
  | inserted hn => exact (inserted_insert hg.free _ _).reliable hg hn
  | registered h => exact hg.register h
  | @redirected preserved placeholder h discarded parent =>
    cases hnode : g.current? parent with
    | none => rwa [redirect, hnode]
    | some node => exact (redirected_redirect _ _ _ _ hnode).reliable hg h hnode
  | rooted root => exact hg.congr (fun _ => rfl) (fun _ => rfl) rfl rfl rfl
  | swept hroot hlive hperm => exact (hg.discarded hperm).reliable hg (hg.mem_garbage_of_edge _)

/-- The vertex keeps its placeholder, and its expression changes in its inputs alone. -/
structure Sustains (g : Graph) (id : VertexId) (g' : Graph) : Prop where
  placeholder : g'.placeholder? id = g.placeholder? id
  current : ∀ n, g.current? id = some n → ∃ m, g'.current? id = some m ∧ n.SameShape m

theorem Sustains.of_eq (hplaceholder : g'.placeholder? id = g.placeholder? id)
    (hcurrent : g'.current? id = g.current? id) : g.Sustains id g' :=
  ⟨hplaceholder, fun n hn => ⟨n, hcurrent.trans hn, .refl n⟩⟩

theorem Sustains.of_vertex (h : g'.vertex? id = g.vertex? id) : g.Sustains id g' :=
  .of_eq (by rw [placeholder?, placeholder?, h]) (by rw [current?, current?, h])

theorem Sustains.contains (h : g.Sustains id g') : g'.contains id = g.contains id :=
  contains_congr h.placeholder

/-- What is neither an insertion nor a sweep sustains all vertices. -/
theorem Change.sustains_all (h : Change mode g sweeps g') :
    (sweeps = [] ∧ ∀ id, g.Sustains id g') ∨
      (∃ node, sweeps = [] ∧ g.OverVertices node ∧ g' = (g.insert node (node.key mode)).2) ∨
      (∃ removed, sweeps = [removed] ∧
        ∀ id, g'.vertex? id = if id ∈ removed then none else g.vertex? id) := by
  cases h with
  | noted h => exact .inl ⟨rfl, fun id => .of_eq (h.placeholder? id) (h.current? id)⟩
  | inserted hn => exact .inr (.inl ⟨_, rfl, hn, rfl⟩)
  | registered h =>
    exact .inl ⟨rfl, fun id => .of_eq (bodies_replace h _ id).2 (bodies_replace h _ id).1⟩
  | @redirected preserved placeholder h discarded parent =>
    refine .inl ⟨rfl, fun id => ?_⟩
    cases hnode : g.current? parent with
    | none =>
      rw [redirect, hnode]
      exact .of_eq rfl rfl
    | some node =>
      have hr := redirected_redirect mode preserved discarded placeholder hnode
      refine ⟨hr.placeholders id, fun n hn => ?_⟩
      rw [hr.current]
      split_ifs with heq
      · subst heq
        obtain rfl := Option.some.inj (hnode.symm.trans hn)
        exact ⟨_, rfl, .redirect node discarded placeholder⟩
      · exact ⟨n, hn, .refl n⟩
  | rooted root => exact .inl ⟨rfl, fun _ => .of_eq rfl rfl⟩
  | @swept root order => exact .inr (.inr ⟨order, rfl, vertex?_discard g order _⟩)

/-- A vertex that is there after a change was there before, or the change has inserted it. -/
theorem Change.sustains_or_inserts (hg : g.Reliable) (h : Change mode g sweeps g')
    (hid : g'.contains id = true) :
    g.contains id = true ∧ g.Sustains id g' ∨ ∃ origin, g.OverVertices origin ∧
      (g.insert origin (origin.key mode)).1 = id ∧ g' = (g.insert origin (origin.key mode)).2 := by
  have hsustained : g.Sustains id g' → g.contains id = true ∧ g.Sustains id g' :=
    fun hsustains => ⟨hsustains.contains ▸ hid, hsustains⟩
  rcases h.sustains_all with ⟨-, hall⟩ | ⟨node, -, hn, rfl⟩ | ⟨removed, -, hvertices⟩
  · exact .inl (hsustained (hall id))
  · by_cases hnew : (g.insert node (node.key mode)).1 = id
    · exact .inr ⟨node, hn, hnew, rfl⟩
    · have hvertex := (inserted_insert hg.free node (node.key mode)).vertex id
      rw [if_neg (Ne.symm hnew)] at hvertex
      exact .inl (hsustained (.of_vertex hvertex))
  · have hvertex := hvertices id
    split_ifs at hvertex
    · rw [contains, hvertex] at hid
      cases hid
    · exact .inl (hsustained (.of_vertex hvertex))

/-- Only a sweep removes a vertex, and it says so. -/
theorem Change.contains_or_removes (hg : g.Reliable) (h : Change mode g sweeps g')
    (hid : g.contains id = true) :
    g'.contains id = true ∧ (∀ removed ∈ sweeps, id ∉ removed) ∨
      ∃ removed, sweeps = [removed] ∧ id ∈ removed ∧ g'.contains id = false := by
  rcases h.sustains_all with ⟨rfl, hall⟩ | ⟨node, rfl, -, rfl⟩ | ⟨removed, rfl, hvertices⟩
  · exact .inl ⟨(hall id).contains.trans hid, by simp⟩
  · exact .inl ⟨((inserted_insert hg.free _ _).extends hg.free).contains hid, by simp⟩
  · by_cases hremoved : id ∈ removed
    · exact .inr ⟨removed, rfl, hremoved, by rw [contains, hvertices, if_pos hremoved]; rfl⟩
    · refine .inl ⟨?_, by simpa using hremoved⟩
      rwa [contains, hvertices, if_neg hremoved, ← contains]

theorem Course.single (h : Change mode g sweeps g') : Course mode g sweeps g' := Course.refl.step h

theorem Course.trans (h : Course mode g sweeps g') (h' : Course mode g' sweeps' g'') :
    Course mode g (sweeps ++ sweeps') g'' := by
  induction h' with
  | refl => rwa [List.append_nil]
  | step _ hc ih => exact List.append_assoc .. ▸ ih.step hc

theorem Course.reliable (hg : g.Reliable) (h : Course mode g sweeps g') : g'.Reliable := by
  induction h with
  | refl => exact hg
  | step _ hc ih => exact hc.reliable ih

theorem Arises.reliable (h : g.Arises mode) : g.Reliable := by
  obtain ⟨_, h⟩ := h
  exact h.reliable reliable_empty

theorem Arises.course (h : g.Arises mode) (h' : Course mode g sweeps g') : g'.Arises mode := by
  obtain ⟨_, h⟩ := h
  exact ⟨_, h.trans h'⟩

/-! ## Lives -/

theorem Lives.arises (h : Lives mode origin id g) : g.Arises mode := by
  induction h with
  | born hg hn _ => exact hg.course (.single (.inserted hn))
  | kept _ hg _ ih => exact ih.course (.single hg)

/-- At all times of its life a vertex has the placeholder that it was created with, and an expression
that differs from the one that it was created for in its inputs alone. -/
theorem Lives.sustains (h : Lives mode origin id g) :
    g.placeholder? id = some (.placeholder id origin.traits origin.rowType) ∧
      ∃ n, g.current? id = some n ∧ origin.SameShape n := by
  induction h with
  | @born g hg hn hid =>
    have hins := inserted_insert hg.reliable.free origin (origin.key mode)
    subst hid
    exact ⟨(hins.placeholder? _).trans (if_pos rfl), origin,
      (hins.current? _).trans (if_pos rfl), .refl origin⟩
  | @kept g g' _ h hg hid ih =>
    obtain ⟨hplaceholder, n, hn, hshape⟩ := ih
    rcases hg.sustains_or_inserts h.arises.reliable hid with ⟨-, hsustains⟩ | ⟨m, -, rfl, rfl⟩
    · obtain ⟨m, hm, hshape'⟩ := hsustains.current n hn
      exact ⟨hsustains.placeholder.trans hplaceholder, m, hm, hshape.trans hshape'⟩
    · -- ids of vertices are not given out again
      have hins := inserted_insert h.arises.reliable.free m (m.key mode)
      exact absurd rfl (hins.ne_of_contains h.arises.reliable.free (contains_of_current hn))

theorem Lives.contains (h : Lives mode origin id g) : g.contains id = true := by
  obtain ⟨-, _, hn, -⟩ := h.sustains
  exact contains_of_current hn

/-- Every vertex has a life. -/
theorem Arises.exists_lives (h : g.Arises mode) (hid : g.contains id = true) :
    ∃ origin, Lives mode origin id g := by
  obtain ⟨_, h⟩ := h
  induction h with
  | refl => simp [empty, Graph.contains, vertex?] at hid
  | step hg h ih =>
    have hg : Arises mode _ := ⟨_, hg⟩
    rcases h.sustains_or_inserts hg.reliable hid with ⟨hlive, -⟩ | ⟨origin, hn, hnew, rfl⟩
    · obtain ⟨origin, hlives⟩ := ih hlive
      exact ⟨origin, hlives.kept h hid⟩
    · exact ⟨origin, .born hg hn hnew⟩

theorem Ended.step (h : Ended mode origin id g sweeps g') (hc : Change mode g' sweeps' g'') :
    Ended mode origin id g (sweeps ++ sweeps') g'' := by
  obtain ⟨hbefore, hspared, hlives, hsweep, hremoved, hgone, hafter⟩ := h
  rw [List.append_assoc]
  exact .swept hbefore hspared hlives hsweep hremoved hgone (hafter.step hc)

/-- A life goes on as long as no sweep removes the id, and the first one that does ends it. -/
theorem Lives.lives_or_ended (h : Lives mode origin id g) (hc : Course mode g sweeps g') :
    (∀ removed ∈ sweeps, id ∉ removed) ∧ Lives mode origin id g' ∨
      Ended mode origin id g sweeps g' := by
  induction hc with
  | refl => exact .inl ⟨by simp, h⟩
  | @step before now a b hbefore hc ih =>
    rcases ih with ⟨hspared, hlives⟩ | hended
    · rcases hc.contains_or_removes hlives.arises.reliable hlives.contains with
        ⟨hid, hnow⟩ | ⟨removed, rfl, hremoved, hgone⟩
      · exact .inl ⟨List.forall_mem_append.2 ⟨hspared, hnow⟩, hlives.kept hc hid⟩
      · refine .inr ?_
        rw [← (before ++ [removed]).append_nil]
        exact .swept hbefore hspared hlives hc hremoved hgone .refl
    · exact .inr (hended.step hc)

/-- The vertex has the placeholder that it was created with for an expression, and an expression that
differs from it in its inputs alone. Whoever refers to the vertex has this placeholder as an input, and
what is read from it is what the expression of the vertex has. -/
structure Upholds (g : Graph) (origin : Node) (id : VertexId) : Prop where
  placeholder : g.placeholder? id = some (.placeholder id origin.traits origin.rowType)
  current : ∃ n, g.current? id = some n ∧ origin.SameShape n
  inputs : ∀ a n, g.current? a = some n → ∀ input ∈ n.inputs, input.vertexId? = some id →
    input = .placeholder id origin.traits origin.rowType
  reading : ∀ a n, g.current? a = some n → ∀ input ∈ n.inputs, input.vertexId? = some id →
    (g.resolve input).traits = input.traits ∧ (g.resolve input).rowType = input.rowType

/-- A vertex upholds at all times of its life what it was created for. -/
theorem Lives.upholds (h : Lives mode origin id g) : g.Upholds origin id := by
  have hg := h.arises.reliable
  obtain ⟨hplaceholder, n, hn, hshape⟩ := h.sustains
  have hinputs : ∀ a m, g.current? a = some m → ∀ input ∈ m.inputs, input.vertexId? = some id →
      input = .placeholder id origin.traits origin.rowType := by
    intro a m hm input hinput hid
    obtain ⟨j, held, hheld, rfl⟩ := hg.exists_held (hg.currents a m hm) hinput
    cases hid
    exact Option.some.inj ((hg.placeholders _ held hheld).symm.trans hplaceholder)
  refine ⟨hplaceholder, ⟨n, hn, hshape⟩, hinputs, fun a m hm input hinput hid => ?_⟩
  rw [hinputs a m hm input hinput hid, resolve, Node.vertexId?_placeholder, Option.bind_some, hn]
  exact ⟨hshape.traits, hshape.rowType⟩

end Graph

end QueryPlanner
