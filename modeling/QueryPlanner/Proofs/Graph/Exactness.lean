import QueryPlanner.Proofs.Graph.Collection
import QueryPlanner.Proofs.Graph.Estimation
import QueryPlanner.Proofs.Graph.Redirection

/-!
# Cached row counts and costs are exact

Row counts and costs have a definition without a cache: a placeholder is looked up wherever it is met,
and what it stands for is estimated again. A graph is exact if all that it knows is about vertices that
it has, and agrees with this definition. Estimating in an exact graph finds what the definition says
and leaves an exact graph. A change of the graph keeps it exact if the vertices of which something is
known afterwards, and everything below them, have the expressions that they had before.
-/

namespace QueryPlanner

theorem mapM_eq_some_iff {α β : Type} {f : α → Option β} {xs : List α} {ys : List β} :
    xs.mapM f = some ys ↔ List.Forall₂ (fun x y => f x = some y) xs ys := by
  induction xs generalizing ys with
  | nil => simp [eq_comm]
  | cons x xs ih =>
    rw [List.mapM_cons]
    cases hx : f x with
    | none => simp [List.forall₂_cons_left_iff, hx]
    | some y =>
      cases hxs : xs.mapM f with
      | none =>
        have hnone : ∀ ys, ¬ List.Forall₂ (fun x y => f x = some y) xs ys := fun ys h => by
          rw [ih.2 h] at hxs
          cases hxs
        simp [List.forall₂_cons_left_iff, hx, hnone]
      | some zs =>
        have hall : ∀ ys, List.Forall₂ (fun x y => f x = some y) xs ys ↔ zs = ys := fun ys => by
          rw [← ih, hxs, Option.some.injEq]
        simp [List.forall₂_cons_left_iff, hx, hall, eq_comm]

theorem mapM_congr_left {α β : Type} {f f' : α → Option β} {xs : List α}
    (h : ∀ x ∈ xs, f' x = f x) : xs.mapM f' = xs.mapM f := by
  induction xs with
  | nil => rfl
  | cons x xs ih =>
    rw [List.mapM_cons, List.mapM_cons, h x List.mem_cons_self,
      ih fun y hy => h y (List.mem_cons_of_mem _ hy)]

theorem exists_forall₂ {α β : Type*} {R : α → β → Prop} {xs : List α} (h : ∀ x ∈ xs, ∃ y, R x y) :
    ∃ ys, List.Forall₂ R xs ys := by
  induction xs with
  | nil => exact ⟨[], .nil⟩
  | cons x xs ih =>
    obtain ⟨y, hy⟩ := h x List.mem_cons_self
    obtain ⟨ys, hys⟩ := ih fun x hx => h x (List.mem_cons_of_mem _ hx)
    exact ⟨y :: ys, .cons hy hys⟩

namespace Graph

open Relation

variable {mode : DigestMode} {model : CostModel} {g g' : Graph} {node : Node} {id : VertexId}
  {rows : Float} {cost : Cost} {m n : Nat}

/-! ## Estimates without a cache -/

/-- The row count of an expression, found without a cache in calls that are nested at most `n`
deep. -/
def plainRowCount (g : Graph) : Nat → Node → Option Float
  | 0, _ => none
  | n + 1, node => do
    let node := g.resolve node
    return node.operator.estimate (← node.inputs.mapM (g.plainRowCount n))

/-- The cost of an expression by itself and the costs of its inputs, added from left to right,
found without a cache in calls that are nested at most `n` deep. -/
def plainCost (g : Graph) (model : CostModel) : Nat → Node → Option Cost
  | 0, _ => none
  | n + 1, node => do
    let node := g.resolve node
    let rows ← node.inputs.mapM (g.plainRowCount n)
    let selfCost := model.selfCost node (node.operator.estimate rows) rows
    return (← node.inputs.mapM (g.plainCost model n)).foldl Cost.plus selfCost

theorem plainRowCount_succ : g.plainRowCount (n + 1) node = some rows ↔
    ∃ counts, List.Forall₂ (fun input count => g.plainRowCount n input = some count)
      (g.resolve node).inputs counts ∧ rows = (g.resolve node).operator.estimate counts := by
  rw [plainRowCount]
  simp only [Option.bind_eq_bind, Option.bind_eq_some_iff, mapM_eq_some_iff]
  exact exists_congr fun counts => and_congr_right' ⟨fun h => by cases h; rfl, fun h => h ▸ rfl⟩

theorem plainCost_succ : g.plainCost model (n + 1) node = some cost ↔
    ∃ counts costs, List.Forall₂ (fun input count => g.plainRowCount n input = some count)
      (g.resolve node).inputs counts ∧
      List.Forall₂ (fun input cost => g.plainCost model n input = some cost)
        (g.resolve node).inputs costs ∧
      cost = costs.foldl Cost.plus (model.selfCost (g.resolve node)
        ((g.resolve node).operator.estimate counts) counts) := by
  rw [plainCost]
  simp only [Option.bind_eq_bind, Option.bind_eq_some_iff, mapM_eq_some_iff, ← exists_and_left]
  exact exists₂_congr fun counts costs => and_congr_right' <| and_congr_right'
    ⟨fun h => by cases h; rfl, fun h => h ▸ rfl⟩

/-- More calls do not change what is found. -/
theorem plainRowCount_mono (h : n ≤ m) : ∀ {node rows}, g.plainRowCount n node = some rows →
    g.plainRowCount m node = some rows := by
  induction n generalizing m with
  | zero => intro node rows h; cases h
  | succ n ih =>
    obtain ⟨m, rfl⟩ : ∃ k, m = k + 1 := ⟨m - 1, by omega⟩
    intro node rows hrows
    obtain ⟨counts, hcounts, hrows⟩ := plainRowCount_succ.1 hrows
    exact plainRowCount_succ.2 ⟨counts, hcounts.imp fun _ _ => ih (by omega), hrows⟩

theorem plainCost_mono (h : n ≤ m) : ∀ {node cost}, g.plainCost model n node = some cost →
    g.plainCost model m node = some cost := by
  induction n generalizing m with
  | zero => intro node cost h; cases h
  | succ n ih =>
    obtain ⟨m, rfl⟩ : ∃ k, m = k + 1 := ⟨m - 1, by omega⟩
    intro node cost hcost
    obtain ⟨counts, costs, hcounts, hcosts, hcost⟩ := plainCost_succ.1 hcost
    exact plainCost_succ.2 ⟨counts, costs, hcounts.imp fun _ _ => plainRowCount_mono (by omega),
      hcosts.imp fun _ _ => ih (by omega), hcost⟩

/-- The row count of an expression is found without a cache. -/
def HasRowCount (g : Graph) (node : Node) (rows : Float) : Prop :=
  ∃ n, g.plainRowCount n node = some rows

/-- The cost of an expression is found without a cache. -/
def HasCost (g : Graph) (model : CostModel) (node : Node) (cost : Cost) : Prop :=
  ∃ n, g.plainCost model n node = some cost

theorem HasRowCount.eq {rows rows' : Float} (h : g.HasRowCount node rows)
    (h' : g.plainRowCount n node = some rows') : rows' = rows := by
  obtain ⟨m, h⟩ := h
  have h := plainRowCount_mono (le_max_left m n) h
  rw [plainRowCount_mono (le_max_right m n) h'] at h
  exact Option.some.inj h

theorem HasCost.eq {cost cost' : Cost} (h : g.HasCost model node cost)
    (h' : g.plainCost model n node = some cost') : cost' = cost := by
  obtain ⟨m, h⟩ := h
  have h := plainCost_mono (le_max_left m n) h
  rw [plainCost_mono (le_max_right m n) h'] at h
  exact Option.some.inj h

theorem resolve_of_vertexId? {held : Node} (hid : node.vertexId? = some id)
    (h : g.current? id = some held) : g.resolve node = held := by
  simp [resolve, hid, h]

theorem resolve_of_dead (h : ∀ id, node.vertexId? = some id → g.contains id = false) :
    g.resolve node = node := by
  cases hid : node.vertexId? with
  | none => simp [resolve, hid]
  | some id =>
    have hnone : g.current? id = none := by
      rw [← Option.not_isSome_iff_eq_none, current?, Option.isSome_map, ← contains, h id hid]
      exact Bool.false_ne_true
    simp [resolve, hid, hnone]

theorem resolve_operator (h : node.vertexId? = none) : g.resolve node = node :=
  resolve_of_dead fun id hid => by
    rw [h] at hid
    cases hid

/-- A node is a placeholder of a vertex of the graph, or is estimated itself. -/
theorem resolve_cases (g : Graph) (node : Node) :
    (∃ id held, node.vertexId? = some id ∧ g.current? id = some held) ∨
      ∀ id, node.vertexId? = some id → g.contains id = false := by
  by_cases h : ∃ id, node.vertexId? = some id ∧ g.contains id = true
  · obtain ⟨id, hid, hlive⟩ := h
    obtain ⟨held, hheld⟩ := contains_iff_current.1 hlive
    exact .inl ⟨id, held, hid, hheld⟩
  · right
    intro id hid
    by_contra hlive
    exact h ⟨id, hid, by simpa using hlive⟩

/-! ## Existence -/

/-- Everything below a vertex is found with as many calls as the vertex ranks. -/
theorem Linked.exists_plain (hg : g.Linked mode) {rank : VertexId → ℕ} (hrank : g.Ranked rank) :
    ∀ n id, g.contains id = true → rank id < n → ∀ node, node.vertexId? = some id →
      (∃ rows, g.plainRowCount n node = some rows) ∧
        ∃ cost, g.plainCost model n node = some cost := by
  intro n
  induction n with
  | zero => intro id _ h; omega
  | succ n ih =>
    intro id hlive hn node hid
    obtain ⟨held, hheld⟩ := contains_iff_current.1 hlive
    have hresolve := resolve_of_vertexId? hid hheld
    have hinputs : ∀ input ∈ held.inputs, (∃ rows, g.plainRowCount n input = some rows) ∧
        ∃ cost, g.plainCost model n input = some cost := by
      intro input hinput
      obtain ⟨j, hj, hedge⟩ := hg.exists_edge_of_input hheld hinput
      have hlt := hrank id j hedge
      exact ih j (hg.edges_live _ hedge).2 (by omega) input hj
    obtain ⟨counts, hcounts⟩ := exists_forall₂ fun i hi => (hinputs i hi).1
    obtain ⟨costs, hcosts⟩ := exists_forall₂ fun i hi => (hinputs i hi).2
    rw [← hresolve] at hcounts hcosts
    exact ⟨⟨_, plainRowCount_succ.2 ⟨counts, hcounts, rfl⟩⟩,
      _, plainCost_succ.2 ⟨counts, costs, hcounts, hcosts, rfl⟩⟩

theorem Consistent.exists_plain (hg : g.Consistent mode) (model : CostModel)
    (hid : node.vertexId? = some id) (hlive : g.contains id = true) :
    (∃ rows, g.plainRowCount g.depthBound node = some rows) ∧
      ∃ cost, g.plainCost model g.depthBound node = some cost := by
  obtain ⟨rank, hrank, hle⟩ := hg.acyclic.exists_ranked_le hg.edges_live
  exact hg.toLinked.exists_plain hrank g.depthBound id hlive (Nat.lt_succ_of_le (hle id)) node hid

mutual

/-- Every expression has a row count and a cost, also above placeholders whose vertex is gone. -/
theorem Consistent.exists_estimates (hg : g.Consistent mode) (model : CostModel) :
    ∀ node : Node, ∃ n rows cost, g.plainRowCount n node = some rows ∧
      g.plainCost model n node = some cost
  | ⟨op, inputs, traits, rowType⟩ => by
    rcases resolve_cases g ⟨op, inputs, traits, rowType⟩ with ⟨id, held, hid, hheld⟩ | hdead
    · obtain ⟨⟨rows, hrows⟩, cost, hcost⟩ := hg.exists_plain model hid (contains_of_current hheld)
      exact ⟨_, rows, cost, hrows, hcost⟩
    · obtain ⟨n, counts, costs, hcounts, hcosts⟩ := Consistent.exists_estimatesAll hg model inputs
      exact ⟨n + 1, _, _, plainRowCount_succ.2 ⟨counts, by rwa [resolve_of_dead hdead], rfl⟩,
        plainCost_succ.2 ⟨counts, costs, by rwa [resolve_of_dead hdead],
          by rwa [resolve_of_dead hdead], rfl⟩⟩

theorem Consistent.exists_estimatesAll (hg : g.Consistent mode) (model : CostModel) :
    ∀ nodes : List Node, ∃ n counts costs,
      List.Forall₂ (fun node rows => g.plainRowCount n node = some rows) nodes counts ∧
        List.Forall₂ (fun node cost => g.plainCost model n node = some cost) nodes costs
  | [] => ⟨0, [], [], .nil, .nil⟩
  | node :: nodes => by
    obtain ⟨m, rows, cost, hrows, hcost⟩ := Consistent.exists_estimates hg model node
    obtain ⟨n, counts, costs, hcounts, hcosts⟩ := Consistent.exists_estimatesAll hg model nodes
    have hm := le_max_left m n
    have hn := le_max_right m n
    exact ⟨max m n, rows :: counts, cost :: costs,
      .cons (plainRowCount_mono hm hrows) (hcounts.imp fun _ _ => plainRowCount_mono hn),
      .cons (plainCost_mono hm hcost) (hcosts.imp fun _ _ => plainCost_mono hn)⟩

end

/-! ## Graphs that agree -/

/-- Estimates depend on the expressions that are met alone. These are found in a set of vertices that
is closed under references. -/
theorem plain_agree {S : VertexId → Prop}
    (hS : ∀ id, S id → ∃ held, g.current? id = some held ∧ g'.current? id = some held ∧
      ∀ input ∈ held.inputs, ∃ j, input.vertexId? = some j ∧ S j) (model : CostModel) :
    ∀ n node, ((∃ id, node.vertexId? = some id ∧ S id) ∨ node.vertexId? = none ∧
        ∀ input ∈ node.inputs, ∃ j, input.vertexId? = some j ∧ S j) →
      g'.plainRowCount n node = g.plainRowCount n node ∧
        g'.plainCost model n node = g.plainCost model n node := by
  intro n
  induction n with
  | zero => exact fun _ _ => ⟨rfl, rfl⟩
  | succ n ih =>
    intro node hnode
    have hresolve : g'.resolve node = g.resolve node ∧
        ∀ input ∈ (g.resolve node).inputs, ∃ j, input.vertexId? = some j ∧ S j := by
      rcases hnode with ⟨id, hid, hs⟩ | ⟨hnone, hinputs⟩
      · obtain ⟨held, hheld, hheld', hinputs⟩ := hS id hs
        rw [resolve_of_vertexId? hid hheld, resolve_of_vertexId? hid hheld']
        exact ⟨rfl, hinputs⟩
      · rw [resolve_operator hnone, resolve_operator hnone]
        exact ⟨rfl, hinputs⟩
    obtain ⟨heq, hinputs⟩ := hresolve
    have hcounts := mapM_congr_left fun input hinput => (ih input (.inl (hinputs input hinput))).1
    have hcosts := mapM_congr_left fun input hinput => (ih input (.inl (hinputs input hinput))).2
    simp only [plainRowCount, plainCost, heq, hcounts, hcosts, and_self]

section Congr

variable (h : g'.current? = g.current?)
include h

theorem resolve_congr (node : Node) : g'.resolve node = g.resolve node := by
  rw [resolve, resolve, h]

theorem plainRowCount_congr : g'.plainRowCount = g.plainRowCount := by
  funext n
  induction n with
  | zero => rfl
  | succ n ih =>
    funext node
    rw [plainRowCount, plainRowCount, ih, resolve_congr h]

theorem plainCost_congr : g'.plainCost model = g.plainCost model := by
  funext n
  induction n with
  | zero => rfl
  | succ n ih =>
    funext node
    rw [plainCost, plainCost, ih, resolve_congr h, plainRowCount_congr h]

theorem hasRowCount_congr : g'.HasRowCount = g.HasRowCount := by
  funext node rows
  rw [HasRowCount, plainRowCount_congr h, HasRowCount]

theorem hasCost_congr : g'.HasCost model = g.HasCost model := by
  funext node cost
  rw [HasCost, plainCost_congr h, HasCost]

end Congr

namespace Alike

theorem resolve (h : g.Alike g') : g'.resolve = g.resolve :=
  funext (resolve_congr (funext h.current?))

theorem plainRowCount (h : g.Alike g') : g'.plainRowCount = g.plainRowCount :=
  plainRowCount_congr (funext h.current?)

theorem plainCost (h : g.Alike g') : g'.plainCost model = g.plainCost model :=
  plainCost_congr (funext h.current?)

theorem hasRowCount (h : g.Alike g') : g'.HasRowCount = g.HasRowCount :=
  hasRowCount_congr (funext h.current?)

theorem hasCost (h : g.Alike g') : g'.HasCost model = g.HasCost model :=
  hasCost_congr (funext h.current?)

end Alike

/-! ## Exact graphs -/

/-- Whatever is known is known of vertices of the graph, and is what is found without a cache. -/
structure Exact (model : CostModel) (g : Graph) : Prop where
  rowCount : ∀ id rows, (id, rows) ∈ g.knownRowCounts →
    ∃ node, g.current? id = some node ∧ g.HasRowCount node rows
  cost : ∀ id cost, (id, cost) ∈ g.knownCosts →
    ∃ node, g.current? id = some node ∧ g.HasCost model node cost

/-- Something is known of the vertex. -/
def Knows (g : Graph) (id : VertexId) : Prop :=
  id ∈ g.knownRowCounts.map Prod.fst ∨ id ∈ g.knownCosts.map Prod.fst

instance (g : Graph) (id : VertexId) : Decidable (g.Knows id) := inferInstanceAs (Decidable (_ ∨ _))

theorem Exact.contains (h : g.Exact model) (hid : g.Knows id) : g.contains id = true := by
  rcases hid with hid | hid
  · obtain ⟨⟨_, rows⟩, hrows, rfl⟩ := List.mem_map.1 hid
    obtain ⟨node, hnode, -⟩ := h.rowCount _ rows hrows
    exact contains_of_current hnode
  · obtain ⟨⟨_, cost⟩, hcost, rfl⟩ := List.mem_map.1 hid
    obtain ⟨node, hnode, -⟩ := h.cost _ cost hcost
    exact contains_of_current hnode

/-- No more is known than in another graph, and where something is known, nothing has changed in the
vertex or below it. -/
structure Retains (g g' : Graph) : Prop where
  rowCounts : g'.knownRowCounts ⊆ g.knownRowCounts
  costs : g'.knownCosts ⊆ g.knownCosts
  below : ∀ id, g'.Knows id → ∀ j, ReflTransGen g.Edge id j → g'.current? j = g.current? j

theorem Exact.retained (hg : g.Linked mode) (h : g.Exact model) (hr : g.Retains g') :
    g'.Exact model := by
  have hagree : ∀ id node, g'.Knows id → g.current? id = some node →
      g'.current? id = some node ∧ ∀ n, g'.plainRowCount n node = g.plainRowCount n node ∧
        g'.plainCost model n node = g.plainCost model n node := by
    intro id node hknown hnode
    have hsame := hr.below id hknown
    -- what is below the vertex is closed under references
    have hinputs : ∀ a held, g.current? a = some held → ∀ input ∈ held.inputs,
        ∃ j, input.vertexId? = some j ∧ g.Edge a j ∧ g.contains j = true := by
      intro a held hheld input hinput
      obtain ⟨j, hj, hedge⟩ := hg.exists_edge_of_input hheld hinput
      exact ⟨j, hj, hedge, (hg.edges_live _ hedge).2⟩
    refine ⟨(hsame id .refl).trans hnode, fun n => plain_agree
      (S := fun j => ReflTransGen g.Edge id j ∧ g.contains j = true) ?_ model n _ (.inr ⟨?_, ?_⟩)⟩
    · rintro a ⟨ha, hlive⟩
      obtain ⟨held, hheld⟩ := contains_iff_current.1 hlive
      refine ⟨held, hheld, (hsame a ha).trans hheld, fun input hinput => ?_⟩
      obtain ⟨j, hj, hedge, hlive⟩ := hinputs a held hheld input hinput
      exact ⟨j, hj, ha.tail hedge, hlive⟩
    · exact (hg.currents id node hnode).isOperator
    · intro input hinput
      obtain ⟨j, hj, hedge, hlive⟩ := hinputs id node hnode input hinput
      exact ⟨j, hj, .single hedge, hlive⟩
  constructor
  · intro id rows hrows
    obtain ⟨node, hnode, n, hn⟩ := h.rowCount id rows (hr.rowCounts hrows)
    obtain ⟨hcurrent, hplain⟩ := hagree id node (.inl (List.mem_map_of_mem hrows)) hnode
    exact ⟨node, hcurrent, n, (hplain n).1.trans hn⟩
  · intro id cost hcost
    obtain ⟨node, hnode, n, hn⟩ := h.cost id cost (hr.costs hcost)
    obtain ⟨hcurrent, hplain⟩ := hagree id node (.inr (List.mem_map_of_mem hcost)) hnode
    exact ⟨node, hcurrent, n, (hplain n).2.trans hn⟩

/-! ## Estimating in an exact graph -/

theorem Exact.noteRowCount (h : g.Exact model) (hnode : g.current? id = some node)
    (hrows : g.HasRowCount node rows) : (g.noteRowCount id rows).Exact model := by
  have halike := alike_noteRowCount g id rows
  constructor
  · intro i count hcount
    simp only [halike.current?, halike.hasRowCount]
    rcases List.mem_cons.1 hcount with heq | hcount
    · cases heq
      exact ⟨node, hnode, hrows⟩
    · exact h.rowCount i count (List.mem_of_mem_filter hcount)
  · intro i cost hcost
    simp only [halike.current?, halike.hasCost]
    exact h.cost i cost hcost

theorem Exact.noteCost (h : g.Exact model) (hnode : g.current? id = some node)
    (hcost : g.HasCost model node cost) : (g.noteCost id cost).Exact model := by
  have halike := alike_noteCost g id cost
  constructor
  · intro i rows hrows
    simp only [halike.current?, halike.hasRowCount]
    exact h.rowCount i rows hrows
  · intro i price hprice
    simp only [halike.current?, halike.hasCost]
    rcases List.mem_cons.1 hprice with heq | hprice
    · cases heq
      exact ⟨node, hnode, hcost⟩
    · exact h.cost i price (List.mem_of_mem_filter hprice)

section Finds

variable {α β : Type}

/-- In exact graphs that differ from `g` in caches alone, the operation finds `a` and leaves such a
graph. -/
def Finds (g : Graph) (model : CostModel) (x : StateM Graph α) (a : α) : Prop :=
  ∀ h, g.Alike h → h.Exact model → (x h).1 = a ∧ g.Alike (x h).2 ∧ (x h).2.Exact model

theorem finds_pure (g : Graph) (model : CostModel) (a : α) : g.Finds model (pure a) a :=
  fun _ hg hexact => ⟨rfl, hg, hexact⟩

theorem Finds.bind {x : StateM Graph α} {f : α → StateM Graph β} {a : α} {b : β}
    (hx : g.Finds model x a) (hf : g.Finds model (f a) b) : g.Finds model (x >>= f) b := by
  intro h hg hexact
  obtain ⟨hfst, hg', hexact'⟩ := hx h hg hexact
  rw [show (x >>= f) h = f (x h).1 (x h).2 from rfl, hfst]
  exact hf _ hg' hexact'

theorem finds_get {f : Graph → StateM Graph β} {b : β}
    (hf : ∀ h, g.Alike h → h.Exact model → g.Finds model (f h) b) : g.Finds model (get >>= f) b :=
  fun h hg hexact => hf h hg hexact h hg hexact

/-- A node that is found to stand for a vertex does so. -/
theorem liveVertex?_eq_some : g.liveVertex? node.operator = some id ↔
    node.vertexId? = some id ∧ g.contains id = true := by
  obtain ⟨op, inputs, traits, rowType⟩ := node
  cases op <;> simp only [liveVertex?, Node.vertexId?, reduceCtorEq, false_and, Option.some.injEq]
  split_ifs with h
  · constructor
    · rintro ⟨⟩
      exact ⟨rfl, h⟩
    · rintro ⟨rfl, -⟩
      rfl
  · constructor
    · intro h
      cases h
    · rintro ⟨rfl, h'⟩
      exact absurd h' h

theorem Alike.liveVertex? (h : g.Alike g') : g'.liveVertex? = g.liveVertex? := by
  funext op
  cases op <;> simp only [Graph.liveVertex?, h.contains]

theorem not_live_of_liveVertex? (h : g.liveVertex? node.operator = none) (id : VertexId)
    (hid : node.vertexId? = some id) : g.contains id = false := by
  by_contra hlive
  rw [liveVertex?_eq_some.2 ⟨hid, by simpa using hlive⟩] at h
  cases h

theorem liveVertex?_operator (h : node.vertexId? = none) :
    g.liveVertex? node.operator = none := by
  by_contra hne
  obtain ⟨id, hid⟩ := Option.ne_none_iff_exists'.1 hne
  rw [liveVertex?_eq_some, h] at hid
  cases hid.1

section RowCounts

variable {ofVertex : VertexId → StateM Graph Float}

theorem finds_rowCountsOver {nodes : List Node} {counts : List Float}
    (h : List.Forall₂ (fun node rows => g.Finds model (rowCountOver ofVertex node) rows) nodes
      counts) : g.Finds model (rowCountsOver ofVertex nodes) counts := by
  induction h with
  | nil =>
    rw [rowCountsOver]
    exact finds_pure g model []
  | cons hnode _ ih =>
    rw [rowCountsOver]
    exact hnode.bind (ih.bind (finds_pure g model _))

theorem finds_rowCountOver_of_not_live (hnode : g.liveVertex? node.operator = none)
    {counts : List Float} (h : List.Forall₂ (fun input count =>
      g.Finds model (rowCountOver ofVertex input) count) node.inputs counts) :
    g.Finds model (rowCountOver ofVertex node) (node.operator.estimate counts) := by
  obtain ⟨op, inputs, traits, rowType⟩ := node
  rw [rowCountOver]
  apply finds_get
  intro h' hg _
  rw [hg.liveVertex?, hnode]
  exact (finds_rowCountsOver h).bind (finds_pure g model _)

/-- An operation that finds the row counts of vertices finds those of expressions. -/
theorem finds_rowCountOver (hvertex : ∀ node id rows, node.vertexId? = some id →
    g.contains id = true → g.plainRowCount n node = some rows → g.Finds model (ofVertex id) rows) :
    ∀ k ≤ n, ∀ node rows, g.plainRowCount k node = some rows →
      g.Finds model (rowCountOver ofVertex node) rows := by
  intro k
  induction k with
  | zero =>
    intro _ node rows h
    cases h
  | succ k ih =>
    intro hk node rows hrows
    cases hlive : g.liveVertex? node.operator with
    | some id =>
      obtain ⟨op, inputs, traits, rowType⟩ := node
      obtain ⟨hid, hid'⟩ := liveVertex?_eq_some.1 hlive
      rw [rowCountOver]
      apply finds_get
      intro h hg _
      rw [hg.liveVertex?, hlive]
      exact hvertex _ id rows hid hid' (plainRowCount_mono hk hrows)
    | none =>
      obtain ⟨counts, hcounts, rfl⟩ := plainRowCount_succ.1 hrows
      rw [resolve_of_dead (not_live_of_liveVertex? hlive)] at hcounts ⊢
      exact finds_rowCountOver_of_not_live hlive
        (hcounts.imp fun input count => ih (by omega) input count)

end RowCounts

/-- The row count of a vertex is found with a bound that suffices without a cache. -/
theorem finds_vertexRowCount (hg : g.Linked mode) (n : Nat) : ∀ node id rows,
    node.vertexId? = some id → g.contains id = true → g.plainRowCount n node = some rows →
      g.Finds model (vertexRowCount n id) rows := by
  induction n with
  | zero =>
    intro node id rows _ _ h
    cases h
  | succ n ih =>
    intro node id rows hid hlive hrows
    obtain ⟨held, hheld⟩ := contains_iff_current.1 hlive
    have hoperator := (hg.currents id held hheld).isOperator
    obtain ⟨counts, hcounts, hestimate⟩ := plainRowCount_succ.1 hrows
    rw [resolve_of_vertexId? hid hheld] at hcounts hestimate
    have hrows : g.HasRowCount held rows := ⟨n + 1, plainRowCount_succ.2
      ⟨counts, by rwa [resolve_operator hoperator], by rwa [resolve_operator hoperator]⟩⟩
    rw [vertexRowCount]
    apply finds_get
    intro h hgh hexact
    obtain ⟨v, hv⟩ := Option.isSome_iff_exists.1 ((hgh.contains id).trans hlive)
    obtain rfl : held = v.current :=
      Option.some.inj (hheld.symm.trans (hgh.current? id ▸ current?_of_vertex? hv))
    rw [hv]
    simp only
    cases hcount : h.knownRowCounts.lookup id with
    | some count =>
      -- what an exact graph knows is what is found without a cache
      obtain ⟨node', hnode', m, hm⟩ := hexact.rowCount id count (mem_of_lookup hcount)
      obtain rfl := Option.some.inj ((hgh.current? id ▸ hnode').symm.trans hheld)
      rw [hgh.plainRowCount] at hm
      rw [hrows.eq hm]
      exact finds_pure g model rows
    | none =>
      rw [hestimate] at hrows ⊢
      apply (finds_rowCountOver_of_not_live (liveVertex?_operator hoperator)
        (hcounts.imp fun input count => finds_rowCountOver ih n le_rfl input count)).bind
      intro h' hg' hexact'
      refine ⟨rfl, hg'.trans (alike_noteRowCount h' id _),
        hexact'.noteRowCount ((hg'.current? id).trans hheld) ?_⟩
      rwa [hg'.hasRowCount]

theorem finds_rowCount (hg : g.Consistent mode) (h : g.HasRowCount node rows) :
    g.Finds model (rowCount node) rows := by
  obtain ⟨n, hn⟩ := h
  rw [rowCount]
  apply finds_get
  intro h hgh _
  rw [depthBound, hgh.size, ← depthBound]
  refine finds_rowCountOver (n := n) (fun node id rows hid hlive hrows => ?_) n le_rfl node rows hn
  obtain ⟨⟨rows', hrows'⟩, -⟩ := hg.exists_plain model hid hlive
  rw [← HasRowCount.eq ⟨n, hrows⟩ hrows']
  exact finds_vertexRowCount hg.toLinked _ node id rows' hid hlive hrows'

theorem finds_rowCounts (hg : g.Consistent mode) {nodes : List Node} {counts : List Float}
    (h : List.Forall₂ g.HasRowCount nodes counts) : g.Finds model (rowCounts nodes) counts := by
  induction h with
  | nil =>
    rw [rowCounts]
    exact finds_pure g model []
  | cons hnode _ ih =>
    rw [rowCounts]
    exact (finds_rowCount hg hnode).bind (ih.bind (finds_pure g model _))

section Costs

variable {ofVertex : VertexId → StateM Graph Cost}

theorem finds_addCostsOver {nodes : List Node} {costs : List Cost}
    (h : List.Forall₂ (fun node cost => g.Finds model (costOver model ofVertex node) cost) nodes
      costs) : ∀ selfCost,
        g.Finds model (addCostsOver model ofVertex selfCost nodes) (costs.foldl Cost.plus selfCost) := by
  induction h with
  | nil =>
    intro selfCost
    rw [addCostsOver]
    exact finds_pure g model selfCost
  | cons hnode _ ih =>
    intro selfCost
    rw [addCostsOver]
    exact hnode.bind (ih _)

theorem finds_costOver_of_not_live (hg : g.Consistent mode)
    (hnode : g.liveVertex? node.operator = none) {counts : List Float} {costs : List Cost}
    (hcounts : List.Forall₂ g.HasRowCount node.inputs counts)
    (hcosts : List.Forall₂ (fun input cost => g.Finds model (costOver model ofVertex input) cost)
      node.inputs costs) :
    g.Finds model (costOver model ofVertex node) (costs.foldl Cost.plus
      (model.selfCost node (node.operator.estimate counts) counts)) := by
  obtain ⟨op, inputs, traits, rowType⟩ := node
  rw [costOver]
  apply finds_get
  intro h hgh _
  rw [hgh.liveVertex?, hnode]
  exact (finds_rowCounts hg hcounts).bind (finds_addCostsOver hcosts _)

/-- An operation that finds the costs of vertices finds those of expressions. -/
theorem finds_costOver (hg : g.Consistent mode) (hvertex : ∀ node id cost, node.vertexId? = some id →
    g.contains id = true → g.plainCost model n node = some cost →
      g.Finds model (ofVertex id) cost) :
    ∀ k ≤ n, ∀ node cost, g.plainCost model k node = some cost →
      g.Finds model (costOver model ofVertex node) cost := by
  intro k
  induction k with
  | zero =>
    intro _ node cost h
    cases h
  | succ k ih =>
    intro hk node cost hcost
    cases hlive : g.liveVertex? node.operator with
    | some id =>
      obtain ⟨op, inputs, traits, rowType⟩ := node
      obtain ⟨hid, hid'⟩ := liveVertex?_eq_some.1 hlive
      rw [costOver]
      apply finds_get
      intro h hgh _
      rw [hgh.liveVertex?, hlive]
      exact hvertex _ id cost hid hid' (plainCost_mono hk hcost)
    | none =>
      obtain ⟨counts, costs, hcounts, hcosts, rfl⟩ := plainCost_succ.1 hcost
      rw [resolve_of_dead (not_live_of_liveVertex? hlive)] at hcounts hcosts ⊢
      exact finds_costOver_of_not_live hg hlive (hcounts.imp fun _ _ h => ⟨k, h⟩)
        (hcosts.imp fun input cost => ih (by omega) input cost)

end Costs

/-- The cost of a vertex is found with a bound that suffices without a cache. -/
theorem finds_vertexCost (hg : g.Consistent mode) (n : Nat) : ∀ node id cost,
    node.vertexId? = some id → g.contains id = true → g.plainCost model n node = some cost →
      g.Finds model (vertexCost model n id) cost := by
  induction n with
  | zero =>
    intro node id cost _ _ h
    cases h
  | succ n ih =>
    intro node id cost hid hlive hcost
    obtain ⟨held, hheld⟩ := contains_iff_current.1 hlive
    have hoperator := (hg.currents id held hheld).isOperator
    obtain ⟨counts, costs, hcounts, hcosts, hsum⟩ := plainCost_succ.1 hcost
    rw [resolve_of_vertexId? hid hheld] at hcounts hcosts hsum
    have hcost : g.HasCost model held cost := ⟨n + 1, plainCost_succ.2 ⟨counts, costs,
      by rwa [resolve_operator hoperator], by rwa [resolve_operator hoperator],
      by rwa [resolve_operator hoperator]⟩⟩
    rw [vertexCost]
    apply finds_get
    intro h hgh hexact
    obtain ⟨v, hv⟩ := Option.isSome_iff_exists.1 ((hgh.contains id).trans hlive)
    obtain rfl : held = v.current :=
      Option.some.inj (hheld.symm.trans (hgh.current? id ▸ current?_of_vertex? hv))
    rw [hv]
    simp only
    cases hkept : h.knownCosts.lookup id with
    | some kept =>
      obtain ⟨node', hnode', m, hm⟩ := hexact.cost id kept (mem_of_lookup hkept)
      obtain rfl := Option.some.inj ((hgh.current? id ▸ hnode').symm.trans hheld)
      rw [hgh.plainCost] at hm
      rw [hcost.eq hm]
      exact finds_pure g model cost
    | none =>
      rw [hsum] at hcost ⊢
      apply (finds_costOver_of_not_live hg (liveVertex?_operator hoperator)
        (hcounts.imp fun _ _ h => ⟨n, h⟩)
        (hcosts.imp fun input cost => finds_costOver hg ih n le_rfl input cost)).bind
      intro h' hg' hexact'
      refine ⟨rfl, hg'.trans (alike_noteCost h' id _),
        hexact'.noteCost ((hg'.current? id).trans hheld) ?_⟩
      rwa [hg'.hasCost]

theorem finds_cumulativeCost (hg : g.Consistent mode) (h : g.HasCost model node cost) :
    g.Finds model (cumulativeCost model node) cost := by
  obtain ⟨n, hn⟩ := h
  rw [cumulativeCost]
  apply finds_get
  intro h hgh _
  rw [depthBound, hgh.size, ← depthBound]
  refine finds_costOver hg (n := n) (fun node id cost hid hlive hcost => ?_) n le_rfl node cost hn
  obtain ⟨-, cost', hcost'⟩ := hg.exists_plain model hid hlive
  rw [← HasCost.eq ⟨n, hcost⟩ hcost']
  exact finds_vertexCost hg _ node id cost' hid hlive hcost'

end Finds

end Graph

end QueryPlanner
