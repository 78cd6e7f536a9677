import QueryPlanner.Proofs.Conversion.Demand
import QueryPlanner.Proofs.Planner.Reduction

/-!
# Supplying conversions

A converter rule redirects those parents of an expression to its conversion which want it, and
leaves all others alone. The conversion has the bulk of the expression, so whoever refers to either
has the bulk that it had, and less is wanted wherever such a parent can be reached.
-/

namespace QueryPlanner

open QueryPlanner.Graph Planning Relation

namespace Graph

variable {mode : DigestMode} {g g' : Graph} {id preserved discarded : VertexId}
  {placeholder : Node} {parents : List VertexId} {target : Convention}

/-- If every input stands for something of the same bulk and for no more wants than before, then all
inputs together do, and for less if one does. -/
theorem exists_eased_inputs {op : Operator} {traits : TraitSet} {f : Node → Node}
    {Less : Node → Prop} {ms xs : List Node} (hxs : List.Forall₂ g.Unfolds ms xs)
    (h : ∀ m ∈ ms, ∀ x, g.Unfolds m x → ∃ y, g'.Unfolds (f m) y ∧ y.bulk = x.bulk ∧
      Node.want op traits y + y.demand ≤ Node.want op traits x + x.demand ∧
      (Less m → Node.want op traits y + y.demand < Node.want op traits x + x.demand)) :
    ∃ ys, List.Forall₂ g'.Unfolds (ms.map f) ys ∧ Node.bulks ys = Node.bulks xs ∧
      Node.demands op traits ys ≤ Node.demands op traits xs ∧
      ((∃ m ∈ ms, Less m) → Node.demands op traits ys < Node.demands op traits xs) := by
  induction hxs with
  | nil => exact ⟨[], .nil, rfl, le_rfl, by simp⟩
  | @cons m x ms xs hx _ ih =>
    rw [List.forall_mem_cons] at h
    obtain ⟨y, hy, hbulk, hle, hlt⟩ := h.1 x hx
    obtain ⟨ys, hys, hbulks, hles, hlts⟩ := ih h.2
    refine ⟨y :: ys, .cons hy hys, ?_, ?_, fun hless => ?_⟩
    · rw [Node.bulks, Node.bulks, hbulk, hbulks]
    · rw [Node.demands, Node.demands]
      omega
    · rw [Node.demands, Node.demands]
      obtain ⟨m', hmem, hm'⟩ := hless
      rcases List.mem_cons.1 hmem with rfl | hmem
      · have hlt := hlt hm'
        omega
      · have hlts := hlts ⟨m', hmem, hm'⟩
        omega

/-- The parents are redirected from an expression to a conversion of it, in the convention that they
have and want. -/
structure Supplied (mode : DigestMode) (target : Convention) (preserved discarded : VertexId)
    (placeholder : Node) (parents : List VertexId) (g g' : Graph) : Prop where
  linked : g.Linked mode
  redirectable : g.Redirectable preserved discarded placeholder parents
  contracted : Contracted mode preserved discarded placeholder parents g g'
  acyclic : g'.Acyclic
  supplies : ∃ t v, g.UnfoldsTo discarded t ∧ g.UnfoldsTo preserved v ∧ Node.Supplies target t v ∧
    t.convention ≠ target
  wanted : ∀ i ∈ parents, ∀ n, g.current? i = some n → n.isConverter = false ∧ n.convention = target

/-- The input of a parent is moved from one vertex to another. -/
def Moves (discarded : VertexId) (parents : List VertexId) (id : VertexId) (m : Node) : Prop :=
  id ∈ parents ∧ m.vertexId? = some discarded

instance (id : VertexId) (m : Node) : Decidable (Moves discarded parents id m) :=
  inferInstanceAs (Decidable (_ ∧ _))

/-- What stands in the place of an input of a vertex afterwards. -/
def standIn (discarded : VertexId) (placeholder : Node) (parents : List VertexId) (id : VertexId)
    (m : Node) : Node :=
  if Moves discarded parents id m then placeholder else m

theorem Contracted.current_of (hc : Contracted mode preserved discarded placeholder parents g g')
    {n : Node} (hn : g.current? id = some n) : g'.current? id =
      some { n with inputs := n.inputs.map (standIn discarded placeholder parents id) } := by
  rw [hc.current, hn]
  by_cases hparent : id ∈ parents
  · have hinputs : n.inputs.map (standIn discarded placeholder parents id) =
        (n.redirect discarded placeholder).inputs :=
      List.map_congr_left fun m _ => if_congr (and_iff_right hparent) rfl rfl
    rw [if_pos hparent, hinputs]
    rfl
  · have hinputs : n.inputs.map (standIn discarded placeholder parents id) = n.inputs := by
      conv_rhs => rw [← List.map_id n.inputs]
      exact List.map_congr_left fun m _ => if_neg fun h => hparent h.1
    rw [if_neg hparent, hinputs]
    cases n
    rfl

/-- A redirected parent can be reached. -/
def Above (g : Graph) (parents : List VertexId) (id : VertexId) : Prop :=
  ∃ i ∈ parents, ReflTransGen g.Edge id i

/-- The tree of the vertex wants no more than before, and less if it is above a redirected parent. -/
def EasedAt (g g' : Graph) (parents : List VertexId) (id : VertexId) : Prop :=
  ∀ x, g.UnfoldsTo id x → ∃ y, g'.UnfoldsTo id y ∧ Node.Eases x y ∧
    (g.Above parents id → y.demand < x.demand)

namespace Supplied

variable (h : Supplied mode target preserved discarded placeholder parents g g') {n m x : Node}
include h

/-- Less is wanted of an input that is moved, and of one above a redirected parent. -/
theorem exists_less (hn : g.current? id = some n) (habove : g.Above parents id) :
    ∃ m ∈ n.inputs, Moves discarded parents id m ∨ ∃ j, m.vertexId? = some j ∧ g.Above parents j := by
  obtain ⟨i, hi, hpath⟩ := habove
  rcases hpath.cases_head with rfl | ⟨j, hedge, hpath⟩
  · obtain ⟨m, hm, hvertex⟩ := h.linked.exists_input_of_edge hn (h.redirectable.edge id hi)
    exact ⟨m, hm, .inl ⟨hi, hvertex⟩⟩
  · obtain ⟨m, hm, hvertex⟩ := h.linked.exists_input_of_edge hn hedge
    exact ⟨m, hm, .inr ⟨j, hvertex, i, hi, hpath⟩⟩

/-- A conversion in place of an input: nothing is wanted of it any more. -/
theorem exists_eased_moved (hn : g.current? id = some n) (hm : Moves discarded parents id m)
    (hpreserved : EasedAt g g' parents preserved) (hx : g.Unfolds m x) :
    ∃ y, g'.Unfolds placeholder y ∧ y.bulk = x.bulk ∧
      Node.want n.operator n.traits y + y.demand < Node.want n.operator n.traits x + x.demand := by
  obtain ⟨t, v, ht, hv, hsupplies, hne⟩ := h.supplies
  obtain ⟨y, hy, heases, -⟩ := hpreserved v hv
  obtain rfl := ((unfolds_of_vertexId? hm.2).1 hx).unique ht
  obtain ⟨hconverter, hconvention⟩ := h.wanted id hm.1 n hn
  have hplaceholder := h.linked.vertexId?_placeholder h.redirectable.placeholder_eq
  have hwant : Node.want n.operator n.traits y = 0 := by
    refine if_pos (.inr ?_)
    rw [heases.convention_eq, hsupplies.convention_eq]
    exact hconvention.symm
  have hwanted : Node.want n.operator n.traits x = x.bulk :=
    Node.want_of_ne hconverter (hne.trans_eq hconvention.symm)
  have hless := hsupplies.demand_lt
  have hle := heases.demand_le
  refine ⟨y, (unfolds_of_vertexId? hplaceholder).2 hy, heases.bulk_eq.trans hsupplies.bulk_eq, ?_⟩
  omega

/-- Of what stands in the place of an input no more is wanted, and less if the input is moved or above a
redirected parent. -/
theorem exists_eased_standIn (hn : g.current? id = some n) (hm : m ∈ n.inputs)
    (hinput : ∀ j, (standIn discarded placeholder parents id m).vertexId? = some j →
      EasedAt g g' parents j) (hx : g.Unfolds m x) :
    ∃ y, g'.Unfolds (standIn discarded placeholder parents id m) y ∧ y.bulk = x.bulk ∧
      Node.want n.operator n.traits y + y.demand ≤ Node.want n.operator n.traits x + x.demand ∧
      (Moves discarded parents id m ∨ (∃ j, m.vertexId? = some j ∧ g.Above parents j) →
        Node.want n.operator n.traits y + y.demand < Node.want n.operator n.traits x + x.demand) := by
  by_cases hmoves : Moves discarded parents id m
  · have hstand : standIn discarded placeholder parents id m = placeholder := if_pos hmoves
    have hvertex := h.linked.vertexId?_placeholder h.redirectable.placeholder_eq
    rw [hstand] at hinput ⊢
    obtain ⟨y, hy, hbulk, hlt⟩ := h.exists_eased_moved hn hmoves (hinput preserved hvertex) hx
    exact ⟨y, hy, hbulk, hlt.le, fun _ => hlt⟩
  · have hstand : standIn discarded placeholder parents id m = m := if_neg hmoves
    obtain ⟨j, hj⟩ := (h.linked.currents id n hn).inputs m hm
    have hvertex := h.linked.vertexId?_placeholder hj
    rw [hstand] at hinput ⊢
    obtain ⟨y, hy, heases, hless⟩ := hinput j hvertex x ((unfolds_of_vertexId? hvertex).1 hx)
    refine ⟨y, (unfolds_of_vertexId? hvertex).2 hy, heases.bulk_eq, ?_, fun hm => ?_⟩
    · rw [Node.want_congr heases.convention_eq heases.bulk_eq]
      exact Nat.add_le_add_left heases.demand_le _
    · obtain ⟨j', hj', habove⟩ := hm.resolve_left hmoves
      obtain rfl := Option.some.inj (hvertex.symm.trans hj')
      rw [Node.want_congr heases.convention_eq heases.bulk_eq]
      exact Nat.add_lt_add_left (hless habove) _

/-- One vertex, given those that it refers to. -/
theorem easedAt_of_inputs (hn : g.current? id = some n)
    (hinputs : ∀ j, g'.Edge id j → EasedAt g g' parents j) : EasedAt g g' parents id := by
  rintro x ⟨_, hn₂, hx⟩
  obtain rfl := Option.some.inj (hn.symm.trans hn₂)
  have hover := h.linked.currents id n hn
  obtain ⟨xs, hxs, rfl⟩ := (unfolds_operator hover.isOperator).1 hx
  have hn' := h.contracted.current_of hn
  obtain ⟨ys, hys, hbulks, hle, hlt⟩ := exists_eased_inputs hxs fun m hm _ hx =>
    h.exists_eased_standIn hn hm (fun j hj =>
      hinputs j (h.contracted.linked.edge_of_input hn' (List.mem_map_of_mem hm) hj)) hx
  have hnone : ∀ inputs, Node.vertexId? { n with inputs } = none := fun _ => hover.isOperator
  have hy : g'.UnfoldsTo id { n with inputs := ys } :=
    ⟨_, hn', (unfolds_operator (hnone _)).2 ⟨ys, hys, rfl⟩⟩
  refine ⟨_, hy, ⟨rfl, ?_, ?_⟩, fun habove => ?_⟩
  · rw [Node.bulk_eq, Node.bulk_eq { n with inputs := xs }, Node.isConverter, Node.isConverter, hbulks]
  · rw [Node.demand_eq, Node.demand_eq { n with inputs := xs }]
    exact hle
  · rw [Node.demand_eq, Node.demand_eq { n with inputs := xs }]
    exact hlt (h.exists_less hn habove)

/-- Everything keeps its bulk and its convention, and less is wanted above the redirected parents: by
induction on the later graph. -/
theorem easedAt (hid : g'.contains id = true) : EasedAt g g' parents id := by
  obtain ⟨rank, hrank⟩ := h.acyclic.exists_ranked
  induction hr : rank id using Nat.strong_induction_on generalizing id with
  | _ r ih =>
    intro x hx
    have ⟨n, hn, _⟩ := hx
    refine h.easedAt_of_inputs hn (fun j hedge => ?_) x hx
    exact ih (rank j) (hr ▸ hrank _ j hedge) (h.contracted.linked.edges_live _ hedge).2 rfl

end Supplied

end Graph

end QueryPlanner
