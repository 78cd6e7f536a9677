import QueryPlanner.Proofs.Graph.Binding
import QueryPlanner.Proofs.Planner.Families
import QueryPlanner.Rule.Simplification

/-!
# What simplification rules propose

Each of the rules rewrites an expression of one shape to one other expression. What it proposes for
the expression of a vertex is that expression rewritten, the inputs being looked at through their
placeholders.
-/

namespace QueryPlanner

open QueryPlanner.Graph Planning

inductive Simplification where
  | removeTrivialFilter
  | pushLimitOverProjection
  | removeLimit
  | pushLimitToTableScan
deriving DecidableEq, Repr

/-- The scan stops after `count` rows at the latest. -/
def TableScan.cutAt (scan : TableScan) (count : Nat) : TableScan :=
  { scan with limit := some (match scan.limit with
    | some n => min n count
    | none => count) }

/-- An operator without the bound on its rows, if it is a limit or a scan. -/
def Operator.unbounded : Operator → Operator
  | limit _ => limit 0
  | tableScan scan => tableScan { scan with limit := none }
  | op => op

theorem Expr.eq_of_isAlwaysTrue {e : Expr} (h : e.isAlwaysTrue = true) :
    e = .literal (.boolean (some true)) := by
  unfold isAlwaysTrue at h
  split at h
  · rfl
  · cases h

theorem Operator.kind_unbounded (op : Operator) : op.unbounded.kind = op.kind := by
  cases op <;> rfl

namespace Simplification

def rule : Simplification → Rule
  | removeTrivialFilter => .removeTrivialFilter
  | pushLimitOverProjection => .pushLimitOverProjection
  | removeLimit => .removeLimit
  | pushLimitToTableScan => .pushLimitToTableScan

theorem mem_simplifications {rule : Rule} :
    rule ∈ Rule.simplifications ↔ ∃ s : Simplification, s.rule = rule := by
  simp only [Rule.simplifications, List.mem_cons, List.not_mem_nil, or_false]
  constructor
  · rintro (rfl | rfl | rfl | rfl)
    · exact ⟨removeTrivialFilter, rfl⟩
    · exact ⟨pushLimitOverProjection, rfl⟩
    · exact ⟨removeLimit, rfl⟩
    · exact ⟨pushLimitToTableScan, rfl⟩
  · rintro ⟨s, rfl⟩
    cases s <;> simp [Simplification.rule]

/-- An expression and what it is rewritten to, where `held` tells what an input stands for. -/
inductive Rewrites (held : Node → Option Node) : Simplification → Node → Node → Prop
  | trivialFilter {e : Expr} {input : Node} {rest : List Node} {traits : TraitSet} {rowType : Schema}
      (he : e.isAlwaysTrue = true) :
      Rewrites held removeTrivialFilter ⟨.filter e, input :: rest, traits, rowType⟩ input
  | overProjection {count : Nat} {input below : Node} {traits traits' : TraitSet}
      {rowType rowType' : Schema} {exprs : List Expr} {names : List String} {inputs : List Node}
      (hheld : held input = some ⟨.projection exprs names, inputs, traits', rowType'⟩)
      (hbelow : Node.make (.limit count) inputs traits = .ok below) :
      Rewrites held pushLimitOverProjection ⟨.limit count, [input], traits, rowType⟩
        ⟨.projection exprs names, [below], traits', rowType'⟩
  | limits {outer count : Nat} {input : Node} {traits traits' : TraitSet}
      {rowType rowType' : Schema} {inputs : List Node}
      (hheld : held input = some ⟨.limit count, inputs, traits', rowType'⟩) :
      Rewrites held removeLimit ⟨.limit outer, [input], traits, rowType⟩
        ⟨.limit (min outer count), inputs, traits', rowType'⟩
  | intoScan {count : Nat} {input : Node} {traits traits' : TraitSet} {rowType rowType' : Schema}
      {scan : TableScan} {inputs : List Node}
      (hheld : held input = some ⟨.tableScan scan, inputs, traits', rowType'⟩) :
      Rewrites held pushLimitToTableScan ⟨.limit count, [input], traits, rowType⟩
        ⟨.tableScan (scan.cutAt count), inputs, traits', rowType'⟩

end Simplification

/-- The expression that a placeholder stands for. -/
def Graph.held (g : Graph) (input : Node) : Option Node := input.vertexId?.bind g.current?

namespace Planner

variable {p q : Planner} {rule : Rule} {id : VertexId} {force : Bool} {node : Node}
  {proposed : List Node}

/-- The pattern of the rule matches the expression, and from the match the rule proposes. -/
theorem Proposes.bind (h : p.Proposes rule id force node proposed) : ∃ binding parents p₁ p₂,
    p.graph.bind rule.pattern node .empty = .ok (some binding) ∧
      fire rule node ⟨binding.rels, binding.inputs, parents⟩ p₁ = .ok proposed p₂ := by
  obtain ⟨occasion, binding, p₁, p₂, hoccasion, -, hbind, hfire⟩ := h
  have h₁ := (asks_occasion? rule id force).ends.ok hoccasion
  rw [h₁.graph.bind] at hbind
  exact ⟨binding, occasion.parents, p₁, p₂, hbind, hfire⟩

/-! ## Firings that ask nothing -/

section Fire

variable {call : Call} (E : Fault → Planner → Prop)

/-- A rule without a condition proposes what its inquiry is run to, whatever was reported before. -/
theorem ends_fire_run {Q : List Node → Planner → Prop} {p : Planner} (node : Node)
    (hQ : ∀ proposed q r, Q proposed q → q.Reported r → Q proposed r)
    (happlies : rule.applies call = .done true)
    (hfire : ∀ q, p.Reported q → ∃ proposed r, (((rule.fire call).run ruleAnswerer).run []) q =
      .ok ((), proposed) r ∧ Q proposed r) :
    Ends (fire rule node call) p Q E := by
  unfold fire
  rw [happlies]
  refine ends_bind.2 (ends_pure.2 ?_)
  simp only [Bool.not_true, Bool.false_eq_true, if_false]
  apply (ends_log _ p _).bind
  intro _ q hq
  obtain ⟨proposed, r, hr, hproposed⟩ := hfire q hq
  refine Ends.bind (Q := Q) ?_ fun proposed q h => ?_
  · refine (ends_of_eq_ok (a := proposed) (q := r) ?_).2 hproposed
    show EStateM.tryCatch (EStateM.bind _ _) _ q = _
    rw [EStateM.tryCatch, EStateM.bind, hr]
    rfl
  · apply (ends_observe _ q _).bind
    intro _ r hr
    exact ends_pure.2 (hQ proposed q r h hr)

/-- A rule without a condition that offers one expression has proposed it, and has changed nothing but
what was reported. -/
theorem ends_fire_offer_reported {n : Node} (happlies : rule.applies call = .done true)
    (hfire : rule.fire call = .offer n) (node : Node) (p : Planner) :
    Ends (fire rule node call) p (fun proposed q => proposed = [n] ∧ p.Reported q) E :=
  ends_fire_run E node (fun _ _ _ h hr => ⟨h.1, h.2.trans hr⟩) happlies
    fun q hq => ⟨_, q, by rw [hfire]; rfl, rfl, hq⟩

theorem ends_fire_offer {n : Node} (happlies : rule.applies call = .done true)
    (hfire : rule.fire call = .offer n) (node : Node) (p : Planner) :
    Ends (fire rule node call) p (fun proposed _ => proposed = [n]) E :=
  (ends_fire_offer_reported E happlies hfire node p).mono (fun _ _ h => h.1) fun _ _ h => h

/-- A rule that ends without an offer has proposed nothing. -/
theorem ends_fire_done (happlies : rule.applies call = .done true)
    (hfire : rule.fire call = .done ()) (node : Node) (p : Planner) :
    Ends (fire rule node call) p (fun proposed _ => proposed = []) E :=
  ends_fire_run E node (fun _ _ _ h _ => h) happlies fun q _ => ⟨_, q, by rw [hfire]; rfl, rfl⟩

/-- A rule that fails proposes nothing. -/
theorem ends_fire_fail {f : Fault} (happlies : rule.applies call = .done true)
    (hfire : rule.fire call = .fail f) (node : Node) (p : Planner) :
    Ends (fire rule node call) p (fun _ _ => False) fun cause _ =>
      cause = .firing rule.description f := by
  unfold fire
  rw [happlies, hfire]
  refine ends_bind.2 (ends_pure.2 ?_)
  simp only [Bool.not_true, Bool.false_eq_true, if_false]
  apply (ends_log _ p _).bind
  intro _ q _
  rfl

end Fire

end Planner

namespace Node

variable {n : Node}

theorem make_eq_ok {op : Operator} {inputs : List Node} {traits : TraitSet} :
    make op inputs traits = .ok n ↔
      ∃ type, op.rowType (inputs.map rowType) = .ok type ∧ n = ⟨op, inputs, traits, type⟩ := by
  rw [make]
  cases op.rowType (inputs.map rowType) with
  | error f => simp [Bind.bind, Except.bind]
  | ok type => simp [Bind.bind, Except.bind, pure, Except.pure, eq_comm]

theorem operator_of_limit (h : n.kind = .limit) : ∃ count, n.operator = .limit count := by
  obtain ⟨op, inputs, traits, rowType⟩ := n
  cases op <;> cases h
  exact ⟨_, rfl⟩

theorem operator_of_projection (h : n.kind = .projection) :
    ∃ exprs names, n.operator = .projection exprs names := by
  obtain ⟨op, inputs, traits, rowType⟩ := n
  cases op <;> cases h
  exact ⟨_, _, rfl⟩

theorem operator_of_abstractConverter (h : n.kind = .abstractConverter) :
    n.operator = .abstractConverter := by
  obtain ⟨op, inputs, traits, rowType⟩ := n
  cases op <;> cases h
  rfl

theorem operator_of_tableScan (h : n.kind = .tableScan) : ∃ scan, n.operator = .tableScan scan := by
  obtain ⟨op, inputs, traits, rowType⟩ := n
  cases op <;> cases h
  exact ⟨_, rfl⟩

theorem operator_of_isTrivialFilter (h : n.isTrivialFilter = true) :
    ∃ e, n.operator = .filter e ∧ e.isAlwaysTrue = true := by
  obtain ⟨op, inputs, traits, rowType⟩ := n
  cases op <;> simp_all [isTrivialFilter]

end Node

namespace Simplification

open Planner

variable {p : Planner} {id : VertexId} {force : Bool} {node : Node} {proposed : List Node}

theorem fire_pushLimitOverProjection (limit projection : Node) (inputs : List (Nat × List Node))
    (parents : Option (List Node)) :
    Rule.pushLimitOverProjection.fire ⟨[limit, projection], inputs, parents⟩ =
      (Inquiry.ofExcept (Node.make limit.operator projection.inputs limit.traits)).bind fun below =>
        .offer { projection with inputs := [below] } := rfl

/-- What one of the rules proposes is the expression rewritten. -/
theorem rewrites_of_proposes : ∀ {s : Simplification}, p.Proposes s.rule id force node proposed →
    ∀ n ∈ proposed, Rewrites p.graph.held s node n := by
  intro s h n hn
  obtain ⟨binding, parents, p₁, p₂, hbind, hfire⟩ := h.bind
  cases s with
  | removeTrivialFilter =>
    obtain ⟨haccepts, rfl⟩ := bind_any hbind
    obtain ⟨e, he, htrue⟩ := Node.operator_of_isTrivialFilter (n := node)
      (Bool.and_eq_true_iff.1 haccepts).2
    obtain ⟨op, inputs, traits, rowType⟩ := node
    obtain rfl : op = .filter e := he
    cases inputs with
    | nil =>
      obtain rfl := (ends_fire_done (fun _ _ => True) rfl rfl _ p₁).ok hfire
      cases hn
    | cons input rest =>
      obtain rfl := (ends_fire_offer (fun _ _ => True) rfl rfl _ p₁).ok hfire
      obtain rfl := List.mem_singleton.1 hn
      exact .trivialFilter htrue
  | pushLimitOverProjection =>
    obtain ⟨hkind, input, inner, hinputs, hinner, hbind⟩ := bind_withInput hbind
    obtain ⟨hkind', rfl⟩ := bind_ofKind hbind
    obtain ⟨count, hcount⟩ := Node.operator_of_limit hkind
    obtain ⟨exprs, names, hprojection⟩ := Node.operator_of_projection hkind'
    obtain ⟨op, inputs, traits, rowType⟩ := node
    obtain ⟨op', inputs', traits', rowType'⟩ := inner
    obtain rfl : op = .limit count := hcount
    obtain rfl : op' = .projection exprs names := hprojection
    obtain rfl : inputs = [input] := hinputs
    have hcall := fire_pushLimitOverProjection ⟨.limit count, [input], traits, rowType⟩
      ⟨.projection exprs names, inputs', traits', rowType'⟩ [] parents
    cases hbelow : Node.make (.limit count) inputs' traits with
    | error f =>
      rw [hbelow] at hcall
      exact ((ends_fire_fail rfl hcall _ p₁).ok hfire).elim
    | ok below =>
      rw [hbelow] at hcall
      obtain rfl := (ends_fire_offer (fun _ _ => True) rfl hcall _ p₁).ok hfire
      obtain rfl := List.mem_singleton.1 hn
      exact .overProjection hinner hbelow
  | removeLimit =>
    obtain ⟨hkind, input, inner, hinputs, hinner, hbind⟩ := bind_withInput hbind
    obtain ⟨hkind', rfl⟩ := bind_ofKind hbind
    obtain ⟨outer, houter⟩ := Node.operator_of_limit hkind
    obtain ⟨count, hcount⟩ := Node.operator_of_limit hkind'
    obtain ⟨op, inputs, traits, rowType⟩ := node
    obtain ⟨op', inputs', traits', rowType'⟩ := inner
    obtain rfl : op = .limit outer := houter
    obtain rfl : op' = .limit count := hcount
    obtain rfl : inputs = [input] := hinputs
    obtain rfl := (ends_fire_offer (fun _ _ => True) rfl rfl _ p₁).ok hfire
    obtain rfl := List.mem_singleton.1 hn
    exact .limits hinner
  | pushLimitToTableScan =>
    obtain ⟨hkind, input, inner, hinputs, hinner, hbind⟩ := bind_withInput hbind
    obtain ⟨hkind', rfl⟩ := bind_ofKind hbind
    obtain ⟨count, hcount⟩ := Node.operator_of_limit hkind
    obtain ⟨scan, hscan⟩ := Node.operator_of_tableScan hkind'
    obtain ⟨op, inputs, traits, rowType⟩ := node
    obtain ⟨op', inputs', traits', rowType'⟩ := inner
    obtain rfl : op = .limit count := hcount
    obtain rfl : op' = .tableScan scan := hscan
    obtain rfl : inputs = [input] := hinputs
    obtain rfl := (ends_fire_offer (fun _ _ => True) rfl rfl _ p₁).ok hfire
    obtain rfl := List.mem_singleton.1 hn
    exact .intoScan hinner

/-! ## Families -/

/-- Rewriting stays within every family that does not tell bounds apart. -/
theorem Rewrites.within {F : Operator → TraitSet → Prop} {g : Graph} {mode : DigestMode}
    {node' : Node} {s : Simplification}
    (hF : ∀ op op' traits, op.unbounded = op'.unbounded → F op traits → F op' traits)
    (hg : g.Linked mode) (hwithin : g.Within F) (hnode : g.current? id = some node)
    (h : Rewrites g.held s node node') : node'.Within F := by
  have hplaceholder : ∀ {m : Node}, g.OverVertices m → ∀ i ∈ m.inputs, i.Within F := by
    intro m hm i hi
    obtain ⟨j, hj⟩ := hm.inputs i hi
    exact Node.within_vertex (hg.vertexId?_placeholder hj)
  have hhead := hwithin id node hnode
  have hinputs := hplaceholder (hg.currents id node hnode)
  have hheld : ∀ {input inner : Node}, g.held input = some inner →
      F inner.operator inner.traits ∧ ∀ i ∈ inner.inputs, i.Within F := by
    intro input inner hheld
    obtain ⟨i, -, hcurrent⟩ := Option.bind_eq_some_iff.1 hheld
    exact ⟨hwithin i inner hcurrent, hplaceholder (hg.currents i inner hcurrent)⟩
  cases h with
  | trivialFilter _ => exact hinputs _ List.mem_cons_self
  | overProjection hinner hbelow =>
    obtain ⟨hprojection, hinner⟩ := hheld hinner
    obtain ⟨rowType, -, rfl⟩ := Node.make_eq_ok.1 hbelow
    refine (Node.within_operator rfl).2 ⟨hprojection, fun i hi => ?_⟩
    obtain rfl := List.mem_singleton.1 hi
    exact (Node.within_operator rfl).2 ⟨hhead, hinner⟩
  | @limits outer count input _ _ _ _ inputs hinner =>
    obtain ⟨hlimit, hinner⟩ := hheld hinner
    exact (Node.within_operator rfl).2 ⟨hF (.limit count) _ _ rfl hlimit, hinner⟩
  | @intoScan count input _ _ _ _ scan inputs hinner =>
    obtain ⟨hscan, hinner⟩ := hheld hinner
    exact (Node.within_operator rfl).2 ⟨hF (.tableScan scan) _ _ rfl hscan, hinner⟩

/-- What the rules propose is of every family that does not tell bounds apart. -/
theorem staysWithin {F : Operator → TraitSet → Prop}
    (hF : ∀ op op' traits, op.unbounded = op'.unbounded → F op traits → F op' traits)
    (s : Simplification) : s.rule.StaysWithin F := by
  intro p id force node proposed hp hwithin h n hn
  exact (rewrites_of_proposes h n hn).within hF hp.toLinked hwithin h.current

end Simplification

end QueryPlanner
