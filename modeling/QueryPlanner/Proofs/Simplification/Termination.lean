import QueryPlanner.Proofs.Planner.Groups
import QueryPlanner.Proofs.Simplification.Confluence

/-!
# Programs of simplifications end

Every firing of a simplification makes the tree of the root lighter. So programs of simplifications
end, in any match orders, with any limits and with subprograms nested to any depth. Where vertices
are shared, the result of a firing may already be there: it is as heavy as what was proposed if keys
tell kinds and references, which they do if all traits are plain. With others a subprogram may go on
for ever.
-/

namespace QueryPlanner

open QueryPlanner.Graph Planning Planner

namespace Node

theorem congruence_weight : Node.Congruence fun t u => u.weight = t.weight where
  refl _ := rfl
  trans h h' := h'.trans h
  inputs n ts us h := by
    have hweights : weights us = weights ts := by
      induction h with
      | nil => rfl
      | cons htu _ ih => rw [weights, weights, htu, ih]
    rw [weight, weight, hweights]

theorem weights_le_or_eq {ts us : List Node}
    (h : List.Forall₂ (fun t u => u = t ∨ u.weight < t.weight) ts us) :
    us = ts ∨ weights us < weights ts := by
  induction h with
  | nil => exact .inl rfl
  | cons htu _ ih =>
    rw [weights, weights]
    rcases htu with rfl | htu <;> rcases ih with rfl | ih
    · exact .inl rfl
    · exact .inr (by omega)
    · exact .inr (by omega)
    · exact .inr (by omega)

theorem reduction_weight : Node.Reduction weight fun t u => u.weight < t.weight where
  lt h := h
  le_of_mem h := (weight_lt_of_mem h).le
  trans h h' := h'.trans h
  congruence :=
    { refl := fun _ => .inl rfl
      trans := by
        rintro t u v (rfl | h) (rfl | h')
        · exact .inl rfl
        · exact .inr h'
        · exact .inr h
        · exact .inr (h'.trans h)
      inputs := by
        intro n ts us h
        rcases weights_le_or_eq h with rfl | hlt
        · exact .inl rfl
        · refine .inr ?_
          rw [weight, weight]
          exact Nat.succ_lt_succ (Nat.mul_lt_mul_of_pos_left hlt n.operator.factor_pos) }

end Node

theorem Operator.factor_eq_of_kind_eq {op op' : Operator} (h : op.kind = op'.kind) :
    op.factor = op'.factor := by
  cases op <;> cases op' <;> first | rfl | cases h

/-- Where traits are plain, expressions of one key have trees of one weight. -/
theorem Graph.keysRelate_weight {s : Settings} {g : Graph} (hg : g.Linked s.digestMode)
    {F : Operator → TraitSet → Prop} (hF : g.Within F)
    (hplain : s.dag = true → ∀ op traits, F op traits → traits.isPlain = true) :
    g.KeysRelate s F fun t u => u.weight = t.weight := by
  refine keysRelate_of_references hg hF fun hdag n n' hn hn' hin hin' hFn hFn' hkey => ?_
  obtain ⟨hkind, hreferences, -⟩ := Node.parts_eq_of_key_eq (hplain hdag _ _ hFn)
    (hplain hdag _ _ hFn') hn hn' hin hin' hkey
  refine ⟨hreferences, fun ts => ?_⟩
  rw [Node.weight, Node.weight, Operator.factor_eq_of_kind_eq hkind]

namespace Simplification

variable {p₀ p q : Planner} {force : Bool}

/-- Where vertices are shared, the traits are plain. -/
def PlainIfShared (dag : Bool) (_ : Operator) (traits : TraitSet) : Prop :=
  dag = true → traits.isPlain = true

/-- Every firing of a simplification makes the tree of the root lighter. -/
theorem progress_weight : Progress (· ∈ Rule.simplifications) force
    (Measured p₀ (PlainIfShared p₀.settings.dag) Node.weight fun _ => True) (IdleWhere Calm)
    fun f => ∃ description cause, f = .firing description cause := by
  have h : Progress (· ∈ Rule.simplifications) force
      (Measured p₀ (PlainIfShared p₀.settings.dag) Node.weight fun _ => True) (IdleWhere Calm) _ :=
    progress id (fun _ _ _ _ h => h) Node.reduction_weight Node.congruence_weight
      (fun g hg hF => keysRelate_weight hg hF fun hdag _ _ h => h hdag) (fun _ _ => trivial)
      fun _ hstep hv => hv.trans_lt hstep.weight_lt
  exact h.mono fun _ h => h.1

/-- Programs of simplifications end, whatever else is registered: every firing makes the tree of the
root lighter, and what the program leaves is as heavy as the plan only if nothing was transformed.
Where vertices are shared, the traits of the plan have to be plain. -/
theorem fueled_execute_simplifications {settings : Settings} {program : Program}
    {rules : List Rule} {plan : Node} (hplan : plan.Everywhere fun n => n.vertexId? = none)
    (hplain : plan.Within (PlainIfShared settings.dag))
    (hrules : ∀ rule ∈ rules ++ program.rules, rule.Registrable)
    (hprogram : Instruction.AllFireOnly (· ∈ Rule.simplifications)
      (Registry.empty.extendAll (rules ++ program.rules)) program.instructions) :
    ∃ p, build settings program rules plan = .ok () p ∧
      Fueled (fun n => execute n program) p
        (fun _ q => ∃ root t, q.graph.root = some root ∧ q.graph.UnfoldsTo root t ∧
          t.weight ≤ plan.weight ∧ (t.weight = plan.weight → q.transformations = p.transformations))
        (fun f _ => f ≠ .outOfFuel) ∧
      ∀ (w : ℕ) (q r : Planner) (rule : Rule) (id : VertexId) (force : Bool)
        (replacement : Replacement),
        Measured p (PlainIfShared settings.dag) Node.weight (fun _ => True) w q →
          q.graph.Spanned → rule ∈ Rule.simplifications →
            attempt rule id force q = .ok (some replacement) r →
              ∃ w' < w, Measured p (PlainIfShared settings.dag) Node.weight (fun _ => True) w' r := by
  have hkeys : KeysRelateIn settings (PlainIfShared settings.dag) fun t u => u.weight = t.weight :=
    fun g hg hF => keysRelate_weight hg hF fun hdag _ _ h => h hdag
  obtain ⟨p, hbuild, hp, hunderway⟩ := exists_build Node.congruence_weight hkeys hrules hplan hplain
  have hmeasured : Measured p (PlainIfShared p.settings.dag) Node.weight (fun _ => True)
      plan.weight p := by
    rw [hp.settings_eq]
    exact hunderway.mono fun _ _ _ _ h => ⟨trivial, h⟩
  have hcollects : p.Collects (· ∈ Rule.simplifications) := by
    simp [Collects, hp.execution, Execution.fresh]
  rw [← hp.registry] at hprogram
  refine ⟨p, hbuild, (Progress.fueled_execute (fun _ => progress_weight) hprogram hmeasured
    hcollects).mono ?_ ?_, fun w q r rule id force replacement hq hspanned hrule h => ?_⟩
  · rintro _ q ⟨w, hq, -⟩
    obtain ⟨root, t, hroot, ht, -, rfl⟩ := hq.reached.tree
    exact ⟨root, t, hroot, ht, hq.le, hq.unchanged⟩
  · rintro f _ (⟨description, cause, rfl⟩ | ⟨defect, rfl⟩) h <;> cases h
  · rw [← hp.settings_eq] at hq ⊢
    exact ((progress_weight.attempt id hrule hq hspanned).ok h).2.2

/-- A subprogram that fires a limited number of rules, then a group of rules. -/
def nestedProgram : Program :=
  ⟨[.subprogram [.limit 1, .order .topDown, .rule Rule.pushLimitOverProjection, .beginGroup,
    .described "RemoveLimitRule", .rules [Rule.removeTrivialFilter], .endGroup]]⟩

theorem fueled_execute_nestedProgram :
    ∃ p, build .default nestedProgram [Rule.removeLimit] limitedColumn = .ok () p ∧
      Fueled (fun n => execute n nestedProgram) p
        (fun _ q => ∃ root t, q.graph.root = some root ∧ q.graph.UnfoldsTo root t ∧
          t.weight ≤ limitedColumn.weight)
        fun f _ => f ≠ .outOfFuel := by
  have hplain : limitedColumn.Within (PlainIfShared Settings.default.dag) := by
    have : TraitSet.default.isPlain = true := by decide
    simp [limitedColumn, columnScan, Node.Within, Node.AllWithin, PlainIfShared, this]
  have hrules : ∀ rule ∈ [Rule.removeLimit] ++ nestedProgram.rules, rule.Registrable := by
    have h := registrable_rule
    simp only [nestedProgram, Program.rules, Instruction.rulesOf, Instruction.ownRules]
    simpa using ⟨h .removeLimit, h .pushLimitOverProjection, h .removeTrivialFilter⟩
  have hregistered : ∀ rule ∈ ([Rule.removeLimit] ++ nestedProgram.rules),
      rule ∈ Rule.simplifications := by
    simp only [nestedProgram, Program.rules, Instruction.rulesOf, Instruction.ownRules]
    simp [Rule.simplifications]
  have hprogram : Instruction.AllFireOnly (· ∈ Rule.simplifications)
      (Registry.empty.extendAll ([Rule.removeLimit] ++ nestedProgram.rules))
        nestedProgram.instructions := by
    refine ⟨⟨trivial, trivial, by simp [Instruction.FiresOnly, Rule.simplifications], trivial,
      fun rule hrule => ?_, by simp [Instruction.FiresOnly, Rule.simplifications], trivial,
      trivial⟩, trivial⟩
    rcases Registry.mem_rules_extendAll (Registry.mem_rules_of_find? hrule) with h | h
    · simp [Registry.empty] at h
    · exact hregistered rule h
  obtain ⟨p, hbuild, h, -⟩ := fueled_execute_simplifications
    (limitedColumn_wellTyped.without_vertices) hplain hrules hprogram
  refine ⟨p, hbuild, h.mono ?_ fun _ _ h => h⟩
  rintro _ _ ⟨root, t, hroot, ht, hle, -⟩
  exact ⟨root, t, hroot, ht, hle⟩

/-! ## Traits that are not plain -/

/-- A projection in a convention whose name looks like the terms of a digest. -/
def innerProjection (input : Node) : Node :=
  ⟨.projection [.column none "a"] ["a"], [input], ⟨⟨"B(input#0=#2, exprs=[x"⟩, .unordered⟩,
    columnScan.rowType⟩

/-- A projection that has over vertex 2 the digest of the other one over vertex 4. -/
def outerProjection (input : Node) : Node :=
  ⟨.projection [.column none "x(input#0=#4, exprs=[a"] ["a"], [input], ⟨⟨"B"⟩, .unordered⟩,
    columnScan.rowType⟩

def oneRow (input : Node) : Node := ⟨.limit 1, [input], .default, columnScan.rowType⟩

/-- A limit between the projections. -/
def enclosedLimit : Node := outerProjection (oneRow (innerProjection columnScan))

/-- A subprogram of one rule. -/
def repeatedPush : Program := ⟨[.subprogram [.rule Rule.pushLimitOverProjection]]⟩

def plannedGraph : Graph := (left (build .default repeatedPush [] enclosedLimit)).graph

/-- What vertex 0, the scan, is to expressions over it. -/
def scanned : Node := .placeholder 0 .default columnScan.rowType

/-- The graph with the limit pushed over the scan, as vertex 4. -/
def pushedGraph : Graph := (plannedGraph.insert (oneRow scanned) ((oneRow scanned).key .normalized)).2

def sweptGraph : Graph := pushedGraph.discard [4] [4]

/-- A graph without the pushed limit. -/
def IsUnpushed (g : Graph) : Prop := g = plannedGraph ∨ g = sweptGraph

theorem IsUnpushed.insert {g : Graph} (hg : IsUnpushed g) :
    g.insert (oneRow scanned) ((oneRow scanned).key .normalized) = (4, pushedGraph) := by
  rcases hg with rfl | rfl <;> rfl

theorem IsUnpushed.depthFirstFrom {g : Graph} (hg : IsUnpushed g) :
    g.depthFirstFrom 3 = [3, 2, 1, 0] := by
  rcases hg with rfl | rfl <;> decide +kernel

/-- A planner with the graph, which executes a subprogram. -/
structure Circling (g : Graph) (p : Planner) : Prop where
  settings : p.settings = .default
  execution : p.execution = .fresh
  graph : p.graph = g

/-- The planner after the limit was pushed. -/
def pushing (p : Planner) : Planner :=
  { p with graph := pushedGraph, transformations := p.transformations + 1 }

namespace Circling

variable {g : Graph}

theorem reported (h : Circling g p) (hpq : p.Reported q) : Circling g q := by
  obtain ⟨events, rfl⟩ := hpq
  exact ⟨h.settings, h.execution, h.graph⟩

theorem of_pushing (h : Circling g p) : Circling pushedGraph (pushing p) :=
  ⟨h.settings, h.execution, rfl⟩

/-- The limit is added, and the projection over it is found: it has the digest of vertex 3. -/
theorem add_eq (h : Circling g p) (hg : IsUnpushed g) :
    add (innerProjection (oneRow scanned)) p = .ok 3 (pushing p) := by
  have hscan : add scanned p = .ok 0 p := by
    refine add_vertex_eq_ok.2 ⟨?_, rfl, rfl⟩
    rw [h.graph]
    rcases hg with rfl | rfl <;> rfl
  have hscanned : addInputs [scanned] p = .ok [scanned] p := by
    refine addInputs_cons_eq_ok.2 ⟨0, scanned, [], p, hscan, ?_, by rw [addInputs]; rfl, rfl⟩
    rw [h.graph]
    rcases hg with rfl | rfl <;> rfl
  have hlimit : place (oneRow scanned) p = .ok 4 (pushing p) := by
    have hnew : p.shared? (oneRow scanned) = none := by
      rw [shared?, h.settings, h.graph]
      rcases hg with rfl | rfl <;> decide +kernel
    have hinsert : p.graph.insert (oneRow scanned) ((oneRow scanned).key p.settings.digestMode) =
        (4, pushedGraph) := by
      rw [h.graph, h.settings]
      exact hg.insert
    rw [place_eq, hnew]
    simp only [hinsert]
    rfl
  have hbelow : add (oneRow scanned) p = .ok 4 (pushing p) :=
    (add_operator_eq_ok (by simp)).2 ⟨_, p, hscanned, hlimit⟩
  have hprojection : place (innerProjection (.placeholder 4 .default columnScan.rowType)) (pushing p) =
      .ok 3 (pushing p) := by
    have hshared : (pushing p).shared? (innerProjection (.placeholder 4 .default columnScan.rowType)) =
        some 3 := by
      rw [shared?, h.of_pushing.settings, h.of_pushing.graph]
      decide +kernel
    rw [place_eq, hshared]
  exact (add_operator_eq_ok (by simp)).2 ⟨_, _, addInputs_cons_eq_ok.2
    ⟨4, _, [], _, hbelow, rfl, by rw [addInputs]; rfl, rfl⟩, hprojection⟩

/-- The limit is pushed in vain, for vertex 3 is a parent of the limit that was there before. -/
theorem ends_visit (h : Circling g p) (hg : IsUnpushed g) :
    Ends (visit [Rule.pushLimitOverProjection] true 2) p
      (fun r q => r = none ∧ (pushing p).Reported q) fun _ _ => False := by
  have hnode : p.graph.current? 2 =
      some (oneRow (.placeholder 1 (innerProjection scanned).traits columnScan.rowType)) := by
    rw [h.graph]
    rcases hg with rfl | rfl <;> rfl
  refine ends_visit_singleton (ends_attempt_of (fun hgone => ?_) fun node hnode' => ?_)
  · rw [contains_of_current hnode] at hgone
    cases hgone
  obtain rfl := Option.some.inj (hnode.symm.trans hnode')
  rw [occasion?_transformation rfl]
  refine ends_pure.2 ⟨hnode, ?_⟩
  have hbind : p.graph.bind Rule.pushLimitOverProjection.pattern
      (oneRow (.placeholder 1 (innerProjection scanned).traits columnScan.rowType)) .empty =
        .ok (some ⟨[oneRow (.placeholder 1 (innerProjection scanned).traits columnScan.rowType),
          innerProjection scanned], []⟩) := by
    rw [h.graph]
    rcases hg with rfl | rfl <;> rfl
  rw [hbind]
  refine (ends_fire_offer_reported _ rfl (n := innerProjection (oneRow scanned)) rfl _ p).mono ?_
    fun _ _ h => h
  rintro _ q ⟨rfl, hq⟩
  have hadd := (h.reported hq).add_eq hg
  obtain ⟨events, rfl⟩ := hq
  have hparents : ((g.parents 2).filter fun i => (g.current? i).any fun _ => true) = [3] := by
    rcases hg with rfl | rfl <;> decide +kernel
  refine ends_bind.2 (ends_pure.2 (ends_bind.2 (ends_get.2 ?_)))
  refine ends_bind.2 ((ends_of_eq_ok hadd).2 ?_)
  rw [h.graph, hparents, if_pos (by simp)]
  exact ends_pure.2 ⟨rfl, _, rfl⟩

end Circling

/-- A planner in which the subprogram is repeated. The graph was changed since the last sweep. -/
def Restless (p : Planner) : Prop :=
  (∃ g, Circling g p ∧ (g = plannedGraph ∨ g = pushedGraph)) ∧
    p.transformations ≠ p.transformationsAtSweep

namespace Restless

theorem reported (h : Restless p) (hpq : p.Reported q) : Restless q := by
  obtain ⟨⟨g, h, hg⟩, hnew⟩ := h
  have hq := h.reported hpq
  obtain ⟨events, rfl⟩ := hpq
  exact ⟨⟨g, hq, hg⟩, hnew⟩

theorem executed (h : Restless p) : Restless { p with execution := .fresh } := by
  obtain ⟨⟨g, h, hg⟩, hnew⟩ := h
  exact ⟨⟨g, ⟨h.settings, rfl, h.graph⟩, hg⟩, hnew⟩

theorem root (h : Restless p) : p.graph.root = some 3 ∧ p.graph.contains 3 = true := by
  obtain ⟨⟨g, h, hg⟩, -⟩ := h
  rw [h.graph]
  rcases hg with rfl | rfl <;> exact ⟨rfl, rfl⟩

/-- A sweep leaves a graph without the pushed limit. -/
theorem exists_caughtUp (h : Restless p) :
    ∃ g, IsUnpushed g ∧ Circling g p.caughtUp ∧ p.caughtUp.sizeAtSweep = 4 := by
  have hroot := h.root
  obtain ⟨⟨g, h, hg⟩, hnew⟩ := h
  unfold caughtUp
  rw [if_neg hnew]
  simp only [hroot, Bool.true_eq_false, if_false]
  rcases hg with rfl | rfl
  · have hgarbage : p.graph.garbage 3 = [] := by
      rw [h.graph]
      decide +kernel
    rw [if_pos hgarbage]
    refine ⟨plannedGraph, .inl rfl, ⟨h.settings, h.execution, h.graph⟩, ?_⟩
    simp only [h.graph]
    decide +kernel
  · have hgarbage : p.graph.garbage 3 = [4] := by
      rw [h.graph]
      decide +kernel
    rw [if_neg (by simp [hgarbage]), hgarbage, h.settings]
    refine ⟨sweptGraph, .inr rfl, ⟨rfl, h.execution, ?_⟩, ?_⟩
    · simp only [h.graph]
      rfl
    · simp only [h.graph]
      decide +kernel

/-- All of the swept graph is scheduled. -/
theorem ends_scheduleFromRoot (h : Restless p) :
    Ends scheduleFromRoot p (fun ids q => ids = [3, 2, 1, 0] ∧ (∃ g, IsUnpushed g ∧ Circling g q) ∧
      q.transformations = p.transformations ∧ q.transformationsAtSweep = p.transformations ∧
        q.sizeAtSweep = 4) fun _ _ => False := by
  obtain ⟨g, hg, hcaught, hsize⟩ := h.exists_caughtUp
  obtain ⟨_, q, hcollect, hq⟩ := (ends_collectGarbage_caughtUp p fun _ _ => False).exists_ok
  obtain ⟨events, rfl⟩ := hq.reported
  have hq : Circling g { p.caughtUp with events } := hcaught.reported ⟨events, rfl⟩
  have hswept := swept_caughtUp p
  refine (ends_of_eq_ok (scheduleFromRoot_eq_ok.2 ⟨3, h.root.1, h.root.2, hcollect, ?_⟩)).2
    ⟨rfl, ⟨g, hg, hq⟩, hswept.transformations, ?_, hsize⟩
  · rw [scheduled, hq.execution, hq.graph]
    simp only [Execution.fresh, hg.depthFirstFrom]
  · exact hswept.clean.symm.trans hswept.transformations

/-- A pass over the plan pushes the limit and meets no firing. -/
theorem ends_fireRules (h : Restless p) (n : ℕ) :
    Ends (fireRules n [Rule.pushLimitOverProjection] true) p
      (fun _ q => Circling pushedGraph q ∧ q.transformations = p.transformations + 1 ∧
        q.transformationsAtSweep = p.transformations ∧ q.sizeAtSweep = 4)
      fun f _ => f = .outOfFuel := by
  refine (ends_log _ p _).bind fun _ p₁ hp₁ => ?_
  have hscheduled := (h.reported hp₁).ends_scheduleFromRoot
  obtain ⟨events, rfl⟩ := hp₁
  refine (hscheduled.mono (fun _ _ h => h) fun _ _ h => h.elim).bind ?_
  rintro _ q ⟨rfl, ⟨g, hg, hq⟩, hcount, hcount', hsize⟩
  obtain ⟨_, r, hvisit, rfl, hr⟩ := (hq.ends_visit hg).exists_ok
  have hr' := hq.of_pushing.reported hr
  have houter : q.graph.current? 3 =
      some (outerProjection (.placeholder 2 .default columnScan.rowType)) := by
    rw [hq.graph]
    rcases hg with rfl | rfl <;> rfl
  have hinner : r.graph.current? 1 = some (innerProjection scanned) := by
    rw [hr'.graph]
    rfl
  have hscan : r.graph.current? 0 = some columnScan := by
    rw [hr'.graph]
    rfl
  have hpass : PassesOver [Rule.pushLimitOverProjection] true [3, 2, 1, 0] q r := by
    refine .cons (visit_of_unbound rfl houter ?_ true) (.cons hvisit (.cons
      (visit_of_unbound rfl hinner ?_ true) (.cons (visit_of_unbound rfl hscan ?_ true) (.nil r))))
    · rw [hq.graph]
      rcases hg with rfl | rfl <;> rfl
    · rw [hr'.graph]
      rfl
    · rw [hr'.graph]
      rfl
  refine (hpass.ends_traverse 0 n).mono ?_ fun _ _ h => h
  rintro _ _ ⟨-, rfl⟩
  obtain ⟨events', rfl⟩ := hr
  exact ⟨hr', congrArg (· + 1) hcount, hcount', hsize⟩

/-- Too little has changed then for a sweep, so the planner is restless again. -/
theorem ends_executeAll (h : Restless p) (n : ℕ) :
    Ends (executeAll n [.rule Rule.pushLimitOverProjection]) p
      (fun _ q => Restless q ∧ q.transformations = p.transformations + 1)
      fun f _ => f = .outOfFuel := by
  rw [executeAll, executeInstruction]
  refine (ends_log _ p _).bind fun _ p₁ hp₁ => ?_
  have h₁ := h.reported hp₁
  obtain ⟨events, rfl⟩ := hp₁
  have hclosed : { p with events }.execution.group = none := by
    obtain ⟨⟨g, h, -⟩, -⟩ := h₁
    rw [h.execution]
    rfl
  refine Ends.bind (Q := fun _ q => Circling pushedGraph q ∧
    q.transformations = p.transformations + 1 ∧ q.transformationsAtSweep = p.transformations ∧
      q.sizeAtSweep = 4) ?_ ?_
  · rw [Ends, applyRules_eq_fireRules hclosed]
    exact (h₁.ends_fireRules n).bind fun _ q hq => ends_pure.2 hq
  · rintro _ q ⟨hq, hcount, hcount', hsize⟩
    refine Ends.bind (Q := fun _ r => r = q) (ends_bind.2 (ends_get.2 ?_)) ?_
    · rw [if_neg (by omega)]
      exact ends_pure.2 rfl
    · rintro _ _ rfl
      rw [executeAll]
      exact ends_pure.2 ⟨⟨⟨pushedGraph, hq, .inr rfl⟩, by omega⟩, hcount⟩

/-- The subprogram is repeated until the fuel is used up, for every repetition transforms something. -/
theorem ends_untilStable (h : Restless p) (n : ℕ) :
    Ends (untilStable (isolated (executeAll n [.rule Rule.pushLimitOverProjection])) n) p
      (fun _ _ => False) fun f _ => f = .outOfFuel := by
  refine Planning.ends_untilStable (fun _ _ => rfl) (fun q hq => ?_) n p h
  refine Planning.ends_isolated.2 ((hq.executed.ends_executeAll n).mono ?_ fun _ _ h => h)
  rintro _ r ⟨⟨⟨g, hr, hg⟩, hnew⟩, hcount⟩
  obtain ⟨⟨_, hq, -⟩, -⟩ := hq
  have hchanged : r.transformations ≠ q.transformations := hcount ▸ Nat.succ_ne_self _
  exact ⟨fun _ => ⟨⟨g, ⟨hr.settings, hq.execution, hr.graph⟩, hg⟩, hnew⟩, fun h => absurd h hchanged⟩

theorem ends_execute (h : Restless p) (n : ℕ) :
    Ends (execute n repeatedPush) p (fun _ _ => False) fun f _ => f = .outOfFuel := by
  refine Planning.ends_isolated.2 ?_
  show Ends (executeAll n [.subprogram [.rule Rule.pushLimitOverProjection]]) _ _ _
  rw [executeAll, executeInstruction]
  refine (ends_log _ _ _).bind fun _ q hq => ends_bind.2 (ends_bind.2 ?_)
  refine (ends_log _ q _).mono (fun _ r hr => ends_bind.2 ?_) fun _ _ h => h
  exact (((h.executed.reported hq).reported hr).ends_untilStable n).mono (fun _ _ h => h.elim)
    fun _ _ h => h

end Restless

/-- Not all programs of simplifications end: where vertices are shared, and the name of a convention
looks like the terms of a digest, a limit may be pushed and swept for ever. -/
theorem not_fueled_execute_repeatedPush : ¬ ∀ (settings : Settings) (program : Program)
    (rules : List Rule) (plan : Node) (p : Planner), program.Built →
      (∀ rule ∈ rules ++ program.rules, rule ∈ Rule.simplifications) →
        plan.Everywhere (fun n => n.vertexId? = none) → build settings program rules plan = .ok () p →
          Fueled (fun n => execute n program) p (fun _ _ => True) fun f _ => f ≠ .outOfFuel := by
  intro h
  have hbuilt : repeatedPush.Built := by
    refine .build (Program.build_eq_ok.2 ⟨rfl, rfl⟩) fun js hjs => ?_
    obtain rfl : js = [.rule Rule.pushLimitOverProjection] := by simpa using hjs
    exact .build (Program.build_eq_ok.2 ⟨rfl, rfl⟩) (by simp)
  have hrules : ∀ rule ∈ [] ++ repeatedPush.rules, rule ∈ Rule.simplifications := by
    simp [repeatedPush, Program.rules, Instruction.rulesOf, Instruction.ownRules,
      Rule.simplifications]
  have hplan : enclosedLimit.Everywhere fun n => n.vertexId? = none :=
    ⟨rfl, ⟨rfl, ⟨rfl, ⟨rfl, trivial⟩, trivial⟩, trivial⟩, trivial⟩
  have hbuild : build .default repeatedPush [] enclosedLimit =
      .ok () (left (build .default repeatedPush [] enclosedLimit)) :=
    eq_ok_of_succeeded (by decide +kernel)
  have hrestless : Restless (left (build .default repeatedPush [] enclosedLimit)) :=
    ⟨⟨plannedGraph, ⟨rfl, rfl, rfl⟩, .inl rfl⟩, by decide +kernel⟩
  obtain ⟨N, r, hr, hends⟩ := h _ _ _ _ _ hbuilt hrules hplan hbuild
  have hend : execute N repeatedPush _ = r := hr N le_rfl
  have hnever := hrestless.ends_execute N
  rw [Ends, hend] at hnever
  cases r with
  | ok _ _ => exact hnever
  | error _ _ => exact hends hnever

end Simplification

end QueryPlanner
