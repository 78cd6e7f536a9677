import QueryPlanner.Proofs.Conversion.Consumers
import QueryPlanner.Proofs.Planner.Startup
import QueryPlanner.Proofs.Planner.Termination
import QueryPlanner.Proofs.Simplification.Proposals

/-!
# Guaranteed converter rules

Converter rules that put converters on top or change conventions in place neither fire for ever nor
overlook anybody who wants their result. Every firing leaves less outstanding in the plan, whatever new
demand it creates. When none is left to fire, no expression that a rule would convert is wanted in
its target convention. Where vertices are shared, the conventions have to be legible in keys.
-/

namespace QueryPlanner

open QueryPlanner.Graph Planning Planner Relation

variable {p q p₀ : Planner} {rule : Rule} {c : Conversion} {node t u : Node} {id : VertexId}
  {force : Bool}

/-- A guaranteed converter rule between different conventions that uses one of the two methods. It may
have been renamed. -/
inductive Rule.Converts : Rule → Conversion → Prop
  | wrapping {source target : Convention} (hne : source ≠ target) (description : String) :
      Converts { Rule.wrapping source target true with description }
        ⟨source, target, true, Conversion.wrap⟩
  | retagging {kind : OperatorKind} {source target : Convention} (hne : source ≠ target)
      (description : String) :
      Converts { Rule.retagging kind source target true with description }
        ⟨source, target, true, Conversion.retag⟩

/-- What the conversion makes of an expression: a converter over it, or the expression itself in the
target convention. -/
inductive Conversion.Yields (c : Conversion) (node : Node) : Node → Prop
  | wrapped (source : Convention) (rowType : Schema) : c.Yields node
      ⟨.converter source c.target, [node], node.traits.replace (.convention c.target), rowType⟩
  | retagged : c.Yields node { node with traits := node.traits.replace (.convention c.target) }

namespace Rule.Converts

variable (h : rule.Converts c)
include h

theorem kind_eq : rule.kind = .converter := by cases h <;> rfl

theorem conversion_eq : rule.conversion = some c := by cases h <;> rfl

theorem guaranteed_eq : c.guaranteed = true := by cases h <;> rfl

theorem ne : c.source ≠ c.target := by cases h <;> assumption

/-- A rule performs one conversion. -/
theorem of_conversion {c' : Conversion} (hc : rule.conversion = some c') : rule.Converts c' := by
  obtain rfl := Option.some.inj (h.conversion_eq.symm.trans hc)
  exact h

theorem registrable : rule.Registrable where
  pattern := by cases h <;> rfl
  companion c' hc' := by
    obtain rfl := Option.some.inj (h.conversion_eq.symm.trans hc')
    exact .inl h.guaranteed_eq

theorem pattern_eq : ∃ kind, rule.pattern = ⟨kind, some c.source, fun _ => true, .any, []⟩ := by
  cases h
  · exact ⟨none, rfl⟩
  · exact ⟨some _, rfl⟩

/-- Over vertices the pattern matches exactly what it accepts. -/
theorem bind_eq {g : Graph} (hvertices : ∀ i ∈ node.inputs, i.vertexId?.isSome = true) :
    g.bind rule.pattern node .empty =
      .ok (if rule.pattern.accepts node then some ⟨[node], []⟩ else none) := by
  obtain ⟨kind, hpattern⟩ := h.pattern_eq
  rw [hpattern, bind_any_eq _ _ _ hvertices]
  rfl

theorem source_of_accepts (haccepts : rule.pattern.accepts node = true) :
    node.convention = c.source := by
  obtain ⟨kind, hpattern⟩ := h.pattern_eq
  simp only [hpattern, Pattern.accepts, Bool.and_eq_true, decide_eq_true_eq] at haccepts
  exact haccepts.1.2

/-- What a rule of either method does with an expression of the source convention. -/
theorem run_fire (hnode : node.vertexId? = none) (hsource : node.convention = c.source)
    (q : Planner) : ∃ u, c.Yields node u ∧
      (((rule.fire ⟨[node], [], none⟩).run ruleAnswerer).run []) q = .ok ((), [u]) q := by
  cases h with
  | @wrapping source target hne description =>
    refine ⟨_, .wrapped node.convention node.rowType, ?_⟩
    have hfire : { Rule.wrapping source target true with description }.fire ⟨[node], [], none⟩ = .offer
        ⟨.converter node.convention target, [node], node.traits.replace (.convention target),
          node.rowType⟩ := by
      show (if node.convention = source then _ else _) = _
      rw [if_pos hsource]
      rfl
    rw [hfire]
    rfl
  | @retagging kind source target hne description =>
    refine ⟨_, .retagged, ?_⟩
    have hfire :
        { Rule.retagging kind source target true with description }.fire ⟨[node], [], none⟩ =
        .ask (.resolve node) fun resolved => .offer
          { resolved with traits := resolved.traits.replace (.convention target) } := by
      show (if node.convention = source then _ else _) = _
      rw [if_pos hsource]
      rfl
    have hresolve : q.graph.resolve node = node := by
      rw [Graph.resolve, hnode]
      rfl
    rw [hfire]
    show EStateM.Result.ok ((), [_]) q = _
    rw [hresolve]

theorem ends_fire (hnode : node.vertexId? = none) (hsource : node.convention = c.source)
    (E : Fault → Planner → Prop) :
    Ends (Planner.fire rule node ⟨[node], [], none⟩) p
      (fun proposed _ => ∃ u, proposed = [u] ∧ c.Yields node u) E := by
  refine ends_fire_run E node (fun _ _ _ h _ => h) (by cases h <;> rfl) fun q _ => ?_
  obtain ⟨u, hu, hrun⟩ := h.run_fire hnode hsource q
  exact ⟨[u], q, hrun, u, rfl, hu⟩

end Rule.Converts

/-! ## What is registered -/

namespace Registry

variable {r : Registry} {rules : List Rule}

theorem companions_extend (h : ∀ c, rule.conversion = some c → c.guaranteed = true) :
    (r.extend rule).companions = r.companions := by
  unfold extend add
  split_ifs
  · rfl
  cases rule.pattern.defect? with
  | some defect => rfl
  | none =>
    cases hc : rule.conversion with
    | none => rfl
    | some c =>
      simp only [h c hc]
      rfl

/-- Guaranteed converter rules have no companions. -/
theorem companions_extendAll
    (h : ∀ rule ∈ rules, ∀ c, rule.conversion = some c → c.guaranteed = true) :
    ∀ {r : Registry}, (r.extendAll rules).companions = r.companions := by
  induction rules with
  | nil => exact rfl
  | cons rule rest ih =>
    rw [List.forall_mem_cons] at h
    exact (ih h.2).trans (companions_extend h.1)

theorem mem_rules_of_registered (h : rule ∈ (empty.extendAll rules).rules) : rule ∈ rules :=
  (mem_rules_extendAll h).resolve_left (by simp [empty])

/-- Where guaranteed converter rules are registered, the instruction fires just these. -/
theorem mem_converterRules_extendAll (hrules : ∀ rule ∈ rules, ∃ c, rule.Converts c) :
    rule ∈ (empty.extendAll rules).converterRules true ↔ rule ∈ (empty.extendAll rules).rules := by
  have hcompanions : (empty.extendAll rules).companions = [] := by
    refine companions_extendAll fun x hx c hc => ?_
    obtain ⟨c', h⟩ := hrules x hx
    exact (h.of_conversion hc).guaranteed_eq
  rw [converterRules, List.mem_flatMap]
  simp only [companion?, hcompanions, List.lookup_nil, Option.toList_none]
  constructor
  · rintro ⟨x, hx, hmem⟩
    obtain ⟨c, h⟩ := hrules x (mem_rules_of_registered hx)
    simp only [h.conversion_eq, h.guaranteed_eq, if_true, List.mem_singleton] at hmem
    rwa [hmem]
  · intro hrule
    obtain ⟨c, h⟩ := hrules rule (mem_rules_of_registered hrule)
    exact ⟨rule, hrule, by simp [h.conversion_eq, h.guaranteed_eq]⟩

end Registry

/-! ## Progress -/

/-- The tree of what comes of a conversion is supplied with the convention. -/
theorem Conversion.Yields.exists_supplies {g : Graph} (h : c.Yields node u)
    (hnode : node.vertexId? = none) (ht : g.Unfolds node t) :
    ∃ v, g.Unfolds u v ∧ Node.Supplies c.target t v := by
  obtain ⟨ts, hts, rfl⟩ := (unfolds_operator hnode).1 ht
  cases h with
  | wrapped source rowType =>
    exact ⟨_, (unfolds_operator rfl).2 ⟨_, .cons ht .nil, rfl⟩, Node.supplies_wrapped _ _ _ rowType⟩
  | retagged =>
    have hnone : Node.vertexId? { node with traits := node.traits.replace (.convention c.target) } =
      none := hnode
    exact ⟨_, (unfolds_operator hnone).2 ⟨ts, hts, rfl⟩,
      Node.supplies_retagged c.target { node with inputs := ts }⟩

/-- Where vertices are shared, the convention is legible. -/
def LegibleIfShared (dag : Bool) (_ : Operator) (traits : TraitSet) : Prop :=
  dag = true → traits.convention.isLegible = true

theorem Conversion.Yields.within {g : Graph} {mode : DigestMode} {dag : Bool} (h : c.Yields node u)
    (hg : g.Linked mode) (hnode : g.OverVertices node)
    (hwithin : LegibleIfShared dag node.operator node.traits)
    (hc : dag = true → c.target.isLegible = true) : u.Within (LegibleIfShared dag) := by
  cases h with
  | wrapped source rowType =>
    refine (Node.within_operator rfl).2 ⟨hc, ?_⟩
    simpa using hnode.within hg hwithin
  | retagged =>
    have hover : g.OverVertices { node with traits := node.traits.replace (.convention c.target) } :=
      ⟨hnode.isOperator, hnode.inputs⟩
    exact hover.within hg hc

/-- Where conventions are legible, expressions of one key want the same. -/
theorem keysRelateIn_sameNeeds (s : Settings) :
    KeysRelateIn s (LegibleIfShared s.dag) Node.SameNeeds := by
  intro g hg hwithin
  refine keysRelate_of_references hg hwithin fun hdag n n' hn hn' hin hin' hF hF' hkey => ?_
  obtain ⟨hkind, htraits, hreferences⟩ := Node.traits_eq_of_key_eq (hF hdag) (hF' hdag) hn hn' hin
    hin' hkey
  exact ⟨hreferences, fun ts => Node.sameNeeds_of_kind hkind htraits ts⟩

/-- No conversion of the rule is wanted at the vertex. -/
def Unneeded (rule : Rule) (p : Planner) (id : VertexId) : Prop :=
  ∀ c node, rule.conversion = some c → p.graph.current? id = some node →
    rule.pattern.accepts node = true → ¬ p.Wants c id

/-- Guaranteed converter rules make progress. -/
theorem progress_converts : Progress
    (fun rule => ∃ c, rule.Converts c ∧ (p₀.settings.dag = true → c.target.isLegible = true)) force
    (Measured p₀ (LegibleIfShared p₀.settings.dag) (Node.outstanding p₀.settings.rootTraits)
      fun _ => True) Unneeded fun _ => False where
  tidy h := h.toTidy
  alike h hpq := Underway.alike h hpq
  sweep h hpq := Underway.sweep h hpq
  executed e h := Underway.executed h e
  idle h hpq c node hc hnode haccepts := by
    rw [Wants.congr hpq]
    exact h c node hc ((hpq.graph.current? _).symm.trans hnode) haccepts
  attempt := by
    rintro rule w p id ⟨c, hrule, hlegible⟩ hp hspanned
    refine ends_attempt_of (fun hgone => ⟨.refl p, fun _ node _ hnode => ?_⟩) fun node hnode => ?_
    · rw [contains_of_current hnode] at hgone
      cases hgone
    have hover := hp.consistent.currents id node hnode
    obtain ⟨t, ht⟩ := hp.consistent.exists_unfolds hover
    have hunneeded : (rule.pattern.accepts node = true → ¬ p.Wants c id) → Unneeded rule p id := by
      intro h c' n hc hn haccepts
      obtain rfl := Option.some.inj (hnode.symm.trans hn)
      obtain rfl := Option.some.inj (hrule.conversion_eq.symm.trans hc)
      exact h haccepts
    refine (ends_occasion?_converter hrule.kind_eq hrule.conversion_eq hrule.guaranteed_eq _).mono ?_
      fun _ _ h => h
    rintro _ _ ⟨rfl, ⟨rfl, hnot⟩ | ⟨rfl, hwants⟩⟩
    · exact ⟨.refl _, hunneeded fun _ => hnot⟩
    refine ⟨hnode, ?_⟩
    rw [hrule.bind_eq (hp.consistent.isSome_vertexId? hover)]
    by_cases haccepts : rule.pattern.accepts node = true
    · rw [if_pos haccepts]
      have hsource := hrule.source_of_accepts haccepts
      refine ((hrule.ends_fire hover.isOperator hsource _).and (asks_fire rule node _).ends).mono ?_
        fun _ _ h => h.1
      rintro _ q ⟨⟨u, rfl, hu⟩, hq⟩
      have hext := hq.graph.extends
      obtain ⟨v, hv, hsupplies⟩ := hu.exists_supplies hover.isOperator ht
      have hne : t.convention ≠ c.target := by
        obtain ⟨ts, -, rfl⟩ := (unfolds_operator hover.isOperator).1 ht
        exact hsource.trans_ne hrule.ne
      obtain ⟨result, r, hok, hne, hresult, hr⟩ := (Underway.alike hp hq.toAlike).exists_supply
        (keysRelateIn_sameNeeds _) (hspanned.congr hq.graph)
        (UnfoldsTo.extends hext ⟨node, hnode, ht⟩)
        (hu.within hp.consistent.toLinked hover (hp.within id node hnode) hlegible)
        (hv.extends hext) hsupplies hne ((Wants.congr hq.toAlike.agrees).2 hwants) rule
      refine (ends_of_eq_ok hok).2 ⟨hne, hresult, ?_⟩
      obtain ⟨root, u₀, hroot, hu₀, t₀, ⟨-, rfl⟩, hlt⟩ := hr.tree
      exact ⟨_, hlt, { hr with tree := ⟨root, u₀, hroot, hu₀, trivial, rfl⟩ }⟩
    · rw [if_neg haccepts]
      exact ⟨.refl _, hunneeded fun h => absurd h haccepts⟩

namespace Planner

/-! ## Running -/

/-- One instruction that fires the guaranteed converter rules in a match order. -/
def convertIn (order : MatchOrder) : Program := ⟨[.order order, .converters true]⟩

/-- No expression that a rule matches has a parent that wants its conversion, nor is it the root while the
conversion is requested. -/
def Supplied (rules : List Rule) (q : Planner) : Prop :=
  ∀ rule ∈ rules, ∀ c, rule.conversion = some c → ∀ id node binding,
    q.graph.current? id = some node → q.graph.bind rule.pattern node .empty = .ok (some binding) →
      ¬ q.Wants c id

theorem executeInstruction_converters {guaranteed : Bool} (n : Nat)
    (hgroup : q.execution.group = none) : executeInstruction n (.converters guaranteed) q =
      applyRules n (q.registry.converterRules guaranteed) guaranteed q := by
  have hrequire : requireNoGroup (.converters guaranteed) q = .ok () q := by
    show (if q.execution.group.isSome then _ else _ : Planning Unit) q = _
    rw [hgroup]
    rfl
  rw [executeInstruction]
  show EStateM.bind _ _ q = _
  rw [EStateM.bind, hrequire]
  rfl

/-- Firing the guaranteed converter rules without a limit ends, whatever traits are requested, and leaves
nobody who wants a conversion. A firing changes the inputs of nobody else, in whatever state it is tried.
Where vertices are shared, the conventions of the plan and of the rules have to be legible. -/
theorem fueled_execute_converters {settings : Settings} {plan : Node} {rules : List Rule}
    (hrules : ∀ rule ∈ rules, ∃ c, rule.Converts c)
    (hplan : plan.Everywhere fun n => n.vertexId? = none)
    (hlegible : plan.Within (LegibleIfShared settings.dag))
    (htargets : settings.dag = true →
      ∀ rule ∈ rules, ∀ c, rule.conversion = some c → c.target.isLegible = true)
    (order : MatchOrder) :
    ∃ p, build settings (convertIn order) rules plan = .ok () p ∧
      p.registry = Registry.empty.extendAll rules ∧
      Fueled (fun n => execute n (convertIn order)) p
        (fun _ q => q.settings = settings ∧ Supplied p.registry.rules q) (fun _ _ => False) ∧
      ∀ rule ∈ p.registry.rules, ∀ c, rule.conversion = some c → ∀ q : Planner,
        q.graph.Consistent q.settings.digestMode → ∀ id force,
          Ends (attempt rule id force) q (fun _ r => q.Spares c.wantedBy r)
            fun _ r => q.Spares c.wantedBy r := by
  have hown : rules ++ (convertIn order).rules = rules := List.append_nil rules
  have hregistrable : ∀ r ∈ rules ++ (convertIn order).rules, r.Registrable := by
    intro r hr
    rw [hown] at hr
    obtain ⟨c, hc⟩ := hrules r hr
    exact hc.registrable
  obtain ⟨p, hbuild, hp, hunderway⟩ := exists_build Node.congruence_sameNeeds
    (keysRelateIn_sameNeeds settings) hregistrable hplan hlegible
  obtain rfl := hp.settings_eq
  have hregistry : p.registry = Registry.empty.extendAll rules := hp.registry.trans (by rw [hown])
  have hconverts : ∀ rule ∈ p.registry.rules, ∀ c, rule.conversion = some c →
      rule.Converts c ∧ (p.settings.dag = true → c.target.isLegible = true) := by
    intro rule hrule c hc
    rw [hregistry] at hrule
    have hmem := Registry.mem_rules_of_registered hrule
    obtain ⟨c', h⟩ := hrules rule hmem
    exact ⟨h.of_conversion hc, fun hdag => htargets hdag rule hmem c hc⟩
  have hfired : ∀ rule, rule ∈ p.registry.converterRules true ↔ rule ∈ p.registry.rules := by
    intro rule
    rw [hregistry]
    exact Registry.mem_converterRules_extendAll hrules
  obtain ⟨w, hmeasured⟩ := hunderway.exists_measured (fun _ _ => trivial)
    (Node.outstanding p.settings.rootTraits)
  have hinstruction : ∀ n q, q.registry = p.registry → q.execution.group = none →
      executeInstruction n (.converters true) q =
        applyRules n (p.registry.converterRules true) true q := by
    intro n q hq hgroup
    rw [executeInstruction_converters n hgroup, hq]
  have hprogress : ∀ rule ∈ p.registry.converterRules true,
      ∃ c, rule.Converts c ∧ (p.settings.dag = true → c.target.isLegible = true) := by
    intro rule hrule
    rw [hfired] at hrule
    obtain ⟨c, h⟩ := hrules rule (Registry.mem_rules_of_registered (hregistry ▸ hrule))
    exact ⟨c, hconverts rule hrule c h.conversion_eq⟩
  refine ⟨p, hbuild, hregistry, (progress_converts.fueled_execute_once order hprogress hinstruction
    hmeasured).mono ?_ fun _ _ h => h, fun rule hrule c hc q hq id force => ?_⟩
  · rintro _ q ⟨w, hq, hrest⟩
    refine ⟨hq.settings, fun rule hrule c hc id node binding hnode hbind => ?_⟩
    obtain ⟨kind, hpattern⟩ := (hconverts rule hrule c hc).1.pattern_eq
    refine hrest.idle rule ((hfired rule).2 hrule) id (contains_of_current hnode) c node hc hnode ?_
    rw [hpattern] at hbind ⊢
    exact (bind_any hbind).1
  · have h := (hconverts rule hrule c hc).1
    exact ends_attempt_spares hq h.kind_eq hc h.guaranteed_eq id force

/-- A limit over a scan, both without an implementation. -/
def limitedInConvention : Node :=
  .mk (.limit 1) [⟨.tableScan ⟨"t", ⟨[⟨"a", .int64, false⟩]⟩, none, none⟩, [], .default,
    ⟨[⟨"a", .int64, false⟩]⟩⟩] .default ⟨[⟨"a", .int64, false⟩]⟩

/-- Limits change to the convention, anything else is converted. -/
def limitConverters : List Rule :=
  [{ Rule.retagging .limit .none ⟨"A"⟩ true with description := "LimitRule" },
    Rule.wrapping .none ⟨"A"⟩ true]

theorem fueled_execute_converters_limitedInConvention :
    let settings := { Settings.default with rootTraits := some ⟨⟨"A"⟩, .unordered⟩ }
    ∃ p, build settings (convertIn .topDown) limitConverters limitedInConvention = .ok () p ∧
      Fueled (fun n => execute n (convertIn .topDown)) p
        (fun _ q => q.settings = settings ∧ Supplied p.registry.rules q) fun _ _ => False := by
  intro settings
  have hrules : ∀ rule ∈ limitConverters, ∃ c, rule.Converts c := by
    intro rule hrule
    rcases List.mem_pair.1 hrule with rfl | rfl
    · exact ⟨_, .retagging (by decide) _⟩
    · exact ⟨_, .wrapping (by decide) _⟩
  have hplan : limitedInConvention.Everywhere fun n => n.vertexId? = none := by
    simp [limitedInConvention, Node.Everywhere, Node.AllEverywhere, Node.vertexId?]
  have hlegible : limitedInConvention.Within (LegibleIfShared settings.dag) := by
    have : Convention.none.isLegible = true := by decide
    simp [limitedInConvention, Node.Within, Node.AllWithin, LegibleIfShared, TraitSet.default, this]
  have htargets : ∀ rule ∈ limitConverters, ∀ c, rule.conversion = some c →
      c.target.isLegible = true := by
    intro rule hrule c hc
    rcases List.mem_pair.1 hrule with rfl | rfl <;> cases hc <;> decide
  obtain ⟨p, hbuild, -, h, -⟩ := fueled_execute_converters hrules hplan hlegible
    (fun _ => htargets) .topDown
  exact ⟨p, hbuild, h⟩

/-- The converter is over nothing, but together with its convention it is written like a converter from
that convention over vertex 0, its own. -/
def misreadConverter : Node :=
  .mk (.limit 1) [⟨.converter ⟨"f(input#0=#0, from=b"⟩ ⟨"b(from=f"⟩, [],
    ⟨⟨"b(from=f(input#0=#0, from=b"⟩, .unordered⟩, ⟨[⟨"a", .int64, false⟩]⟩⟩]
    ⟨⟨"b(from=f"⟩, .unordered⟩ ⟨[⟨"a", .int64, false⟩]⟩

/-- Where vertices are shared, names of conventions that are not legible let a conversion be taken for
the expression itself, whose parent is then left without it. -/
theorem not_supplied_misreadConverter : ¬ ∀ (settings : Settings) (plan : Node) (rules : List Rule)
    (order : MatchOrder) (p q : Planner) (fuel : Nat), (∀ rule ∈ rules, ∃ c, rule.Converts c) →
      (plan.Everywhere fun n => n.vertexId? = none) →
        build settings (convertIn order) rules plan = .ok () p →
          execute fuel (convertIn order) p = .ok () q → Supplied p.registry.rules q := by
  intro h
  let rule := Rule.wrapping ⟨"b(from=f(input#0=#0, from=b"⟩ ⟨"b(from=f"⟩ true
  have hrule : rule.Converts _ := .wrapping (by decide) _
  have hplan : misreadConverter.Everywhere fun n => n.vertexId? = none := by
    simp [misreadConverter, Node.Everywhere, Node.AllEverywhere, Node.vertexId?]
  let p := left (build .default (convertIn .arbitrary) [rule] misreadConverter)
  let q := left (execute 9 (convertIn .arbitrary) p)
  have hbuild : build .default (convertIn .arbitrary) [rule] misreadConverter = .ok () p :=
    eq_ok_of_succeeded (by decide +kernel)
  have hexecute : execute 9 (convertIn .arbitrary) p = .ok () q :=
    eq_ok_of_succeeded (by decide +kernel)
  have hsupplied := h .default misreadConverter [rule] .arbitrary p q 9 (by simpa using ⟨_, hrule⟩)
    hplan hbuild hexecute
  have hregistered : p.registry.rules = [rule] := by rfl
  have hstate : (1, 0) ∈ q.graph.edges ∧
      ((q.graph.current? 0).any fun n => rule.pattern.accepts n && n.inputs.isEmpty) = true ∧
        ((q.graph.current? 1).any fun n => !n.isConverter && n.convention = ⟨"b(from=f"⟩) = true := by
    decide +kernel
  obtain ⟨hedge, hzero, hone⟩ := hstate
  obtain ⟨n, hn, hwants⟩ := (Option.any_eq_true _ _).1 hone
  obtain ⟨node, hnode, hmatches⟩ := (Option.any_eq_true _ _).1 hzero
  rw [Bool.and_eq_true] at hmatches hwants
  have hinputs : node.inputs = [] := List.isEmpty_iff.1 hmatches.2
  have hbind : q.graph.bind rule.pattern node .empty = _ := hrule.bind_eq (by simp [hinputs])
  rw [if_pos hmatches.1] at hbind
  exact hsupplied rule (by simp [hregistered]) _ rfl 0 node _ hnode hbind
    (.inl ⟨1, n, hedge, hn, by simpa using hwants.1, of_decide_eq_true hwants.2⟩)

end Planner

end QueryPlanner
