import QueryPlanner.Proofs.Conversion.Chains
import QueryPlanner.Proofs.Planner.Termination

/-!
# Requests for traits are met where they can be

Fired until nothing changes, the expansion rule replaces a request for traits by a chain of converters
and sorts over its input if there is a way from the convention of the input to the requested one. Every
firing leaves fewer requests, and decides on no other request. So whatever the match order, all
requests are replaced or it shows in the plan that some cannot be met.
-/

namespace QueryPlanner

open QueryPlanner.Graph Planning Planner Relation

variable {p q p₀ : Planner} {node input t u : Node} {rest : List Node}
  {F : Operator → TraitSet → Prop}

/-! ## Firing -/

theorem fire_expandConversion (hinputs : node.inputs = input :: rest) (parents : Option (List Node)) :
    Rule.expandConversion.fire ⟨[node], [], parents⟩ =
      .convert (by decide) input node.traits fun r => match r with
        | .ok (some u) => .offer u
        | .ok none => .done ()
        | .error f => .fail f := by
  obtain ⟨op, inputs, traits, rowType⟩ := node
  obtain rfl : inputs = input :: rest := hinputs
  show Inquiry.convert _ _ _ _ = _
  congr 1
  funext r
  cases r with
  | error f => rfl
  | ok u => cases u <;> rfl

/-- A rule is answered with the chain that the planner finds. -/
theorem run_convert {phase : Phase} {allowed : phase ≠ .converting} {traits : TraitSet}
    {next : Except Fault (Option Node) → Inquiry phase Unit} {r : Option Node} {proposed : List Node}
    (hok : convertTraits input traits p = .ok r p) :
    (((Inquiry.convert allowed input traits next).run ruleAnswerer).run proposed) p =
      (((next (.ok r)).run ruleAnswerer).run proposed) p := by
  show EStateM.bind (EStateM.bind (caught (convertTraits input traits)) fun a =>
    pure (a, proposed)) (fun x => ((next x.1).run ruleAnswerer).run x.2) p = _
  simp only [EStateM.bind, caught, hok]
  rfl

theorem ends_fire_expandConversion (hr : p.registry.WrapsOnly)
    (hdimensions : ∀ d, d ∈ p.settings.dimensions) (hinputs : node.inputs = input :: rest)
    (parents : Option (List Node)) :
    Ends (fire Rule.expandConversion node ⟨[node], [], parents⟩) p
      (fun proposed _ => proposed = [] ∧
          ¬ ReflTransGen p.registry.Arc input.convention node.convention ∨
        ∃ u, proposed = [u] ∧ p.Meets F input node.traits u) fun _ _ => False := by
  refine ends_fire_run _ node (fun _ _ _ h _ => h) rfl ?_
  rintro _ ⟨events, rfl⟩
  rw [fire_expandConversion hinputs]
  rcases convertTraits_cases (F := F) (p := { p with events }) hr hdimensions input node.traits with
    ⟨hnot, hok⟩ | ⟨u, hok, hu⟩
  · exact ⟨[], { p with events }, run_convert hok, .inl ⟨rfl, hnot⟩⟩
  · exact ⟨[u], { p with events }, run_convert hok,
      .inr ⟨u, rfl, hu.converted, hu.satisfies, hu.belongs⟩⟩

/-! ## Progress -/

/-- A chain over an expression has a chain over its tree as its tree. -/
theorem Node.Converted.exists_unfolds {typed : Prop} {arc : Convention → Convention → Prop} {g : Graph}
    {a : Node} (h : Node.Converted typed arc input u) (ha : g.Unfolds input a)
    (hshown : a.traits = input.traits ∧ a.rowType = input.rowType) :
    ∃ v, g.Unfolds u v ∧ (v.traits = u.traits ∧ v.rowType = u.rowType) ∧
      Node.Converted typed arc a v := by
  induction h with
  | here => exact ⟨a, ha, hshown, .here⟩
  | @converter n traits rowType _ harc hcollation hrowType ih =>
    obtain ⟨m, hm, ⟨hmn, htype⟩, hconverted⟩ := ih
    refine ⟨_, (unfolds_operator rfl).2 ⟨[m], .cons hm .nil, rfl⟩, ⟨rfl, rfl⟩, ?_⟩
    have hconvention : m.convention = n.convention := congrArg TraitSet.convention hmn
    simp only [← hconvention]
    exact .converter hconverted (hconvention ▸ harc) (hmn ▸ hcollation)
      fun h => (hrowType h).trans htype.symm
  | @sort n traits rowType _ hconvention hrowType ih =>
    obtain ⟨m, hm, ⟨hmn, htype⟩, hconverted⟩ := ih
    refine ⟨_, (unfolds_operator rfl).2 ⟨[m], .cons hm .nil, rfl⟩, ⟨rfl, rfl⟩, ?_⟩
    exact .sort hconverted ((congrArg TraitSet.convention hmn).trans hconvention)
      fun h => (hrowType h).trans htype.symm

/-- The inputs of expressions belong to the family. -/
theorem Graph.Within.belongs {g : Graph} {mode : DigestMode} (hwithin : g.Within F)
    (htruthful : g.Truthful) (hg : g.Linked mode) (hn : g.OverVertices node)
    (hinput : input ∈ node.inputs) : input.Belongs F := by
  obtain ⟨j, hj⟩ := hn.inputs input hinput
  obtain ⟨n, hcurrent⟩ := contains_iff_current.1 (contains_of_placeholder hj)
  refine ⟨Node.within_vertex (hg.vertexId?_placeholder hj), n.operator, ?_⟩
  rw [(htruthful j n input hcurrent hj).1]
  exact hwithin j n hcurrent

namespace Planner

/-- The expression is no request, or the convention of its input leads nowhere near it. -/
def Stuck (_ : Rule) (p : Planner) (node : Node) : Prop :=
  node.operator = .abstractConverter → ∀ input ∈ node.inputs.head?,
    ¬ ReflTransGen p.registry.Arc input.convention node.convention

/-- The family has what requests of the family are expanded to. -/
structure HasChains (F : Operator → TraitSet → Prop) (rules : List Rule) : Prop where
  converters : HasConverters F rules
  sorts : ∀ traits, F .abstractConverter traits → F (.sort traits.collation none) traits

/-- The expansion rule replaces a request by a chain, or it is stuck. -/
theorem acts_expandConversion {mode : DigestMode} {id : VertexId} {shared : Bool} {typed : Prop}
    (hr : p.registry.WrapsOnly)
    (hdimensions : ∀ d, d ∈ p.settings.dimensions) (hg : p.graph.Linked mode)
    (htruthful : p.graph.Truthful) (hwithin : p.graph.Within F) (hF : HasChains F p.registry.rules)
    (hnode : p.graph.current? id = some node) (ht : p.graph.Unfolds node t)
    (hunary : t.RequestsUnary) (htyped : shared = false ∧ typed → t.RequestsTyped) :
    Acts .expandConversion p node (Stuck .expandConversion p node) (fun n => n.Within F ∧
      ∃ u, p.graph.Unfolds n u ∧
        ∀ v, Node.Same shared u v → Node.Resolves shared typed p.registry.Arc t v) fun _ => False := by
  have hover := hg.currents id node hnode
  have hbind : p.graph.bind Rule.expandConversion.pattern node .empty = _ :=
    bind_ofKind_eq (hg.isSome_vertexId? hover)
  by_cases hkind : node.kind = .abstractConverter
  · rw [if_pos hkind] at hbind
    obtain ⟨op, inputs, traits, rowType⟩ := node
    obtain rfl : op = .abstractConverter := Node.operator_of_abstractConverter hkind
    obtain ⟨ts, hts, rfl⟩ := (unfolds_operator hover.isOperator).1 ht
    have hlength : ts.length = 1 := (Node.everywhere_iff.1 hunary).1 rfl
    obtain ⟨a, rfl⟩ := List.length_eq_one_iff.1 hlength
    obtain ⟨input, inputs, ha, hnil, rfl⟩ := List.forall₂_cons_right_iff.1 hts
    obtain rfl := List.forall₂_nil_right_iff.1 hnil
    refine .inr ⟨_, hbind, (ends_fire_expandConversion (F := F) hr hdimensions rfl none).mono ?_
      fun _ _ h => h⟩
    rintro proposed - (⟨rfl, hnot⟩ | ⟨u, rfl, hu⟩)
    · refine .inl ⟨rfl, fun _ input' hinput => ?_⟩
      obtain rfl : input = input' := by simpa using hinput
      exact hnot
    · refine .inr ⟨u, rfl, ?_, ?_⟩
      · refine (hu.belongs hF.converters (hF.sorts _ (hwithin id _ hnode)) ?_).within
        exact hwithin.belongs htruthful hg hover List.mem_cons_self
      · have hshown := htruthful.shown_eq hg hover List.mem_cons_self ha
        obtain ⟨v, hv, ⟨hvtraits, -⟩, hconverted⟩ := hu.converted.exists_unfolds ha hshown
        refine ⟨v, hv, fun w hw => Node.resolves_request (hconverted.mono fun _ => trivial)
          (hvtraits ▸ hu.satisfies) (fun h => ?_) hw⟩
        exact (Node.everywhere_iff.1 (htyped h)).1 rfl a List.mem_cons_self
  · rw [if_neg hkind] at hbind
    refine .inl ⟨hbind, fun hop => absurd ?_ hkind⟩
    rw [Node.kind, hop, Operator.kind]

/-- Where keys tell expressions, those of the same key have the same trees. -/
theorem keysRelateIn_same {s : Settings}
    (htells : s.dag = true → Node.KeysTellNodes F s.digestMode) :
    KeysRelateIn s F (Node.Same s.dag) := by
  intro g hg hwithin hdag n n' i hn hF hcurrent hkey t ht
  obtain ⟨u, hu, hbare⟩ := keysRelate_bare hg hwithin htells hdag n n' i hn hF hcurrent hkey t ht
  exact ⟨u, hu, hbare, fun h => by rw [hdag] at h; cases h⟩

/-- Expanding requests makes progress. -/
theorem progress_expandConversion {plan : Node} (hr : p₀.registry.WrapsOnly)
    (hdimensions : ∀ d, d ∈ p₀.settings.dimensions) (hF : HasChains F p₀.registry.rules)
    (htells : p₀.settings.dag = true → Node.KeysTellNodes F p₀.settings.digestMode)
    (hunary : plan.RequestsUnary) (force : Bool) :
    Progress (· = .expandConversion) force
      (Measured p₀ F Node.requests (plan.Expands p₀.settings.dag plan.RequestsTyped p₀.registry.Arc))
        (IdleWhere Stuck) fun _ => False := by
  refine (Node.reduction_resolves p₀.settings.dag plan.RequestsTyped p₀.registry.Arc).progress
    (Node.congruence_same _) (keysRelateIn_same htells)
    (fun h htu => .trans plan h htu.expands) ?_ ?_ ?_
  · rintro rule rfl
    rfl
  · intro rule p q node h hpq
    rw [Stuck, hpq.registry]
    exact h
  · rintro rule w p id node t rfl hp hspanned hnode ht
    have htree : t.RequestsUnary := by
      refine (UnfoldsTo.everywhere_iff hp.consistent ⟨node, hnode, ht⟩).2 fun j u hj hu => ?_
      exact hp.of_everywhere hspanned (fun t h => h.1.requestsUnary_iff.2 hunary) hu
    have htyped : p₀.settings.dag = false ∧ plan.RequestsTyped → t.RequestsTyped := by
      rintro ⟨hdag, htyped⟩
      rw [hdag] at hp
      refine (UnfoldsTo.everywhere_iff hp.consistent ⟨node, hnode, ht⟩).2 fun j u hj hu => ?_
      exact hp.of_everywhere hspanned (fun t h => (h.1.requestsTyped_iff htyped).2 htyped) hu
    rw [← hp.registry] at hr hF ⊢
    rw [← hp.settings] at hdimensions
    exact acts_expandConversion hr hdimensions hp.consistent.toLinked hp.truthful hp.within hF hnode
      ht htree htyped

/-- When the expansion rule has nothing left to do, no request is left if and only if all requests of the
plan can be met. -/
theorem met_iff_of_atRest {plan : Node} {w : ℕ} {root : VertexId} (hunary : plan.RequestsUnary)
    (hq : Measured p₀ F Node.requests
      (plan.Expands p₀.settings.dag plan.RequestsTyped p₀.registry.Arc) w q)
    (hrest : q.AtRest (IdleWhere Stuck) [.expandConversion]) (hroot : q.graph.root = some root)
    (ht : q.graph.UnfoldsTo root t) :
    plan.Expands p₀.settings.dag plan.RequestsTyped p₀.registry.Arc t ∧
      (t.Met ↔ plan.Resolvable p₀.registry.Arc) := by
  have hexpands : plan.Expands p₀.settings.dag plan.RequestsTyped p₀.registry.Arc t := by
    obtain ⟨_, u, hroot', hu, hexpands, -⟩ := hq.tree
    obtain rfl := Option.some.inj (hroot.symm.trans hroot')
    rwa [ht.unique hu]
  refine ⟨hexpands, ?_⟩
  rw [← hexpands.resolvable_iff]
  constructor
  · refine fun hmet => Node.Everywhere.mono (fun n hn hop => absurd ?_ hn) t hmet
    rw [Node.kind, hop, Operator.kind]
  · intro hresolvable
    have hresolvable := (ht.everywhere_iff hq.consistent).1 hresolvable
    have hunary := (ht.everywhere_iff hq.consistent).1 (hexpands.requestsUnary_iff.2 hunary)
    refine (ht.everywhere_iff hq.consistent).2 fun j u hj hu hkind => ?_
    have hop := Node.operator_of_abstractConverter hkind
    have hreach := hresolvable j u hj hu hop
    have hlength := hunary j u hj hu hop
    obtain ⟨node, hnode, hu⟩ := hu
    have hover := hq.consistent.currents j node hnode
    obtain ⟨ts, hts, rfl⟩ := (unfolds_operator hover.isOperator).1 hu
    obtain ⟨a, rfl⟩ := List.length_eq_one_iff.1 hlength
    obtain ⟨input, inputs, ha, hnil, hinputs⟩ := List.forall₂_cons_right_iff.1 hts
    have hmem : input ∈ node.inputs := by rw [hinputs]; exact List.mem_cons_self
    have hstuck := hrest.idle _ (List.mem_singleton_self _) j (contains_of_current hnode) node hnode
      hop input (by rw [hinputs]; rfl)
    rw [hq.registry] at hstuck
    have htraits := (hq.truthful.shown_eq hq.consistent.toLinked hover hmem ha).1
    refine hstuck ?_
    rw [Node.convention, ← htraits]
    exact hreach a (List.mem_singleton_self a)

/-! ## Running -/

/-- One instruction that fires the expansion rule in a match order. -/
def expandIn (order : MatchOrder) : Program := ⟨[.order order, .rule .expandConversion]⟩

theorem mem_rules_expandIn {order : MatchOrder} {rules : List Rule} {rule : Rule}
    (h : rule ∈ rules ++ (expandIn order).rules) : rule ∈ rules ∨ rule = .expandConversion :=
  (List.mem_append.1 h).imp_right List.mem_singleton.1

/-- The expansion rule itself converts nothing. -/
theorem HasChains.registered {order : MatchOrder} {rules : List Rule} (hF : HasChains F rules) :
    HasChains F (Registry.empty.extendAll (rules ++ (expandIn order).rules)).rules := by
  refine ⟨fun rule hrule op traits target hop hwraps => ?_, hF.sorts⟩
  rcases Registry.mem_rules_extendAll hrule with hrule | hrule
  · cases hrule
  rcases mem_rules_expandIn hrule with hrule | rfl
  · exact hF.converters rule hrule op traits target hop hwraps
  · cases hwraps

/-- Where all converter rules are guaranteed and put converters on top, expanding requests until nothing
changes ends. The plan can then be extracted if and only if in every request the requested convention
can be reached from that of the input along the arcs of registered rules. In it, every request has been
replaced by a chain that satisfies it, and everything else is as it was. In trees, converters and sorts
of such chains have the row type of their input if the requests of the plan have. Where vertices are
shared, keys have to tell the expressions of the plan and of such chains apart. -/
theorem findBestPlan_expandConversion {settings : Settings} {plan : Node} {rules : List Rule}
    (hrules : ∀ rule ∈ rules, rule.pattern.defect? = none ∧ ∃ s t, rule.Wraps s t)
    (hdimensions : ∀ d, d ∈ settings.dimensions)
    (hplan : plan.Everywhere fun n => n.vertexId? = none) (hunary : plan.RequestsUnary)
    (hwithin : plan.Within F) (hF : HasChains F rules)
    (htells : settings.dag = true → Node.KeysTellNodes F settings.digestMode) (order : MatchOrder) :
    ∃ p, build settings (expandIn order) rules plan = .ok () p ∧
      p.registry = Registry.empty.extendAll (rules ++ [.expandConversion]) ∧
      Fueled findBestPlan p
        (fun best _ => plan.Resolvable p.registry.Arc ∧
          plan.Expands settings.dag plan.RequestsTyped p.registry.Arc best.tree ∧ best.tree.Met)
        fun f _ => ¬ plan.Resolvable p.registry.Arc ∧ ∃ request, f = .unimplemented request := by
  have hregistrable : ∀ r ∈ rules ++ (expandIn order).rules, r.Registrable := by
    intro r hr
    rcases mem_rules_expandIn hr with hr | rfl
    · obtain ⟨hpattern, s, t, hwraps⟩ := hrules r hr
      exact ⟨hpattern, fun c hc => .inl (by cases hwraps.symm.trans hc; rfl)⟩
    · exact ⟨rfl, fun c hc => nomatch hc⟩
  have hconversion : ∀ r ∈ rules ++ (expandIn order).rules,
      r.conversion = none ∨ ∃ s t, r.Wraps s t := by
    intro r hr
    rcases mem_rules_expandIn hr with hr | rfl
    · exact .inr (hrules r hr).2
    · exact .inl rfl
  obtain ⟨p, hbuild, hp, hunderway⟩ := exists_build (F := F) (Node.congruence_same settings.dag)
    (keysRelateIn_same htells) hregistrable hplan hwithin
  obtain rfl := hp.settings_eq
  have hwraps : p.registry.WrapsOnly :=
    hp.registry ▸ .extendAll hconversion Registry.wrapsOnly_empty
  have hchains : HasChains F p.registry.rules := hp.registry ▸ hF.registered
  obtain ⟨w, hmeasured⟩ : ∃ w,
      Measured p F Node.requests
        (plan.Expands p.settings.dag plan.RequestsTyped p.registry.Arc) w p :=
    hunderway.exists_measured (fun _ h => h.expands) _
  have hinstruction : ∀ n q, q.registry = p.registry → q.execution.group = none →
      executeInstruction n (.rule .expandConversion) q =
        applyRules n [.expandConversion] true q := by
    intro n q _ _
    rw [executeInstruction]
  refine ⟨p, hbuild, hp.registry, ((progress_expandConversion hwraps hdimensions hchains htells hunary
    true).fueled_findBestPlan (by simp) hp.program_eq hinstruction hmeasured).mono ?_ ?_⟩
  · rintro best _ ⟨hmet, w, q, root, hq, hrest, hroot, ht⟩
    obtain ⟨hexpands, hiff⟩ := met_iff_of_atRest hunary hq hrest hroot ht
    exact ⟨hiff.1 hmet, hexpands, hmet⟩
  · rintro f _ (h | ⟨hf, w, q, root, u, hq, hrest, hroot, hu, hbad⟩)
    · exact h.elim
    · exact ⟨fun h => hbad ((met_iff_of_atRest hunary hq hrest hroot hu).2.2 h), hf⟩

/-- A column is requested in one convention, and that in another one and in order. -/
def requestedColumn : Node :=
  let scan : Node := ⟨.tableScan ⟨"t", ⟨[⟨"a", .int64, false⟩]⟩, none, none⟩, [], .default,
    ⟨[⟨"a", .int64, false⟩]⟩⟩
  .request (.request scan ⟨⟨"A"⟩, .unordered⟩) ⟨⟨"B"⟩, ⟨[⟨0, true, false⟩]⟩⟩

def columnRules : List Rule := [.wrapping .none ⟨"A"⟩ true, .wrapping ⟨"A"⟩ ⟨"B"⟩ true]

theorem wraps_of_mem_columnRules {rule : Rule} (h : rule ∈ columnRules) :
    ∃ arc ∈ [(Convention.none, (⟨"A"⟩ : Convention)), (⟨"A"⟩, ⟨"B"⟩)], rule.Wraps arc.1 arc.2 := by
  rcases List.mem_pair.1 h with rfl | rfl
  · exact ⟨_, List.mem_cons_self, rfl⟩
  · exact ⟨_, List.mem_cons_of_mem _ (List.mem_singleton_self _), rfl⟩

/-- What the plan has, and what chains over it have. -/
def columnFamily : List (Operator × TraitSet) :=
  let order : Collation := ⟨[⟨0, true, false⟩]⟩
  [(.tableScan ⟨"t", ⟨[⟨"a", .int64, false⟩]⟩, none, none⟩, .default),
    (.abstractConverter, ⟨⟨"A"⟩, .unordered⟩), (.abstractConverter, ⟨⟨"B"⟩, order⟩),
    (.converter .none ⟨"A"⟩, ⟨⟨"A"⟩, .unordered⟩), (.converter ⟨"A"⟩ ⟨"B"⟩, ⟨⟨"B"⟩, .unordered⟩),
    (.sort .unordered none, ⟨⟨"A"⟩, .unordered⟩), (.sort order none, ⟨⟨"B"⟩, order⟩)]

theorem keysTellNodes_columnFamily :
    Node.KeysTellNodes (fun op traits => (op, traits) ∈ columnFamily) .normalized := by
  have hplain : ∀ x ∈ columnFamily, x.2.isPlain = true := by decide +kernel
  have htext : ∀ x ∈ columnFamily, ∀ y ∈ columnFamily, x.1.kind = y.1.kind →
      x.2.text = y.2.text → x = y := by
    decide +kernel
  refine Node.keysTellNodes_of_terms (fun op t h => hplain (op, t) h) ?_
  intro op op' t t' h h' hkind htext' _
  exact Prod.mk.injEq .. ▸ htext (op, t) h (op', t') h' hkind htext'

theorem hasChains_columnRules :
    HasChains (fun op traits => (op, traits) ∈ columnFamily) columnRules := by
  have hconverters : ∀ x ∈ columnFamily,
      ∀ arc ∈ [(Convention.none, (⟨"A"⟩ : Convention)), (⟨"A"⟩, ⟨"B"⟩)], x.2.convention = arc.1 →
        (.converter x.2.convention arc.2, x.2.replace (.convention arc.2)) ∈ columnFamily := by
    decide +kernel
  have hsorts : ∀ x ∈ columnFamily, x.1 = .abstractConverter →
      (.sort x.2.collation none, x.2) ∈ columnFamily := by
    decide +kernel
  refine ⟨fun rule hrule op traits target hop hwraps => ?_, fun t ht => hsorts _ ht rfl⟩
  obtain ⟨arc, harc, hwraps'⟩ := wraps_of_mem_columnRules hrule
  obtain ⟨hsource, rfl⟩ := hwraps'.unique hwraps
  exact hconverters _ hop arc harc hsource

/-- Once the rules are registered, the request in A and the one in B above it can be met. -/
theorem resolvable_requestedColumn {r : Registry} (h : ∀ rule ∈ columnRules, rule ∈ r.rules) :
    requestedColumn.Resolvable r.Arc := by
  have harc : ∀ rule ∈ columnRules, ∀ s t, rule.Wraps s t → r.Arc s t :=
    fun rule hrule s t hwraps => ⟨rule, h rule hrule, hwraps⟩
  have hfirst : r.Arc .none ⟨"A"⟩ := harc _ List.mem_cons_self _ _ rfl
  have hsecond : r.Arc ⟨"A"⟩ ⟨"B"⟩ :=
    harc _ (List.mem_cons_of_mem _ (List.mem_singleton_self _)) _ _ rfl
  simp [requestedColumn, Node.request, Node.Resolvable, Node.Everywhere, Node.AllEverywhere,
    Node.convention, TraitSet.default, ReflTransGen.single hfirst, ReflTransGen.single hsecond]

/-- With vertices shared or not, and in trees with row types. -/
theorem findBestPlan_expandConversion_requestedColumn :
    requestedColumn.RequestsTyped ∧
    (∃ p, build .default (expandIn .bottomUp) columnRules requestedColumn = .ok () p ∧
      Fueled findBestPlan p (fun best _ =>
        requestedColumn.Expands true requestedColumn.RequestsTyped p.registry.Arc best.tree ∧
          best.tree.Met) fun _ _ => False) ∧
    ∃ p, build { Settings.default with dag := false } (expandIn .bottomUp) columnRules
        requestedColumn = .ok () p ∧
      Fueled findBestPlan p (fun best _ =>
        requestedColumn.Expands false requestedColumn.RequestsTyped p.registry.Arc best.tree ∧
          best.tree.Met) fun _ _ => False := by
  have hrules : ∀ rule ∈ columnRules, rule.pattern.defect? = none ∧ ∃ s t, rule.Wraps s t := by
    intro rule hrule
    obtain ⟨arc, -, hwraps⟩ := wraps_of_mem_columnRules hrule
    rcases List.mem_pair.1 hrule with rfl | rfl <;> exact ⟨rfl, _, _, hwraps⟩
  have hplan : requestedColumn.Everywhere fun n => n.vertexId? = none := by
    simp [requestedColumn, Node.request, Node.Everywhere, Node.AllEverywhere, Node.vertexId?]
  have hunary : requestedColumn.RequestsUnary := by
    simp [requestedColumn, Node.request, Node.RequestsUnary, Node.Everywhere, Node.AllEverywhere]
  have htyped : requestedColumn.RequestsTyped := by
    simp [requestedColumn, Node.request, Node.RequestsTyped, Node.Everywhere, Node.AllEverywhere]
  have hwithin : requestedColumn.Within fun op traits => (op, traits) ∈ columnFamily := by
    simp [requestedColumn, Node.request, Node.Within, Node.AllWithin, columnFamily]
  have hrun : ∀ dag : Bool, ∃ p,
      build { Settings.default with dag } (expandIn .bottomUp) columnRules requestedColumn = .ok () p ∧
      Fueled findBestPlan p (fun best _ =>
        requestedColumn.Expands dag requestedColumn.RequestsTyped p.registry.Arc best.tree ∧
          best.tree.Met) fun _ _ => False := by
    intro dag
    have hdimensions : ∀ d, d ∈ ({ Settings.default with dag } : Settings).dimensions := by
      rintro (_ | _)
      · exact List.mem_cons_self
      · exact List.mem_cons_of_mem _ List.mem_cons_self
    obtain ⟨p, hbuild, hregistry, h⟩ := findBestPlan_expandConversion hrules hdimensions hplan hunary
      hwithin hasChains_columnRules (fun _ => keysTellNodes_columnFamily) .bottomUp
    have hregistered : p.registry.rules = columnRules ++ [.expandConversion] := by
      rw [hregistry]
      rfl
    have hresolvable : requestedColumn.Resolvable p.registry.Arc :=
      resolvable_requestedColumn fun rule hrule => by
        rw [hregistered]
        exact List.mem_append_left _ hrule
    exact ⟨p, hbuild, h.mono (fun _ _ h => h.2) fun _ _ h => h.1 hresolvable⟩
  exact ⟨htyped, hrun true, hrun false⟩

end Planner

end QueryPlanner
