import QueryPlanner.Proofs.Planner.Reduction

/-!
# Building planners

A planner can be built for every plan without placeholders and for all rules that can be registered.
It then knows these rules, there is no garbage, and the plan is at the root.
-/

namespace QueryPlanner

open QueryPlanner.Graph Planning

/-! ## Registering rules -/

/-- Registering the rule does not fail: its pattern has no defect, and it has a companion if it needs
one. -/
structure Rule.Registrable (rule : Rule) : Prop where
  pattern : rule.pattern.defect? = none
  companion : ∀ c, rule.conversion = some c → c.guaranteed = true ∨
    ∃ companion, rule.companion = .ok companion

namespace Registry

/-- What is registered after a rule was registered. -/
def extend (r : Registry) (rule : Rule) : Registry :=
  match r.add rule with
  | .ok (some r') => r'
  | _ => r

/-- What is registered after rules were registered in turn. -/
def extendAll (r : Registry) (rules : List Rule) : Registry := rules.foldl extend r

theorem exists_add {rule : Rule} (h : rule.Registrable) (r : Registry) :
    ∃ r', r.add rule = .ok r' := by
  simp only [add, h.pattern]
  split_ifs
  · exact ⟨_, rfl⟩
  cases hc : rule.conversion with
  | none => exact ⟨_, rfl⟩
  | some c =>
    rcases h.companion c hc with hguaranteed | ⟨companion, hcompanion⟩
    · simp only [hguaranteed]
      exact ⟨_, rfl⟩
    · simp only [hcompanion]
      cases c.guaranteed <;> exact ⟨_, rfl⟩

theorem mem_rules_extend {r : Registry} {rule x : Rule} (h : x ∈ (r.extend rule).rules) :
    x ∈ r.rules ∨ x = rule := by
  unfold extend at h
  split at h
  · next r' hadd => exact (Planner.mem_rules_of_add hadd).1 x h
  · exact .inl h

theorem mem_rules_extendAll {rules : List Rule} {x : Rule} :
    ∀ {r : Registry}, x ∈ (r.extendAll rules).rules → x ∈ r.rules ∨ x ∈ rules := by
  induction rules with
  | nil => exact fun h => .inl h
  | cons rule rest ih =>
    intro r h
    rcases ih h with h | h
    · exact (mem_rules_extend h).imp id fun h => List.mem_cons.2 (.inl h)
    · exact .inr (List.mem_cons_of_mem _ h)

end Registry

namespace Planner

variable {p q : Planner} {settings : Settings} {program : Program} {rules : List Rule} {plan : Node}

/-- Planners that differ in what is registered and in reports alone. -/
def Equipped (p : Planner) (registry : Registry) (q : Planner) : Prop :=
  ∃ events, q = { p with registry, events }

theorem ends_addRule_registrable {rule : Rule} (h : rule.Registrable) (p : Planner) :
    Ends (addRule rule) p (fun _ q => p.Equipped (p.registry.extend rule) q) fun _ _ => False := by
  obtain ⟨r, hr⟩ := Registry.exists_add h p.registry
  rw [addRule_eq]
  refine ends_bind.2 (ends_get.2 ?_)
  rw [hr]
  cases r with
  | none =>
    refine ends_pure.2 ⟨p.events, ?_⟩
    rw [Registry.extend, hr]
  | some r =>
    apply (ends_log _ p _).bind
    rintro _ _ ⟨events, rfl⟩
    refine ends_bind.2 (ends_modify.2 (ends_pure.2 ⟨events, ?_⟩))
    rw [Registry.extend, hr]

theorem ends_forM_addRule : ∀ {rules : List Rule} (p : Planner), (∀ r ∈ rules, r.Registrable) →
    Ends (rules.forM fun rule => discard (addRule rule)) p
      (fun _ q => p.Equipped (p.registry.extendAll rules) q) fun _ _ => False := by
  intro rules
  induction rules with
  | nil => exact fun p _ => ends_pure.2 ⟨p.events, rfl⟩
  | cons rule rest ih =>
    intro p h
    rw [List.forall_mem_cons] at h
    have hrule : Ends (discard (addRule rule)) p
        (fun _ q => p.Equipped (p.registry.extend rule) q) fun _ _ => False :=
      ends_bind.2 ((ends_addRule_registrable h.1 p).mono (fun _ _ h => ends_pure.2 h) fun _ _ h => h)
    apply hrule.bind
    rintro _ _ ⟨events, rfl⟩
    exact (ih _ h.2).mono (fun _ _ ⟨events, hq⟩ => ⟨events, hq⟩) fun _ _ h => h

/-! ## The plan -/

/-- A planner that was built and not yet driven. -/
structure Built (settings : Settings) (program : Program) (rules : List Rule) (p : Planner) :
    Prop where
  settings_eq : p.settings = settings
  program_eq : p.program = program
  registry : p.registry = Registry.empty.extendAll (rules ++ program.rules)
  execution : p.execution = .fresh

/-- The planner for a plan without placeholders. The tree of the root is related to the plan. -/
theorem exists_build {F : Operator → TraitSet → Prop} {R : Node → Node → Prop}
    (hR : Node.Congruence R) (hkeys : KeysRelateIn settings F R)
    (hrules : ∀ r ∈ rules ++ program.rules, r.Registrable)
    (hplan : plan.Everywhere fun n => n.vertexId? = none) (hwithin : plan.Within F) :
    ∃ p, build settings program rules plan = .ok () p ∧ Built settings program rules p ∧
      p.Underway F (R plan) p := by
  have hempty : (initial settings program).graph.Consistent settings.digestMode :=
    consistent_empty _
  have hload : Ends (load rules plan) (initial settings program)
      (fun _ q => Built settings program rules q ∧ q.Tidy ∧ q.graph.Truthful ∧
        ∃ root t, q.graph.root = some root ∧ q.graph.UnfoldsTo root t ∧ R plan t)
        fun _ _ => False := by
    refine ends_bind.2 (ends_get.2 (ends_bind.2 ((ends_forM_addRule _ hrules).mono ?_ fun _ _ h => h)))
    rintro _ _ ⟨events, rfl⟩
    obtain ⟨root, q, hadd, hcounted, hextended, hplaces⟩ := exists_add
      (p := { initial settings program with
        registry := Registry.empty.extendAll (rules ++ program.rules), events }) hempty
      (unfolds_self _ plan hplan)
    have hsettings : q.settings = settings := hextended.settings
    have hq := hextended.consistent hempty
    rw [hsettings] at hq
    have hgraph := within_add plan _ q root hempty within_empty hwithin hadd
    obtain ⟨t, ht, hRt⟩ := hplaces.related hR hq (hkeys _ hq.toLinked hgraph) plan root plan hwithin
      (unfolds_self _ plan hplan)
    have htree : UnfoldsTo { q.graph with root := some root } root t :=
      UnfoldsTo.mono (g := q.graph) (fun _ _ h => h) ht
    refine ends_bind.2 ((ends_of_eq_ok hadd).2
      (ends_bind.2 (ends_modify.2 (ends_bind.2 (ends_get.2 ((ends_log _ _ _).mono ?_ fun _ _ h => h))))))
    rintro _ _ ⟨events', rfl⟩
    refine ⟨⟨hsettings, hextended.program, hextended.registry, hextended.execution⟩,
      ⟨?_, ?_, fun hclean => ?_, root, rfl⟩, ?_, root, t, rfl, htree, hRt⟩
    · rw [← hsettings] at hq
      exact hq.setRoot hplaces.contains
    · show q.transformationsAtSweep ≤ q.transformations
      rw [hcounted.transformationsAtSweep]
      exact hcounted.le.trans' (Nat.zero_le _)
    · -- at least one vertex was added
      have hclean : q.transformations = q.transformationsAtSweep := hclean
      rw [hcounted.transformationsAtSweep] at hclean
      have hlive := hplaces.contains
      rw [hcounted.unchanged hclean] at hlive
      simp [initial, Graph.contains, Graph.vertex?, Graph.empty] at hlive
    · exact (Growth.truthful hempty truthful_empty hextended.growth).congr (fun _ => rfl) fun _ => rfl
  obtain ⟨_, p, hok, hp, htidy, htruthful, htree⟩ := hload.exists_ok
  exact ⟨p, hok, hp, htidy, rfl, rfl, within_build hwithin hok, htruthful, htree⟩

end Planner

end QueryPlanner
