import QueryPlanner.Proofs.Planner.Execution
import QueryPlanner.Rule.Simplification

/-!
# Reached states

A planner starts with the plan that it was built for, and is then driven by any calls that succeed.
In every state that is reached its graph is consistent and has a root.
-/

namespace QueryPlanner

open QueryPlanner.Graph Planning

namespace Planner

variable {p q : Planner} {A : Rule → Prop}

/-- States reached by successful calls after a planner was built. -/
inductive Reached : Planner → Prop
  | built {settings : Settings} {program : Program} {rules : List Rule} {plan : Node} {p : Planner}
      (h : build settings program rules plan = .ok () p) : Reached p
  | added {p q : Planner} {node : Node} {id : VertexId} (hp : Reached p)
      (h : add node p = .ok id q) : Reached q
  | rooted {p q : Planner} {plan : Node} (hp : Reached p) (h : setRoot plan p = .ok () q) : Reached q
  | executed {p q : Planner} {fuel : Nat} {program : Program} (hp : Reached p)
      (h : execute fuel program p = .ok () q) : Reached q
  | collected {p q : Planner} (hp : Reached p) (h : collectGarbage p = .ok () q) : Reached q
  | registered {p q : Planner} {rule : Rule} {isNew : Bool} (hp : Reached p)
      (h : addRule rule p = .ok isNew q) : Reached q
  | counted {p q : Planner} {node : Node} {rows : Float} (hp : Reached p)
      (h : onGraph (rowCount node) p = .ok rows q) : Reached q
  | costed {p q : Planner} {model : CostModel} {node : Node} {cost : Cost} (hp : Reached p)
      (h : onGraph (cumulativeCost model node) p = .ok cost q) : Reached q

/-! ## Building -/

/-- A rule was registered or not, and nothing else has changed but reports. -/
structure Registered (p : Planner) (rule : Rule) (q : Planner) : Prop where
  settings : q.settings = p.settings
  program : q.program = p.program
  execution : q.execution = p.execution
  graph : q.graph = p.graph
  rules : ∀ r ∈ q.registry.rules, r ∈ p.registry.rules ∨ r = rule
  companions : ∀ c ∈ q.registry.companions, c ∈ p.registry.companions ∨ rule.companion = .ok c.2

theorem mem_rules_of_add {r r' : Registry} {rule : Rule} (h : r.add rule = .ok (some r')) :
    (∀ x ∈ r'.rules, x ∈ r.rules ∨ x = rule) ∧
      ∀ c ∈ r'.companions, c ∈ r.companions ∨ rule.companion = .ok c.2 := by
  have hrules : ∀ x ∈ r.rules ++ [rule], x ∈ r.rules ∨ x = rule := by simp
  simp only [Registry.add, Bind.bind, Except.bind, pure, Except.pure] at h
  split_ifs at h
  · cases h
  split at h
  · cases h
  split at h
  · cases h
    exact ⟨hrules, fun _ => .inl⟩
  · split_ifs at h
    · cases h
      exact ⟨hrules, fun _ => .inl⟩
    · split at h
      · cases h
      · next companion hcompanion =>
        cases h
        refine ⟨hrules, fun c hc => ?_⟩
        rcases List.mem_cons.1 hc with rfl | hc
        · exact .inr hcompanion
        · exact .inl hc

theorem ends_addRule (rule : Rule) (p : Planner) :
    Ends (addRule rule) p (fun _ q => p.Registered rule q) fun _ q => q = p := by
  rw [addRule_eq]
  refine ends_bind.2 (ends_get.2 ?_)
  split
  · exact ends_throw.2 rfl
  · exact ends_pure.2 ⟨rfl, rfl, rfl, rfl, fun _ => .inl, fun _ => .inl⟩
  · next registry h =>
    apply (ends_log _ p _).bind
    rintro _ _ ⟨events, rfl⟩
    have hmem := mem_rules_of_add h
    exact ends_bind.2 (ends_modify.2 (ends_pure.2 ⟨rfl, rfl, rfl, rfl, hmem.1, hmem.2⟩))

/-- Rules of some kind, and so are the companions that are registered with them. -/
def Closed (A : Rule → Prop) (rules : List Rule) : Prop :=
  ∀ r ∈ rules, A r ∧ ∀ companion, r.companion = .ok companion → A companion

theorem Registered.allows {rule : Rule} (h : p.Registered rule q) (hA : Closed A [rule])
    (hp : p.Allows A) : q.Allows A where
  registered r hr := by
    rcases h.rules r hr with hr | rfl
    · exact hp.registered r hr
    · exact (hA r List.mem_cons_self).1
  companions c hc := by
    rcases h.companions c hc with hc | hc
    · exact hp.companions c hc
    · exact (hA rule List.mem_cons_self).2 c.2 hc
  group := by
    rw [h.execution]
    exact hp.group

/-- A plan was placed in the graph and made its root. -/
structure Loaded (p : Planner) (plan : Node) (q : Planner) : Prop where
  settings : q.settings = p.settings
  program : q.program = p.program
  execution : q.execution = p.execution
  graph : ∃ g id, Growth p.settings p.graph g ∧ Places p.settings g plan id ∧
    q.graph = { g with root := some id }
  added : ∃ r r' id, r.settings = p.settings ∧ r.graph = p.graph ∧ add plan r = .ok id r' ∧
    q.graph = { r'.graph with root := some id }

theorem Loaded.consistent {plan : Node} (hp : p.graph.Consistent p.settings.digestMode)
    (h : p.Loaded plan q) : q.graph.Consistent q.settings.digestMode ∧
      ∃ root, q.graph.root = some root := by
  obtain ⟨g, id, hgrowth, hplaces, hg⟩ := h.graph
  rw [h.settings, hg]
  exact ⟨(hgrowth.consistent hp).setRoot hplaces.contains, id, rfl⟩

theorem loaded_of_setRoot {plan : Node} (hp : p.graph.Consistent p.settings.digestMode)
    (h : setRoot plan p = .ok () q) : q.registry = p.registry ∧ p.Loaded plan q := by
  obtain ⟨r, id, hadd, hr, hplaces, events, rfl⟩ := (ends_setRoot plan p hp).ok h
  exact ⟨hr.registry, hr.settings, hr.program, hr.execution,
    ⟨r.graph, id, hr.growth, hplaces, rfl⟩, p, r, id, rfl, rfl, hadd, rfl⟩

/-- A planner is built by registering rules and placing the plan. -/
theorem ends_load {rules : List Rule} (plan : Node) (hA : Closed A (rules ++ p.program.rules))
    (hp : p.Ready A) :
    Ends (load rules plan) p (fun _ q => q.Allows A ∧ p.Loaded plan q) fun _ _ => True := by
  let R : Planner → Planner → Prop := fun p q => q.settings = p.settings ∧
    q.program = p.program ∧ q.execution = p.execution ∧ q.graph = p.graph ∧
    (p.Allows A → q.Allows A)
  have hR : Ends ((rules ++ p.program.rules).forM fun rule => discard (addRule rule)) p
      (fun _ q => R p q) fun _ _ => True := by
    refine ends_forM (E := fun _ _ _ => True) (fun _ => ⟨rfl, rfl, rfl, rfl, id⟩) ?_
      (fun _ _ _ _ _ _ => trivial) ?_ p
    · rintro p q r ⟨hs, hp, he, hg, ha⟩ ⟨hs', hp', he', hg', ha'⟩
      exact ⟨hs'.trans hs, hp'.trans hp, he'.trans he, hg'.trans hg, ha' ∘ ha⟩
    · intro rule hrule p
      refine ends_bind.2 ((ends_addRule rule p).mono (fun _ q h => ends_pure.2 ?_) fun _ _ _ =>
        trivial)
      refine ⟨h.settings, h.program, h.execution, h.graph, h.allows fun r hr => ?_⟩
      rw [List.mem_singleton.1 hr]
      exact hA rule hrule
  refine ends_bind.2 (ends_get.2 (ends_bind.2 (hR.mono ?_ fun _ _ h => h)))
  rintro _ q ⟨hs, hp', he, hg, ha⟩
  have hq : q.graph.Consistent q.settings.digestMode := by
    rw [hs, hg]
    exact hp.consistent
  refine ((ends_self _ q).and (ends_setRoot plan q hq)).mono ?_ fun _ _ _ => trivial
  rintro _ r ⟨h, -⟩
  obtain ⟨hr, h⟩ := loaded_of_setRoot hq h
  refine ⟨(ha hp.allows).congr hr h.execution, h.settings.trans hs, h.program.trans hp',
    h.execution.trans he, ?_, ?_⟩
  · have hgraph := h.graph
    rwa [hs, hg] at hgraph
  · obtain ⟨t, t', id, ht, ht', hadd⟩ := h.added
    exact ⟨t, t', id, ht.trans hs, ht'.trans hg, hadd⟩

theorem ready_initial (settings : Settings) (program : Program) (A : Rule → Prop) :
    (initial settings program).Ready A where
  consistent := consistent_empty _
  allows := ⟨by simp [initial, Registry.empty], by simp [initial, Registry.empty],
    by simp [initial, Execution.fresh]⟩

/-! ## Consistency -/

/-- No program loses the root. -/
theorem law_root : Law (fun _ => True) (fun p q => p.graph.root.isSome → q.graph.root.isSome)
    fun _ _ _ => True where
  undisturbed p q h := by
    rw [h.graph.root]
    exact id
  execution p e := id
  trans p q r h h' := h' ∘ h
  swept p q hp h := by
    rcases h.graph with heq | h
    · rw [heq]
      exact id
    · obtain ⟨root, -, -, h⟩ := h.discarded hp.toLinked
      rw [h.root]
      exact id
  attempt p rule id force hp _ := by
    refine (ends_attempt hp rule id force).mono ?_ fun _ _ _ => trivial
    rintro replacement q h
    cases replacement with
    | none =>
      rw [(h.graph hp).root]
      exact fun h => h
    | some replacement =>
      obtain ⟨-, -, best, -, h⟩ := h
      obtain ⟨g, hgrowth, -, ⟨-, heq⟩ | ⟨hm, -⟩⟩ := h.graph
      · rw [heq, (hgrowth.extends hp).root]
        exact fun h => h
      · have hg := hgrowth.consistent hp
        obtain ⟨placeholder, parents, -, -, hm⟩ := hm.contracted hg.toLinked
        rw [hm.root, (hgrowth.extends hp).root]
        split_ifs <;> simp
  fault _ _ _ _ := trivial
  fault_trans _ _ _ _ _ _ := trivial
  fault_execution _ _ _ _ _ := trivial

/-- Rules of any kind are tried in a reached state. -/
theorem reached_ready (h : Reached p) : p.Ready (fun _ => True) ∧ p.graph.root.isSome := by
  induction h with
  | @built settings program rules plan p h =>
    have hA : Closed (fun _ => True) (rules ++ program.rules) := by simp [Closed]
    have hinit := ready_initial settings program fun _ => True
    obtain ⟨hallows, hloaded⟩ := (ends_load plan hA hinit).ok h
    obtain ⟨hconsistent, root, hroot⟩ := hloaded.consistent hinit.consistent
    exact ⟨⟨hconsistent, hallows⟩, by simp [hroot]⟩
  | @added p q node id hp h ih =>
    obtain ⟨hq, -⟩ := (ends_add node p ih.1.consistent).ok h
    refine ⟨⟨hq.consistent ih.1.consistent, ih.1.allows.congr hq.registry hq.execution⟩, ?_⟩
    rw [(hq.graph ih.1.consistent).root]
    exact ih.2
  | @rooted p q plan hp h ih =>
    obtain ⟨hregistry, hloaded⟩ := loaded_of_setRoot ih.1.consistent h
    obtain ⟨hconsistent, root, hroot⟩ := hloaded.consistent ih.1.consistent
    exact ⟨⟨hconsistent, ih.1.allows.congr hregistry hloaded.execution⟩, by simp [hroot]⟩
  | @executed p q fuel program hp h ih =>
    have hq := (law_root.execute (fun _ _ => trivial) ih.1 fuel).ok h
    exact ⟨hq.ready, hq.related ih.2⟩
  | collected hp h ih =>
    have hq := (law_root.collectGarbage ih.1).ok h
    exact ⟨hq.ready, hq.related ih.2⟩
  | @registered p q rule isNew hp h ih =>
    have hq := (ends_addRule rule p).ok h
    refine ⟨⟨?_, hq.allows (by simp [Closed]) ih.1.allows⟩, hq.graph ▸ ih.2⟩
    rw [hq.settings, hq.graph]
    exact ih.1.consistent
  | counted hp h ih =>
    have hq := (law_root.asks (.rowCount _) ih.1).ok h
    exact ⟨hq.ready, hq.related ih.2⟩
  | @costed p q model node cost hp h ih =>
    obtain rfl : { p with graph := (cumulativeCost model node p.graph).2 } = q :=
      (EStateM.Result.ok.inj h).2
    have halike := caching_cumulativeCost model node p.graph
    exact ⟨⟨ih.1.consistent.congr halike, ih.1.allows.congr rfl rfl⟩, halike.root ▸ ih.2⟩

/-- In every reached state the graph has no cycle and a root, every input is the placeholder of a
vertex, and edges, keys and digest entries agree with the expressions. -/
theorem reached_consistent (h : Reached p) : p.graph.Consistent p.settings.digestMode ∧
    ∃ root, p.graph.root = some root ∧ p.graph.contains root = true := by
  obtain ⟨hp, hroot⟩ := reached_ready h
  obtain ⟨root, hroot⟩ := Option.isSome_iff_exists.1 hroot
  exact ⟨hp.consistent, root, hroot, hp.consistent.root root hroot⟩

/-- A limit on a limit on a single row without columns. -/
def stackedLimits : Node :=
  ⟨.limit 5, [⟨.limit 3, [⟨.values .empty [[]], [], .default, .empty⟩], .default, .empty⟩], .default,
    .empty⟩

/-- The limits are merged: a firing, a redirected root and a sweep. -/
def mergedLimits : Planner :=
  left (execute 9 ⟨[.rule Rule.removeLimit]⟩ (left (build .default ⟨[]⟩ [] stackedLimits)))

theorem reached_consistent_mergedLimits :
    mergedLimits.graph.Consistent mergedLimits.settings.digestMode ∧
      ∃ root, mergedLimits.graph.root = some root ∧ mergedLimits.graph.contains root = true :=
  reached_consistent (.executed (.built (eq_ok_of_succeeded (by decide +kernel)))
    (eq_ok_of_succeeded (by decide +kernel)))

end Planner

end QueryPlanner
