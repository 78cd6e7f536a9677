import QueryPlanner.Planner.Run
import QueryPlanner.Proofs.Planner.Firing

/-!
# Properties of whole executions

A program does nothing to the graph but try rules and sweep. So a relation between states that holds
of each of these holds of every execution, whatever the program, if the rules that the relation needs
are those that the program and the planner hold. Consistency of the graph is carried along.
-/

namespace QueryPlanner

open QueryPlanner.Graph Planning

/-- All rules that the planner may try are of some kind. -/
structure Planner.Allows (A : Rule → Prop) (p : Planner) : Prop where
  registered : ∀ r ∈ p.registry.rules, A r
  companions : ∀ c ∈ p.registry.companions, A c.2
  group : ∀ rules, p.execution.group = some rules → ∀ r ∈ rules, A r

theorem Planner.Allows.congr {A : Rule → Prop} {p q : Planner} (h : p.Allows A)
    (hr : q.registry = p.registry) (he : q.execution = p.execution) : q.Allows A where
  registered := hr ▸ h.registered
  companions := hr ▸ h.companions
  group := he ▸ h.group

/-- The graph is consistent and the rules are allowed ones. -/
structure Planner.Ready (A : Rule → Prop) (p : Planner) : Prop where
  consistent : p.graph.Consistent p.settings.digestMode
  allows : p.Allows A

/-- A relation between a state and a later one that holds of attempts with allowed rules and of
sweeps, and what is known of a state in which an attempt has failed. -/
structure PassLaw (A : Rule → Prop) (R : Planner → Planner → Prop)
    (F : Planner → Fault → Planner → Prop) : Prop where
  undisturbed : ∀ p q, p.Undisturbed q → R p q
  trans : ∀ p q r, R p q → R q r → R p r
  swept : ∀ p q, p.graph.Consistent p.settings.digestMode → p.Swept q → R p q
  attempt : ∀ p rule id force, p.graph.Consistent p.settings.digestMode → A rule →
    Ends (Planner.attempt rule id force) p (fun _ q => R p q) (F p)
  fault : ∀ p f q, R p q → F p f q
  fault_trans : ∀ p q f r, R p q → F q f r → F p f r

/-- The relation holds also where rule instructions come to be executed in another way. -/
structure Law (A : Rule → Prop) (R : Planner → Planner → Prop)
    (F : Planner → Fault → Planner → Prop) : Prop extends PassLaw A R F where
  execution : ∀ (p : Planner) (e : Execution), R p { p with execution := e }
  fault_execution : ∀ p f (q : Planner) (e : Execution), F p f q → F p f { q with execution := e }

/-- A later state in the midst of a pass. -/
structure Passed (R : Planner → Planner → Prop) (p q : Planner) : Prop where
  consistent : q.graph.Consistent q.settings.digestMode
  settings : q.settings = p.settings
  program : q.program = p.program
  registry : q.registry = p.registry
  execution : q.execution = p.execution
  related : R p q

/-- A later state that is ready again. -/
structure Carried (A : Rule → Prop) (R : Planner → Planner → Prop) (p q : Planner) : Prop where
  ready : q.Ready A
  settings : q.settings = p.settings
  program : q.program = p.program
  registry : q.registry = p.registry
  related : R p q

theorem Passed.carried {A : Rule → Prop} {R : Planner → Planner → Prop} {p q : Planner}
    (h : Passed R p q) (hp : p.Ready A) : Carried A R p q where
  ready := ⟨h.consistent, hp.allows.congr h.registry h.execution⟩
  settings := h.settings
  program := h.program
  registry := h.registry
  related := h.related

/-! ## Passes -/

namespace PassLaw

variable {A : Rule → Prop} {R : Planner → Planner → Prop} {F : Planner → Fault → Planner → Prop}
  {α β : Type} {p q r : Planner} (L : PassLaw A R F)
include L

theorem passed_trans (h : Passed R p q) (h' : Passed R q r) : Passed R p r where
  consistent := h'.consistent
  settings := h'.settings.trans h.settings
  program := h'.program.trans h.program
  registry := h'.registry.trans h.registry
  execution := h'.execution.trans h.execution
  related := L.trans p q r h.related h'.related

theorem passed_undisturbed (hp : p.graph.Consistent p.settings.digestMode) (h : p.Undisturbed q) :
    Passed R p q :=
  ⟨h.extended.consistent hp, h.settings, h.program, h.registry, h.execution, L.undisturbed p q h⟩

theorem passed_refl (hp : p.graph.Consistent p.settings.digestMode) : Passed R p p :=
  L.passed_undisturbed hp (.refl p)

theorem passed_swept (hp : p.graph.Consistent p.settings.digestMode) (h : p.Swept q) :
    Passed R p q :=
  ⟨h.consistent hp, h.settings, h.program, h.registry, h.execution, L.swept p q hp h⟩

theorem bind {x : Planning α} {f : α → Planning β}
    (hx : Ends x p (fun _ q => Passed R p q) (F p))
    (hf : ∀ a q, Passed R p q → Ends (f a) q (fun _ r => Passed R q r) (F q)) :
    Ends (x >>= f) p (fun _ r => Passed R p r) (F p) :=
  ends_bind.2 <| hx.mono (fun a q hq => (hf a q hq).mono (fun _ _ hr => L.passed_trans hq hr)
    fun f r hr => L.fault_trans p q f r hq.related hr) fun _ _ h => h

theorem asks {x : Planning α} (hx : Asks p.settings x)
    (hp : p.graph.Consistent p.settings.digestMode) :
    Ends x p (fun _ q => Passed R p q) (F p) :=
  hx.ends.mono (fun _ _ h => L.passed_undisturbed hp h)
    fun f q h => L.fault p f q (L.undisturbed p q h)

theorem throw {f : Fault} : Ends (throw f : Planning α) p (fun _ q => Passed R p q) (F p) :=
  ends_throw.2 (L.fault p f p (L.undisturbed p p (.refl p)))

theorem collectGarbage (hp : p.graph.Consistent p.settings.digestMode) :
    Ends Planner.collectGarbage p (fun _ q => Passed R p q) (F p) :=
  (Planner.ends_collectGarbage p _).mono (fun _ _ h => L.passed_swept hp h) fun _ _ h => h

theorem apply (hp : p.graph.Consistent p.settings.digestMode) {rule : Rule} (hrule : A rule)
    (id : VertexId) (force : Bool) :
    Ends (Planner.apply rule id force) p (fun _ q => Passed R p q) (F p) := by
  have hattempt : Ends (Planner.attempt rule id force) p (fun _ q => Passed R p q) (F p) := by
    refine ((Planner.ends_attempt hp rule id force).and
      (L.attempt p rule id force hp hrule)).mono ?_ fun _ _ h => h.2
    rintro replacement q ⟨h, hR⟩
    cases replacement with
    | none => exact ⟨h.consistent hp, h.settings, h.program, h.registry, h.execution, hR⟩
    | some replacement =>
      obtain ⟨proposed, -, best, -, h⟩ := h
      exact ⟨h.consistent hp, h.settings, h.program, h.registry, h.execution, hR⟩
  apply L.bind hattempt
  intro replacement q hq
  cases replacement with
  | none => exact ends_pure.2 (L.passed_refl hq.consistent)
  | some replacement =>
    refine L.bind ?_ fun _ r hr => ends_pure.2 (L.passed_refl hr.consistent)
    refine (Planner.ends_reportProduction rule replacement q).mono ?_
      fun f r h => L.fault q f r (L.undisturbed q r h.1)
    rintro _ r (h | ⟨q', h, hs⟩)
    · exact L.passed_undisturbed hq.consistent h
    · have h := L.passed_undisturbed hq.consistent h
      exact L.passed_trans h (L.passed_swept h.consistent hs)

theorem schedule (hp : p.graph.Consistent p.settings.digestMode) (start : VertexId) :
    Ends (Planner.schedule start) p (fun _ q => Passed R p q) (F p) := by
  refine L.bind (L.collectGarbage hp) fun _ q hq => ends_bind.2 (ends_get.2 ?_)
  split
  · exact ends_bind.2 (ends_get.2 (ends_pure.2 (L.passed_refl hq.consistent)))
  · exact ends_bind.2 (ends_get.2 (ends_pure.2 (L.passed_refl hq.consistent)))
  · exact L.asks asks_topologicalOrder hq.consistent
  · exact L.asks (asks_topologicalOrder.bind fun _ => .pure _) hq.consistent

theorem scheduleFromRoot (hp : p.graph.Consistent p.settings.digestMode) :
    Ends Planner.scheduleFromRoot p (fun _ q => Passed R p q) (F p) :=
  L.bind (L.asks asks_requireRoot hp) fun root _ hq => L.schedule hq.consistent root

theorem visit {rules : List Rule} (hrules : ∀ r ∈ rules, A r) (force : Bool) (id : VertexId) :
    ∀ {p}, p.graph.Consistent p.settings.digestMode →
      Ends (Planner.visit rules force id) p (fun _ q => Passed R p q) (F p) := by
  induction rules with
  | nil => exact fun hp => ends_pure.2 (L.passed_refl hp)
  | cons rule rest ih =>
    intro p hp
    have hrest : ∀ r ∈ rest, A r := fun r hr => hrules r (List.mem_cons_of_mem _ hr)
    rw [Planner.visit]
    apply L.bind (L.apply hp (hrules rule List.mem_cons_self) id force)
    intro result q hq
    cases result with
    | none => exact ih hrest hq.consistent
    | some result =>
      simp only
      split_ifs
      · exact ends_pure.2 (L.passed_refl hq.consistent)
      · exact ih hrest hq.consistent

theorem resume (hp : p.graph.Consistent p.settings.digestMode) (result : VertexId) (settled : Bool)
    (rest : List VertexId) :
    Ends (Planner.resume result settled rest) p (fun _ q => Passed R p q) (F p) := by
  refine ends_bind.2 (ends_get.2 ?_)
  simp only
  split_ifs
  · exact L.scheduleFromRoot hp
  · exact L.bind (L.schedule hp result) fun _ q hq => ends_pure.2 (L.passed_refl hq.consistent)
  · exact L.bind (L.schedule hp result) fun _ q hq => ends_pure.2 (L.passed_refl hq.consistent)

theorem traverse {rules : List Rule} (hrules : ∀ r ∈ rules, A r) (force : Bool) (n : Nat) :
    ∀ {p}, p.graph.Consistent p.settings.digestMode → ∀ pending settled matched,
      Ends (Planner.traverse rules force n pending settled matched) p
        (fun _ q => Passed R p q) (F p) := by
  induction n with
  | zero => exact fun _ _ _ _ => L.throw
  | succ n ih =>
    intro p hp pending settled matched
    cases pending with
    | nil =>
      rw [Planner.traverse]
      split_ifs
      · exact ends_pure.2 (L.passed_refl hp)
      · exact L.bind (L.scheduleFromRoot hp) fun _ q hq => ih hq.consistent _ _ _
    | cons id rest =>
      rw [Planner.traverse]
      apply L.bind (L.visit hrules force id hp)
      intro result q hq
      cases result with
      | none => exact ih hq.consistent _ _ _
      | some result =>
        refine ends_bind.2 (ends_get.2 ?_)
        split_ifs
        · exact ends_pure.2 (L.passed_refl hq.consistent)
        · apply L.bind (L.resume hq.consistent result settled rest)
          intro _ r hr
          exact ends_bind.2 (ends_get.2 (ih hr.consistent _ _ _))

theorem fireRules {rules : List Rule} (hrules : ∀ r ∈ rules, A r)
    (hp : p.graph.Consistent p.settings.digestMode) (fuel : Nat) (force : Bool) :
    Ends (Planner.fireRules fuel rules force) p (fun _ q => Passed R p q) (F p) := by
  apply L.bind (L.asks (Asks.log _) hp)
  intro _ q hq
  exact L.bind (L.scheduleFromRoot hq.consistent) fun _ r hr =>
    L.traverse hrules force fuel hr.consistent _ _ _

end PassLaw

/-! ## Instructions -/

namespace Law

variable {A : Rule → Prop} {R : Planner → Planner → Prop} {F : Planner → Fault → Planner → Prop}
  {α β : Type} {p q r : Planner} (L : Law A R F)
include L

theorem carried_trans (h : Carried A R p q) (h' : Carried A R q r) : Carried A R p r where
  ready := h'.ready
  settings := h'.settings.trans h.settings
  program := h'.program.trans h.program
  registry := h'.registry.trans h.registry
  related := L.trans p q r h.related h'.related

theorem carried_refl (hp : p.Ready A) : Carried A R p p :=
  (L.passed_refl hp.consistent).carried hp

/-- Rule instructions may be executed in another way from now on. -/
theorem carried_execution (hp : p.Ready A) (e : Execution)
    (he : ∀ rules, e.group = some rules → ∀ r ∈ rules, A r) :
    Carried A R p { p with execution := e } where
  ready := ⟨hp.consistent, hp.allows.registered, hp.allows.companions, he⟩
  settings := rfl
  program := rfl
  registry := rfl
  related := L.execution p e

theorem bind {x : Planning α} {f : α → Planning β}
    (hx : Ends x p (fun _ q => Carried A R p q) (F p))
    (hf : ∀ a q, Carried A R p q → Ends (f a) q (fun _ r => Carried A R q r) (F q)) :
    Ends (x >>= f) p (fun _ r => Carried A R p r) (F p) :=
  ends_bind.2 <| hx.mono (fun a q hq => (hf a q hq).mono (fun _ _ hr => L.carried_trans hq hr)
    fun f r hr => L.fault_trans p q f r hq.related hr) fun _ _ h => h

theorem asks {x : Planning α} (hx : Asks p.settings x) (hp : p.Ready A) :
    Ends x p (fun _ q => Carried A R p q) (F p) :=
  (L.toPassLaw.asks hx hp.consistent).mono (fun _ _ h => h.carried hp) fun _ _ h => h

theorem throw {f : Fault} : Ends (throw f : Planning α) p (fun _ q => Carried A R p q) (F p) :=
  ends_throw.2 (L.fault p f p (L.undisturbed p p (.refl p)))

theorem collectGarbage (hp : p.Ready A) :
    Ends Planner.collectGarbage p (fun _ q => Carried A R p q) (F p) :=
  (L.toPassLaw.collectGarbage hp.consistent).mono (fun _ _ h => h.carried hp) fun _ _ h => h

omit L in
theorem mem_mergeRules (rules : List Rule) :
    ∀ {group : List Rule} {r : Rule}, r ∈ Planner.mergeRules group rules → r ∈ group ∨ r ∈ rules := by
  induction rules with
  | nil => exact fun hr => .inl hr
  | cons rule rest ih =>
    intro group r hr
    rw [Planner.mergeRules] at hr
    split_ifs at hr
    · exact (ih hr).imp_right (List.mem_cons_of_mem _)
    · rcases ih hr with hr | hr
      · rcases List.mem_append.1 hr with hr | hr
        · exact .inl hr
        · exact .inr (List.mem_singleton.1 hr ▸ List.mem_cons_self)
      · exact .inr (List.mem_cons_of_mem _ hr)

theorem applyRules {rules : List Rule} (hrules : ∀ r ∈ rules, A r) (hp : p.Ready A) (fuel : Nat)
    (force : Bool) :
    Ends (Planner.applyRules fuel rules force) p (fun _ q => Carried A R p q) (F p) := by
  refine ends_bind.2 (ends_get.2 ?_)
  simp only
  split
  · next group hgroup =>
    refine ends_modify.2 (L.carried_execution hp _ fun merged hm r hr => ?_)
    cases hm
    exact (mem_mergeRules rules hr).elim (hp.allows.group group hgroup r) (hrules r)
  · refine L.bind ?_ fun _ q hq => ends_pure.2 (L.carried_refl hq.ready)
    exact (L.toPassLaw.fireRules hrules hp.consistent fuel force).mono (fun _ _ h => h.carried hp)
      fun _ _ h => h

theorem isolated {body : Planning Unit} (hp : p.Ready A)
    (hbody : ∀ p, p.Ready A → Ends body p (fun _ q => Carried A R p q) (F p)) :
    Ends (Planner.isolated body) p (fun _ q => Carried A R p q) (F p) := by
  have hfresh := L.carried_execution hp .fresh fun rules h => by cases h
  refine ends_isolated.2 ((hbody _ hfresh.ready).mono (fun _ q h => ?_) fun f q h => ?_)
  · exact L.carried_trans (L.carried_trans hfresh h) (L.carried_execution h.ready _ hp.allows.group)
  · exact L.fault_execution p f q _ (L.fault_trans p _ f q hfresh.related h)

theorem untilStable {body : Planning Unit}
    (hbody : ∀ p, p.Ready A → Ends body p (fun _ q => Carried A R p q) (F p)) (n : Nat) :
    ∀ {p}, p.Ready A → Ends (Planner.untilStable body n) p (fun _ q => Carried A R p q) (F p) := by
  intro p hp
  refine ends_untilStable (I := Carried A R p) (fun q hq => ?_) (fun q hq => ?_) n p
    (L.carried_refl hp)
  · exact L.fault_trans p q _ q hq.related (L.fault q _ q (L.undisturbed q q (.refl q)))
  · refine (hbody q hq.ready).mono (fun _ r hr => ?_) fun f r => L.fault_trans p q f r hq.related
    have h := L.carried_trans hq hr
    exact ⟨fun _ => h, fun _ => h⟩

theorem sweepIfLarge (hp : p.Ready A) :
    Ends Planner.sweepIfLarge p (fun _ q => Carried A R p q) (F p) := by
  refine ends_bind.2 (ends_get.2 ?_)
  split_ifs
  · exact L.collectGarbage hp
  · exact ends_pure.2 (L.carried_refl hp)

omit L in
/-- The converter rules are registered rules and companions. -/
theorem allowed_converterRules (hp : p.Allows A) (guaranteed : Bool) :
    ∀ r ∈ p.registry.converterRules guaranteed, A r := by
  intro r hr
  obtain ⟨rule, hrule, hr⟩ := List.mem_flatMap.1 hr
  split at hr
  · split_ifs at hr
    · rcases List.mem_cons.1 hr with rfl | hr
      · exact hp.registered r hrule
      · rw [Option.mem_toList] at hr
        exact hp.companions (rule.description, r) (mem_of_lookup hr)
    · cases hr
  · cases hr

mutual

theorem executeInstruction (fuel : Nat) : ∀ (i : Instruction), (∀ r ∈ i.ownRules, A r) →
    ∀ p, p.Ready A →
      Ends (Planner.executeInstruction fuel i) p (fun _ q => Carried A R p q) (F p)
  | .rule r, hi, p, hp => by
    rw [Planner.executeInstruction]
    exact L.applyRules (by simpa [Instruction.ownRules] using hi) hp fuel true
  | .described d, _, p, hp => by
    rw [Planner.executeInstruction]
    refine ends_bind.2 (ends_get.2 ?_)
    split
    · next r hr =>
      refine L.applyRules (fun r' hr' => ?_) hp fuel true
      rw [List.mem_singleton.1 hr']
      exact hp.allows.registered r (Registry.mem_rules_of_find? hr)
    · exact L.asks (Asks.log _) hp
  | .ruleClass belongs, _, p, hp => by
    rw [Planner.executeInstruction]
    refine ends_bind.2 (ends_get.2 ?_)
    exact L.applyRules (fun r hr => hp.allows.registered r (List.mem_of_mem_filter hr)) hp fuel true
  | .rules rs, hi, p, hp => by
    rw [Planner.executeInstruction]
    exact L.applyRules (by simpa [Instruction.ownRules] using hi) hp fuel true
  | .converters guaranteed, _, p, hp => by
    rw [Planner.executeInstruction]
    apply L.bind (L.asks (asks_requireNoGroup _) hp)
    intro _ q hq
    refine ends_bind.2 (ends_get.2 ?_)
    exact L.applyRules (allowed_converterRules hq.ready.allows guaranteed) hq.ready fuel guaranteed
  | .commonSubexpressions, _, p, hp => by
    rw [Planner.executeInstruction]
    apply L.bind (L.asks (asks_requireNoGroup _) hp)
    intro _ q hq
    refine ends_bind.2 (ends_get.2 ?_)
    exact L.applyRules (fun r hr => hq.ready.allows.registered r (List.mem_of_mem_filter hr))
      hq.ready fuel true
  | .order o, _, p, hp => by
    rw [Planner.executeInstruction]
    exact ends_modify.2 (L.carried_execution hp _ hp.allows.group)
  | .limit n, _, p, hp => by
    rw [Planner.executeInstruction]
    exact ends_modify.2 (L.carried_execution hp _ hp.allows.group)
  | .subprogram is, hi, p, hp => by
    rw [Planner.executeInstruction]
    apply L.bind (L.asks (Asks.log _) hp)
    intro _ q hq
    refine L.bind (L.untilStable (fun p hp => L.isolated hp fun p hp => ?_) fuel hq.ready)
      fun _ r hr => L.asks (Asks.log _) hr.ready
    exact executeAll fuel is (by simpa [Instruction.ownRules] using hi) p hp
  | .beginGroup, _, p, hp => by
    rw [Planner.executeInstruction]
    apply L.bind (L.asks (asks_requireNoGroup _) hp)
    intro _ q hq
    refine ends_modify.2 (L.carried_execution hq.ready _ fun rules h => ?_)
    cases h
    simp
  | .endGroup, _, p, hp => by
    rw [Planner.executeInstruction]
    refine ends_bind.2 (ends_get.2 ?_)
    split
    · exact L.throw
    · next rules hrules =>
      refine L.bind (ends_modify.2 (L.carried_execution hp _ fun rules h => by cases h))
        fun _ q hq => ?_
      exact L.applyRules (hp.allows.group rules hrules) hq.ready fuel true

theorem executeAll (fuel : Nat) : ∀ (is : List Instruction),
    (∀ r ∈ Instruction.rulesOf is, A r) → ∀ p, p.Ready A →
      Ends (Planner.executeAll fuel is) p (fun _ q => Carried A R p q) (F p)
  | [], _, p, hp => by
    rw [Planner.executeAll]
    exact ends_pure.2 (L.carried_refl hp)
  | i :: is, hi, p, hp => by
    rw [Planner.executeAll]
    rw [Instruction.rulesOf] at hi
    apply L.bind (L.asks (Asks.log _) hp)
    intro _ q hq
    refine L.bind (executeInstruction fuel i (fun r hr => hi r (List.mem_append_left _ hr)) q
      hq.ready) fun _ r hr => ?_
    apply L.bind (L.sweepIfLarge hr.ready)
    intro _ t ht
    exact executeAll fuel is (fun r hr => hi r (List.mem_append_right _ hr)) t ht.ready

end

/-- What attempts and sweeps keep is kept by the execution of a program. -/
theorem execute {program : Program} (hprogram : ∀ r ∈ program.rules, A r) (hp : p.Ready A)
    (fuel : Nat) :
    Ends (Planner.execute fuel program) p (fun _ q => Carried A R p q) (F p) :=
  L.isolated hp (L.executeAll fuel program.instructions hprogram)

end Law

end QueryPlanner
