import QueryPlanner.Proofs.Planner.Collection
import QueryPlanner.Proofs.Planner.Groups
import QueryPlanner.Proofs.Planner.Reporting
import QueryPlanner.Proofs.Planner.Totality

/-!
# Groups are collections

While a group is open, rule instructions only add their rules to it, and garbage may be swept after each
of them. An instruction that holds all of these rules fires them at once, and garbage is swept when its
first pass starts. Both ways the first pass is made over the same swept graph by planners that differ
alone in what they reported of reading instructions, and from there on they do the same.
-/

namespace QueryPlanner

open QueryPlanner.Graph Planning

/-- Whether the event tells how instructions are read, and nothing of expressions or garbage. -/
def Event.isReading : Event → Bool
  | .logged (.executing _) | .logged (.unknownDescription _) | .logged (.applying _) => true
  | _ => false

namespace Instruction

/-- Whether the instruction adds rules to an open group. -/
def isCollected : Instruction → Bool
  | .rule _ | .described _ | .ruleClass _ | .rules _ => true
  | _ => false

/-- The rules that the instruction adds to an open group: those that it holds, or registered ones. -/
def collected (registry : Registry) : Instruction → List Rule
  | .rule r => [r]
  | .described d => (registry.find? d).toList
  | .ruleClass belongs => registry.ruleClass belongs
  | .rules rs => rs
  | _ => []

end Instruction

namespace Planning

variable {α β : Type} {x : Planning α} {p q : Planner} {a : α}

theorem bind_of_eq_ok {f : α → Planning β} (h : x p = .ok a q) : (x >>= f) p = f a q := by
  show EStateM.bind x f p = f a q
  rw [EStateM.bind, h]

/-- What follows depends on the outcome alone. -/
theorem bind_congr_outcome {y : Planning α} {f : α → Planning β} (h : x p = y q) :
    (x >>= f) p = (y >>= f) q := by
  show EStateM.bind x f p = EStateM.bind y f q
  rw [EStateM.bind, EStateM.bind, h]

end Planning

namespace Planner

variable {α : Type} {p q r : Planner} {i : Instruction} {is : List Instruction}
  {group rules : List Rule} {fuel : Nat}

/-! ## Rules without duplicates -/

theorem mergeRules_append (group rules rules' : List Rule) :
    mergeRules group (rules ++ rules') = mergeRules (mergeRules group rules) rules' := by
  induction rules generalizing group with
  | nil => rfl
  | cons rule rest ih =>
    rw [List.cons_append, mergeRules, mergeRules]
    split_ifs
    · exact ih group
    · exact ih _

/-- Of rules with the same description the first one is kept. -/
theorem mergeRules_nil (rules : List Rule) : mergeRules [] rules =
    rules.eraseDupsBy fun r r' => decide (r'.description = r.description) := by
  have hloop : ∀ kept : List Rule, mergeRules kept.reverse rules =
      List.eraseDupsBy.loop (fun r r' => decide (r'.description = r.description)) rules kept := by
    induction rules with
    | nil => exact fun kept => rfl
    | cons rule rest ih =>
      intro kept
      rw [mergeRules, List.eraseDupsBy.loop, List.any_reverse]
      cases h : kept.any fun r => decide (r.description = rule.description)
      · rw [if_neg Bool.false_ne_true, ← List.reverse_cons]
        exact ih _
      · rw [if_pos rfl]
        exact ih _
  exact hloop []

/-! ## Findings -/

/-- What was reported of rules, expressions and garbage. -/
def findings (p : Planner) : List Event := p.events.toList.filter fun e => !e.isReading

/-- Planners that differ alone in what they reported of reading instructions. -/
structure InAccord (p q : Planner) : Prop where
  reported : p.Reported q
  findings : q.findings = p.findings

namespace InAccord

theorem refl (p : Planner) : p.InAccord p := ⟨.refl p, rfl⟩

theorem trans (h : p.InAccord q) (h' : q.InAccord r) : p.InAccord r :=
  ⟨h.reported.trans h'.reported, h'.findings.trans h.findings⟩

theorem symm (h : p.InAccord q) : q.InAccord p := by
  obtain ⟨⟨events, rfl⟩, hfindings⟩ := h
  exact ⟨⟨p.events, rfl⟩, hfindings.symm⟩

theorem executed (h : p.InAccord q) (e : Execution) :
    InAccord { p with execution := e } { q with execution := e } := by
  obtain ⟨⟨events, rfl⟩, hfindings⟩ := h
  exact ⟨⟨events, rfl⟩, hfindings⟩

end InAccord

theorem findings_following (earlier : Array Event) (p : Planner) :
    (following earlier p).findings =
      (earlier.toList.filter fun e => !e.isReading) ++ p.findings := by
  simp [findings, following]

/-- What does not read reports does the same in planners that are in accord. -/
theorem InAccord.concur {x : Planning α} (hx : Oblivious x) (h : p.InAccord q) :
    Concur x p q (fun _ => InAccord) InAccord := by
  obtain ⟨⟨events, rfl⟩, hfindings⟩ := h
  let silent : Planner := { p with events := #[] }
  have hp : p = following p.events silent := by simp [following, silent]
  have hq : { p with events } = following events silent := by simp [following, silent]
  have haccord : ∀ r, InAccord (following p.events r) (following events r) := by
    refine fun r => ⟨⟨events ++ r.events, rfl⟩, ?_⟩
    rw [findings_following, findings_following]
    exact congrArg (· ++ r.findings) hfindings
  have hendp := hx p.events silent
  have hendq := hx events silent
  rw [← hp] at hendp
  rw [← hq] at hendq
  unfold Concur
  rw [hendp, hendq]
  cases x silent with
  | ok a r => exact ⟨rfl, haccord r⟩
  | error f r => exact ⟨rfl, haccord r⟩

theorem InAccord.exists_ok {x : Planning α} {a : α} (hx : Oblivious x) (h : p.InAccord q)
    (hp : x p = .ok a r) : ∃ t, x q = .ok a t ∧ r.InAccord t := by
  obtain ⟨b, p', q', hendp, hendq, h⟩ | ⟨f, p', q', hendp, -, -⟩ := (h.concur hx).cases_on
  · rw [hp] at hendp
    cases hendp
    exact ⟨q', hendq, h⟩
  · rw [hp] at hendp
    cases hendp

theorem exists_log_reading {m : Message} (hm : (Event.logged m).isReading = true) (p : Planner) :
    ∃ q, log m p = .ok () q ∧ p.InAccord q := by
  have hlog : Ends (log m) p (fun _ q => p.InAccord q) fun _ _ => False := by
    refine ends_bind.2 (ends_get.2 ?_)
    split
    · refine ends_modify.2 ⟨⟨_, rfl⟩, ?_⟩
      simp [findings, hm]
    · exact ends_pure.2 (.refl p)
  obtain ⟨_, q, hq, h⟩ := hlog.exists_ok
  exact ⟨q, hq, h⟩

/-! ## Collecting rules -/

/-- A group that was opened in `p` holds these rules. Garbage may have been looked for since. -/
def Gathers (p : Planner) (group : List Rule) (q : Planner) : Prop :=
  ∃ r, (r = p ∨ collectGarbage p = .ok () r) ∧
    InAccord { r with execution := { p.execution with group := some group } } q

namespace Gathers

theorem accord (h : p.Gathers group q) (hq : q.InAccord r) : p.Gathers group r := by
  obtain ⟨s, hs, h⟩ := h
  exact ⟨s, hs, h.trans hq⟩

theorem execution (h : p.Gathers group q) :
    q.execution = { p.execution with group := some group } := by
  obtain ⟨s, -, ⟨events, rfl⟩, -⟩ := h
  rfl

theorem registry (h : p.Gathers group q) : q.registry = p.registry := by
  obtain ⟨s, rfl | hs, ⟨events, rfl⟩, -⟩ := h
  · rfl
  · exact ((ends_collectGarbage p fun _ _ => False).ok hs).registry

theorem regroup (h : p.Gathers group q) (rules : List Rule) :
    p.Gathers rules { q with execution := { q.execution with group := some rules } } := by
  obtain ⟨s, hs, h⟩ := h
  refine ⟨s, hs, ?_⟩
  obtain ⟨⟨events, rfl⟩, hfindings⟩ := h
  exact ⟨⟨events, rfl⟩, hfindings⟩

/-- Garbage is swept at most once while a group is open. -/
theorem exists_sweepIfLarge (h : p.Gathers group q) :
    ∃ r, sweepIfLarge q = .ok () r ∧ p.Gathers group r := by
  have hends : Ends sweepIfLarge q (fun _ r => p.Gathers group r) fun _ _ => False := by
    refine ends_bind.2 (ends_get.2 ?_)
    split
    · obtain ⟨s, hs, h⟩ := h
      have hexecution := (sideways_execution { p.execution with group := some group }).collectGarbage s
      obtain ⟨t, ht, hst⟩ : ∃ t, collectGarbage s = .ok () t ∧
          (t = p ∨ collectGarbage p = .ok () t) := by
        rcases hs with rfl | hs
        · obtain ⟨t, ht, -⟩ := exists_collectGarbage s
          exact ⟨t, ht, .inr ht⟩
        · have hclean := ((ends_collectGarbage p fun _ _ => False).ok hs).clean
          exact ⟨s, collectGarbage_of_clean hclean, .inr hs⟩
      rw [ht] at hexecution
      obtain ⟨r, hr, h⟩ := h.exists_ok oblivious_collectGarbage hexecution
      exact (ends_of_eq_ok hr).2 ⟨t, hst, h⟩
    · exact ends_pure.2 h
  obtain ⟨_, r, hr, h⟩ := hends.exists_ok
  exact ⟨r, hr, h⟩

theorem applyRules (h : p.Gathers group q) (rules : List Rule) (force : Bool)
    (E : Fault → Planner → Prop) :
    Ends (applyRules fuel rules force) q (fun _ r => p.Gathers (mergeRules group rules) r) E := by
  have hregroup := h.regroup (mergeRules group rules)
  refine ends_bind.2 (ends_get.2 ?_)
  rw [h.execution] at hregroup ⊢
  exact ends_modify.2 hregroup

/-- The instruction adds its rules to the group. -/
theorem exists_executeInstruction (h : p.Gathers group q) (fuel : Nat)
    (hi : i.isCollected = true) :
    ∃ r, executeInstruction fuel i q = .ok () r ∧
      p.Gathers (mergeRules group (i.collected p.registry)) r := by
  have hends : Ends (executeInstruction fuel i) q
      (fun _ r => p.Gathers (mergeRules group (i.collected p.registry)) r) fun _ _ => False := by
    cases i with
    | rule rule =>
      rw [executeInstruction]
      exact h.applyRules _ _ _
    | described d =>
      rw [executeInstruction]
      refine ends_bind.2 (ends_get.2 ?_)
      rw [h.registry, Instruction.collected]
      cases p.registry.find? d with
      | some rule => exact h.applyRules _ _ _
      | none =>
        obtain ⟨r, hr, haccord⟩ := exists_log_reading (m := .unknownDescription d) rfl q
        exact (ends_of_eq_ok hr).2 (h.accord haccord)
    | ruleClass belongs =>
      rw [executeInstruction]
      refine ends_bind.2 (ends_get.2 ?_)
      rw [h.registry]
      exact h.applyRules _ _ _
    | rules rs =>
      rw [executeInstruction]
      exact h.applyRules _ _ _
    | _ => cases hi
  obtain ⟨_, r, hr, h⟩ := hends.exists_ok
  exact ⟨r, hr, h⟩

/-- Instructions in a group add their rules to it one after the other. -/
theorem exists_executeAll (h : p.Gathers group q) (fuel : Nat)
    (his : ∀ i ∈ is, i.isCollected = true) (rest : List Instruction) :
    ∃ r, executeAll fuel (is ++ rest) q = executeAll fuel rest r ∧
      p.Gathers (mergeRules group (is.flatMap (Instruction.collected p.registry))) r := by
  induction is generalizing group q with
  | nil => exact ⟨q, rfl, h⟩
  | cons i is ih =>
    rw [List.forall_mem_cons] at his
    obtain ⟨q₁, h₁, haccord⟩ := exists_log_reading (m := .executing i.text) rfl q
    obtain ⟨q₂, h₂, hgathers⟩ := (h.accord haccord).exists_executeInstruction fuel his.1
    obtain ⟨q₃, h₃, hgathers⟩ := hgathers.exists_sweepIfLarge
    obtain ⟨r, hr, hgathers⟩ := ih hgathers his.2
    refine ⟨r, ?_, ?_⟩
    · rw [List.cons_append, executeAll, bind_of_eq_ok h₁, bind_of_eq_ok h₂, bind_of_eq_ok h₃, hr]
    · rwa [List.flatMap_cons, mergeRules_append]

end Gathers

/-! ## Firing what was collected -/

/-- A group starts out empty. -/
theorem exists_beginGroup (hgroup : p.execution.group = none) (fuel : Nat)
    (is : List Instruction) :
    ∃ q, executeAll fuel (.beginGroup :: is) p = executeAll fuel is q ∧ p.Gathers [] q := by
  obtain ⟨p₁, h₁, haccord⟩ := exists_log_reading (m := .executing Instruction.beginGroup.text) rfl p
  have hbegin : Ends (executeInstruction fuel .beginGroup) p₁ (fun _ q => p.Gathers [] q)
      fun _ _ => False := by
    rw [executeInstruction]
    obtain ⟨⟨events, rfl⟩, hfindings⟩ := haccord
    refine (ends_requireNoGroup (p := { p with events }) hgroup _).bind ?_
    rintro _ _ rfl
    exact ends_modify.2 ⟨p, .inl rfl, ⟨events, rfl⟩, hfindings⟩
  obtain ⟨_, p₂, h₂, hgathers⟩ := hbegin.exists_ok
  obtain ⟨q, h₃, hgathers⟩ := hgathers.exists_sweepIfLarge
  refine ⟨q, ?_, hgathers⟩
  rw [executeAll, bind_of_eq_ok h₁, bind_of_eq_ok h₂, bind_of_eq_ok h₃]

theorem executeInstruction_endGroup (h : q.execution.group = some rules) :
    executeInstruction fuel .endGroup q =
      applyRules fuel rules true { q with execution := { q.execution with group := none } } := by
  have hget : ∀ k : Planner → Planning Unit, (get >>= k) q = k q q := fun _ => rfl
  rw [executeInstruction, hget]
  simp only [h]
  rfl

/-- The end of a group fires its rules, from the state in which the group was opened, or from that which
was swept then. -/
theorem exists_endGroup (h : p.Gathers rules q) (hgroup : p.execution.group = none) (fuel : Nat)
    (rest : List Instruction) :
    ∃ r s, (r = p ∨ collectGarbage p = .ok () r) ∧ r.InAccord s ∧
      executeAll fuel (.endGroup :: rest) q = (do
        discard (fireRules fuel rules true)
        sweepIfLarge
        executeAll fuel rest) s := by
  obtain ⟨q₁, h₁, haccord⟩ := exists_log_reading (m := .executing Instruction.endGroup.text) rfl q
  have h := h.accord haccord
  have hexecution := h.execution
  obtain ⟨r, hr, h⟩ := h
  have hsame : r.execution = p.execution := by
    rcases hr with rfl | hr
    · rfl
    · exact ((ends_collectGarbage p fun _ _ => False).ok hr).execution
  -- the group is closed, and everything else is as it was when it was opened
  have hopened : { q₁.execution with group := none } = r.execution := by
    rw [hexecution, hsame, ← hgroup]
  have hclosed : InAccord { r with execution := { q₁.execution with group := none } }
      { q₁ with execution := { q₁.execution with group := none } } := h.executed _
  have heq : { r with execution := { q₁.execution with group := none } } = r :=
    congrArg (fun e => { r with execution := e }) hopened
  rw [heq] at hclosed
  refine ⟨r, _, hr, hclosed, ?_⟩
  rw [executeAll, bind_of_eq_ok h₁]
  refine bind_congr_outcome ?_
  rw [executeInstruction_endGroup (congrArg Execution.group hexecution)]
  exact applyRules_eq_fireRules rfl

theorem executeAll_rules (hgroup : p.execution.group = none) (fuel : Nat) (rules : List Rule)
    (rest : List Instruction) :
    ∃ s, p.InAccord s ∧ executeAll fuel (.rules rules :: rest) p = (do
      discard (fireRules fuel rules true)
      sweepIfLarge
      executeAll fuel rest) s := by
  obtain ⟨s, hs, haccord⟩ := exists_log_reading (m := .executing (Instruction.rules rules).text) rfl p
  refine ⟨s, haccord, ?_⟩
  rw [executeAll, bind_of_eq_ok hs]
  refine bind_congr_outcome ?_
  rw [executeInstruction]
  obtain ⟨⟨events, rfl⟩, -⟩ := haccord
  exact applyRules_eq_fireRules hgroup

/-- The first pass over a planner, and over what is left of it once its garbage was looked for. -/
theorem exists_first_pass (hp : p.graph.Consistent p.settings.digestMode)
    (hroot : ∃ root, p.graph.root = some root) :
    ∃ pending t, ∀ r, r = p ∨ collectGarbage p = .ok () r →
      scheduleFromRoot r = .ok pending t := by
  obtain ⟨root, hroot⟩ := hroot
  obtain ⟨pending, t, hschedule, hswept, hscheduled⟩ := exists_scheduleFromRoot hp hroot
  refine ⟨pending, t, ?_⟩
  rintro r (rfl | hr)
  · exact hschedule
  · obtain ⟨_, -, -, hcollect, -⟩ := scheduleFromRoot_eq_ok.1 hschedule
    obtain rfl : r = t := by
      rw [hr] at hcollect
      cases hcollect
      rfl
    have hlive := (hswept.root hp).trans hroot
    exact scheduleFromRoot_eq_ok.2 ⟨root, hlive, (hswept.consistent hp).root root hlive,
      collectGarbage_of_clean hswept.clean, hscheduled⟩

theorem fireRules_of_scheduled {pending : List VertexId} {t s : Planner}
    (h : scheduleFromRoot r = .ok pending t) (hs : r.InAccord s) (fuel : Nat) (rules : List Rule)
    (force : Bool) :
    ∃ t', t.InAccord t' ∧
      fireRules fuel rules force s = traverse rules force fuel pending true 0 t' := by
  obtain ⟨s₁, h₁, haccord⟩ := exists_log_reading (m := .applying (rules.map Rule.description)) rfl s
  obtain ⟨t', ht', haccord⟩ := (hs.trans haccord).exists_ok oblivious_scheduleFromRoot h
  refine ⟨t', haccord, ?_⟩
  rw [fireRules, bind_of_eq_ok h₁, bind_of_eq_ok ht']

/-- What is done once the first pass of a rule instruction is scheduled, and by the instructions after
it. -/
def proceed (fuel : Nat) (rules : List Rule) (pending : List VertexId) (rest : List Instruction) :
    Planning Unit := do
  discard (traverse rules true fuel pending true 0)
  sweepIfLarge
  executeAll fuel rest

theorem oblivious_proceed (fuel : Nat) (rules : List Rule) (pending : List VertexId)
    (rest : List Instruction) : Oblivious (proceed fuel rules pending rest) := fun earlier =>
  (oblivious_traverse _ _ _ _ _ _ earlier).discard.bind fun _ =>
    (oblivious_sweepIfLarge earlier).bind fun _ => oblivious_executeAll _ _ earlier

/-- In a group and in one instruction the rules start with the same pass, in states that differ alone in
what was reported of reading instructions. -/
theorem exists_proceed (hp : p.graph.Consistent p.settings.digestMode)
    (hroot : ∃ root, p.graph.root = some root) (hgroup : p.execution.group = none)
    (his : ∀ i ∈ is, i.isCollected = true) (rest : List Instruction) (fuel : Nat)
    (hrules : rules = mergeRules [] (is.flatMap (Instruction.collected p.registry))) :
    ∃ pending s s', s.InAccord s' ∧
      executeAll fuel (.rules rules :: rest) p = proceed fuel rules pending rest s ∧
      executeAll fuel (.beginGroup :: is ++ .endGroup :: rest) p =
        proceed fuel rules pending rest s' := by
  obtain ⟨q₁, h₁, hgathers⟩ := exists_beginGroup hgroup fuel (is ++ .endGroup :: rest)
  obtain ⟨q₂, h₂, hgathers⟩ := hgathers.exists_executeAll fuel his (.endGroup :: rest)
  rw [← hrules] at hgathers
  obtain ⟨r, q₃, hr, haccord, h₃⟩ := exists_endGroup hgathers hgroup fuel rest
  obtain ⟨p₁, haccord', h₄⟩ := executeAll_rules hgroup fuel rules rest
  obtain ⟨pending, t, hpass⟩ := exists_first_pass hp hroot
  obtain ⟨s, hs, hfire⟩ := fireRules_of_scheduled (hpass p (.inl rfl)) haccord' fuel rules true
  obtain ⟨s', hs', hfire'⟩ := fireRules_of_scheduled (hpass r hr) haccord fuel rules true
  refine ⟨pending, s, s', hs.symm.trans hs', ?_, ?_⟩
  · exact h₄.trans (bind_congr_outcome (bind_congr_outcome hfire))
  · exact (h₁.trans (h₂.trans h₃)).trans (bind_congr_outcome (bind_congr_outcome hfire'))

/-- A group of rule instructions does what one instruction does that holds their rules in order, of rules
with the same description the first. Both ways the first pass visits the same vertices in states that
differ alone in what was reported of reading instructions, and what is done from there on is the same
operation. So the same rules fire on the same expressions, and both end alike: with the same result or
fault and, but for these reports, in the same state. Whatever follows the group goes on alike. -/
theorem executeAll_group (hp : p.graph.Consistent p.settings.digestMode)
    (hroot : ∃ root, p.graph.root = some root) (hgroup : p.execution.group = none)
    (his : ∀ i ∈ is, i.isCollected = true) (rest : List Instruction) (fuel : Nat) :
    let rules := (is.flatMap (Instruction.collected p.registry)).eraseDupsBy
      fun r r' => decide (r'.description = r.description)
    let grouped := executeAll fuel (.beginGroup :: is ++ .endGroup :: rest) p
    let together := executeAll fuel (.rules rules :: rest) p
    (∃ pending s s', s.InAccord s' ∧ together = proceed fuel rules pending rest s ∧
      grouped = proceed fuel rules pending rest s') ∧
    result grouped = result together ∧ (left together).InAccord (left grouped) := by
  intro rules grouped together
  have hproceed := exists_proceed hp hroot hgroup his rest fuel (mergeRules_nil _).symm
  refine ⟨hproceed, ?_⟩
  obtain ⟨pending, s, s', haccord, htogether, hgrouped⟩ := hproceed
  have hconcur := haccord.concur (oblivious_proceed fuel rules pending rest)
  have hresult := hconcur.result_eq
  have hleft := hconcur.left
  rw [← htogether, ← hgrouped] at hresult hleft
  exact ⟨hresult, hleft⟩

/-- Limits on a limit, to be visited from below and with no more than two firings. -/
def cappedLimits : Planner := { loadedLimits with execution := ⟨.bottomUp, some 2, none⟩ }

/-- A description that nobody has registered, a rule, and a collection that holds the rule again. -/
theorem executeAll_group_cappedLimits :
    let grouped := executeAll 9 [.beginGroup, .described "Unknown", .rule Rule.removeLimit,
      .rules [Rule.removeLimit, Rule.removeTrivialFilter], .endGroup] cappedLimits
    let together := executeAll 9 [.rules [Rule.removeLimit, Rule.removeTrivialFilter]] cappedLimits
    result grouped = result together ∧ (left together).InAccord (left grouped) := by
  have hbuild : succeeded (build .default ⟨[]⟩ [] stackedLimits) = true := by decide +kernel
  have hloaded : Driven loadedLimits := .built (eq_ok_of_succeeded hbuild)
  have hcollected : ∀ i ∈ [Instruction.described "Unknown", .rule Rule.removeLimit,
      .rules [Rule.removeLimit, Rule.removeTrivialFilter]], i.isCollected = true := by
    simp [Instruction.isCollected]
  exact (executeAll_group (p := cappedLimits) hloaded.exact.consistent ⟨2, by decide +kernel⟩ rfl
    hcollected [] 9).2

end Planner

end QueryPlanner
