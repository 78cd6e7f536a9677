import QueryPlanner.Proofs.Planner.Progress

/-!
# Programs whose rules make progress

Programs of rules that make progress end, whatever their instructions are: a subprogram is repeated
only after its measure has become smaller. A program that fires rules in one instruction and without
a limit leaves them idle at every vertex, and the final plan is that of the graph.
-/

namespace QueryPlanner

open QueryPlanner.Graph Planning

namespace Planning

variable {p : Planner} {Q : Unit → Planner → Prop} {E : Fault → Planner → Prop}

theorem Fueled.add {α : Type} {x : Nat → Planning α} {Q : α → Planner → Prop} (h : Fueled x p Q E)
    (k : Nat) : Fueled (fun n => x (n + k)) p Q E := by
  obtain ⟨N, r, hr, hends⟩ := h
  exact ⟨N, r, fun n hn => hr (n + k) (by omega), hends⟩

theorem fueled_isolated {body : Nat → Planning Unit}
    (h : Fueled body { p with execution := .fresh } (fun a q => Q a { q with execution := p.execution })
      fun f q => E f { q with execution := p.execution }) :
    Fueled (fun n => Planner.isolated (body n)) p Q E := by
  obtain ⟨N, r, hr, hends⟩ := h
  refine ⟨N, Planner.isolated (fun _ => r) p, fun n hn => ?_, ?_⟩
  · simp only [Planner.isolated, hr n hn]
  · exact (ends_isolated (p := p) (Q := Q)).2 hends

end Planning

open Planner

/-! ## Instructions and programs -/

namespace Instruction

mutual

/-- All rules that an instruction may fire, given what is registered, are of some kind. -/
def FiresOnly (A : Rule → Prop) (registry : Registry) : Instruction → Prop
  | rule r => A r
  | described d => ∀ r ∈ registry.find? d, A r
  | ruleClass belongs => ∀ r ∈ registry.ruleClass belongs, A r
  | rules rs => ∀ r ∈ rs, A r
  | converters guaranteed => ∀ r ∈ registry.converterRules guaranteed, A r
  | commonSubexpressions => ∀ r ∈ registry.ruleClass (Rule.isOfKind .commonSubexpression), A r
  | subprogram is => AllFireOnly A registry is
  | _ => True

def AllFireOnly (A : Rule → Prop) (registry : Registry) : List Instruction → Prop
  | [] => True
  | i :: is => i.FiresOnly A registry ∧ AllFireOnly A registry is

end

end Instruction

/-- If a group is open, all rules in it are of some kind. -/
def Planner.Collects (A : Rule → Prop) (p : Planner) : Prop :=
  ∀ rules ∈ p.execution.group, ∀ r ∈ rules, A r

namespace Progress

variable {A : Rule → Prop} {I : ℕ → Planner → Prop} {Idle : Rule → Planner → VertexId → Prop}
  {E : Fault → Prop} {w : ℕ} {p q r : Planner} {rules : List Rule}

/-- How a part of a program that was started in `p` ends. -/
def Arrives (A : Rule → Prop) (I : ℕ → Planner → Prop) (w : ℕ) (p q : Planner) : Prop :=
  ∃ w', Advance I w w' p q ∧ q.Collects A

/-- Faults of rules, and those of a group out of place. -/
def FaultIn (E : Fault → Prop) (f : Fault) : Prop := E f ∨ ∃ defect, f = .invalidProgram defect

section Steps

variable {force : Bool} (P : Progress A force I Idle E)
include P

/-- From a state that differs in its execution state and in reports alone. -/
theorem arrives_of_alike (hp : I w p) (e : Execution)
    (he : ∀ rules ∈ e.group, ∀ r ∈ rules, A r) (h : Alike { p with execution := e } q) :
    Arrives A I w p q := by
  refine ⟨w, ⟨P.alike (P.executed e hp) h, le_rfl, fun _ => h.transformations, h.registry⟩, ?_⟩
  rw [Collects, h.execution]
  exact he

theorem arrives_self (hp : I w p) (hgroup : p.Collects A) : Arrives A I w p p :=
  P.arrives_of_alike hp p.execution hgroup (.refl p)

theorem arrives_swept (hp : I w p) (hgroup : p.Collects A) (h : p.Swept q) : Arrives A I w p q := by
  refine ⟨w, P.advance_swept hp h, ?_⟩
  rw [Collects, h.execution]
  exact hgroup

theorem ends_log_arrives (m : Message) (hp : I w p) (hgroup : p.Collects A) :
    Ends (log m) p (fun _ q => Arrives A I w p q) fun f _ => FaultIn E f :=
  (ends_log m p _).mono (fun _ _ h => P.arrives_of_alike hp p.execution hgroup h.undisturbed.toAlike)
    fun _ _ h => h

theorem ends_sweepIfLarge_arrives (hp : I w p) (hgroup : p.Collects A) :
    Ends sweepIfLarge p (fun _ q => Arrives A I w p q) fun f _ => FaultIn E f := by
  refine (ends_sweepIfLarge p _).mono ?_ fun _ _ h => h
  rintro _ q (h | rfl)
  · exact P.arrives_swept hp hgroup h
  · exact P.arrives_self hp hgroup

end Steps

theorem Arrives.bind {x : Nat → Planning Unit} {f : Nat → Unit → Planning Unit}
    (hx : Fueled x p (fun _ q => Arrives A I w p q) fun f _ => FaultIn E f)
    (hf : ∀ w' q, I w' q → q.Collects A → q.registry = p.registry →
      Fueled (fun n => f n ()) q (fun _ r => Arrives A I w' q r) fun f _ => FaultIn E f) :
    Fueled (fun n => x n >>= f n) p (fun _ r => Arrives A I w p r) fun f _ => FaultIn E f := by
  refine hx.bind fun _ q ⟨w', hq, hgroup⟩ => ?_
  refine (hf w' q hq.reached hgroup hq.registry).mono ?_ fun _ _ h => h
  rintro _ r ⟨w'', hr, hr'⟩
  exact ⟨w'', hq.trans hr, hr'⟩

/-- What is repeated until it transforms nothing ends: a repetition that transforms something makes the
measure smaller. -/
theorem fueled_untilStable {body : Nat → Planning Unit} {registry : Registry}
    (hbody : ∀ w p, I w p → p.Collects A → p.registry = registry →
      Fueled body p (fun _ q => Arrives A I w p q) fun f _ => FaultIn E f) (hp : I w p)
    (hgroup : p.Collects A) (hregistry : p.registry = registry) :
    Fueled (fun n => untilStable (body n) n) p (fun _ q => Arrives A I w p q)
      fun f _ => FaultIn E f := by
  suffices h : ∀ w p k, I w p → p.Collects A → p.registry = registry →
      Fueled (fun n => untilStable (body (n + k)) n) p (fun _ q => Arrives A I w p q)
        fun f _ => FaultIn E f from h w p 0 hp hgroup hregistry
  intro w
  induction w using Nat.strong_induction_on with
  | _ w ih =>
    intro p k hp hgroup hregistry
    refine Fueled.of_succ (fueled_get ?_)
    simp only [Nat.add_assoc]
    refine ((hbody w p hp hgroup hregistry).add (1 + k)).bind ?_
    rintro _ q ⟨w', hq, hgroup'⟩
    refine fueled_get ?_
    split_ifs with hchanged
    · have hlt : w' < w := lt_of_le_of_ne hq.le fun heq => hchanged (hq.unchanged heq)
      refine (ih w' hlt q (1 + k) hq.reached hgroup' (hq.registry.trans hregistry)).mono ?_
        fun _ _ h => h
      rintro _ r ⟨w'', hr, hr'⟩
      exact ⟨w'', hq.trans hr, hr'⟩
    · exact (ends_pure.2 ⟨w', hq, hgroup'⟩ : Ends _ _ _ _).fueled

section Programs

variable (P : ∀ force, Progress A force I Idle E)
include P

/-- Rules of the kind are fired, or collected while a group is open. -/
theorem fueled_applyRules_arrives (hrules : ∀ rule ∈ rules, A rule) (hp : I w p)
    (hgroup : p.Collects A) (force : Bool) :
    Fueled (fun n => applyRules n rules force) p (fun _ q => Arrives A I w p q)
      fun f _ => FaultIn E f := by
  cases hopen : p.execution.group with
  | none =>
    refine ((P force).fueled_applyRules hrules hp hopen).mono ?_ fun _ _ h => .inl h
    rintro _ q ⟨w', hq, hexecution, -⟩
    refine ⟨w', hq, ?_⟩
    rw [Collects, hexecution]
    exact hgroup
  | some group =>
    unfold applyRules
    refine fueled_get ?_
    simp only [hopen]
    refine (ends_modify.2 ((P force).arrives_of_alike hp _ ?_ (.refl _)) : Ends _ _ _ _).fueled
    rintro _ ⟨⟩ r hr
    rcases Law.mem_mergeRules rules hr with hr | hr
    · exact hgroup group hopen r hr
    · exact hrules r hr

theorem ends_requireNoGroup (i : Instruction) (hp : I w p) (hgroup : p.Collects A) :
    Ends (requireNoGroup i) p (fun _ q => Arrives A I w p q) fun f _ => FaultIn E f := by
  refine ends_bind.2 (ends_get.2 ?_)
  split_ifs
  · exact ends_throw.2 (.inr ⟨_, rfl⟩)
  · exact ends_pure.2 ((P true).arrives_self hp hgroup)

theorem ends_setExecution_arrives (hp : I w p) (e : Planner → Execution)
    (he : ∀ rules ∈ (e p).group, ∀ r ∈ rules, A r) :
    Ends (modify fun p => { p with execution := e p }) p (fun _ q => Arrives A I w p q)
      fun f _ => FaultIn E f :=
  ends_modify.2 ((P true).arrives_of_alike hp _ he (.refl _))

/-- A program of its own is run in a fresh execution state. -/
theorem fueled_isolated_arrives {body : Nat → Planning Unit} {registry : Registry}
    (hbody : ∀ w p, I w p → p.Collects A → p.registry = registry →
      Fueled body p (fun _ q => Arrives A I w p q) fun f _ => FaultIn E f) (hp : I w p)
    (hgroup : p.Collects A) (hregistry : p.registry = registry) :
    Fueled (fun n => isolated (body n)) p (fun _ q => Arrives A I w p q) fun f _ => FaultIn E f := by
  refine fueled_isolated ((hbody w { p with execution := .fresh } ((P true).executed _ hp)
    (by simp [Collects, Execution.fresh]) hregistry).mono ?_ fun _ _ h => h)
  rintro _ q ⟨w', hq, -⟩
  exact ⟨w', ⟨(P true).executed _ hq.reached, hq.le, hq.unchanged, hq.registry⟩, hgroup⟩

mutual

theorem fueled_executeInstruction : ∀ (i : Instruction) (w : ℕ) (p : Planner),
    i.FiresOnly A p.registry → I w p → p.Collects A →
      Fueled (fun n => executeInstruction n i) p (fun _ q => Arrives A I w p q)
        fun f _ => FaultIn E f
  | .rule r, w, p, h, hp, hgroup => by
    simp only [executeInstruction]
    exact fueled_applyRules_arrives P (by simpa [Instruction.FiresOnly] using h) hp hgroup true
  | .described d, w, p, h, hp, hgroup => by
    simp only [executeInstruction]
    refine fueled_get ?_
    rw [Instruction.FiresOnly] at h
    cases hfind : p.registry.find? d with
    | some r =>
      exact fueled_applyRules_arrives P (by simpa using h r hfind) hp hgroup true
    | none => exact ((P true).ends_log_arrives _ hp hgroup).fueled
  | .ruleClass belongs, w, p, h, hp, hgroup => by
    simp only [executeInstruction]
    rw [Instruction.FiresOnly] at h
    exact fueled_get (fueled_applyRules_arrives P h hp hgroup true)
  | .rules rs, w, p, h, hp, hgroup => by
    simp only [executeInstruction]
    rw [Instruction.FiresOnly] at h
    exact fueled_applyRules_arrives P h hp hgroup true
  | .converters guaranteed, w, p, h, hp, hgroup => by
    simp only [executeInstruction]
    rw [Instruction.FiresOnly] at h
    refine Arrives.bind (ends_requireNoGroup P _ hp hgroup).fueled fun w' q hq hgroup' hregistry => ?_
    rw [← hregistry] at h
    exact fueled_get (fueled_applyRules_arrives P h hq hgroup' guaranteed)
  | .commonSubexpressions, w, p, h, hp, hgroup => by
    simp only [executeInstruction]
    rw [Instruction.FiresOnly] at h
    refine Arrives.bind (ends_requireNoGroup P _ hp hgroup).fueled fun w' q hq hgroup' hregistry => ?_
    rw [← hregistry] at h
    exact fueled_get (fueled_applyRules_arrives P h hq hgroup' true)
  | .order o, w, p, h, hp, hgroup => by
    simp only [executeInstruction]
    exact (ends_setExecution_arrives P hp (fun p => { p.execution with order := o }) hgroup).fueled
  | .limit count, w, p, h, hp, hgroup => by
    simp only [executeInstruction]
    exact (ends_setExecution_arrives P hp (fun p => { p.execution with limit := some count })
      hgroup).fueled
  | .subprogram is, w, p, h, hp, hgroup => by
    simp only [executeInstruction]
    rw [Instruction.FiresOnly] at h
    refine Arrives.bind ((P true).ends_log_arrives _ hp hgroup).fueled
      fun w' q hq hgroup' hregistry => ?_
    have hbody : ∀ w₁ p₁, I w₁ p₁ → p₁.Collects A → p₁.registry = p.registry →
        Fueled (fun n => isolated (executeAll n is)) p₁ (fun _ q => Arrives A I w₁ p₁ q)
          fun f _ => FaultIn E f := fun w₁ p₁ hp₁ hgroup₁ hregistry₁ =>
      fueled_isolated_arrives P (fun w₂ p₂ hp₂ hgroup₂ hregistry₂ =>
        fueled_executeAll is w₂ p₂ (by rwa [hregistry₂]) hp₂ hgroup₂) hp₁ hgroup₁ hregistry₁
    exact Arrives.bind (fueled_untilStable hbody hq hgroup' hregistry)
      fun _ r hr hgroup'' _ => ((P true).ends_log_arrives _ hr hgroup'').fueled
  | .beginGroup, w, p, h, hp, hgroup => by
    simp only [executeInstruction]
    refine Arrives.bind (ends_requireNoGroup P _ hp hgroup).fueled fun w' q hq _ _ => ?_
    exact (ends_setExecution_arrives P hq (fun p => { p.execution with group := some [] })
      (by simp)).fueled
  | .endGroup, w, p, h, hp, hgroup => by
    simp only [executeInstruction]
    refine fueled_get ?_
    cases hopen : p.execution.group with
    | none => exact (ends_throw.2 (.inr ⟨_, rfl⟩) : Ends _ _ _ _).fueled
    | some rules =>
      refine Arrives.bind (ends_setExecution_arrives P hp
        (fun p => { p.execution with group := none }) (by simp)).fueled fun w' q hq hgroup' _ => ?_
      exact fueled_applyRules_arrives P (hgroup rules hopen) hq hgroup' true

theorem fueled_executeAll : ∀ (is : List Instruction) (w : ℕ) (p : Planner),
    Instruction.AllFireOnly A p.registry is → I w p → p.Collects A →
      Fueled (fun n => executeAll n is) p (fun _ q => Arrives A I w p q) fun f _ => FaultIn E f
  | [], w, p, _, hp, hgroup => by
    simp only [executeAll]
    refine Ends.fueled (ends_pure.2 ?_)
    exact (P true).arrives_self hp hgroup
  | i :: is, w, p, h, hp, hgroup => by
    simp only [executeAll]
    rw [Instruction.AllFireOnly] at h
    refine Arrives.bind ((P true).ends_log_arrives _ hp hgroup).fueled fun _ q hq hgroup hqp => ?_
    refine Arrives.bind (fueled_executeInstruction i _ q (by rw [hqp]; exact h.1) hq hgroup)
      fun _ r hr hgroup hrq => ?_
    refine Arrives.bind ((P true).ends_sweepIfLarge_arrives hr hgroup).fueled
      fun _ s hs hgroup hsr => ?_
    exact fueled_executeAll is _ s (by rw [hsr, hrq, hqp]; exact h.2) hs hgroup

end

/-- Programs whose rules make progress end. -/
theorem fueled_execute {program : Program}
    (h : Instruction.AllFireOnly A p.registry program.instructions) (hp : I w p)
    (hgroup : p.Collects A) :
    Fueled (fun n => execute n program) p (fun _ q => Arrives A I w p q) fun f _ => FaultIn E f :=
  fueled_isolated_arrives P (fun w' q hq hgroup' hregistry =>
    fueled_executeAll P program.instructions w' q (by rwa [hregistry]) hq hgroup') hp hgroup rfl

end Programs

/-! ## One instruction -/

section Once

variable {force : Bool} {i : Instruction} (P : Progress A force I Idle E)
include P

theorem atRest_congr (h : p.AtRest Idle rules) (hpq : p.Agrees q) : q.AtRest Idle rules where
  spanned := h.spanned.congr hpq.graph
  idle rule hrule id hid := P.idle (h.idle rule hrule id (by rwa [← hpq.graph.contains])) hpq

theorem atRest_swept (h : p.AtRest Idle rules) (hpq : p.Swept q) : q.AtRest Idle rules := by
  refine P.atRest_congr h ⟨hpq.settings, hpq.registry, ?_⟩
  rw [hpq.graph_eq h.spanned]
  exact .refl _

/-- Rules fired in one instruction, without a limit, are idle at every vertex when it has ended. -/
theorem fueled_execute_once (order : MatchOrder) (hrules : ∀ rule ∈ rules, A rule)
    (hi : ∀ n q, q.registry = p.registry → q.execution.group = none →
      executeInstruction n i q = applyRules n rules force q) (hp : I w p) :
    Fueled (fun n => execute n ⟨[.order order, i]⟩) p
      (fun _ q => ∃ w', I w' q ∧ q.AtRest Idle rules) fun f _ => E f := by
  refine fueled_isolated ?_
  simp only [executeAll, executeInstruction]
  refine (ends_log _ _ _).bind_fueled fun _ q₁ hq₁ => ?_
  have hq₁ := hq₁.undisturbed.toAlike
  have hset : Ends (modify fun q : Planner => { q with execution := { q.execution with order } }) q₁
      (fun _ q => q = { q₁ with execution := { q₁.execution with order } }) fun f _ => E f :=
    ends_modify.2 rfl
  refine hset.bind_fueled ?_
  rintro _ _ rfl
  have hp₂ := P.executed { q₁.execution with order } (P.alike (P.executed .fresh hp) hq₁)
  refine (ends_sweepIfLarge _ _).bind_fueled fun _ q₃ hq₃ => ?_
  obtain ⟨hp₃, hregistry, hexecution⟩ : I w q₃ ∧ q₃.registry = p.registry ∧
      q₃.execution = { q₁.execution with order } := by
    rcases hq₃ with hq₃ | rfl
    · exact ⟨P.sweep hp₂ hq₃, hq₃.registry.trans hq₁.registry, hq₃.execution⟩
    · exact ⟨hp₂, hq₁.registry, rfl⟩
  refine (ends_log _ _ _).bind_fueled fun _ q₄ hq₄ => ?_
  have hq₄ := hq₄.undisturbed.toAlike
  rw [hq₁.execution] at hexecution
  have hgroup : q₄.execution.group = none := by
    rw [hq₄.execution, hexecution]
    rfl
  have happly : Fueled (fun n => executeInstruction n i) q₄
      (fun _ q => ∃ w', I w' q ∧ q.AtRest Idle rules) fun f _ => E f := by
    obtain ⟨N, r, hr, hends⟩ := P.fueled_applyRules hrules (P.alike hp₃ hq₄) hgroup
    refine ⟨N, r, fun n hn => ?_, hends.mono ?_ fun _ _ h => h⟩
    · exact (hi n q₄ (hq₄.registry.trans hregistry) hgroup).trans (hr n hn)
    · rintro _ q ⟨w', hadvance, -, hsettled⟩
      refine ⟨w', hadvance.reached, hsettled ?_⟩
      rw [hq₄.execution, hexecution]
      rfl
  refine happly.bind ?_
  rintro _ q₅ ⟨w', hq₅, hsettled⟩
  have hrestored : ∀ r, I w' r → r.AtRest Idle rules → ∃ w',
      I w' { r with execution := p.execution } ∧
        AtRest Idle rules { r with execution := p.execution } := fun r hr hsettled =>
    ⟨w', P.executed _ hr, P.atRest_congr hsettled ⟨rfl, rfl, .refl _⟩⟩
  refine (ends_sweepIfLarge _ _).bind_fueled fun _ q₆ hq₆ => ?_
  refine Ends.fueled (ends_pure.2 ?_)
  rcases hq₆ with hq₆ | rfl
  · exact hrestored q₆ (P.sweep hq₅ hq₆) (P.atRest_swept hsettled hq₆)
  · exact hrestored q₆ hq₅ hsettled

/-- The final plan is the tree of the root when the rules are idle. If it is not met there is none. -/
theorem fueled_findBestPlan {order : MatchOrder} (hrules : ∀ rule ∈ rules, A rule)
    (hprogram : p.program = ⟨[.order order, i]⟩)
    (hi : ∀ n q, q.registry = p.registry → q.execution.group = none →
      executeInstruction n i q = applyRules n rules force q) (hp : I w p) :
    Fueled findBestPlan p
      (fun best _ => best.tree.Met ∧ ∃ w' q root, I w' q ∧ q.AtRest Idle rules ∧
        q.graph.root = some root ∧ q.graph.UnfoldsTo root best.tree)
      fun f _ => E f ∨ (∃ request, f = .unimplemented request) ∧ ∃ w' q root t, I w' q ∧
        q.AtRest Idle rules ∧ q.graph.root = some root ∧ q.graph.UnfoldsTo root t ∧ ¬ t.Met := by
  unfold findBestPlan
  refine fueled_get ?_
  simp only [hprogram]
  refine (ends_log _ _ _).bind_fueled fun _ q₁ hq₁ => ?_
  have hq₁ := hq₁.undisturbed.toAlike
  refine ((P.fueled_execute_once order hrules (fun n q hq => hi n q (hq.trans hq₁.registry))
    (P.alike hp hq₁)).mono (fun _ _ h => h) fun _ _ h => .inl h).bind ?_
  rintro _ q₂ ⟨w', hq₂, hsettled⟩
  refine (ends_collectGarbage _ _).bind_fueled fun _ q₃ hq₃ => ?_
  have hq₃' := P.sweep hq₂ hq₃
  have hsettled := P.atRest_swept hsettled hq₃
  have hconsistent := P.consistent hq₃'
  obtain ⟨root, hroot⟩ := (P.tidy hq₃').rooted
  have hlive := hconsistent.root root hroot
  obtain ⟨t, ht⟩ := hconsistent.exists_tree hlive
  have hrequire : Ends requireRoot q₃ (fun id q => id = root ∧ q = q₃) fun _ _ => False := by
    refine ends_bind.2 (ends_get.2 ?_)
    simp only [hroot, hlive, if_true]
    exact ends_pure.2 ⟨rfl, rfl⟩
  refine (hrequire.mono (fun _ _ h => h) fun _ _ h => h.elim).bind_fueled ?_
  rintro _ _ ⟨rfl, rfl⟩
  refine ((ends_finalPlan hconsistent ht).mono (fun _ _ h => h) fun f _ h =>
    .inr ⟨h.2.exists_request, w', _, _, t, hq₃', hsettled, hroot, ht, h.1⟩).bind_fueled ?_
  rintro best q ⟨rfl, hmet⟩
  refine fueled_get ((ends_log _ _ _).bind_fueled fun _ _ _ => Ends.fueled (ends_pure.2 ?_))
  exact ⟨hmet, w', _, _, hq₃', hsettled, hroot, ht⟩

end Once

end Progress

end QueryPlanner
