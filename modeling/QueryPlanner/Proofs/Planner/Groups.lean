import QueryPlanner.Proofs.Planner.Exactness
import QueryPlanner.Proofs.Planner.Orderliness

/-!
# Groups and execution states

When a program is built its groups are read with one bit, whether one is open. The planner, which
collects rules while a group is open, never comes to another verdict than this reading: it finds no
fault with a program that was built. Subprograms run in an execution state of their own, and however
a program ends, the state is what it was before.
-/

namespace QueryPlanner

open Planning

namespace Program

/-- Programs that were built of instructions, and so were their subprograms. -/
inductive Built : Program → Prop
  | build {is : List Instruction} {program : Program} (h : Program.build is = .ok program)
      (hsubprograms : ∀ js, .subprogram js ∈ is → Built ⟨js⟩) : Built program

theorem build_eq_ok {is : List Instruction} {program : Program} :
    Program.build is = .ok program ↔ defect? false is = none ∧ program = ⟨is⟩ := by
  unfold Program.build
  cases defect? false is <;> simp [eq_comm]

end Program

theorem Instruction.mem_rulesOf {i : Instruction} {is : List Instruction} {r : Rule} (hi : i ∈ is)
    (hr : r ∈ i.ownRules) : r ∈ Instruction.rulesOf is := by
  induction is with
  | nil => cases hi
  | cons j is ih =>
    rw [Instruction.rulesOf]
    rcases List.mem_cons.1 hi with rfl | hi
    · exact List.mem_append_left _ hr
    · exact List.mem_append_right _ (ih hi)

/-- The condition of a companion is always met. -/
theorem Rule.decides_companion {r companion : Rule} (h : r.companion = .ok companion) :
    companion.Decides := by
  unfold Rule.companion at h
  split at h <;> cases h
  exact fun _ => trivial

namespace Planner

variable {p q : Planner} {i : Instruction} {is : List Instruction}

theorem closed_decides {rules : List Rule} (h : ∀ r ∈ rules, r.Decides) :
    Closed Rule.Decides rules :=
  fun r hr => ⟨h r hr, fun _ => Rule.decides_companion⟩

/-- The conditions of all rules come to decisions, and the reading of the instructions finds nothing
misplaced if it starts with an open group where the planner has one. -/
structure Fits (is : List Instruction) (p : Planner) : Prop where
  allows : p.Allows Rule.Decides
  defect : Program.defect? p.execution.group.isSome is = none

namespace Fits

theorem congr (h : p.Fits is) (hregistry : q.registry = p.registry)
    (hexecution : q.execution = p.execution) : q.Fits is :=
  ⟨h.allows.congr hregistry hexecution, hexecution ▸ h.defect⟩

/-- An instruction that is read alike within groups and outside. -/
theorem tail (h : p.Fits (i :: is))
    (hi : ∀ b, Program.defect? b (i :: is) = Program.defect? b is) : p.Fits is :=
  ⟨h.allows, hi _ ▸ h.defect⟩

/-- An instruction that is misplaced within a group. -/
theorem group_eq_none (h : p.Fits (i :: is)) (hi : Program.defect? true (i :: is) ≠ none) :
    p.execution.group = none := by
  cases hgroup : p.execution.group with
  | none => rfl
  | some rules => exact absurd (by simpa [hgroup] using h.defect) hi

/-- When all instructions were read no group is open. -/
theorem group_nil (h : p.Fits []) : p.execution.group = none := by
  cases hgroup : p.execution.group with
  | none => rfl
  | some rules => simpa [hgroup, Program.defect?] using h.defect

end Fits


theorem ends_applyRules_fits {rules : List Rule} (hrules : ∀ r ∈ rules, r.Decides) (hp : p.Fits is)
    (fuel : Nat) (force : Bool) :
    Ends (applyRules fuel rules force) p (fun _ q => q.Fits is)
      fun f _ => f.blamesProgram = false := by
  refine ends_bind.2 (ends_get.2 ?_)
  simp only
  split
  · next group hgroup =>
    refine ends_modify.2 ⟨⟨hp.allows.registered, hp.allows.companions, ?_⟩, ?_⟩
    · intro merged hmerged r hr
      cases hmerged
      exact (Law.mem_mergeRules rules hr).elim (hp.allows.group group hgroup r) (hrules r)
    · simpa [hgroup] using hp.defect
  · refine ((orderly_fireRules hrules fuel force p).bind ?_)
    exact fun _ q h => ends_pure.2 (hp.congr h.1 h.2)

theorem ends_requireNoGroup (hgroup : p.execution.group = none) (E : Fault → Planner → Prop) :
    Ends (requireNoGroup i) p (fun _ q => q = p) E := by
  refine ends_bind.2 (ends_get.2 ?_)
  rw [hgroup]
  exact ends_pure.2 rfl

/-! ## Execution states of their own -/

/-- However the operation ends, the execution state is what it was. -/
def Restores {α : Type} (x : Planning α) : Prop :=
  ∀ p, Ends x p (fun _ q => q.execution = p.execution) fun _ q => q.execution = p.execution

theorem Restores.execution_left {α : Type} {x : Planning α} (h : Restores x) (p : Planner) :
    (left (x p)).execution = p.execution := by
  have hp := h p
  unfold Ends at hp
  split at hp <;> next hx => rwa [hx]

theorem Restores.bind {α β : Type} {x : Planning α} {f : α → Planning β} (hx : Restores x)
    (hf : ∀ a, Restores (f a)) : Restores (x >>= f) := by
  intro p
  refine ends_bind.2 ((hx p).mono (fun a q hq => ?_) fun _ _ h => h)
  exact (hf a q).mono (fun _ _ h => h.trans hq) fun _ _ h => h.trans hq

theorem restores_log (m : Message) : Restores (log m) := by
  intro p
  refine (ends_log m p _).mono ?_ fun _ _ h => h
  rintro _ q ⟨events, rfl⟩
  rfl

theorem restores_isolated (body : Planning Unit) : Restores (isolated body) := by
  intro p
  exact ends_isolated.2 ((ends_self body _).mono (fun _ _ _ => rfl) fun _ _ _ => rfl)

theorem restores_untilStable {body : Planning Unit} (hbody : Restores body) (n : Nat) :
    Restores (untilStable body n) := by
  intro p
  refine ends_untilStable (I := fun q => q.execution = p.execution) (fun _ h => h) (fun q hq => ?_)
    n p rfl
  refine (hbody q).mono (fun _ r hr => ?_) fun _ _ hr => hr.trans hq
  exact ⟨fun _ => hr.trans hq, fun _ => hr.trans hq⟩

theorem restores_subprogram (fuel : Nat) (is : List Instruction) :
    Restores (executeInstruction fuel (.subprogram is)) := by
  rw [executeInstruction]
  exact (restores_log _).bind fun _ =>
    (restores_untilStable (restores_isolated _) fuel).bind fun _ => restores_log _

/-- What runs in an execution state of its own starts without a group. -/
theorem ends_isolated_allows {body : Planning Unit}
    (hbody : ∀ p, p.Allows Rule.Decides → p.execution.group = none →
      Ends body p (fun _ q => q.Allows Rule.Decides) fun f _ => f.blamesProgram = false)
    (hp : p.Allows Rule.Decides) :
    Ends (isolated body) p (fun _ q => q.Allows Rule.Decides)
      fun f _ => f.blamesProgram = false := by
  refine ends_isolated.2 ((hbody { p with execution := .fresh }
    ⟨hp.registered, hp.companions, fun _ hgroup => by cases hgroup⟩ rfl).mono ?_ fun _ _ h => h)
  exact fun _ q h => ⟨h.registered, h.companions, hp.group⟩

theorem ends_untilStable_allows {body : Planning Unit}
    (hbody : ∀ p, p.Allows Rule.Decides →
      Ends body p (fun _ q => q.Allows Rule.Decides) fun f _ => f.blamesProgram = false)
    (n : Nat) : ∀ p, p.Allows Rule.Decides →
      Ends (untilStable body n) p (fun _ q => q.Allows Rule.Decides)
        fun f _ => f.blamesProgram = false := by
  exact ends_untilStable (fun _ _ => rfl) (fun p hp => (hbody p hp).mono
    (fun _ _ hq => ⟨fun _ => hq, fun _ => hq⟩) fun _ _ h => h) n

/-! ## Execution -/

/-- What the reading says of an instruction is what the planner finds when it gets there, if this is
so for a subprogram. -/
theorem ends_executeInstruction_fits (fuel : Nat) (hrules : ∀ r ∈ i.ownRules, r.Decides)
    (hsubprogram : ∀ js, i = .subprogram js → ∀ p, p.Allows Rule.Decides →
      p.execution.group = none → Ends (executeAll fuel js) p (fun _ q => q.Allows Rule.Decides)
        fun f _ => f.blamesProgram = false)
    (hp : p.Fits (i :: is)) :
    Ends (executeInstruction fuel i) p (fun _ q => q.Fits is)
      fun f _ => f.blamesProgram = false := by
  cases i with
  | rule r =>
    rw [executeInstruction]
    exact ends_applyRules_fits (by simpa [Instruction.ownRules] using hrules)
      (hp.tail fun b => by cases b <;> rfl) fuel true
  | described d =>
    have hp' := hp.tail fun b => by cases b <;> rfl
    rw [executeInstruction]
    refine ends_bind.2 (ends_get.2 ?_)
    split
    · next r hr =>
      refine ends_applyRules_fits (fun r' hr' => ?_) hp' fuel true
      rw [List.mem_singleton.1 hr']
      exact hp.allows.registered r (Registry.mem_rules_of_find? hr)
    · exact (orderly_log _ p).mono (fun _ _ h => hp'.congr h.1 h.2) fun _ _ h => h
  | ruleClass belongs =>
    rw [executeInstruction]
    refine ends_bind.2 (ends_get.2 ?_)
    exact ends_applyRules_fits
      (fun r hr => hp.allows.registered r (List.mem_of_mem_filter hr))
      (hp.tail fun b => by cases b <;> rfl) fuel true
  | rules rs =>
    rw [executeInstruction]
    exact ends_applyRules_fits (by simpa [Instruction.ownRules] using hrules)
      (hp.tail fun b => by cases b <;> rfl) fuel true
  | converters guaranteed =>
    have hgroup := hp.group_eq_none (by simp [Program.defect?])
    rw [executeInstruction]
    refine (ends_requireNoGroup hgroup _).bind ?_
    rintro _ q rfl
    refine ends_bind.2 (ends_get.2 ?_)
    exact ends_applyRules_fits (Law.allowed_converterRules hp.allows guaranteed)
      ⟨hp.allows, by simpa [hgroup, Program.defect?] using hp.defect⟩ fuel guaranteed
  | commonSubexpressions =>
    have hgroup := hp.group_eq_none (by simp [Program.defect?])
    rw [executeInstruction]
    refine (ends_requireNoGroup hgroup _).bind ?_
    rintro _ q rfl
    refine ends_bind.2 (ends_get.2 ?_)
    exact ends_applyRules_fits (fun r hr => hp.allows.registered r (List.mem_of_mem_filter hr))
      ⟨hp.allows, by simpa [hgroup, Program.defect?] using hp.defect⟩ fuel true
  | order o =>
    have hp' := hp.tail fun b => by cases b <;> rfl
    rw [executeInstruction]
    exact ends_modify.2 ⟨⟨hp.allows.registered, hp.allows.companions, hp.allows.group⟩, hp'.defect⟩
  | limit n =>
    have hp' := hp.tail fun b => by cases b <;> rfl
    rw [executeInstruction]
    exact ends_modify.2 ⟨⟨hp.allows.registered, hp.allows.companions, hp.allows.group⟩, hp'.defect⟩
  | subprogram js =>
    have hp' := hp.tail fun b => by cases b <;> rfl
    have hends : Ends (executeInstruction fuel (.subprogram js)) p
        (fun _ q => q.Allows Rule.Decides) fun f _ => f.blamesProgram = false := by
      rw [executeInstruction]
      refine (orderly_log _ p).bind fun _ q hq => ?_
      refine (ends_untilStable_allows (fun p hp => ends_isolated_allows (hsubprogram js rfl) hp)
        fuel q (hp.allows.congr hq.1 hq.2)).bind fun _ r hr => ?_
      exact (orderly_log _ r).mono (fun _ _ h => hr.congr h.1 h.2) fun _ _ h => h
    refine (hends.and (restores_subprogram fuel js p)).mono (fun _ q hq => ?_) fun _ _ h => h.1
    exact ⟨hq.1, hq.2 ▸ hp'.defect⟩
  | beginGroup =>
    have hgroup := hp.group_eq_none (by simp [Program.defect?])
    rw [executeInstruction]
    refine (ends_requireNoGroup hgroup _).bind ?_
    rintro _ q rfl
    refine ends_modify.2 ⟨⟨hp.allows.registered, hp.allows.companions, ?_⟩, ?_⟩
    · intro rules hrules
      cases hrules
      simp
    · simpa [hgroup, Program.defect?] using hp.defect
  | endGroup =>
    rw [executeInstruction]
    refine ends_bind.2 (ends_get.2 ?_)
    split
    · next hgroup => simpa [hgroup, Program.defect?] using hp.defect
    · next rules hgroup =>
      have hclosed : Fits is { p with execution := { p.execution with group := none } } := by
        refine ⟨⟨hp.allows.registered, hp.allows.companions, ?_⟩, ?_⟩
        · simp
        · simpa [hgroup, Program.defect?] using hp.defect
      refine ends_bind.2 (ends_modify.2 ?_)
      exact ends_applyRules_fits (hp.allows.group rules hgroup) hclosed fuel true

/-- The instructions of a program, or the rest of them. -/
theorem ends_executeAll_fits (fuel : Nat) (hrules : ∀ r ∈ Instruction.rulesOf is, r.Decides)
    (hsubprograms : ∀ js, .subprogram js ∈ is → ∀ p, p.Allows Rule.Decides →
      p.execution.group = none → Ends (executeAll fuel js) p (fun _ q => q.Allows Rule.Decides)
        fun f _ => f.blamesProgram = false) :
    ∀ p, p.Fits is → Ends (executeAll fuel is) p
      (fun _ q => q.Allows Rule.Decides ∧ q.execution.group = none)
        fun f _ => f.blamesProgram = false := by
  induction is with
  | nil =>
    intro p hp
    rw [executeAll]
    exact ends_pure.2 ⟨hp.allows, hp.group_nil⟩
  | cons i is ih =>
    intro p hp
    rw [executeAll]
    rw [Instruction.rulesOf] at hrules
    refine (orderly_log _ p).bind fun _ q hq => ?_
    have hi : Ends (executeInstruction fuel i) q (fun _ r => r.Fits is)
        fun f _ => f.blamesProgram = false :=
      ends_executeInstruction_fits fuel (fun r hr => hrules r (List.mem_append_left _ hr))
        (fun js hjs => hsubprograms js (hjs ▸ List.mem_cons_self)) (hp.congr hq.1 hq.2)
    refine hi.bind fun _ r hr => (orderly_sweepIfLarge r).bind fun _ t ht => ?_
    exact ih (fun r hr => hrules r (List.mem_append_right _ hr))
      (fun js hjs => hsubprograms js (List.mem_cons_of_mem i hjs)) t (hr.congr ht.1 ht.2)

/-- The instructions of a program that was built: by induction on how it was built. -/
theorem ends_executeAll_of_built {program : Program} (hprogram : program.Built) (fuel : Nat) :
    (∀ r ∈ program.rules, r.Decides) → ∀ p, p.Allows Rule.Decides → p.execution.group = none →
      Ends (executeAll fuel program.instructions) p (fun _ q => q.Allows Rule.Decides)
        fun f _ => f.blamesProgram = false := by
  induction hprogram with
  | @build is program h _ ih =>
    obtain ⟨hdefect, rfl⟩ := Program.build_eq_ok.1 h
    intro hrules p hp hgroup
    have hsubprograms : ∀ js, .subprogram js ∈ is → ∀ p, p.Allows Rule.Decides →
        p.execution.group = none → Ends (executeAll fuel js) p (fun _ q => q.Allows Rule.Decides)
          fun f _ => f.blamesProgram = false :=
      fun js hjs => ih js hjs fun r hr => hrules r (Instruction.mem_rulesOf hjs hr)
    have hfits : p.Fits is := ⟨hp, by simpa [hgroup] using hdefect⟩
    exact (ends_executeAll_fits fuel hrules hsubprograms p hfits).mono (fun _ _ h => h.1)
      fun _ _ h => h

/-- No program that was built fails as an invalid one, whatever rules there are, if their conditions
come to decisions. However a program or a subprogram ends, the match order, the match limit and the
open group are those before it. -/
theorem execute_of_built {program : Program} (hprogram : program.Built)
    (hrules : ∀ r ∈ program.rules, r.Decides) (hp : p.Allows Rule.Decides) (fuel : Nat) :
    (∀ defect q, execute fuel program p ≠ .error (.invalidProgram defect) q) ∧
      (left (execute fuel program p)).execution = p.execution ∧
      ∀ is q, (left (executeInstruction fuel (.subprogram is) q)).execution = q.execution := by
  refine ⟨fun defect q h => ?_, (restores_isolated _).execution_left p,
    fun is q => (restores_subprogram fuel is).execution_left q⟩
  have hends := ends_isolated_allows (ends_executeAll_of_built hprogram fuel hrules) hp
  cases hends.error h

/-- A group within a subprogram within a group. -/
def nestedGroups : Program :=
  ⟨[.beginGroup, .rule Rule.removeLimit, .subprogram [.limit 1, .beginGroup, .endGroup], .endGroup]⟩

theorem built_nestedGroups : nestedGroups.Built := by
  refine .build (Program.build_eq_ok.2 ⟨rfl, rfl⟩) fun js hjs => ?_
  obtain rfl : js = [.limit 1, .beginGroup, .endGroup] := by simpa using hjs
  exact .build (Program.build_eq_ok.2 ⟨rfl, rfl⟩) (by simp)

theorem execute_nestedGroups :
    (∀ defect q, execute 9 nestedGroups loadedLimits ≠ .error (.invalidProgram defect) q) ∧
      (left (execute 9 nestedGroups loadedLimits)).execution = loadedLimits.execution ∧
      ∀ is q, (left (executeInstruction 9 (.subprogram is) q)).execution = q.execution := by
  have hremoveLimit : Rule.removeLimit.Decides := fun _ => trivial
  have hloaded : build .default ⟨[]⟩ [] stackedLimits = .ok () loadedLimits :=
    eq_ok_of_succeeded (by decide +kernel)
  have hnone : ∀ r ∈ ([] : List Rule) ++ Program.rules ⟨[]⟩, r.Decides := by
    simp [Program.rules, Instruction.rulesOf]
  have hallows : loadedLimits.Allows Rule.Decides :=
    ((ends_load stackedLimits (closed_decides hnone) (ready_initial _ _ _)).ok hloaded).1
  refine execute_of_built built_nestedGroups ?_ hallows 9
  simpa [nestedGroups, Program.rules, Instruction.rulesOf, Instruction.ownRules] using hremoveLimit

end Planner

end QueryPlanner
