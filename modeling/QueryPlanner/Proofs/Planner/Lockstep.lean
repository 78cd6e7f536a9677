import QueryPlanner.Proofs.Planner.Execution
import QueryPlanner.Proofs.Planner.Pairing

/-!
# Programs executed side by side

A program does nothing to two planners but fire the same rules in both, sweep both, and change how rules
are fired. So a relation between planners that is kept by each of these is kept by whole executions,
whatever the program, if the rules and the match orders that the relation needs are those that the
program sets.
-/

namespace QueryPlanner

open Planning

/-! ## Orders of a program -/

mutual

/-- The match orders that the instruction sets, subprograms included. -/
def Instruction.orders : Instruction → List MatchOrder
  | order o => [o]
  | subprogram is => ordersOf is
  | _ => []

def Instruction.ordersOf : List Instruction → List MatchOrder
  | [] => []
  | i :: is => i.orders ++ ordersOf is

end

/-- The match orders that the program sets. -/
def Program.orders (p : Program) : List MatchOrder := Instruction.ordersOf p.instructions

/-- A relation between planners that is kept while allowed rules are fired in both, in allowed match
orders, and of the faults that both may meet. -/
structure Lockstep (A : Rule → Prop) (O : MatchOrder → Prop) (R : Planner → Planner → Prop)
    (F : Fault → Fault → Planner → Planner → Prop) : Prop where
  fresh : O .arbitrary
  allows : ∀ {p q}, R p q → p.Allows A
  order : ∀ {p q}, R p q → O p.execution.order
  registry : ∀ {p q}, R p q → q.registry = p.registry
  execution : ∀ {p q}, R p q → q.execution = p.execution
  transformations : ∀ {p q}, R p q → q.transformations = p.transformations
  /-- Rule instructions may come to be executed in another way. -/
  executed : ∀ {p q} {e : Execution}, R p q → O e.order →
    (∀ rules, e.group = some rules → ∀ r ∈ rules, A r) →
      R { p with execution := e } { q with execution := e }
  log : ∀ {p q} m, R p q → Paired (Planner.log m) (Planner.log m) p q (fun _ _ => R) F
  fireRules : ∀ {p q rules} fuel force, (∀ r ∈ rules, A r) → R p q →
    Paired (Planner.fireRules fuel rules force) (Planner.fireRules fuel rules force) p q
      (fun _ _ => R) F
  sweepIfLarge : ∀ {p q}, R p q → Paired Planner.sweepIfLarge Planner.sweepIfLarge p q
    (fun _ _ => R) F
  fault : ∀ {p q} f, R p q → F f f p q
  fault_execution : ∀ {p q f g} (e : Execution), F f g p q →
    F f g { p with execution := e } { q with execution := e }

namespace Lockstep

variable {A : Rule → Prop} {O : MatchOrder → Prop} {R : Planner → Planner → Prop}
  {F : Fault → Fault → Planner → Planner → Prop} {p q : Planner} {rules : List Rule}
  (L : Lockstep A O R F)
include L

theorem applyRules (hrules : ∀ r ∈ rules, A r) (h : R p q) (fuel : Nat) (force : Bool) :
    Paired (Planner.applyRules fuel rules force) (Planner.applyRules fuel rules force) p q
      (fun _ _ => R) F := by
  refine paired_get ?_
  rw [L.execution h]
  simp only
  split
  · next group hgroup =>
    refine L.executed h (L.order h) fun merged hmerged r hr => ?_
    cases hmerged
    exact (Law.mem_mergeRules rules hr).elim ((L.allows h).group group hgroup r) (hrules r)
  · exact (L.fireRules fuel force hrules h).bind fun _ _ _ _ h => paired_pure h

theorem modify (h : R p q) (f : Execution → Execution) (horder : O (f p.execution).order)
    (hgroup : ∀ rules, (f p.execution).group = some rules → ∀ r ∈ rules, A r) :
    Paired (modify fun p : Planner => { p with execution := f p.execution })
      (modify fun p : Planner => { p with execution := f p.execution }) p q (fun _ _ => R) F := by
  show R { p with execution := f p.execution } { q with execution := f q.execution }
  rw [L.execution h]
  exact L.executed h horder hgroup

theorem requireNoGroup (h : R p q) (i : Instruction) :
    Paired (Planner.requireNoGroup i) (Planner.requireNoGroup i) p q (fun _ _ => R) F := by
  refine paired_get ?_
  rw [L.execution h]
  split_ifs
  · exact paired_throw (L.fault _ h)
  · exact paired_pure h

theorem isolated {body : Planning Unit} (h : R p q)
    (hbody : ∀ p q, R p q → Paired body body p q (fun _ _ => R) F) :
    Paired (Planner.isolated body) (Planner.isolated body) p q (fun _ _ => R) F := by
  have hfresh := hbody _ _ (L.executed (e := .fresh) h L.fresh fun rules hrules => by cases hrules)
  unfold Paired Planner.isolated
  obtain ⟨_, _, p', q', hp, hq, h'⟩ | ⟨f, g, p', q', hp, hq, h'⟩ := hfresh.cases_on
  · rw [hp, hq, L.execution h]
    exact L.executed h' (L.order h) (L.allows h).group
  · rw [hp, hq, L.execution h]
    exact L.fault_execution _ h'

theorem untilStable {body : Planning Unit}
    (hbody : ∀ p q, R p q → Paired body body p q (fun _ _ => R) F) (n : Nat) :
    ∀ {p q}, R p q →
      Paired (Planner.untilStable body n) (Planner.untilStable body n) p q (fun _ _ => R) F := by
  induction n with
  | zero => exact fun h => paired_throw (L.fault _ h)
  | succ n ih =>
    intro p q h
    rw [Planner.untilStable]
    refine paired_get ?_
    rw [L.transformations h]
    refine (hbody p q h).bind fun _ _ p' q' h' => paired_get ?_
    rw [L.transformations h']
    split_ifs
    · exact ih h'
    · exact paired_pure h'

mutual

theorem executeInstruction (fuel : Nat) : ∀ (i : Instruction), (∀ r ∈ i.ownRules, A r) →
    (∀ o ∈ i.orders, O o) → ∀ p q, R p q →
      Paired (Planner.executeInstruction fuel i) (Planner.executeInstruction fuel i) p q
        (fun _ _ => R) F
  | .rule r, hi, _, p, q, h => by
    rw [Planner.executeInstruction]
    exact L.applyRules (by simpa [Instruction.ownRules] using hi) h fuel true
  | .described d, _, _, p, q, h => by
    rw [Planner.executeInstruction]
    refine paired_get ?_
    rw [L.registry h]
    split
    · next r hr =>
      refine L.applyRules (fun r' hr' => ?_) h fuel true
      rw [List.mem_singleton.1 hr']
      exact (L.allows h).registered r (Registry.mem_rules_of_find? hr)
    · exact L.log _ h
  | .ruleClass belongs, _, _, p, q, h => by
    rw [Planner.executeInstruction]
    refine paired_get ?_
    rw [L.registry h]
    exact L.applyRules (fun r hr => (L.allows h).registered r (List.mem_of_mem_filter hr)) h fuel true
  | .rules rs, hi, _, p, q, h => by
    rw [Planner.executeInstruction]
    exact L.applyRules (by simpa [Instruction.ownRules] using hi) h fuel true
  | .converters guaranteed, _, _, p, q, h => by
    rw [Planner.executeInstruction]
    refine (L.requireNoGroup h _).bind fun _ _ p q h => paired_get ?_
    rw [L.registry h]
    exact L.applyRules (Law.allowed_converterRules (L.allows h) guaranteed) h fuel guaranteed
  | .commonSubexpressions, _, _, p, q, h => by
    rw [Planner.executeInstruction]
    refine (L.requireNoGroup h _).bind fun _ _ p q h => paired_get ?_
    rw [L.registry h]
    exact L.applyRules (fun r hr => (L.allows h).registered r (List.mem_of_mem_filter hr)) h fuel true
  | .order o, _, ho, p, q, h => by
    rw [Planner.executeInstruction]
    exact L.modify h (fun e => { e with order := o }) (ho o (by simp [Instruction.orders]))
      (L.allows h).group
  | .limit n, _, _, p, q, h => by
    rw [Planner.executeInstruction]
    exact L.modify h (fun e => { e with limit := some n }) (L.order h) (L.allows h).group
  | .subprogram is, hi, ho, p, q, h => by
    rw [Planner.executeInstruction]
    refine (L.log _ h).bind fun _ _ p q h => ?_
    refine (L.untilStable (fun p q h => L.isolated h fun p q h => ?_) fuel h).bind
      fun _ _ p q h => L.log _ h
    exact executeAll fuel is (by simpa [Instruction.ownRules] using hi)
      (by simpa [Instruction.orders] using ho) p q h
  | .beginGroup, _, _, p, q, h => by
    rw [Planner.executeInstruction]
    refine (L.requireNoGroup h _).bind fun _ _ p q h =>
      L.modify h (fun e => { e with group := some [] }) (L.order h) fun rules hrules => ?_
    cases hrules
    simp
  | .endGroup, _, _, p, q, h => by
    rw [Planner.executeInstruction]
    refine paired_get ?_
    rw [L.execution h]
    split
    · exact paired_throw (L.fault _ h)
    · next rules hrules =>
      have hclosed := L.modify h (fun e => { e with group := none }) (L.order h)
        fun rules hrules => by cases hrules
      exact hclosed.bind fun _ _ p' q' h' =>
        L.applyRules ((L.allows h).group rules hrules) h' fuel true

theorem executeAll (fuel : Nat) : ∀ (is : List Instruction),
    (∀ r ∈ Instruction.rulesOf is, A r) → (∀ o ∈ Instruction.ordersOf is, O o) → ∀ p q, R p q →
      Paired (Planner.executeAll fuel is) (Planner.executeAll fuel is) p q (fun _ _ => R) F
  | [], _, _, p, q, h => by
    rw [Planner.executeAll]
    exact paired_pure h
  | i :: is, hi, ho, p, q, h => by
    rw [Planner.executeAll]
    rw [Instruction.rulesOf, List.forall_mem_append] at hi
    rw [Instruction.ordersOf, List.forall_mem_append] at ho
    refine (L.log _ h).bind fun _ _ p q h => ?_
    refine (executeInstruction fuel i hi.1 ho.1 p q h).bind fun _ _ p q h => ?_
    exact (L.sweepIfLarge h).bind fun _ _ p q h => executeAll fuel is hi.2 ho.2 p q h

end

/-- The relation is kept by executing a program in both planners. -/
theorem execute {program : Program} (hrules : ∀ r ∈ program.rules, A r)
    (horders : ∀ o ∈ program.orders, O o) (h : R p q) (fuel : Nat) :
    Paired (Planner.execute fuel program) (Planner.execute fuel program) p q (fun _ _ => R) F :=
  L.isolated h (L.executeAll fuel program.instructions hrules horders)

end Lockstep

end QueryPlanner
