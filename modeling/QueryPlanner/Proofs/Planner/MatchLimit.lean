import QueryPlanner.Proofs.Planner.Fixpoint

/-!
# The match limit

The firings of a rule instruction are counted where they happen: each rule that is tried on a vertex
and puts another vertex in its place counts one, whatever the instruction counts itself. Counting does
not change the outcome. An instruction fires no more often than the match limit allows, and less often
only if it fails or a pass over the whole plan has met no firing. The limit is looked at after a firing
alone, so a limit of zero is noticed one firing too late.
-/

namespace QueryPlanner

open QueryPlanner.Graph Planning Relation

/-- An operation of a planner with the number of firings that have put another vertex in place of
one. -/
def Counting (α : Type) : Type := Planner → EStateM.Result Fault Planner α × ℕ

namespace Counting

variable {α β : Type} {p : Planner} {x : Counting α}

instance : Monad Counting where
  pure a := fun p => (.ok a p, 0)
  bind x f := fun p =>
    match x p with
    | (.ok a q, k) => ((f a q).1, k + (f a q).2)
    | (.error f q, k) => (.error f q, k)

/-- Whatever does not try rules has no firings. -/
instance : MonadLift Planning Counting := ⟨fun x p => (x p, 0)⟩

/-- The operation without the count. -/
def value (x : Counting α) : Planning α := fun p => (x p).1

theorem value_lift (x : Planning α) : value (liftM x) = x := rfl

theorem value_get : value (get : Counting Planner) = get := rfl

theorem value_bind (x : Counting α) (f : α → Counting β) :
    value (x >>= f) = value x >>= fun a => value (f a) := by
  funext p
  show (match x p with
    | (.ok a q, k) => ((f a q).1, k + (f a q).2)
    | (.error f q, k) => (.error f q, k) : EStateM.Result Fault Planner β × ℕ).1 =
    EStateM.bind (value x) (fun a => value (f a)) p
  unfold EStateM.bind value
  cases hx : x p with
  | mk r k => cases r <;> rfl

theorem value_discard (x : Counting α) : value (discard x) = discard (value x) := by
  funext p
  show (match x p with
    | (.ok _ q, k) => (.ok () q, k + 0)
    | (.error f q, k) => (.error f q, k) : EStateM.Result Fault Planner Unit × ℕ).1 =
    EStateM.map (fun _ => ()) (value x) p
  unfold EStateM.map value
  cases hx : x p with
  | mk r k => cases r <;> rfl

/-- How an operation ends and how many firings it takes. -/
def Takes (x : Counting α) (p : Planner) (Q : α → Planner → ℕ → Prop) (E : ℕ → Prop) : Prop :=
  match x p with
  | (.ok a q, k) => Q a q k
  | (.error _ _, k) => E k

variable {Q Q' : α → Planner → ℕ → Prop} {E E' : ℕ → Prop}

theorem Takes.mono (h : Takes x p Q E) (hQ : ∀ a q k, Q a q k → Q' a q k) (hE : ∀ k, E k → E' k) :
    Takes x p Q' E' := by
  unfold Takes at h ⊢
  split at h
  · exact hQ _ _ _ h
  · exact hE _ h

theorem Takes.ok {a : α} {q : Planner} {k : ℕ} (h : Takes x p Q E) (hx : x p = (.ok a q, k)) :
    Q a q k := by
  rwa [Takes, hx] at h

theorem Takes.error {f : Fault} {q : Planner} {k : ℕ} (h : Takes x p Q E)
    (hx : x p = (.error f q, k)) : E k := by
  rwa [Takes, hx] at h

theorem takes_pure {a : α} : Takes (pure a) p Q E ↔ Q a p 0 := Iff.rfl

theorem takes_lift {x : Planning α} :
    Takes (liftM x) p Q E ↔ Ends x p (fun a q => Q a q 0) fun _ _ => E 0 := by
  show (match (x p, 0) with
    | (.ok a q, k) => Q a q k
    | (.error _ _, k) => E k) ↔ _
  unfold Ends
  cases x p <;> rfl

theorem takes_bind {f : α → Counting β} {Q : β → Planner → ℕ → Prop} :
    Takes (x >>= f) p Q E ↔
      Takes x p (fun a q k => Takes (f a) q (fun b r l => Q b r (k + l)) fun l => E (k + l)) E := by
  show (match (match x p with
      | (.ok a q, k) => ((f a q).1, k + (f a q).2)
      | (.error f q, k) => (.error f q, k) : EStateM.Result Fault Planner β × ℕ) with
    | (.ok a q, k) => Q a q k
    | (.error _ _, k) => E k) ↔ _
  unfold Takes
  cases hx : x p with
  | mk r k =>
    cases r with
    | error => rfl
    | ok a q => cases hf : f a q with
      | mk s l => cases s <;> simp [hf]

theorem takes_discard {Q : Unit → Planner → ℕ → Prop} :
    Takes (discard x) p Q E ↔ Takes x p (fun _ q k => Q () q k) E :=
  takes_bind.trans Iff.rfl

/-- What is known of the operation without the count. -/
theorem Takes.and_value (h : Takes x p Q E) : Takes x p (fun a q k => x.value p = .ok a q ∧ Q a q k) E := by
  unfold Takes value at *
  cases hx : x p with
  | mk r k => cases r <;> simpa [hx] using h

theorem eq_of_succeeded {x : Counting Unit} {k : ℕ} (hok : succeeded (x p).1 = true)
    (hk : (x p).2 = k) : x p = (.ok () (left (x p).1), k) :=
  Prod.ext (eq_ok_of_succeeded hok) hk

end Counting

namespace Planner

open Counting

variable {p q : Planner} {rules : List Rule} {force : Bool} {id : VertexId}

/-! ## Counting firings -/

/-- Tries a rule on a vertex. -/
def applyCounted (rule : Rule) (id : VertexId) (force : Bool) : Counting (Option VertexId) := fun p =>
  match apply rule id force p with
  | .ok (some result) q => (.ok (some result) q, if result ≠ id then 1 else 0)
  | outcome => (outcome, 0)

/-- Tries rules on a vertex in turn, until one puts another vertex in its place. -/
def visitCounted (rules : List Rule) (force : Bool) (id : VertexId) :
    Counting (Option VertexId) := do
  match rules with
  | [] => return none
  | rule :: rest =>
    match ← applyCounted rule id force with
    | some result => if result ≠ id then return some result else visitCounted rest force id
    | none => visitCounted rest force id

/-- Visits vertices until a pass has met no firing or the match limit is reached. -/
def traverseCounted (rules : List Rule) (force : Bool) :
    Nat → List VertexId → Bool → Nat → Counting Nat
  | 0, _, _, _ => liftM (throw .outOfFuel : Planning Nat)
  | n + 1, [], settled, matched => do
    if settled then return matched
    traverseCounted rules force n (← scheduleFromRoot) true matched
  | n + 1, id :: rest, settled, matched => do
    match ← visitCounted rules force id with
    | none => traverseCounted rules force n rest settled matched
    | some result =>
      let matched := matched + 1
      if (← get).execution.reached matched then return matched
      let pending ← resume result settled rest
      traverseCounted rules force n pending (settled && (← get).execution.order.restarts) matched

/-- Fires rules until nothing changes. -/
def fireRulesCounted (fuel : Nat) (rules : List Rule) (force : Bool) : Counting Nat := do
  log (.applying (rules.map Rule.description))
  traverseCounted rules force fuel (← scheduleFromRoot) true 0

/-- Fires rules until nothing changes, or collects them while a group is open. -/
def applyRulesCounted (fuel : Nat) (rules : List Rule) (force : Bool) : Counting Unit := do
  let execution := (← get).execution
  match execution.group with
  | some group =>
    let merged := { execution with group := some (mergeRules group rules) }
    modify fun p => { p with execution := merged }
  | none => discard (fireRulesCounted fuel rules force)

theorem applyCounted_value (rule : Rule) (id : VertexId) (force : Bool) :
    (applyCounted rule id force).value = apply rule id force := by
  funext p
  unfold value applyCounted
  split <;> simp_all

theorem visitCounted_value (rules : List Rule) (force : Bool) (id : VertexId) :
    (visitCounted rules force id).value = visit rules force id := by
  induction rules with
  | nil => rfl
  | cons rule rest ih =>
    rw [visitCounted, visit, value_bind, applyCounted_value]
    congr 1
    funext result
    cases result with
    | none => exact ih
    | some result =>
      simp only
      split_ifs
      · rfl
      · exact ih

theorem traverseCounted_value (rules : List Rule) (force : Bool) (n : ℕ) :
    ∀ pending settled matched, (traverseCounted rules force n pending settled matched).value =
      traverse rules force n pending settled matched := by
  induction n with
  | zero => exact fun _ _ _ => rfl
  | succ n ih =>
    intro pending settled matched
    cases pending with
    | nil =>
      rw [traverseCounted, traverse]
      split_ifs
      · rfl
      · rw [value_bind, value_lift]
        congr 1
        funext ids
        exact ih ids true matched
    | cons id rest =>
      rw [traverseCounted, traverse, value_bind, visitCounted_value]
      congr 1
      funext result
      cases result with
      | none => exact ih rest settled matched
      | some result =>
        simp only [value_bind, value_get]
        congr 1
        funext p
        split_ifs
        · rfl
        · simp only [value_bind, value_get, value_lift, ih]

theorem fireRulesCounted_value (fuel : ℕ) (rules : List Rule) (force : Bool) :
    (fireRulesCounted fuel rules force).value = fireRules fuel rules force := by
  simp only [fireRulesCounted, fireRules, value_bind, value_lift, traverseCounted_value]

theorem applyRulesCounted_value (fuel : ℕ) (rules : List Rule) (force : Bool) :
    (applyRulesCounted fuel rules force).value = applyRules fuel rules force := by
  unfold applyRulesCounted applyRules
  rw [value_bind, value_get]
  congr 1
  funext p
  cases hgroup : p.execution.group with
  | some group =>
    simp only [hgroup]
    rfl
  | none =>
    simp only [hgroup]
    rw [value_discard, fireRulesCounted_value]

/-! ## The bound -/

/-- The vertices are visited one after the other, and at none of them a rule puts another vertex in
its place. -/
inductive Idles (rules : List Rule) (force : Bool) : List VertexId → Planner → Planner → Prop
  | nil (p : Planner) : Idles rules force [] p p
  | cons {id : VertexId} {ids : List VertexId} {p q r : Planner}
      (h : visit rules force id p = .ok none q) (hrest : Idles rules force ids q r) :
      Idles rules force (id :: ids) p r

theorem Idles.concat {ids : List VertexId} {p q r : Planner} (h : Idles rules force ids p q)
    (hlast : visit rules force id q = .ok none r) : Idles rules force (ids ++ [id]) p r := by
  induction h with
  | nil p => exact .cons hlast (.nil r)
  | cons hfirst _ ih => exact .cons hfirst (ih hlast)

/-- A pass over the whole plan has ended in this state and has met no firing. -/
def Exhausted (rules : List Rule) (force : Bool) (q : Planner) : Prop :=
  ∃ p ids p₁, scheduleFromRoot p = .ok ids p₁ ∧ Idles rules force ids p₁ q

/-- No rule puts another vertex in place of one below the root. -/
def Unmoved (rules : List Rule) (force : Bool) (q : Planner) : Prop :=
  ∀ root id, q.graph.root = some root → ReflTransGen q.graph.Edge root id →
    ∀ rule ∈ rules, ∃ result q', apply rule id force q = .ok result q' ∧
      (result = none ∨ result = some id) ∧ q.Alike q'

/-- A firing is counted if another vertex came out. -/
theorem takes_applyCounted (rule : Rule) (id : VertexId) (force : Bool) (p : Planner) :
    Takes (applyCounted rule id force) p
      (fun result _ k => k = if result = none ∨ result = some id then 0 else 1) fun k => k = 0 := by
  unfold Takes applyCounted
  cases apply rule id force p with
  | error f q => rfl
  | ok result q =>
    cases result with
    | none => simp
    | some r => by_cases hr : r = id <;> simp [hr]

/-- Rules that are tried in turn take one firing if another vertex came out, and none otherwise. -/
theorem takes_visitCounted (rules : List Rule) (force : Bool) (id : VertexId) : ∀ p,
    Takes (visitCounted rules force id) p (fun result _ k => k = result.toList.length)
      fun k => k = 0 := by
  induction rules with
  | nil => exact fun p => takes_pure.2 rfl
  | cons rule rest ih =>
    intro p
    have hrest : ∀ q, Takes (visitCounted rest force id) q
        (fun result _ k => 0 + k = result.toList.length) fun k => 0 + k = 0 := by
      simpa using ih
    rw [visitCounted]
    apply takes_bind.2
    apply (takes_applyCounted rule id force p).mono _ fun _ h => h
    intro result q k hk
    cases result with
    | none =>
      obtain rfl : k = 0 := by simpa using hk
      exact hrest q
    | some r =>
      by_cases hr : r = id
      · obtain rfl : k = 0 := by simpa [hr] using hk
        simp only [hr, ne_eq, not_true_eq_false, if_false]
        exact hrest q
      · obtain rfl : k = 1 := by simpa [hr] using hk
        simp only [hr, ne_eq, not_false_eq_true, if_true]
        exact takes_pure.2 rfl

/-- A rule instruction counts its firings as they are, and compares the count with the limit after
each: by induction on the visits. -/
theorem takes_traverseCounted (rules : List Rule) (force : Bool) {e : Execution} {limit : ℕ}
    (hlimit : e.limit = some limit) (n : ℕ) :
    ∀ p pending settled matched, p.graph.Consistent p.settings.digestMode → p.execution = e →
      matched < max limit 1 →
      (settled = true → ∃ p₀ done p₁, scheduleFromRoot p₀ = .ok (done ++ pending) p₁ ∧
        Idles rules force done p₁ p) →
      Takes (traverseCounted rules force n pending settled matched) p
        (fun total q k => total = matched + k ∧ total ≤ max limit 1 ∧
          (total < limit → Exhausted rules force q)) fun k => matched + k < max limit 1 := by
  induction n with
  | zero =>
    intro p pending settled matched _ _ hmatched _
    exact takes_lift.2 (ends_throw.2 hmatched)
  | succ n ih =>
    intro p pending settled matched hp he hmatched hsettled
    have hL := law_exact.toPassLaw
    cases pending with
    | nil =>
      rw [traverseCounted]
      split_ifs with hdone
      · obtain ⟨p₀, done, p₁, hschedule, hidles⟩ := hsettled hdone
        rw [List.append_nil] at hschedule
        exact takes_pure.2 ⟨rfl, hmatched.le, fun _ => ⟨p₀, done, p₁, hschedule, hidles⟩⟩
      · -- a new pass
        have hschedule := (hL.scheduleFromRoot hp).and (ends_self _ _)
        refine takes_bind.2 (takes_lift.2 (hschedule.mono ?_ fun _ _ _ => hmatched))
        rintro ids q ⟨hq, hids⟩
        have hnext := ih q ids true matched hq.consistent (hq.execution.trans he) hmatched
          fun _ => ⟨p, [], q, hids, .nil q⟩
        simpa using hnext
    | cons id rest =>
      rw [traverseCounted]
      have hvisit := (takes_visitCounted rules force id p).and_value
      rw [visitCounted_value] at hvisit
      refine takes_bind.2 (hvisit.mono ?_ fun k hk => by simpa [hk] using hmatched)
      rintro (_ | result) q k ⟨hvisited, rfl⟩
      · have hq := (hL.visit (fun _ _ => trivial) force id hp).ok hvisited
        have hnext := ih q rest settled matched hq.consistent (hq.execution.trans he) hmatched
          fun hdone => by
            obtain ⟨p₀, done, p₁, hschedule, hidles⟩ := hsettled hdone
            exact ⟨p₀, done ++ [id], p₁, by simpa using hschedule, hidles.concat hvisited⟩
        simpa using hnext
      · have hq := (hL.visit (fun _ _ => trivial) force id hp).ok hvisited
        refine takes_bind.2 (takes_lift.2 (ends_get.2 ?_))
        have hreached : q.execution.reached (matched + 1) = decide (limit ≤ matched + 1) := by
          rw [hq.execution, he, Execution.reached, hlimit]
        rw [hreached]
        split_ifs with hstop
        · -- the limit is reached with this firing
          have hle : limit ≤ matched + 1 := of_decide_eq_true hstop
          refine takes_pure.2 ⟨by simp, by omega, fun hlt => by omega⟩
        · have hlt : matched + 1 < limit := by simpa using hstop
          have hmatched' : matched + 1 < max limit 1 := by omega
          have hresume := (hL.resume hq.consistent result settled rest).and (ends_self _ _)
          refine takes_bind.2 (takes_lift.2 (hresume.mono ?_ fun _ _ _ => by simpa using hmatched'))
          rintro pending r ⟨hr, hpending⟩
          refine takes_bind.2 (takes_lift.2 (ends_get.2 ?_))
          have hnext := ih r pending (settled && r.execution.order.restarts) (matched + 1)
            hr.consistent (hr.execution.trans (hq.execution.trans he)) hmatched' fun hdone => by
              -- orders that restart have scheduled a pass over the whole plan
              rw [Bool.and_eq_true, hr.execution] at hdone
              obtain ⟨_, _, ⟨⟩, hpending⟩ := bind_eq_ok.1 hpending
              simp only [hdone.2, if_true] at hpending
              exact ⟨q, [], r, hpending, .nil r⟩
          apply hnext.mono
          · rintro total s k ⟨htotal, hle, hexhausted⟩
            refine ⟨?_, hle, hexhausted⟩
            simp only [Option.toList_some, List.length_singleton]
            omega
          · intro k hk
            simp only [Option.toList_some, List.length_singleton]
            omega

theorem takes_fireRulesCounted (hp : p.graph.Consistent p.settings.digestMode) {limit : ℕ}
    (hlimit : p.execution.limit = some limit) (fuel : ℕ) (rules : List Rule) (force : Bool) :
    Takes (fireRulesCounted fuel rules force) p
      (fun total q k => total = k ∧ k ≤ max limit 1 ∧ (k < limit → Exhausted rules force q))
      fun k => k < max limit 1 := by
  have hL := law_exact.toPassLaw
  have hpositive : 0 < max limit 1 := by omega
  apply takes_bind.2
  apply takes_lift.2
  apply (hL.asks (Asks.log _) hp).mono _ fun _ _ _ => hpositive
  intro _ q hq
  have hschedule := (hL.scheduleFromRoot hq.consistent).and (ends_self _ _)
  refine takes_bind.2 (takes_lift.2 (hschedule.mono ?_ fun _ _ _ => hpositive))
  rintro ids r ⟨hr, hids⟩
  have htraverse := takes_traverseCounted rules force hlimit fuel r ids true 0 hr.consistent
    (hr.execution.trans hq.execution) hpositive fun _ => ⟨q, [], r, hids, .nil r⟩
  apply htraverse.mono
  · rintro total s k ⟨htotal, hle, hexhausted⟩
    obtain rfl : total = k := by omega
    refine ⟨by omega, by omega, fun hlt => hexhausted (by omega)⟩
  · intro k hk
    omega

theorem takes_applyRulesCounted (hp : p.graph.Consistent p.settings.digestMode) {limit : ℕ}
    (hlimit : p.execution.limit = some limit) (fuel : ℕ) (rules : List Rule) (force : Bool) :
    Takes (applyRulesCounted fuel rules force) p
      (fun _ q k => k ≤ max limit 1 ∧ (p.execution.group = none → k < limit →
        Exhausted rules force q ∧ fireRules fuel rules force p = .ok k q))
      fun k => k < max limit 1 := by
  apply takes_bind.2
  apply takes_lift.2
  apply ends_get.2
  cases hgroup : p.execution.group with
  | some group =>
    -- the rules are collected
    simp only [hgroup]
    refine takes_lift.2 (ends_modify.2 ⟨?_, fun hnone => by cases hnone⟩)
    omega
  | none =>
    simp only [hgroup]
    apply takes_discard.2
    have hfire := (takes_fireRulesCounted hp hlimit fuel rules force).and_value
    rw [fireRulesCounted_value] at hfire
    apply hfire.mono
    · rintro _ q k ⟨hrun, rfl, hle, hexhausted⟩
      rw [Nat.zero_add]
      exact ⟨hle, fun _ hlt => ⟨hexhausted hlt, hrun⟩⟩
    · intro k hk
      rwa [Nat.zero_add]

/-- A driven planner that is to fire rules, in any match order, performs no more firings than the match
limit says, or one if it says zero, wherever they happen; and fewer when it fails. If it performs fewer
and does not fail, a pass over the whole plan has met no firing. Where vertices are not shared, and
where they are and all traits are plain, no rule can move anything then. While a group is open, rules
are collected and none is tried. -/
theorem applyRulesCounted_le_limit (h : Driven p) (e : Execution) {limit : ℕ}
    (hlimit : e.limit = some limit) (fuel : ℕ) (rules : List Rule) (force : Bool) :
    let start : Planner := { p with execution := e }
    (applyRulesCounted fuel rules force).value start = applyRules fuel rules force start ∧
      (∀ q k, applyRulesCounted fuel rules force start = (.ok () q, k) → k ≤ max limit 1 ∧
        (e.group = none → k < limit → Exhausted rules force q ∧
          ((p.settings.dag = true →
            p.graph.Within PlainTraits ∧ ∀ rule ∈ rules, rule.StaysWithin PlainTraits) →
              Unmoved rules force q))) ∧
      ∀ f q k, applyRulesCounted fuel rules force start = (.error f q, k) → k < max limit 1 := by
  intro start
  have hstart : start.graph.Consistent start.settings.digestMode := h.exact.consistent
  have htakes := takes_applyRulesCounted hstart hlimit fuel rules force
  refine ⟨by rw [applyRulesCounted_value], fun q k hok => ?_, fun f q k herror => htakes.error herror⟩
  obtain ⟨hle, hfewer⟩ := htakes.ok hok
  refine ⟨hle, fun hgroup hlt => ?_⟩
  obtain ⟨hexhausted, hrun⟩ := hfewer hgroup hlt
  refine ⟨hexhausted, fun hplain root id hroot hid => ?_⟩
  have htame : start.Tame := ⟨⟨h.exact.consistent, h.exact.caches⟩, fun hdag => (hplain hdag).1⟩
  have hrules : ∀ rule ∈ rules, Plain p.settings.dag rule := fun rule hrule hdag =>
    (hplain hdag).2 rule hrule
  have hreached : e.reached k = false := by
    rw [Execution.reached, hlimit]
    exact decide_eq_false (by omega)
  obtain ⟨hq, done, hmidway, -⟩ := midway_of_fireRules (p := start) hrules htame hrun hreached
  exact hmidway.unmoved hq hroot hid

/-- A limit on a limit, to which the rule that merges them is applied with a limit of three. -/
theorem applyRulesCounted_le_limit_loadedLimits :
    let start : Planner := { loadedLimits with execution := ⟨.topDown, some 3, none⟩ }
    (applyRulesCounted 9 [Rule.removeLimit] true).value start =
        applyRules 9 [Rule.removeLimit] true start ∧
      ∃ q, applyRulesCounted 9 [Rule.removeLimit] true start = (.ok () q, 1) ∧
        Exhausted [Rule.removeLimit] true q ∧ Unmoved [Rule.removeLimit] true q := by
  intro start
  have hbuild := eq_ok_of_succeeded (x := build .default ⟨[]⟩ [] stackedLimits) (by decide +kernel)
  have hplan : stackedLimits.Within PlainTraits := by
    simp only [stackedLimits, Node.Within, Node.AllWithin, PlainTraits]
    decide
  have hrules : ∀ rule ∈ [Rule.removeLimit], rule.StaysWithin PlainTraits := by
    intro rule hrule
    rw [List.mem_singleton.1 hrule]
    exact Simplification.staysWithin (fun _ _ _ _ h => h) .removeLimit
  have hrun := eq_of_succeeded (x := applyRulesCounted 9 [Rule.removeLimit] true) (p := start) (k := 1)
    (by decide +kernel) (by decide +kernel)
  obtain ⟨hvalue, hends, -⟩ := applyRulesCounted_le_limit (.built hbuild) ⟨.topDown, some 3, none⟩ rfl
    9 [Rule.removeLimit] true
  obtain ⟨hexhausted, hunmoved⟩ := (hends _ 1 hrun).2 rfl (by decide)
  exact ⟨hvalue, _, hrun, hexhausted, hunmoved fun _ => ⟨within_build hplan hbuild, hrules⟩⟩

/-- The same with a limit of zero: the rule is fired. -/
theorem not_applyRulesCounted_le_limit : ¬ ∀ (p q : Planner) (e : Execution) (limit fuel k : ℕ)
    (rules : List Rule) (force : Bool), Driven p → e.limit = some limit →
      applyRulesCounted fuel rules force { p with execution := e } = (.ok () q, k) → k ≤ limit := by
  intro h
  let start : Planner := { loadedLimits with execution := ⟨.arbitrary, some 0, none⟩ }
  have hbuild := eq_ok_of_succeeded (x := build .default ⟨[]⟩ [] stackedLimits) (by decide +kernel)
  have hrun := eq_of_succeeded (x := applyRulesCounted 9 [Rule.removeLimit] true) (p := start) (k := 1)
    (by decide +kernel) (by decide +kernel)
  have hle := h loadedLimits _ ⟨.arbitrary, some 0, none⟩ 0 9 1 [Rule.removeLimit] true
    (.built hbuild) rfl hrun
  omega

end Planner

end QueryPlanner
