import QueryPlanner.Proofs.Planner.Extraction
import QueryPlanner.Proofs.Planner.Totality

/-!
# Rules that make progress

Rules make progress if every firing makes a measure of the run smaller. Such rules do not fire for
ever: a visit without a firing leaves less to visit, a firing leaves a smaller measure, and a pass in
which nothing fires shows that every rule is idle at every vertex. The bound on visits is never
reached if it is large enough, and neither is the one on repetitions of a subprogram, for a repetition
in which nothing fires transforms nothing.
-/

namespace QueryPlanner

open QueryPlanner.Graph Planning

namespace Planner

variable {p q r : Planner}

/-- There is garbage only after transformations that are more recent than the last sweep. -/
structure Tidy (p : Planner) : Prop where
  consistent : p.graph.Consistent p.settings.digestMode
  swept : p.transformationsAtSweep ≤ p.transformations
  spanned : p.Clean → p.graph.Spanned
  rooted : ∃ root, p.graph.root = some root

theorem Tidy.alike (h : p.Tidy) (hpq : p.Alike q) : q.Tidy where
  consistent := by
    rw [hpq.settings]
    exact h.consistent.congr hpq.graph
  swept := by
    rw [hpq.transformationsAtSweep, hpq.transformations]
    exact h.swept
  spanned hclean := (h.spanned (hclean.congr hpq.symm)).congr hpq.graph
  rooted := by
    rw [hpq.graph.root]
    exact h.rooted

/-- Planners with the same settings, rules and graph. -/
structure Agrees (p q : Planner) : Prop where
  settings : q.settings = p.settings
  registry : q.registry = p.registry
  graph : p.graph.Alike q.graph

theorem Agrees.symm (h : p.Agrees q) : q.Agrees p :=
  ⟨h.settings.symm, h.registry.symm, h.graph.symm⟩

theorem Alike.agrees (h : p.Alike q) : p.Agrees q := ⟨h.settings, h.registry, h.graph⟩

theorem Tidy.executed (h : p.Tidy) (e : Execution) : Tidy { p with execution := e } :=
  ⟨h.consistent, h.swept, h.spanned, h.rooted⟩

/-- A sweep leaves no garbage. -/
theorem Tidy.sweep (h : p.Tidy) (hpq : p.Swept q) : q.Tidy ∧ q.graph.Spanned := by
  have hspanned := hpq.spanned h.consistent h.spanned
  refine ⟨⟨hpq.consistent h.consistent, hpq.clean.ge, fun _ => hspanned, ?_⟩, hspanned⟩
  rw [hpq.root h.consistent]
  exact h.rooted

/-- A transformation was counted after the expression was added, so garbage will be looked for. -/
theorem Counted.not_clean (hp : p.Tidy) (h : p.Counted q) (g : Graph) (events : Array Event) :
    let r := { q with graph := g, transformations := q.transformations + 1, events }
    r.transformationsAtSweep ≤ r.transformations ∧ ¬ r.Clean := by
  have hle := h.le
  have hsweep := h.transformationsAtSweep
  have hswept := hp.swept
  constructor
  · show q.transformationsAtSweep ≤ q.transformations + 1
    omega
  · intro hclean
    have hclean : q.transformations + 1 = q.transformationsAtSweep := hclean
    omega

/-- Where there is no garbage a sweep changes nothing. -/
theorem Swept.graph_eq (hspanned : p.graph.Spanned) (h : p.Swept q) : q.graph = p.graph := by
  rcases h.graph with heq | hsweep
  · exact heq
  · generalize q.graph = g at hsweep ⊢
    obtain @⟨root, order, hroot, hlive, hperm⟩ := hsweep
    have hgarbage : p.graph.garbage root = [] := by
      refine List.filter_eq_nil_iff.2 fun id hid => ?_
      have hmem := (mem_reachableFrom_iff hlive).2 (hspanned root hroot id (mem_vertexIds.1 hid))
      simpa using hmem
    rw [hgarbage] at hperm ⊢
    rw [List.perm_nil.1 hperm, Graph.discard, List.foldl_nil, Graph.purge]
    simp

/-- After an instruction, garbage is swept or left as it is. -/
theorem ends_sweepIfLarge (p : Planner) (E : Fault → Planner → Prop) :
    Ends sweepIfLarge p (fun _ q => p.Swept q ∨ q = p) E := by
  refine ends_bind.2 (ends_get.2 ?_)
  split
  · exact (ends_collectGarbage p _).mono (fun _ _ h => .inl h) fun _ _ h => h
  · exact ends_pure.2 (.inr rfl)

end Planner

open Planner

/-- Tries of rules of some kind make progress. `I w p` says that the run is in the state `p` and has
the measure `w`. A try leaves the planner as it is, and then the rule is idle at the vertex, or it
makes the measure smaller, or it ends with a fault of some kind. -/
structure Progress (A : Rule → Prop) (force : Bool) (I : ℕ → Planner → Prop)
    (Idle : Rule → Planner → VertexId → Prop) (E : Fault → Prop) : Prop where
  tidy : ∀ {w p}, I w p → p.Tidy
  alike : ∀ {w p q}, I w p → p.Alike q → I w q
  sweep : ∀ {w p q}, I w p → p.Swept q → I w q
  executed : ∀ {w p} (e : Execution), I w p → I w { p with execution := e }
  idle : ∀ {rule p q id}, Idle rule p id → p.Agrees q → Idle rule q id
  attempt : ∀ {rule w p} (id : VertexId), A rule → I w p → p.graph.Spanned →
    Ends (Planner.attempt rule id force) p (fun replacement q => match replacement with
      | none => p.Undisturbed q ∧ Idle rule p id
      | some replacement => replacement.result ≠ id ∧
          q.graph.contains replacement.result = true ∧ ∃ w' < w, I w' q) fun f _ => E f

/-- From one state of a run to a later one. Either the measure has become smaller, or nothing was
transformed. -/
structure Advance (I : ℕ → Planner → Prop) (w w' : ℕ) (p q : Planner) : Prop where
  reached : I w' q
  le : w' ≤ w
  unchanged : w' = w → q.transformations = p.transformations
  registry : q.registry = p.registry

theorem Advance.trans {I : ℕ → Planner → Prop} {w w' w'' : ℕ} {p q r : Planner}
    (h : Advance I w w' p q) (h' : Advance I w' w'' q r) : Advance I w w'' p r where
  reached := h'.reached
  le := h'.le.trans h.le
  unchanged heq := by
    have hle := h.le
    have hle' := h'.le
    rw [h'.unchanged (by omega), h.unchanged (by omega)]
  registry := h'.registry.trans h.registry

/-- Nothing is left to be done: there is no garbage, and the rules are idle everywhere. -/
structure Planner.AtRest (Idle : Rule → Planner → VertexId → Prop) (rules : List Rule)
    (q : Planner) : Prop where
  spanned : q.graph.Spanned
  idle : ∀ rule ∈ rules, ∀ id, q.graph.contains id = true → Idle rule q id

namespace Progress

variable {A : Rule → Prop} {force : Bool} {I : ℕ → Planner → Prop}
  {Idle : Rule → Planner → VertexId → Prop} {E : Fault → Prop} {w : ℕ} {p q : Planner}
  {rules : List Rule} {id : VertexId} {pending rest : List VertexId} {settled : Bool} {matched : ℕ}
  (P : Progress A force I Idle E)
include P

theorem mono {E' : Fault → Prop} (hE : ∀ f, E f → E' f) : Progress A force I Idle E' :=
  { P with attempt := fun id hrule hp hspanned =>
      (P.attempt id hrule hp hspanned).mono (fun _ _ h => h) fun f _ => hE f }

theorem advance_alike (hp : I w p) (h : p.Alike q) : Advance I w w p q :=
  ⟨P.alike hp h, le_rfl, fun _ => h.transformations, h.registry⟩

theorem advance_swept (hp : I w p) (h : p.Swept q) : Advance I w w p q :=
  ⟨P.sweep hp h, le_rfl, fun _ => h.transformations, h.registry⟩

theorem consistent (hp : I w p) : p.graph.Consistent p.settings.digestMode := (P.tidy hp).consistent

/-! ## Visits -/

theorem apply {rule : Rule} (hrule : A rule) (hp : I w p) (hspanned : p.graph.Spanned)
    (id : VertexId) :
    Ends (Planner.apply rule id force) p (fun result q => q.execution = p.execution ∧
      q.registry = p.registry ∧ match result with
        | none => p.Undisturbed q ∧ Idle rule p id
        | some result => result ≠ id ∧ ∃ w' < w, I w' q) fun f _ => E f := by
  refine ends_bind.2 (((P.attempt id hrule hp hspanned).and
    (ends_attempt (P.consistent hp) rule id force)).mono ?_ fun _ _ h => h.1)
  rintro replacement q ⟨h, hattempt⟩
  cases replacement with
  | none => exact ends_pure.2 ⟨h.1.execution, h.1.registry, h⟩
  | some replacement =>
    obtain ⟨hne, hlive, w', hw', hq⟩ := h
    obtain ⟨-, -, best, -, hreplaced⟩ := hattempt
    refine ends_bind.2 ((ends_reportProduction rule replacement q).mono ?_ fun _ _ h => ?_)
    · rintro _ r (hr | ⟨r', hr', hr⟩)
      · exact ends_pure.2 ⟨hr.execution.trans hreplaced.execution,
          hr.registry.trans hreplaced.registry, hne, w', hw', P.alike hq hr.toAlike⟩
      · exact ends_pure.2 ⟨(hr.execution.trans hr'.execution).trans hreplaced.execution,
          (hr.registry.trans hr'.registry).trans hreplaced.registry, hne, w', hw',
          P.sweep (P.alike hq hr'.toAlike) hr⟩
    · rw [hlive] at h
      cases h.2

theorem visit (hrules : ∀ rule ∈ rules, A rule) (hp : I w p) (hspanned : p.graph.Spanned)
    (id : VertexId) :
    Ends (Planner.visit rules force id) p (fun result q => q.execution = p.execution ∧
      q.registry = p.registry ∧ match result with
        | none => p.Alike q ∧ ∀ rule ∈ rules, Idle rule p id
        | some _ => ∃ w' < w, I w' q) fun f _ => E f := by
  induction rules generalizing p with
  | nil => exact ends_pure.2 ⟨rfl, rfl, .refl p, by simp⟩
  | cons rule rest ih =>
    rw [List.forall_mem_cons] at hrules
    rw [Planner.visit]
    apply (P.apply hrules.1 hp hspanned id).bind
    rintro result q ⟨hexecution, hregistry, hq⟩
    cases result with
    | some result =>
      simp only
      rw [if_pos hq.1]
      exact ends_pure.2 ⟨hexecution, hregistry, hq.2⟩
    | none =>
      obtain ⟨hq, hidle⟩ := hq
      refine (ih hrules.2 (P.alike hp hq.toAlike) (hspanned.congr hq.graph)).mono ?_ fun _ _ h => h
      rintro result r ⟨hexecution', hregistry', hr⟩
      refine ⟨hexecution'.trans hexecution, hregistry'.trans hregistry, ?_⟩
      cases result with
      | some result => exact hr
      | none =>
        exact ⟨hq.toAlike.trans hr.1, List.forall_mem_cons.2
          ⟨hidle, fun rule hrule => P.idle (hr.2 rule hrule) hq.toAlike.agrees.symm⟩⟩

/-! ## Passes -/

theorem schedule (hp : I w p) (start : VertexId) :
    Ends (Planner.schedule start) p (fun _ q => p.Swept q ∧ q.graph.Spanned) fun _ _ => False := by
  obtain ⟨ids, q, hok, hq, -⟩ := exists_schedule (P.consistent hp) start
  exact (ends_of_eq_ok hok).2 ⟨hq, ((P.tidy hp).sweep hq).2⟩

/-- A pass from the root is scheduled over all vertices. -/
theorem scheduleFromRoot (hp : I w p) :
    Ends Planner.scheduleFromRoot p (fun ids q => p.Swept q ∧ q.graph.Spanned ∧
      ∀ id, q.graph.contains id = true → id ∈ ids) fun _ _ => False := by
  obtain ⟨root, hroot⟩ := (P.tidy hp).rooted
  have hconsistent := P.consistent hp
  obtain ⟨ids, q, hok, hq, hids⟩ := exists_scheduleFromRoot hconsistent hroot
  obtain ⟨htidy, hspanned⟩ := (P.tidy hp).sweep hq
  have hroot' : q.graph.root = some root := (hq.root hconsistent).trans hroot
  refine (ends_of_eq_ok hok).2 ⟨hq, hspanned, fun id hid => ?_⟩
  exact mem_scheduled htidy.consistent.toLinked (htidy.consistent.root root hroot') hids
    (hspanned root hroot' id hid)

/-- What is visited after a firing: a whole pass if the order restarts. -/
theorem resume (hp : I w p) (result : VertexId) (settled : Bool) (rest : List VertexId) :
    Ends (Planner.resume result settled rest) p (fun pending q => p.Swept q ∧ q.graph.Spanned ∧
      (q.execution.order.restarts = true → ∀ id, q.graph.contains id = true → id ∈ pending))
      fun _ _ => False := by
  refine ends_bind.2 (ends_get.2 ?_)
  simp only
  by_cases hrestarts : p.execution.order.restarts = true
  · rw [if_pos hrestarts]
    exact (P.scheduleFromRoot hp).mono
      (fun _ _ ⟨hq, hspanned, hall⟩ => ⟨hq, hspanned, fun _ => hall⟩) fun _ _ h => h
  · rw [if_neg hrestarts]
    refine (P.schedule hp result).bind ?_
    rintro below q ⟨hq, hspanned⟩
    exact ends_pure.2 ⟨hq, hspanned, fun h => absurd (hq.execution ▸ h) hrestarts⟩

/-- How a traversal from `p` ends. -/
def Traversed (I : ℕ → Planner → Prop) (Idle : Rule → Planner → VertexId → Prop) (w : ℕ)
    (rules : List Rule) (p q : Planner) : Prop :=
  ∃ w', Advance I w w' p q ∧ q.execution = p.execution ∧
    (p.execution.limit = none → q.AtRest Idle rules)

omit P in
theorem Traversed.trans {w' : ℕ} {r : Planner} (h : Advance I w w' p q)
    (hexecution : q.execution = p.execution) (h' : Traversed I Idle w' rules q r) :
    Traversed I Idle w rules p r := by
  obtain ⟨w'', hadvance, hexecution', hsettled⟩ := h'
  rw [hexecution] at hexecution' hsettled
  exact ⟨w'', h.trans hadvance, hexecution', hsettled⟩

/-- One visit: the traversal goes on with less to visit, or with a smaller measure. -/
theorem fueled_traverse_cons (hrules : ∀ rule ∈ rules, A rule) (hp : I w p)
    (hspanned : p.graph.Spanned)
    (hpassed : ∀ q, p.Alike q → (∀ rule ∈ rules, Idle rule p id) →
      Fueled (fun n => traverse rules force n rest settled matched) q
        (fun _ r => Traversed I Idle w rules q r) fun f _ => E f)
    (hfired : ∀ q w' pending settled', w' < w → I w' q → q.graph.Spanned →
      (settled' = true → ∀ id, q.graph.contains id = true → id ∈ pending) →
        Fueled (fun n => traverse rules force n pending settled' (matched + 1)) q
          (fun _ r => Traversed I Idle w' rules q r) fun f _ => E f) :
    Fueled (fun n => traverse rules force n (id :: rest) settled matched) p
      (fun _ r => Traversed I Idle w rules p r) fun f _ => E f := by
  refine Fueled.of_succ ?_
  simp only [Planner.traverse]
  apply (P.visit hrules hp hspanned id).bind_fueled
  rintro result q ⟨hexecution, hregistry, hq⟩
  cases result with
  | none =>
    exact (hpassed q hq.1 hq.2).mono
      (fun _ _ h => h.trans (P.advance_alike hp hq.1) hexecution) fun _ _ h => h
  | some result =>
    obtain ⟨w', hw', hq⟩ := hq
    have hadvance : Advance I w w' p q := ⟨hq, hw'.le, fun h => absurd h hw'.ne, hregistry⟩
    refine fueled_get ?_
    cases hreached : q.execution.reached (matched + 1) with
    | true =>
      simp only [if_true]
      refine (ends_pure.2 ⟨w', hadvance, hexecution, fun hlimit => ?_⟩ : Ends _ _ _ _).fueled
      rw [Execution.reached, hexecution, hlimit] at hreached
      cases hreached
    | false =>
      simp only [Bool.false_eq_true, if_false]
      refine ((P.resume hq result settled rest).mono (fun _ _ h => h) fun _ _ h => h.elim).bind_fueled
        ?_
      rintro pending r ⟨hr, hspanned, hall⟩
      refine fueled_get ((hfired r w' pending _ hw' (P.sweep hq hr) hspanned
        fun h => hall (Bool.and_eq_true_iff.1 h).2).mono (fun _ t h => ?_) fun _ _ h => h)
      exact h.trans (hadvance.trans (P.advance_swept hq hr)) (hr.execution.trans hexecution)

/-- With enough fuel a traversal ends: by induction on the measure, on whether a vertex was passed over,
and on what is to be visited. -/
theorem fueled_traverse (hrules : ∀ rule ∈ rules, A rule) : ∀ (p : Planner)
    (pending : List VertexId) (settled : Bool) (matched : ℕ), I w p → p.graph.Spanned →
      (settled = true → ∀ id, p.graph.contains id = true →
        id ∈ pending ∨ ∀ rule ∈ rules, Idle rule p id) →
        Fueled (fun n => traverse rules force n pending settled matched) p
          (fun _ q => Traversed I Idle w rules p q) fun f _ => E f := by
  induction w using Nat.strong_induction_on with
  | _ w ih =>
    have hfired : ∀ matched q w' pending settled', w' < w → I w' q → q.graph.Spanned →
        (settled' = true → ∀ id, q.graph.contains id = true → id ∈ pending) →
          Fueled (fun n => traverse rules force n pending settled' matched) q
            (fun _ r => Traversed I Idle w' rules q r) fun f _ => E f :=
      fun matched q w' pending settled' hw' hq hspanned hall =>
        ih w' hw' q pending settled' matched hq hspanned fun h id hid => .inl (hall h id hid)
    have hsettled : ∀ pending p matched, I w p → p.graph.Spanned →
        (∀ id, p.graph.contains id = true → id ∈ pending ∨ ∀ rule ∈ rules, Idle rule p id) →
          Fueled (fun n => traverse rules force n pending true matched) p
            (fun _ q => Traversed I Idle w rules p q) fun f _ => E f := by
      intro pending
      induction pending with
      | nil =>
        intro p matched hp hspanned hall
        refine Fueled.of_succ (Ends.fueled (ends_pure.2 ⟨w, P.advance_alike hp (.refl p), rfl,
          fun _ => ⟨hspanned, fun rule hrule id hid => ?_⟩⟩))
        exact (hall id hid).resolve_left (by simp) rule hrule
      | cons id rest ihrest =>
        intro p matched hp hspanned hall
        refine P.fueled_traverse_cons hrules hp hspanned (fun q hq hidle => ?_) (hfired _)
        refine ihrest q matched (P.alike hp hq) (hspanned.congr hq.graph) fun i hi => ?_
        rw [hq.graph.contains] at hi
        rcases hall i hi with hmem | hi
        · rcases List.mem_cons.1 hmem with rfl | hmem
          · exact .inr fun rule hrule => P.idle (hidle rule hrule) hq.agrees
          · exact .inl hmem
        · exact .inr fun rule hrule => P.idle (hi rule hrule) hq.agrees
    intro p pending settled matched hp hspanned hall
    cases settled with
    | true => exact hsettled pending p matched hp hspanned (hall rfl)
    | false =>
      induction pending generalizing p with
      | nil =>
        refine Fueled.of_succ ?_
        simp only [Planner.traverse, Bool.false_eq_true, if_false]
        refine ((P.scheduleFromRoot hp).mono (fun _ _ h => h) fun _ _ h => h.elim).bind_fueled ?_
        rintro ids q ⟨hq, hspanned, hall⟩
        refine (hsettled ids q matched (P.sweep hp hq) hspanned fun id hid => .inl (hall id hid)).mono
          (fun _ _ h => h.trans (P.advance_swept hp hq) hq.execution) fun _ _ h => h
      | cons id rest ihrest =>
        refine P.fueled_traverse_cons hrules hp hspanned (fun q hq _ => ?_) (hfired _)
        exact ihrest q (P.alike hp hq) (hspanned.congr hq.graph) (by simp)

/-! ## Instructions -/

theorem fueled_fireRules (hrules : ∀ rule ∈ rules, A rule) (hp : I w p) :
    Fueled (fun n => fireRules n rules force) p (fun _ q => Traversed I Idle w rules p q)
      fun f _ => E f := by
  unfold fireRules
  refine (ends_log _ p _).bind_fueled fun _ q hq => ?_
  have hq := hq.undisturbed
  have hpq := P.alike hp hq.toAlike
  refine ((P.scheduleFromRoot hpq).mono (fun _ _ h => h) fun _ _ h => h.elim).bind_fueled ?_
  rintro ids r ⟨hr, hspanned, hall⟩
  refine (P.fueled_traverse hrules r ids true 0 (P.sweep hpq hr) hspanned
    fun _ id hid => .inl (hall id hid)).mono (fun _ t h => ?_) fun _ _ h => h
  exact h.trans ((P.advance_alike hp hq.toAlike).trans (P.advance_swept hpq hr))
    (hr.execution.trans hq.execution)

/-- Rules that are fired without an open group. -/
theorem fueled_applyRules (hrules : ∀ rule ∈ rules, A rule) (hp : I w p)
    (hgroup : p.execution.group = none) :
    Fueled (fun n => applyRules n rules force) p (fun _ q => Traversed I Idle w rules p q)
      fun f _ => E f := by
  unfold applyRules
  refine fueled_get ?_
  simp only [hgroup]
  show Fueled (fun n => fireRules n rules force >>= fun _ => pure ()) p
    (fun _ q => Traversed I Idle w rules p q) fun f _ => E f
  exact (P.fueled_fireRules hrules hp).bind fun _ _ h => Ends.fueled (ends_pure.2 h)

end Progress

end QueryPlanner
