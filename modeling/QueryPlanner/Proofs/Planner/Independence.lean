import QueryPlanner.Proofs.Conversion.Chains
import QueryPlanner.Proofs.Planner.Exposure

/-!
# The order in which garbage is removed

Removed ids are used again, so the order in which garbage is removed decides what later vertices are
called. It does not show in the plan as long as vertices are visited in arbitrary order, rules and
costs do not depend on vertex ids, and no vertex gets the key of another one: then two runs stay
aligned under a permutation of the ids that changes with each sweep. In all other match orders it does
show, for these know vertices by their ids from one sweep to the next or visit them in the order of ids.
-/

namespace QueryPlanner

open QueryPlanner.Graph Planning

namespace Planner

variable {π σ : Equiv.Perm VertexId} {A : Rule → Prop} {p q p' q' : Planner} {rules : List Rule}
  {force : Bool} {fuel : Nat} {dag : Bool}

/-! ## Sweeps -/

theorem Orderless.swept (h : p.Orderless A) (hq : p.Swept q) : q.Orderless A where
  toImpartial := by
    have hp := h.tame.exact.consistent
    refine h.congr hq.settings hq.registry ?_ (h.allows.congr hq.registry hq.execution) fun hdag =>
      hq.entered hp.toLinked (h.entered hdag)
    exact ((law_tame p.settings.dag).swept p q hp hq rfl h.tame).2
  apart hdag r hr := by
    rw [hq.settings] at hdag
    exact h.apart hdag r ((Leads.refl.swept hq).trans hr)
  arbitrary := by rw [hq.execution, h.arbitrary]

/-- Garbage that is removed in another order gives the vertices of later expressions other names. -/
theorem Renamed.exists_caughtUp (h : p.Renamed π q) (hp : p.graph.Linked p.settings.digestMode)
    (hq : q.graph.Linked q.settings.digestMode) :
    ∃ σ, p.caughtUp.Renamed σ q.caughtUp ∧ Graph.Keeps π σ p.caughtUp.graph q.caughtUp.graph := by
  have hsame : Graph.Keeps π π p.graph q.graph := ⟨fun _ _ => rfl, h.graph.contains⟩
  unfold Planner.caughtUp
  rw [h.transformations, h.transformationsAtSweep, h.graph.root]
  split_ifs
  · exact ⟨π, h, hsame⟩
  cases hroot : p.graph.root with
  | none =>
    exact ⟨π, ⟨h.settings, h.program, h.registry, h.execution, h.graph, rfl, rfl, h.sizeAtSweep⟩, hsame⟩
  | some root =>
    have hgarbage := h.graph.garbage hp.edges_nodup hq.edges_nodup root
    have hempty : q.graph.garbage (π root) = [] ↔ p.graph.garbage root = [] := by
      rw [← List.length_eq_zero_iff, hgarbage.length_eq, List.length_map, List.length_eq_zero_iff]
    have hlength : (q.graph.reachableFrom (π root)).length = (p.graph.reachableFrom root).length := by
      rw [reachableFrom, reachableFrom, h.graph.depthFirstFrom hp.edges_nodup hq.edges_nodup,
        List.length_map]
    simp only [Option.map_some, h.graph.contains, hempty, hlength]
    split_ifs with hdead hnothing
    · exact ⟨π, ⟨h.settings, h.program, h.registry, h.execution, h.graph, rfl, rfl, h.sizeAtSweep⟩,
        hsame⟩
    · exact ⟨π, ⟨h.settings, h.program, h.registry, h.execution, h.graph, rfl, rfl, rfl⟩, hsame⟩
    · rw [h.settings.digestMode] at hq
      obtain ⟨σ, hσ, hkeeps⟩ := h.graph.sweep hp hq hroot (Bool.not_eq_false _ ▸ hdead)
        (p.settings.sweepOrder_perm p.sweeps.length _)
        (q.settings.sweepOrder_perm q.sweeps.length _)
      exact ⟨σ, ⟨h.settings, h.program, h.registry, h.execution, hσ, rfl, rfl, rfl⟩, hkeeps⟩

theorem paired_collectGarbage (h : Aligned A π p q) (E : Fault → Fault → Planner → Planner → Prop) :
    Paired collectGarbage collectGarbage p q
      (fun _ _ p' q' => ∃ σ, Aligned A σ p' q' ∧ Graph.Keeps π σ p'.graph q'.graph) E := by
  obtain ⟨_, p', hp, hp'⟩ := (ends_collectGarbage_caughtUp p fun _ _ => False).exists_ok
  obtain ⟨_, q', hq, hq'⟩ := (ends_collectGarbage_caughtUp q fun _ _ => False).exists_ok
  obtain ⟨σ, hσ, hkeeps⟩ := h.renamed.exists_caughtUp h.left.linked h.right.linked
  have halike := hp'.reported.undisturbed.toAlike
  have halike' := hq'.reported.undisturbed.toAlike
  refine paired_of_eq_ok hp hq ⟨σ, ⟨hσ.alike halike halike',
    h.left.swept ((swept_caughtUp p).reported hp'.reported),
    h.right.swept ((swept_caughtUp q).reported hq'.reported)⟩, fun i hi => hkeeps.kept i ?_,
    fun i => ?_⟩
  · rwa [halike.graph.contains] at hi
  · rw [halike.graph.contains, halike'.graph.contains, hkeeps.gone]

/-! ## Passes -/

/-- The planners are aligned under some renaming. -/
def SomehowAligned (A : Rule → Prop) (p q : Planner) : Prop := ∃ σ, Aligned A σ p q

/-- The planners are aligned under some renaming, and it takes one list of vertices to the other. -/
def ScheduledBoth (A : Rule → Prop) (ids ids' : List VertexId) (p q : Planner) : Prop :=
  ∃ σ : Equiv.Perm VertexId, ids' = ids.map σ ∧ Aligned A σ p q

theorem paired_schedule (h : Aligned A π p q) (start : VertexId) :
    Paired (schedule start) (schedule (π start)) p q (ScheduledBoth A) Blurred := by
  refine (paired_collectGarbage h _).bind ?_
  rintro _ _ p q ⟨σ, h, hkeeps⟩
  have hscheduled : q.graph.depthFirstFrom (π start) = (p.graph.depthFirstFrom start).map σ := by
    cases hstart : p.graph.contains start with
    | true =>
      rw [← hkeeps.kept start hstart]
      exact h.renamed.graph.depthFirstFrom h.left.linked.edges_nodup h.right.linked.edges_nodup start
    | false =>
      -- a start that was swept has no vertices below it, whatever has its id afterwards
      rw [Graph.depthFirstFrom, Graph.depthFirstFrom, hkeeps.gone, hstart]
      rfl
  refine paired_get ?_
  rw [h.left.arbitrary, h.right.arbitrary]
  exact paired_get (paired_pure ⟨σ, hscheduled, h⟩)

theorem paired_scheduleFromRoot (h : Aligned A π p q) :
    Paired scheduleFromRoot scheduleFromRoot p q (ScheduledBoth A) Blurred := by
  refine (h.tallies tallies_requireRoot).bind ?_
  rintro root _ p q ⟨rfl, h, -⟩
  exact paired_schedule h root

/-- In arbitrary order nothing that was left is visited after a firing. -/
theorem paired_resume (h : Aligned A π p q) (result : VertexId) (settled : Bool)
    (rest rest' : List VertexId) :
    Paired (resume result settled rest) (resume (π result) settled rest') p q
      (ScheduledBoth A) Blurred := by
  refine paired_get ?_
  rw [h.left.arbitrary, h.right.arbitrary]
  refine (paired_schedule h result).bind ?_
  rintro ids _ p q ⟨σ, rfl, h⟩
  exact paired_pure ⟨σ, rfl, h⟩

/-- By induction on the visits, under a renaming of its own after each sweep. -/
theorem paired_traverse (hrules : ∀ r ∈ rules, A r) (force : Bool) (n : Nat) :
    ∀ {π p q}, Aligned A π p q → ∀ pending settled matched,
      Paired (traverse rules force n pending settled matched)
        (traverse rules force n (pending.map π) settled matched) p q
        (fun firings firings' p' q' => firings' = firings ∧ SomehowAligned A p' q') Blurred := by
  induction n with
  | zero => exact fun _ _ _ _ => paired_throw rfl
  | succ n ih =>
    intro π p q h pending settled matched
    cases pending with
    | nil =>
      rw [List.map_nil, traverse]
      split_ifs
      · exact paired_pure ⟨rfl, π, h⟩
      · refine (paired_scheduleFromRoot h).bind ?_
        rintro ids _ p q ⟨σ, rfl, h⟩
        exact ih h _ _ _
    | cons id rest =>
      rw [List.map_cons, traverse, traverse]
      refine (paired_visit hrules force id h).bind ?_
      rintro (_ | result) _ p q ⟨rfl, h⟩
      · exact ih h _ _ _
      · refine paired_get ?_
        rw [h.renamed.execution]
        split_ifs
        · exact paired_pure ⟨rfl, π, h⟩
        · refine (paired_resume h result settled rest (rest.map π)).bind ?_
          rintro ids _ p q ⟨σ, rfl, h⟩
          refine paired_get ?_
          rw [h.renamed.execution]
          exact ih h _ _ _

theorem paired_log_somehow (h : SomehowAligned A p q) (m : Message) :
    Paired (log m) (log m) p q (fun _ _ => SomehowAligned A) Blurred := by
  obtain ⟨σ, h⟩ := h
  refine (paired_log m m p q Blurred).mono ?_ fun _ _ _ _ h => h
  exact fun _ _ _ _ ⟨hp, hq⟩ => ⟨σ, h.undisturbed hp.undisturbed hq.undisturbed⟩

theorem paired_fireRules (hrules : ∀ r ∈ rules, A r) (h : SomehowAligned A p q) (fuel : Nat)
    (force : Bool) :
    Paired (fireRules fuel rules force) (fireRules fuel rules force) p q
      (fun firings firings' p' q' => firings' = firings ∧ SomehowAligned A p' q') Blurred := by
  refine (paired_log_somehow h _).bind fun _ _ p q ⟨π, h⟩ => ?_
  refine (paired_scheduleFromRoot h).bind ?_
  rintro ids _ p q ⟨σ, rfl, h⟩
  exact paired_traverse hrules force fuel h _ _ _

/-! ## Instructions -/

/-- Rule instructions may be executed in another way from now on, but in arbitrary order. -/
theorem Orderless.executed (h : p.Orderless A) {e : Execution} (horder : e.order = .arbitrary)
    (hgroup : ∀ rules, e.group = some rules → ∀ r ∈ rules, A r) :
    Orderless A { p with execution := e } where
  toImpartial := h.congr rfl rfl ⟨⟨h.tame.exact.consistent, h.tame.exact.caches⟩, h.tame.discerning⟩
    ⟨h.allows.registered, h.allows.companions, hgroup⟩ h.entered
  apart hdag r hr := h.apart hdag r ((Leads.refl.executed e).trans hr)
  arbitrary := horder

namespace SomehowAligned

theorem allows (h : SomehowAligned A p q) : p.Allows A := h.choose_spec.left.allows

theorem arbitrary (h : SomehowAligned A p q) : p.execution.order = .arbitrary :=
  h.choose_spec.left.arbitrary

theorem registry (h : SomehowAligned A p q) : q.registry = p.registry := h.choose_spec.renamed.registry

theorem execution (h : SomehowAligned A p q) : q.execution = p.execution :=
  h.choose_spec.renamed.execution

theorem transformations (h : SomehowAligned A p q) : q.transformations = p.transformations :=
  h.choose_spec.renamed.transformations

theorem executed (h : SomehowAligned A p q) {e : Execution} (horder : e.order = .arbitrary)
    (hgroup : ∀ rules, e.group = some rules → ∀ r ∈ rules, A r) :
    SomehowAligned A { p with execution := e } { q with execution := e } := by
  obtain ⟨π, hr, hp, hq⟩ := h
  exact ⟨π, ⟨hr.settings, hr.program, hr.registry, rfl, hr.graph, hr.transformations,
    hr.transformationsAtSweep, hr.sizeAtSweep⟩, hp.executed horder hgroup, hq.executed horder hgroup⟩

end SomehowAligned

theorem paired_sweepIfLarge (h : SomehowAligned A p q) :
    Paired sweepIfLarge sweepIfLarge p q (fun _ _ => SomehowAligned A) Blurred := by
  obtain ⟨π, h⟩ := h
  refine paired_get ?_
  rw [h.renamed.transformations, h.renamed.transformationsAtSweep, h.renamed.sizeAtSweep]
  split_ifs
  · exact (paired_collectGarbage h _).mono (fun _ _ _ _ ⟨σ, h, _⟩ => ⟨σ, h⟩) fun _ _ _ _ h => h
  · exact paired_pure ⟨π, h⟩

/-- Whatever a program does in arbitrary order, the planners stay aligned. -/
theorem lockstep_aligned : Lockstep A (· = .arbitrary) (SomehowAligned A) Blurred where
  fresh := rfl
  allows h := h.allows
  order h := h.arbitrary
  registry h := h.registry
  execution h := h.execution
  transformations h := h.transformations
  executed h horder hgroup := h.executed horder hgroup
  log m h := paired_log_somehow h m
  fireRules fuel force hrules h :=
    (paired_fireRules hrules h fuel force).mono (fun _ _ _ _ h => h.2) fun _ _ _ _ h => h
  sweepIfLarge h := paired_sweepIfLarge h
  fault _ _ := rfl
  fault_execution _ h := h

/-! ## Extraction -/

/-- Vertices that have the same expression up to names. -/
def Named (π : Equiv.Perm VertexId) (g : Graph) (i j : VertexId) : Prop :=
  j = π i ∧ g.contains i = true

theorem mirrored_of_renamed {mode : DigestMode} {g g' : Graph} (hr : g.Renamed π g')
    (hg : g.Linked mode) : g.Mirrored (Named π g) g' where
  current := by
    rintro i _ ⟨rfl, hi⟩
    obtain ⟨n, hn⟩ := contains_iff_current.1 hi
    have hover := hg.currents i n hn
    refine ⟨n, n.rename π, hn, by rw [hr.current, hn, Option.map_some],
      Node.operator_rename_of_operator hover.isOperator, Node.traits_rename n, Node.rowType_rename n, ?_⟩
    rw [Node.inputs_rename, List.forall₂_map_right_iff, List.forall₂_same]
    intro input hinput
    obtain ⟨k, hk⟩ := hover.inputs input hinput
    refine ⟨k, π k, hg.vertexId?_placeholder hk, ?_, rfl, contains_of_placeholder hk⟩
    rw [Node.vertexId?_rename, hg.vertexId?_placeholder hk, Option.map_some]
  iff := by
    rintro i _ k _ ⟨rfl, -⟩ ⟨rfl, -⟩
    exact π.injective.eq_iff.symm

/-- The same plan comes out of aligned planners. -/
theorem paired_finalPlan_aligned (h : Aligned A π p q) {root : VertexId}
    (hlive : p.graph.contains root = true) :
    Paired (finalPlan root) (finalPlan (π root)) p q (fun plan plan' _ _ => plan' = plan)
      Blurred := by
  refine (paired_finalPlan (mirrored_of_renamed h.renamed.graph h.left.linked) h.renamed.graph.size
    ⟨rfl, hlive⟩).mono (fun _ _ _ _ h => h.1) ?_
  rintro _ _ _ _ ((rfl | ⟨i, j, n, n', -, -, -, rfl, rfl⟩) | ⟨rule, defect, dump, dump', rfl, rfl⟩)
  · rfl
  · rfl
  · rfl

theorem paired_findBestPlan (hrules : ∀ r ∈ p.program.rules, A r)
    (horders : ∀ o ∈ p.program.orders, o = .arbitrary) (h : SomehowAligned A p q) (fuel : Nat) :
    Paired (findBestPlan fuel) (findBestPlan fuel) p q (fun plan plan' _ _ => plan' = plan)
      Blurred := by
  refine paired_get ?_
  rw [h.choose_spec.renamed.program]
  refine (paired_log_somehow h _).bind fun _ _ p₁ q₁ h₁ => ?_
  refine (lockstep_aligned.execute hrules horders h₁ fuel).bind fun _ _ p₂ q₂ ⟨π, h₂⟩ => ?_
  refine (paired_collectGarbage h₂ _).bind ?_
  rintro _ _ p₃ q₃ ⟨σ, h₃, -⟩
  refine ((h₃.tallies tallies_requireRoot).and (ends_self _ p₃) (ends_self _ q₃)).bind ?_
  rintro root _ p₄ q₄ ⟨⟨rfl, h₄, -⟩, hroot, -⟩
  obtain ⟨-, hlive, rfl⟩ := requireRoot_eq_ok.1 hroot
  refine (paired_finalPlan_aligned h₄ hlive).bind ?_
  rintro plan _ p₅ q₅ rfl
  refine paired_get ?_
  exact (paired_log _ _ p₅ q₅ _).bind fun _ _ _ _ _ => paired_pure rfl

/-! ## Building -/

/-- A rule that is registered stands in the table of its arc or in no table. -/
theorem mem_convertersOf_of_add {r r' : Registry} {rule : Rule} (h : r.add rule = .ok (some r'))
    (s t : Convention) : ∀ x ∈ r'.convertersOf s t, x ∈ r.convertersOf s t ∨ x = rule := by
  simp only [Registry.add, Bind.bind, Except.bind, pure, Except.pure] at h
  split_ifs at h
  · cases h
  split at h
  · cases h
  split at h
  · cases h
    exact fun _ => .inl
  · split_ifs at h
    · cases h
      intro x hx
      rw [Registry.convertersOf, Registry.lookup_addTo, List.mem_append] at hx
      refine hx.imp_right fun hx => ?_
      split_ifs at hx
      · exact List.mem_singleton.1 hx
      · cases hx
    · split at h
      · cases h
      · cases h
        exact fun _ => .inl

theorem Impartial.registered {rule : Rule} {registry : Registry} (h : p.Impartial A)
    (hrule : Closed A [rule]) (hadd : p.registry.add rule = .ok (some registry))
    (events : Array Event) : Impartial A { p with registry, events } where
  tame := ⟨⟨h.tame.exact.consistent, h.tame.exact.caches⟩, h.tame.discerning⟩
  unobserved := h.unobserved
  model := h.model
  rules := h.rules
  allows := by
    obtain ⟨hrules, hcompanions⟩ := mem_rules_of_add hadd
    have hregistered : p.Registered rule { p with registry, events } :=
      ⟨rfl, rfl, rfl, rfl, hrules, hcompanions⟩
    exact hregistered.allows hrule h.allows
  converters s t r hr := by
    rcases mem_convertersOf_of_add hadd s t r hr with hr | rfl
    · exact h.converters s t r hr
    · exact (hrule r List.mem_cons_self).1
  entered := h.entered

theorem Impartial.rooted {id : VertexId} (h : p.Impartial A) (hid : p.graph.contains id = true) :
    Impartial A { p with graph := { p.graph with root := some id } } :=
  h.congr rfl rfl ⟨⟨h.tame.exact.consistent.setRoot hid, h.tame.exact.caches.setRoot _⟩,
    h.tame.discerning⟩ ⟨h.allows.registered, h.allows.companions, h.allows.group⟩ h.entered

/-- The planners differ in the order in which garbage is removed, in caches and in reports. -/
structure Twins (A : Rule → Prop) (dag : Bool) (p q : Planner) : Prop where
  dag_eq : p.settings.dag = dag
  renamed : p.Renamed 1 q
  left : p.Impartial A
  right : q.Impartial A

theorem Twins.undisturbed (h : Twins A dag p q) (hp : p.Undisturbed p') (hq : q.Undisturbed q') :
    Twins A dag p' q' :=
  ⟨hp.settings ▸ h.dag_eq, h.renamed.alike hp.toAlike hq.toAlike, h.left.undisturbed hp,
    h.right.undisturbed hq⟩

theorem paired_addRule {rule : Rule} (hrule : Closed A [rule]) (h : Twins A dag p q) :
    Paired (addRule rule) (addRule rule) p q (fun _ _ => Twins A dag) Blurred := by
  rw [addRule_eq]
  refine paired_get ?_
  rw [h.renamed.registry]
  split
  · exact paired_throw rfl
  · exact paired_pure h
  · next registry hadd =>
    refine (paired_log _ _ p q _).bind ?_
    rintro _ _ _ _ ⟨⟨events, rfl⟩, events', rfl⟩
    have hr := h.renamed
    have htwins : Twins A dag { p with registry, events } { q with registry, events := events' } :=
      ⟨h.dag_eq, ⟨hr.settings, hr.program, rfl, hr.execution, hr.graph, hr.transformations,
        hr.transformationsAtSweep, hr.sizeAtSweep⟩, h.left.registered hrule hadd _,
        h.right.registered hrule (hr.registry ▸ hadd) _⟩
    exact htwins

theorem paired_addRules (hrules : Closed A rules) (h : Twins A dag p q) :
    Paired (rules.forM fun rule => discard (addRule rule))
      (rules.forM fun rule => discard (addRule rule)) p q (fun _ _ => Twins A dag) Blurred := by
  induction rules generalizing p q with
  | nil => exact paired_pure h
  | cons rule rest ih =>
    rw [Closed, List.forall_mem_cons] at hrules
    have hrule : Closed A [rule] := fun r hr => List.mem_singleton.1 hr ▸ hrules.1
    have hadd : Paired (discard (addRule rule)) (discard (addRule rule)) p q (fun _ _ => Twins A dag)
        Blurred := (paired_addRule hrule h).bind fun _ _ _ _ h => paired_pure h
    exact hadd.bind fun _ _ _ _ h => ih hrules.2 h

theorem paired_setRoot {plan : Node} (hplan : dag = true → plan.Within PlainTraits)
    (h : Twins A dag p q) :
    Paired (setRoot plan) (setRoot plan) p q (fun _ _ => Twins A dag) Blurred := by
  have hplan : p.settings.dag = true → plan.Within PlainTraits := fun hdag => hplan (h.dag_eq ▸ hdag)
  have hplan' : q.settings.dag = true → plan.Within PlainTraits := fun hdag =>
    hplan (h.renamed.settings.dag ▸ hdag)
  have hadd := paired_add plan p q h.renamed h.left h.right hplan
  rw [Node.rename_one] at hadd
  refine (hadd.and ((ends_add_impartial h.left hplan).and
    (ends_add plan p h.left.tame.exact.consistent)) (ends_add_impartial h.right hplan')).bind ?_
  rintro id j p₁ q₁ ⟨⟨hj, h₁⟩, ⟨⟨hp₁, hsettings⟩, -, hplaces⟩, hq₁, -⟩
  obtain rfl : j = id := hj
  have hlive := hplaces.contains
  have h₂ : Twins A dag { p₁ with graph := { p₁.graph with root := some j } }
      { q₁ with graph := { q₁.graph with root := some j } } :=
    ⟨hsettings ▸ h.dag_eq, h₁.withGraph (h₁.graph.withRoot (some j)), hp₁.rooted hlive,
      hq₁.rooted ((h₁.graph.contains j).trans hlive)⟩
  refine paired_modify (paired_get ((paired_log _ _ _ _ _).mono ?_ fun _ _ _ _ h => h))
  exact fun _ _ _ _ ⟨hp, hq⟩ => h₂.undisturbed hp.undisturbed hq.undisturbed

theorem impartial_initial {settings : Settings} (program : Program)
    (hobserved : settings.observed = false) (hmodel : settings.model.Blind)
    (hrules : ∀ r, A r → r.Blind ∧ Plain settings.dag r) :
    (initial settings program).Impartial A where
  tame := ⟨exact_initial settings program, fun _ => within_empty⟩
  unobserved := hobserved
  model := hmodel
  rules := hrules
  allows := (ready_initial settings program A).allows
  converters s t r hr := by
    rw [initial, Registry.convertersOf, Registry.empty, List.lookup_nil, Option.getD_none] at hr
    cases hr
  entered _ i key hi := by simp [initial, Graph.empty, Graph.key?, Graph.vertex?] at hi

theorem paired_load {s t : Settings} {program : Program} {plan : Node} (hst : s.Resemble t)
    (hs : (initial s program).Impartial A) (ht : (initial t program).Impartial A)
    (hclosed : Closed A (rules ++ program.rules)) (hplan : s.dag = true → plan.Within PlainTraits) :
    Paired (load rules plan) (load rules plan) (initial s program) (initial t program)
      (fun _ _ => Twins A s.dag) Blurred := by
  have hinit : Twins A s.dag (initial s program) (initial t program) :=
    ⟨rfl, ⟨hst, rfl, rfl, rfl, (Graph.Alike.refl _).renamed, rfl, rfl, rfl⟩, hs, ht⟩
  exact paired_get ((paired_addRules hclosed hinit).bind fun _ _ _ _ h => paired_setRoot hplan h)

/-- A rule of a list, or the companion of one. -/
def Among (rules : List Rule) (r : Rule) : Prop := r ∈ rules ∨ ∃ s ∈ rules, s.companion = .ok r

theorem closed_among (rules : List Rule) : Closed (Among rules) rules := fun r hr =>
  ⟨.inl hr, fun _ hcompanion => .inr ⟨r, hr, hcompanion⟩⟩

/-- What is true of rules and their companions is true of the rules among them. -/
theorem Closed.of_among {P : Rule → Prop} (h : Closed P rules) : ∀ r, Among rules r → P r := by
  rintro r (hr | ⟨s, hs, hr⟩)
  · exact (h r hr).1
  · exact (h s hs).2 r hr

/-! ## Whole runs -/

/-- Unobserved runs that differ in the order in which garbage is removed end with the same plan, or with
the same fault up to vertex ids. -/
theorem paired_optimize {s t : Settings} {program : Program} {plan : Node} (hst : s.Resemble t)
    (hs : s.observed = false) (ht : t.observed = false) (hmodel : s.model.Blind)
    (hblind : ∀ r ∈ rules ++ program.rules, r.Blind)
    (horders : ∀ o ∈ program.orders, o = .arbitrary)
    (hplain : s.dag = true → plan.Within PlainTraits ∧
      Closed (Rule.StaysWithin PlainTraits) (rules ++ program.rules))
    (hapart : s.dag = true → ∀ u, s.Resemble u → ∀ p, build u program rules plan = .ok () p →
      p.Apart (Among (rules ++ program.rules)))
    (fuel : Nat) :
    Paired (load rules plan >>= fun _ => findBestPlan fuel)
      (load rules plan >>= fun _ => findBestPlan fuel) (initial s program) (initial t program)
      (fun best best' _ _ => best' = best) Blurred := by
  have hrules : ∀ r, Among (rules ++ program.rules) r → r.Blind ∧ Plain s.dag r :=
    Closed.of_among fun r hr => ⟨⟨hblind r hr, fun hdag => ((hplain hdag).2 r hr).1⟩, fun c hc =>
      ⟨(hblind r hr).companion hc, fun hdag => ((hplain hdag).2 r hr).2 c hc⟩⟩
  have hclosed := closed_among (rules ++ program.rules)
  have hinit := impartial_initial program hs hmodel hrules
  have hinit' := impartial_initial program ht (hst.model ▸ hmodel) (hst.dag ▸ hrules)
  have hload : ∀ u, Ends (load rules plan) (initial u program) (fun _ p =>
      load rules plan (initial u program) = .ok () p ∧
        p.Allows (Among (rules ++ program.rules)) ∧ (initial u program).Loaded plan p)
      fun _ _ => True := fun u =>
    ((ends_self _ _).and (ends_load plan hclosed (ready_initial u program _))).mono
      (fun _ _ h => h) fun _ _ _ => trivial
  refine ((paired_load hst hinit hinit' hclosed fun hdag => (hplain hdag).1).and (hload s)
    (hload t)).bind ?_
  rintro _ _ p q ⟨h, ⟨hp, -, hloaded⟩, hq, -, hloaded'⟩
  have hleft : p.Orderless (Among (rules ++ program.rules)) := by
    refine ⟨h.left, fun hdag => hapart (h.dag_eq ▸ hdag) s ?_ p hp, by rw [hloaded.execution]; rfl⟩
    exact ⟨rfl, rfl, rfl, rfl, rfl, rfl⟩
  have hright : q.Orderless (Among (rules ++ program.rules)) := by
    refine ⟨h.right, fun hdag => hapart ?_ t hst q hq, by rw [hloaded'.execution]; rfl⟩
    rw [← hst.dag, ← hdag, hloaded'.settings]
    rfl
  have hprogram : p.program = program := hloaded.program
  refine paired_findBestPlan ?_ ?_ ⟨1, h.renamed, hleft, hright⟩ fuel
  · rw [hprogram]
    exact fun r hr => .inl (List.mem_append_right _ hr)
  · rwa [hprogram]

/-- The order in which garbage is removed does not show in the plan, as long as vertices are visited in
arbitrary order, and rules and the cost model do not look at vertex ids. Where vertices are shared,
traits have to be plain, for keys to tell what expressions refer to, and no vertex may get the key of
another one, for else it depends on the order of parents which of them is found. Match limits, groups,
subprograms and observers do not matter. Faults are the same up to vertex ids. -/
theorem optimize_sweepOrder (settings : Settings) (program : Program) (rules : List Rule) (plan : Node)
    (hmodel : settings.model.Blind) (hblind : ∀ r ∈ rules ++ program.rules, r.Blind)
    (horders : ∀ o ∈ program.orders, o = .arbitrary)
    (hplain : settings.dag = true → plan.Within PlainTraits ∧
      Closed (Rule.StaysWithin PlainTraits) (rules ++ program.rules))
    (hapart : settings.dag = true → ∀ s, settings.Resemble s → ∀ p,
      build s program rules plan = .ok () p → p.Apart (Among (rules ++ program.rules)))
    (fuel : Nat) (order : Nat → List VertexId → List VertexId)
    (horder : ∀ n ids, (order n ids).Perm ids) :
    let reordered : Settings := { settings with sweepOrder := order, sweepOrder_perm := horder }
    (result (optimize reordered program rules plan fuel)).mapError Fault.blurred =
      (result (optimize settings program rules plan fuel)).mapError Fault.blurred := by
  intro reordered
  let unobserved (s : Settings) : Settings := { s with observed := false, level := .trace }
  have hobserved : ∀ s : Settings, s.dag = settings.dag →
      result (optimize s program rules plan fuel) =
        result (optimize (unobserved s) program rules plan fuel) := fun s hdag =>
    (concur_optimize s program rules plan (hdag ▸ hplain) fuel s.observed s.level).result_eq
  rw [hobserved settings rfl, hobserved reordered rfl]
  have hrun := paired_optimize (s := unobserved settings) (t := unobserved reordered)
    ⟨rfl, rfl, rfl, rfl, rfl, rfl⟩ rfl rfl hmodel hblind horders hplain
    (fun hdag s hs => hapart hdag s ⟨hs.dag, hs.digestMode, hs.model, hs.rootTraits, hs.dimensions,
      hs.cancelled⟩) fuel
  obtain ⟨a, b, p, q, hp, hq, h⟩ | ⟨f, f', p, q, hp, hq, h⟩ := hrun.cases_on
  · rw [optimize, optimize, hp, hq, h]
    rfl
  · rw [optimize, optimize, hp, hq]
    exact congrArg Except.error h

/-- In trees, the limits are merged. Where vertices are shared, the filter is exchanged for a row and the
row for two scans, which are called by the ids of what was removed. -/
theorem optimize_sweepOrder_limitsAndExchanges :
    let reversed (s : Settings) : Settings :=
      { s with sweepOrder := fun _ => List.reverse, sweepOrder_perm := fun _ => List.reverse_perm }
    let trees : Settings := { Settings.default with dag := false, observed := true }
    let program : Program := ⟨[.limit 1, .rule Rule.removeLimit, .subprogram [.order .arbitrary]]⟩
    let exchanges : Program := ⟨[.rule (.exchange .filter unitRow),
      .subprogram [.limit 1, .rule (.exchange .values joinedScans)], .order .arbitrary]⟩
    (result (optimize (reversed trees) program Rule.simplifications stackedLimits 20)).mapError
        Fault.blurred =
      (result (optimize trees program Rule.simplifications stackedLimits 20)).mapError Fault.blurred ∧
    (result (optimize (reversed .default) exchanges [] filteredScan 20)).mapError Fault.blurred =
      (result (optimize .default exchanges [] filteredScan 20)).mapError Fault.blurred := by
  intro reversed trees program exchanges
  constructor
  · refine optimize_sweepOrder trees program Rule.simplifications stackedLimits
      CostModel.blind_touchedRows (fun r hr => ?_) (by decide) (fun h => by cases h)
      (fun h => by cases h) 20 _ _
    rw [List.mem_append] at hr
    refine Rule.blind_of_mem_simplifications (hr.elim id fun hr => ?_)
    obtain rfl : r = Rule.removeLimit := by
      simpa [program, Program.rules, Instruction.rulesOf, Instruction.ownRules] using hr
    simp [Rule.simplifications]
  · have hrules : ∀ P : Rule → Prop, P (.exchange .filter unitRow) →
        P (.exchange .values joinedScans) → Closed P ([] ++ exchanges.rules) := by
      intro P hfilter hvalues r hr
      have hr : r ∈ [Rule.exchange .filter unitRow, Rule.exchange .values joinedScans] := hr
      simp only [List.mem_cons, List.not_mem_nil, or_false] at hr
      rcases hr with rfl | rfl
      · exact ⟨hfilter, fun c h => absurd h (Rule.companion_exchange c)⟩
      · exact ⟨hvalues, fun c h => absurd h (Rule.companion_exchange c)⟩
    have hplain : filteredScan.Within PlainTraits ∧ unitRow.Within PlainTraits ∧
        joinedScans.Within PlainTraits := by
      simp only [filteredScan, unitRow, joinedScans, emptyScan, Node.Within, Node.AllWithin,
        PlainTraits]
      decide
    have hexposes : filteredScan.Exposes [.filter, .values] ∧ unitRow.Exposes [.filter, .values] ∧
        joinedScans.Exposes [.filter, .values] := by
      simp only [filteredScan, unitRow, joinedScans, emptyScan, Node.Exposes, Node.Everywhere,
        Node.AllEverywhere]
      decide
    have hreplaces := hrules (Rule.Replaces [.filter, .values])
      (Rule.replaces_exchange (by decide) hexposes.2.1)
      (Rule.replaces_exchange (by decide) hexposes.2.2)
    refine optimize_sweepOrder .default exchanges [] filteredScan CostModel.blind_touchedRows
      (fun r hr => ?_) (by decide) (fun _ => ⟨hplain.1, ?_⟩) (fun _ s hs p hp => ?_) 20 _ _
    · exact (hrules Rule.Blind (Rule.blind_exchange fun _ => rfl)
        (Rule.blind_exchange fun _ => rfl) r hr).1
    · exact hrules _ (Rule.staysWithin_exchange hplain.2.1) (Rule.staysWithin_exchange hplain.2.2)
    · exact (exposed_build hs.dag hexposes.1 hp).apart (Closed.of_among hreplaces)

/-! ## Other match orders -/

/-- Two vertices become garbage, two scans get their ids, and one of the scans is exchanged. -/
def exchangingProgram (order : MatchOrder) : Program :=
  ⟨[.rule (.exchange .filter unitRow), .rule (.exchange .values joinedScans), .order order, .limit 1,
    .rule (.exchange .tableScan unitRow)]⟩

theorem blind_of_mem_exchangingProgram {order : MatchOrder} :
    ∀ r ∈ [] ++ (exchangingProgram order).rules, r.Blind := by
  intro r hr
  have hr : r ∈ [Rule.exchange .filter unitRow, Rule.exchange .values joinedScans,
      Rule.exchange .tableScan unitRow] := hr
  simp only [List.mem_cons, List.not_mem_nil, or_false] at hr
  rcases hr with rfl | rfl | rfl <;> exact Rule.blind_exchange fun _ => rfl

def sortedScan : Node :=
  let sorted (input : Node) : Node := ⟨.sort .unordered none, [input], .default, .empty⟩
  sorted (sorted (sorted (sorted (emptyScan "s"))))

/-- Two limits of rows in one. -/
def unitedLimits : Node :=
  let row (count : Nat) : Node := ⟨.limit count, [unitRow], .default, .empty⟩
  ⟨.setOp .union true, [row 5, row 6], .default, .empty⟩

/-- Sorts become garbage before they were visited, limits get their ids, and one of the limits is pushed
into the scan below it. -/
def lingeringProgram : Program :=
  ⟨[.order .depthFirst, .limit 6, .rules [.exchange .filter sortedScan, .exchange .sort joinedScans,
    .exchange .join unitedLimits, .exchange .values (emptyScan "v"), .pushLimitToTableScan]]⟩

theorem blind_of_mem_lingeringProgram : ∀ r ∈ [] ++ lingeringProgram.rules, r.Blind := by
  intro r hr
  have hr : r ∈ [Rule.exchange .filter sortedScan, Rule.exchange .sort joinedScans,
      Rule.exchange .join unitedLimits, Rule.exchange .values (emptyScan "v"),
      Rule.pushLimitToTableScan] := hr
  simp only [List.mem_cons, List.not_mem_nil, or_false] at hr
  rcases hr with rfl | rfl | rfl | rfl | rfl
  any_goals exact Rule.blind_exchange fun _ => rfl
  exact Rule.blind_pushLimitToTableScan

/-- In every other match order the order of removal may show in the plan. A filter is exchanged for a
row, and the row for two scans. They get the ids of the filter and of what was below it, and top down or
bottom up vertices are visited by their ids: which of the scans is the one that is exchanged depends on
the order in which the ids became free. Depth first, vertices that were not visited yet are remembered
by their ids. What is remembered may be swept before its turn, and then it depends on that order which
of two limits is found in its place. -/
theorem not_optimize_sweepOrder : ¬ ∃ o, o ≠ MatchOrder.arbitrary ∧
    ∀ (settings : Settings) (program : Program) (rules : List Rule) (plan : Node),
      (∀ o' ∈ program.orders, o' = o) → settings.model.Blind →
      (∀ r ∈ rules ++ program.rules, r.Blind) →
      ∀ (fuel : Nat) (order : Nat → List VertexId → List VertexId)
        (horder : ∀ n ids, (order n ids).Perm ids),
        let reordered : Settings := { settings with sweepOrder := order, sweepOrder_perm := horder }
        (result (optimize reordered program rules plan fuel)).toOption.map Plan.tree =
          (result (optimize settings program rules plan fuel)).toOption.map Plan.tree := by
  rintro ⟨o, ho, h⟩
  have horders : ∀ o' ∈ (exchangingProgram o).orders, o' = o := fun _ => List.mem_singleton.1
  have hexchanged := h .default (exchangingProgram o) [] filteredScan horders
    CostModel.blind_touchedRows blind_of_mem_exchangingProgram 20 (fun _ => List.reverse)
    fun _ => List.reverse_perm
  have hkinds := congrArg (Option.map fun tree => tree.inputs.map Node.kind) hexchanged
  cases o with
  | arbitrary => exact ho rfl
  | topDown => exact absurd hkinds (by decide +kernel)
  | bottomUp => exact absurd hkinds (by decide +kernel)
  | depthFirst =>
    have hpushed := h { Settings.default with dag := false } lingeringProgram [] filteredScan
      (by decide) CostModel.blind_touchedRows blind_of_mem_lingeringProgram 60
      (fun _ => List.reverse) fun _ => List.reverse_perm
    have hkinds := congrArg (Option.map fun tree => tree.inputs.map Node.kind) hpushed
    exact absurd hkinds (by decide +kernel)

end Planner

end QueryPlanner
