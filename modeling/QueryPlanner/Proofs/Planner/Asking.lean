import QueryPlanner.Proofs.Graph.Retention
import QueryPlanner.Proofs.Planner.Outcome

/-!
# Operations that only ask

Whatever a planner does to find out something, to convert traits or to make a report, it changes
nothing but cached costs and what was reported: rules are asked and converters run without an effect
on the graph, also where they fail. What is found out depends neither on the caches, if these are
exact, nor on the reports, nor on whether somebody observes the planner or which messages are written
down. Nothing is reported as discarded or chosen by an operation that only asks.
-/

namespace QueryPlanner

open QueryPlanner.Graph Planning

variable {α β : Type} {p q r : Planner}

/-- Whether the event is not about an expression that leaves the plan or stays in it. -/
def Event.isQuiet : Event → Bool
  | .discarded _ | .chosen _ => false
  | _ => true

/-- What a log message tells that is not about sweeps, whose time nobody is promised. -/
def Event.step? : Event → Option Message
  | .logged (.sweeping _) | .logged .sweepWithoutRoot => none
  | .logged m => some m
  | _ => none

/-- Settings that differ alone in whether somebody observes the planner and in which messages are
written down. -/
structure Settings.Agree (s t : Settings) : Prop where
  dag : t.dag = s.dag
  digestMode : t.digestMode = s.digestMode
  model : t.model = s.model
  rootTraits : t.rootTraits = s.rootTraits
  dimensions : t.dimensions = s.dimensions
  cancelled : t.cancelled = s.cancelled
  sweepOrder : t.sweepOrder = s.sweepOrder

namespace Settings.Agree

variable {s t u : Settings}

theorem refl (s : Settings) : s.Agree s := ⟨rfl, rfl, rfl, rfl, rfl, rfl, rfl⟩

theorem symm (h : s.Agree t) : t.Agree s :=
  ⟨h.dag.symm, h.digestMode.symm, h.model.symm, h.rootTraits.symm, h.dimensions.symm,
    h.cancelled.symm, h.sweepOrder.symm⟩

theorem trans (h : s.Agree t) (h' : t.Agree u) : s.Agree u :=
  ⟨h'.dag.trans h.dag, h'.digestMode.trans h.digestMode, h'.model.trans h.model,
    h'.rootTraits.trans h.rootTraits, h'.dimensions.trans h.dimensions,
    h'.cancelled.trans h.cancelled, h'.sweepOrder.trans h.sweepOrder⟩

end Settings.Agree

namespace Level

/-- The messages that are written down at a level. -/
def written (level : Level) (messages : List Message) : List Message :=
  messages.filter fun m => level.rank ≤ m.level.rank

theorem written_append (level : Level) (ms ms' : List Message) :
    level.written (ms ++ ms') = level.written ms ++ level.written ms' := List.filter_append ..

theorem written_trace (ms : List Message) : trace.written ms = ms :=
  List.filter_eq_self.2 fun _ _ => decide_eq_true (Nat.zero_le _)

end Level

namespace Planner

/-- What was written down of rules, instructions and the plan, in order. -/
def transcript (p : Planner) : List Message := p.events.toList.filterMap Event.step?

/-- Planners that differ in cached costs and reports alone. -/
structure Alike (p q : Planner) : Prop where
  settings : q.settings = p.settings
  program : q.program = p.program
  registry : q.registry = p.registry
  execution : q.execution = p.execution
  graph : p.graph.Alike q.graph
  transformations : q.transformations = p.transformations
  transformationsAtSweep : q.transformationsAtSweep = p.transformationsAtSweep
  sizeAtSweep : q.sizeAtSweep = p.sizeAtSweep
  sweeps : q.sweeps = p.sweeps

namespace Alike

theorem refl (p : Planner) : p.Alike p := ⟨rfl, rfl, rfl, rfl, .refl _, rfl, rfl, rfl, rfl⟩

theorem trans (h : p.Alike q) (h' : q.Alike r) : p.Alike r where
  settings := h'.settings.trans h.settings
  program := h'.program.trans h.program
  registry := h'.registry.trans h.registry
  execution := h'.execution.trans h.execution
  graph := h.graph.trans h'.graph
  transformations := h'.transformations.trans h.transformations
  transformationsAtSweep := h'.transformationsAtSweep.trans h.transformationsAtSweep
  sizeAtSweep := h'.sizeAtSweep.trans h.sizeAtSweep
  sweeps := h'.sweeps.trans h.sweeps

theorem symm (h : p.Alike q) : q.Alike p where
  settings := h.settings.symm
  program := h.program.symm
  registry := h.registry.symm
  execution := h.execution.symm
  graph := h.graph.symm
  transformations := h.transformations.symm
  transformationsAtSweep := h.transformationsAtSweep.symm
  sizeAtSweep := h.sizeAtSweep.symm
  sweeps := h.sweeps.symm

end Alike

/-- Planners that differ in whether they are observed, in which messages they write down, in cached
costs and in reports alone. -/
structure Parallel (p q : Planner) : Prop where
  settings : p.settings.Agree q.settings
  program : q.program = p.program
  registry : q.registry = p.registry
  execution : q.execution = p.execution
  graph : p.graph.Alike q.graph
  transformations : q.transformations = p.transformations
  transformationsAtSweep : q.transformationsAtSweep = p.transformationsAtSweep
  sizeAtSweep : q.sizeAtSweep = p.sizeAtSweep
  sweeps : q.sweeps = p.sweeps

theorem Alike.parallel (h : p.Alike q) : p.Parallel q where
  settings := by
    rw [h.settings]
    exact .refl _
  program := h.program
  registry := h.registry
  execution := h.execution
  graph := h.graph
  transformations := h.transformations
  transformationsAtSweep := h.transformationsAtSweep
  sizeAtSweep := h.sizeAtSweep
  sweeps := h.sweeps

namespace Parallel

theorem trans (h : p.Parallel q) (h' : q.Parallel r) : p.Parallel r where
  settings := h.settings.trans h'.settings
  program := h'.program.trans h.program
  registry := h'.registry.trans h.registry
  execution := h'.execution.trans h.execution
  graph := h.graph.trans h'.graph
  transformations := h'.transformations.trans h.transformations
  transformationsAtSweep := h'.transformationsAtSweep.trans h.transformationsAtSweep
  sizeAtSweep := h'.sizeAtSweep.trans h.sizeAtSweep
  sweeps := h'.sweeps.trans h.sweeps

theorem symm (h : p.Parallel q) : q.Parallel p where
  settings := h.settings.symm
  program := h.program.symm
  registry := h.registry.symm
  execution := h.execution.symm
  graph := h.graph.symm
  transformations := h.transformations.symm
  transformationsAtSweep := h.transformationsAtSweep.symm
  sizeAtSweep := h.sizeAtSweep.symm
  sweeps := h.sweeps.symm

/-- Planners stay parallel while each of them asks. -/
theorem alike {p' q' : Planner} (h : p.Parallel q) (hp : p.Alike p') (hq : q.Alike q') :
    p'.Parallel q' :=
  (hp.parallel.symm.trans h).trans hq.parallel

end Parallel

/-- The graph is consistent, and what it keeps of its vertices is exact. -/
structure Exact (p : Planner) : Prop where
  consistent : p.graph.Consistent p.settings.digestMode
  caches : p.graph.Exact p.settings.model

/-- A later state that differs in cached costs and reports alone, and is exact if the earlier one
was. -/
structure Undisturbed (p q : Planner) : Prop extends p.Alike q where
  exact : p.Exact → q.Exact

namespace Undisturbed

theorem refl (p : Planner) : p.Undisturbed p := ⟨.refl p, id⟩

theorem trans (h : p.Undisturbed q) (h' : q.Undisturbed r) : p.Undisturbed r :=
  ⟨h.toAlike.trans h'.toAlike, h'.exact ∘ h.exact⟩

end Undisturbed

/-- Planners that differ in their reports alone. -/
def Reported (p q : Planner) : Prop := ∃ events, q = { p with events }

theorem Reported.refl (p : Planner) : p.Reported p := ⟨p.events, rfl⟩

theorem Reported.trans (h : p.Reported q) (h' : q.Reported r) : p.Reported r := by
  obtain ⟨events, rfl⟩ := h
  obtain ⟨events', rfl⟩ := h'
  exact ⟨events', rfl⟩

theorem Reported.undisturbed (h : p.Reported q) : p.Undisturbed q := by
  obtain ⟨events, rfl⟩ := h
  exact ⟨⟨rfl, rfl, rfl, rfl, .refl _, rfl, rfl, rfl, rfl⟩, fun h => ⟨h.consistent, h.caches⟩⟩

/-- Planners that differ alone in reports that are not steps. -/
structure Remarked (p q : Planner) : Prop where
  reported : p.Reported q
  transcript : q.transcript = p.transcript

namespace Remarked

theorem refl (p : Planner) : p.Remarked p := ⟨.refl p, rfl⟩

theorem trans (h : p.Remarked q) (h' : q.Remarked r) : p.Remarked r :=
  ⟨h.reported.trans h'.reported, h'.transcript.trans h.transcript⟩

end Remarked

/-- Both planners have taken the same steps. The first has written down all of them, the other one as
much as is written down at this level. -/
structure Retold (level : Level) (p q : Planner) : Prop where
  left : p.settings.level = .trace
  right : q.settings.level = level
  transcript : q.transcript = level.written p.transcript

namespace Retold

variable {level : Level} {p' q' : Planner}

/-- The same steps were taken again. -/
theorem append (h : Retold level p q) (steps : List Message) (hp : p'.settings = p.settings)
    (hp' : p'.transcript = p.transcript ++ p.settings.level.written steps)
    (hq : q'.settings = q.settings)
    (hq' : q'.transcript = q.transcript ++ q.settings.level.written steps) : Retold level p' q' where
  left := hp ▸ h.left
  right := hq ▸ h.right
  transcript := by
    rw [hq', hp', h.transcript, h.left, h.right, Level.written_trace, Level.written_append]

theorem congr (h : Retold level p q) (hp : p'.settings = p.settings)
    (hp' : p'.transcript = p.transcript) (hq : q'.settings = q.settings)
    (hq' : q'.transcript = q.transcript) : Retold level p' q' :=
  h.append [] hp (hp'.trans (List.append_nil _).symm) hq (hq'.trans (List.append_nil _).symm)

theorem remarked (h : Retold level p q) (hp : p.Remarked p') (hq : q.Remarked q') :
    Retold level p' q' :=
  h.congr hp.reported.undisturbed.settings hp.transcript hq.reported.undisturbed.settings hq.transcript

end Retold

end Planner

namespace Planning

open Planner

/-- Operations that ask: they read what is not a cache and not a report, estimate rows and costs,
report, and catch faults of each other. -/
inductive Asks (s : Settings) : {α : Type} → Planning α → Prop
  | pure {α : Type} (a : α) : Asks s (pure a)
  | throw {α : Type} (f : Fault) : Asks s (throw f : Planning α)
  | read {α : Type} {k : Planner → Planning α} (hk : ∀ p, p.settings = s → Asks s (k p))
      (hparallel : ∀ p q, p.Parallel q → k q = k p) : Asks s (get >>= k)
  | log (m : Message) : Asks s (log m)
  | report {e : Event} (he : e.isQuiet = true) (hstep : e.step? = none) : Asks s (report e)
  | observe {e : Event} (he : e.isQuiet = true) (hstep : e.step? = none) : Asks s (observe e)
  | rowCount (node : Node) : Asks s (onGraph (rowCount node))
  | cumulativeCost (node : Node) : Asks s (onGraph (cumulativeCost s.model node))
  | bind {α β : Type} {x : Planning α} {f : α → Planning β} (hx : Asks s x)
      (hf : ∀ a, Asks s (f a)) : Asks s (x >>= f)
  | caught {α : Type} {x : Planning α} (hx : Asks s x) : Asks s (caught x)
  | tryCatch {α : Type} {x : Planning α} {handler : Fault → Planning α} (hx : Asks s x)
      (hh : ∀ f, Asks s (handler f)) : Asks s (tryCatch x handler)

variable {s : Settings}

theorem onGraph_eq (x : StateM Graph α) (p : Planner) :
    onGraph x p = .ok (x p.graph).1 { p with graph := (x p.graph).2 } := rfl

theorem ends_onGraph {x : StateM Graph α} {Q : α → Planner → Prop} {E : Fault → Planner → Prop} :
    Ends (onGraph x) p Q E ↔ Q (x p.graph).1 { p with graph := (x p.graph).2 } := Iff.rfl

theorem undisturbed_graph {g : Graph} (halike : p.graph.Alike g)
    (hexact : p.Exact → g.Exact p.settings.model) : p.Undisturbed { p with graph := g } :=
  ⟨⟨rfl, rfl, rfl, rfl, halike, rfl, rfl, rfl, rfl⟩,
    fun h => ⟨h.consistent.congr halike, hexact h⟩⟩

theorem undisturbed_rowCount (node : Node) (p : Planner) :
    p.Undisturbed { p with graph := (rowCount node p.graph).2 } := by
  apply undisturbed_graph (caching_rowCount node p.graph)
  intro h
  obtain ⟨n, rows, cost, hrows, -⟩ := h.consistent.exists_estimates p.settings.model node
  exact (finds_rowCount h.consistent ⟨n, hrows⟩ p.graph (.refl _) h.caches).2.2

theorem undisturbed_cumulativeCost (node : Node) (p : Planner) :
    p.Undisturbed { p with graph := (cumulativeCost p.settings.model node p.graph).2 } := by
  apply undisturbed_graph (caching_cumulativeCost _ node p.graph)
  intro h
  obtain ⟨n, rows, cost, -, hcost⟩ := h.consistent.exists_estimates p.settings.model node
  exact (finds_cumulativeCost h.consistent ⟨n, hcost⟩ p.graph (.refl _) h.caches).2.2

/-- Reports are made without fail. -/
theorem ends_observe (e : Event) (p : Planner) (E : Fault → Planner → Prop) :
    Ends (observe e) p (fun _ q => p.Reported q) E := by
  refine ends_bind.2 (ends_get.2 ?_)
  split
  · exact ends_modify.2 ⟨_, rfl⟩
  · exact ends_pure.2 (.refl p)

theorem transcript_report (e : Event) (p : Planner) :
    transcript { p with events := p.events.push e } = p.transcript ++ e.step?.toList := by
  cases he : e.step? <;> simp [transcript, he]

/-- A message is written down if it is to be, and it is a step unless it is about a sweep. -/
theorem ends_log_written (m : Message) (p : Planner) (E : Fault → Planner → Prop) :
    Ends (log m) p (fun _ q => p.Reported q ∧
      q.transcript = p.transcript ++ p.settings.level.written (Event.logged m).step?.toList) E := by
  have hstep : (Event.logged m).step? = none ∨ (Event.logged m).step? = some m := by
    cases m <;> simp [Event.step?]
  refine ends_bind.2 (ends_get.2 ?_)
  split_ifs with hlevel
  · refine ends_modify.2 ⟨⟨_, rfl⟩, ?_⟩
    rw [transcript_report]
    rcases hstep with h | h <;> simp [h, Level.written, hlevel]
  · refine ends_pure.2 ⟨.refl p, ?_⟩
    rcases hstep with h | h <;> simp [h, Level.written, Nat.not_le.1 hlevel]

theorem ends_log (m : Message) (p : Planner) (E : Fault → Planner → Prop) :
    Ends (log m) p (fun _ q => p.Reported q) E :=
  (ends_log_written m p E).mono (fun _ _ h => h.1) fun _ _ h => h

/-- Operations that ask leave the planner undisturbed, however they end. -/
theorem Asks.undisturbed {x : Planning α} (h : Asks s x) : ∀ p, p.settings = s →
    Ends x p (fun _ q => p.Undisturbed q) fun _ q => p.Undisturbed q := by
  induction h with
  | pure a => exact fun p _ => ends_pure.2 (.refl p)
  | throw f => exact fun p _ => ends_throw.2 (.refl p)
  | read _ _ ih => exact fun p hs => ends_bind.2 (ends_get.2 (ih p hs p hs))
  | log m => exact fun p _ => (ends_log m p _).mono (fun _ _ h => h.undisturbed) fun _ _ h => h
  | report => exact fun p _ => ends_modify.2 (Reported.undisturbed ⟨_, rfl⟩)
  | observe => exact fun p _ => (ends_observe _ p _).mono (fun _ _ h => h.undisturbed) fun _ _ h => h
  | rowCount node => exact fun p _ => ends_onGraph.2 (undisturbed_rowCount node p)
  | cumulativeCost node => exact fun p hs => ends_onGraph.2 (hs ▸ undisturbed_cumulativeCost node p)
  | bind _ _ ihx ihf =>
    intro p hs
    refine ends_bind.2 ((ihx p hs).mono (fun a q hq => ?_) fun _ _ hq => hq)
    exact (ihf a q (hq.settings.trans hs)).mono (fun _ _ => hq.trans) fun _ _ => hq.trans
  | @caught α x _ ih =>
    intro p hs
    have h := ih p hs
    unfold Ends at h
    unfold Ends Planner.caught
    cases hend : x p with
    | ok a q => rwa [hend] at h
    | error f q => rwa [hend] at h
  | @tryCatch α x handler _ _ ihx ihh =>
    intro p hs
    have h := ihx p hs
    show Ends (EStateM.tryCatch x handler) p _ _
    unfold Ends at h
    unfold Ends EStateM.tryCatch
    split at h
    · next hend =>
      rw [hend]
      exact h
    · next f q hend =>
      rw [hend]
      exact (ihh f q (h.settings.trans hs)).mono (fun _ _ => h.trans) fun _ _ => h.trans

theorem Asks.ends {x : Planning α} (h : Asks p.settings x) :
    Ends x p (fun _ q => p.Undisturbed q) fun _ q => p.Undisturbed q := h.undisturbed p rfl

/-- What is not a step may be reported or not. -/
theorem remarked_report {e : Event} (he : e.step? = none) (p : Planner) :
    p.Remarked { p with events := p.events.push e } where
  reported := ⟨_, rfl⟩
  transcript := by
    rw [transcript_report, he]
    exact List.append_nil _

theorem ends_observe_remarked {e : Event} (he : e.step? = none) (p : Planner)
    (E : Fault → Planner → Prop) : Ends (observe e) p (fun _ q => p.Remarked q) E := by
  refine ends_bind.2 (ends_get.2 ?_)
  split
  · exact ends_modify.2 (remarked_report he p)
  · exact ends_pure.2 (.refl p)

end Planning

/-- Two planners were each left undisturbed, and have taken the same steps. -/
structure Planner.Asked (p q p' q' : Planner) : Prop where
  left : p.Undisturbed p'
  right : q.Undisturbed q'
  retold : ∀ level, Retold level p q → Retold level p' q'

namespace Planner.Asked

variable {p' q' : Planner}

theorem refl (p q : Planner) : Asked p q p q := ⟨.refl p, .refl q, fun _ => id⟩

theorem trans {p₁ q₁ : Planner} (h : Asked p q p₁ q₁) (h' : Asked p₁ q₁ p' q') : Asked p q p' q' :=
  ⟨h.left.trans h'.left, h.right.trans h'.right, fun level => h'.retold level ∘ h.retold level⟩

theorem parallel (h : Asked p q p' q') (hpq : p.Parallel q) : p'.Parallel q' :=
  hpq.alike h.left.toAlike h.right.toAlike

end Planner.Asked

namespace Planning

open Planner

theorem remarked_asked {p' q' : Planner} (hp : p.Remarked p') (hq : q.Remarked q') :
    Asked p q p' q' :=
  ⟨hp.reported.undisturbed, hq.reported.undisturbed, fun _ h => h.remarked hp hq⟩

theorem concur_log_asked (m : Message) (p q : Planner) (E : Planner → Planner → Prop) :
    Concur (log m) p q (fun _ p' q' => Asked p q p' q') E := by
  obtain ⟨_, p', hendp, hp, hwritten⟩ := (ends_log_written m p fun _ _ => False).exists_ok
  obtain ⟨_, q', hendq, hq, hwritten'⟩ := (ends_log_written m q fun _ _ => False).exists_ok
  exact concur_of_eq_ok hendp hendq ⟨hp.undisturbed, hq.undisturbed, fun _ h => h.append _
    hp.undisturbed.settings hwritten hq.undisturbed.settings hwritten'⟩

theorem concur_observe_asked {e : Event} (he : e.step? = none) (p q : Planner)
    (E : Planner → Planner → Prop) :
    Concur (observe e) p q (fun _ p' q' => Asked p q p' q') E := by
  obtain ⟨_, p', hendp, hp⟩ := (ends_observe_remarked he p fun _ _ => False).exists_ok
  obtain ⟨_, q', hendq, hq⟩ := (ends_observe_remarked he q fun _ _ => False).exists_ok
  exact concur_of_eq_ok hendp hendq (remarked_asked hp hq)

/-- What is found out by asking depends neither on exact caches nor on reports, nor on who observes
the planner or what is written down. -/
theorem Asks.concur {s : Settings} {x : Planning α} (h : Asks s x) : ∀ p q, p.settings = s →
    p.Parallel q → p.Exact → q.Exact →
      Concur x p q (fun _ p' q' => Asked p q p' q') fun p' q' => Asked p q p' q' := by
  induction h with
  | pure a => exact fun p q _ _ _ _ => concur_pure (.refl p q)
  | throw f => exact fun p q _ _ _ _ => concur_throw (.refl p q)
  | @read α k _ hparallel ih =>
    exact fun p q hs hpq hp hq => concur_get (hparallel p q hpq) (ih p hs p q hs hpq hp hq)
  | log m => exact fun p q _ _ _ _ => concur_log_asked m p q _
  | report _ hstep =>
    exact fun p q _ _ _ _ => ⟨rfl, remarked_asked (remarked_report hstep p) (remarked_report hstep q)⟩
  | observe _ hstep => exact fun p q _ _ _ _ => concur_observe_asked hstep p q _
  | rowCount node =>
    intro p q hs hpq hp hq
    obtain ⟨n, rows, cost, hrows, -⟩ := hp.consistent.exists_estimates p.settings.model node
    have hfinds : p.graph.Finds p.settings.model (Graph.rowCount node) rows :=
      finds_rowCount hp.consistent ⟨n, hrows⟩
    have hp' := hfinds p.graph (.refl _) hp.caches
    have hq' := hfinds q.graph hpq.graph (hpq.settings.model ▸ hq.caches)
    exact ⟨hq'.1.trans hp'.1.symm, undisturbed_rowCount node p, undisturbed_rowCount node q,
      fun _ h => h.congr rfl rfl rfl rfl⟩
  | cumulativeCost node =>
    intro p q hs hpq hp hq
    subst hs
    obtain ⟨n, rows, cost, -, hcost⟩ := hp.consistent.exists_estimates p.settings.model node
    have hfinds := finds_cumulativeCost hp.consistent ⟨n, hcost⟩
    have hp' := hfinds p.graph (.refl _) hp.caches
    have hq' := hfinds q.graph hpq.graph (hpq.settings.model ▸ hq.caches)
    refine ⟨hq'.1.trans hp'.1.symm, undisturbed_cumulativeCost node p, ?_,
      fun _ h => h.congr rfl rfl rfl rfl⟩
    rw [← hpq.settings.model]
    exact undisturbed_cumulativeCost node q
  | @bind α β x f hx _ ihx ihf =>
    intro p q hs hpq hp hq
    refine (ihx p q hs hpq hp hq).bind fun a p' q' h => ?_
    exact (ihf a p' q' (h.left.settings.trans hs) (h.parallel hpq) (h.left.exact hp)
      (h.right.exact hq)).mono (fun _ _ _ => h.trans) fun _ _ => h.trans
  | @caught α x _ ih =>
    intro p q hs hpq hp hq
    unfold Concur Planner.caught
    obtain ⟨a, p', q', hendp, hendq, h⟩ | ⟨f, p', q', hendp, hendq, h⟩ :=
      (ih p q hs hpq hp hq).cases_on
    · rw [hendp, hendq]
      exact ⟨rfl, h⟩
    · rw [hendp, hendq]
      exact ⟨rfl, h⟩
  | @tryCatch α x handler _ _ ihx ihh =>
    intro p q hs hpq hp hq
    show Concur (EStateM.tryCatch x handler) p q _ _
    unfold Concur EStateM.tryCatch
    obtain ⟨a, p', q', hendp, hendq, h⟩ | ⟨f, p', q', hendp, hendq, h⟩ :=
      (ihx p q hs hpq hp hq).cases_on
    · rw [hendp, hendq]
      exact ⟨rfl, h⟩
    · rw [hendp, hendq]
      exact (ihh f p' q' (h.left.settings.trans hs) (h.parallel hpq) (h.left.exact hp)
        (h.right.exact hq)).mono (fun _ _ _ => h.trans) fun _ _ => h.trans

end Planning

end QueryPlanner
