import QueryPlanner.Proofs.Graph.Lifetimes
import QueryPlanner.Proofs.Planner.Lockstep
import QueryPlanner.Proofs.Planner.Reached

/-!
# Placeholders do not go stale

Whatever a planner is told to do, and whether it succeeds or not, its graph comes about by changes
that are made to graphs. Parents may be redirected by hand, also those that do not refer to the vertex
in question, and cycles may be closed. So what is read from a placeholder at any time is what the
expression of its vertex has, and what the vertex was created with, although ids of removed vertices
are given out again.
-/

namespace QueryPlanner

open QueryPlanner.Graph Planning

namespace Planner

variable {α β : Type} {p q r : Planner} {x : Planning α} {node : Node} {id : VertexId}

/-- The graph has been changed step by step, with the sweeps on the way that the planner has noted. -/
structure Evolved (p q : Planner) : Prop where
  settings : q.settings = p.settings
  course : ∃ sweeps, q.sweeps = p.sweeps ++ sweeps ∧
    Course p.settings.digestMode p.graph sweeps q.graph

namespace Evolved

theorem of_change (hsettings : q.settings = p.settings) (hsweeps : q.sweeps = p.sweeps)
    (h : Change p.settings.digestMode p.graph [] q.graph) : p.Evolved q :=
  ⟨hsettings, [], by rw [hsweeps, List.append_nil], .single h⟩

theorem of_alike (hsettings : q.settings = p.settings) (hsweeps : q.sweeps = p.sweeps)
    (h : p.graph.Alike q.graph) : p.Evolved q := .of_change hsettings hsweeps (.noted h)

theorem refl (p : Planner) : p.Evolved p := .of_alike rfl rfl (.refl _)

theorem trans (h : p.Evolved q) (h' : q.Evolved r) : p.Evolved r := by
  obtain ⟨hsettings, before, hbefore, hpq⟩ := h
  obtain ⟨hsettings', after, hafter, hqr⟩ := h'
  refine ⟨hsettings'.trans hsettings, before ++ after, ?_, hpq.trans ?_⟩
  · rw [hafter, hbefore, List.append_assoc]
  · rwa [hsettings] at hqr

theorem reliable (h : p.Evolved q) (hp : p.graph.Reliable) : q.graph.Reliable := by
  obtain ⟨-, _, -, h⟩ := h
  exact h.reliable hp

end Evolved

theorem Undisturbed.evolved (h : p.Undisturbed q) : p.Evolved q :=
  .of_alike h.settings h.sweeps h.graph

theorem Reported.evolved (h : p.Reported q) : p.Evolved q := by
  obtain ⟨events, rfl⟩ := h
  exact .of_alike rfl rfl (.refl _)

theorem evolved_caughtUp (p : Planner) : p.Evolved p.caughtUp := by
  unfold caughtUp
  split_ifs with hclean
  · exact .refl p
  · cases hroot : p.graph.root with
    | none => exact .of_alike rfl rfl (.refl _)
    | some root =>
      simp only
      split_ifs with hdead hempty
      · exact .of_alike rfl rfl (.refl _)
      · exact .of_alike rfl rfl (.refl _)
      · exact ⟨rfl, _, rfl, .single <| .swept hroot (Bool.not_eq_false _ ▸ hdead)
          (p.settings.sweepOrder_perm p.sweeps.length _)⟩

/-- The graph has been changed, and no vertex was removed. -/
structure Enlarged (p q : Planner) : Prop extends p.Evolved q where
  placeholders : ∀ id n, p.graph.placeholder? id = some n → q.graph.placeholder? id = some n

namespace Enlarged

theorem of_change {g : Graph} {events : Array Event}
    (h : Change p.settings.digestMode p.graph [] g)
    (hplaceholders : ∀ id, g.placeholder? id = p.graph.placeholder? id) :
    p.Enlarged { p with graph := g, events } :=
  ⟨.of_change rfl rfl h, fun id _ hn => (hplaceholders id).trans hn⟩

theorem refl (p : Planner) : p.Enlarged p := ⟨.refl p, fun _ _ h => h⟩

theorem trans (h : p.Enlarged q) (h' : q.Enlarged r) : p.Enlarged r :=
  ⟨h.toEvolved.trans h'.toEvolved, fun id n hn => h'.placeholders id n (h.placeholders id n hn)⟩

end Enlarged

/-- However the operation ends, the graph has evolved. -/
def Evolves (x : Planning α) : Prop :=
  ∀ p, p.graph.Reliable → Ends x p (fun _ q => p.Evolved q) fun _ q => p.Evolved q

/-! ## Parts of operations -/

theorem evolves_asks (h : ∀ s, Asks s x) : Evolves x := fun p _ =>
  (h p.settings).ends.mono (fun _ _ h => h.evolved) fun _ _ h => h.evolved

theorem evolves_pure (a : α) : Evolves (pure a : Planning α) := fun p _ => ends_pure.2 (.refl p)

theorem evolves_throw (f : Fault) : Evolves (throw f : Planning α) := fun p _ => ends_throw.2 (.refl p)

theorem evolves_log (m : Message) : Evolves (log m) := evolves_asks fun _ => .log m

theorem evolves_observe (e : Event) : Evolves (observe e) := fun p _ =>
  (ends_observe e p fun _ q => p.Evolved q).mono (fun _ _ h => h.undisturbed.evolved) fun _ _ h => h

theorem evolves_read {k : Planner → Planning α} (h : ∀ p, Evolves (k p)) : Evolves (get >>= k) :=
  fun p hp => ends_bind.2 (ends_get.2 (h p p hp))

theorem evolves_ite {c : Prop} [Decidable c] {y : Planning α} (hx : Evolves x) (hy : Evolves y) :
    Evolves (if c then x else y) := by
  split <;> assumption

theorem Evolves.bind {f : α → Planning β} (hx : Evolves x) (hf : ∀ a, Evolves (f a)) :
    Evolves (x >>= f) := fun p hp => ends_bind.2 <| (hx p hp).mono
  (fun a q hq => (hf a q (hq.reliable hp)).mono (fun _ _ => hq.trans) fun _ _ => hq.trans)
  fun _ _ h => h

theorem evolves_forM {f : α → Planning PUnit} (hf : ∀ a, Evolves (f a)) (xs : List α) :
    Evolves (xs.forM f) := by
  induction xs with
  | nil => exact evolves_pure _
  | cons a xs ih => exact (hf a).bind fun _ => ih

/-- What is changed is not the graph. -/
theorem evolves_modify {f : Planner → Planner} (hsettings : ∀ p, (f p).settings = p.settings)
    (hsweeps : ∀ p, (f p).sweeps = p.sweeps) (hgraph : ∀ p, (f p).graph = p.graph) :
    Evolves (modify f) := fun p _ =>
  ends_modify.2 (.of_alike (hsettings p) (hsweeps p) (hgraph p ▸ .refl _))

theorem evolves_onGraph {x : StateM Graph α} (h : Caching x) : Evolves (onGraph x) := fun p _ =>
  ends_onGraph.2 (.of_alike rfl rfl (h p.graph))

theorem evolves_setRoot_graph (root : VertexId) :
    Evolves (modifyGraph fun g => { g with root := some root }) := fun _ _ =>
  ends_modify.2 (.of_change rfl rfl (.rooted _))

/-! ## Adding -/

/-- An expression over placeholders is inserted, or nothing happens. -/
theorem ends_place_enlarged (hp : p.graph.Reliable) (hn : p.graph.OverVertices node)
    (E : Fault → Planner → Prop) : Ends (place node) p (fun _ q => p.Enlarged q) E := by
  rw [Ends, place_eq]
  cases p.shared? node with
  | some id => exact .refl p
  | none =>
    have hins := inserted_insert hp.free node (node.key p.settings.digestMode)
    exact ⟨.of_change rfl rfl (.inserted hn), fun i n hi =>
      hins.placeholder?_of_some hp.free hi⟩

mutual

theorem ends_add_enlarged : ∀ (n : Node) (p : Planner), p.graph.Reliable →
    Ends (add n) p (fun _ q => p.Enlarged q) fun _ q => p.Enlarged q
  | ⟨op, inputs, traits, rowType⟩, p, hp => by
    by_cases hop : ∃ j, op = .vertex j
    · obtain ⟨j, rfl⟩ := hop
      rw [add]
      refine ends_bind.2 (ends_get.2 ?_)
      split
      · exact ends_bind.2 (ends_structuralFault.2 (.refl p))
      · exact ends_pure.2 (.refl p)
    · have hop : ∀ j, op ≠ .vertex j := fun j hj => hop ⟨j, hj⟩
      rw [add]
      · apply (ends_addInputs_enlarged inputs p hp).bind
        rintro placeholders q ⟨hq, hinputs⟩
        have hover : q.graph.OverVertices ⟨op, placeholders, traits, rowType⟩ :=
          ⟨Node.vertexId?_eq_none.2 hop, hinputs⟩
        exact (ends_place_enlarged (hq.reliable hp) hover _).mono (fun _ _ hr => hq.trans hr)
          fun _ _ h => h
      · exact hop

/-- The inputs are replaced by placeholders that vertices have. -/
theorem ends_addInputs_enlarged : ∀ (ns : List Node) (p : Planner), p.graph.Reliable →
    Ends (addInputs ns) p (fun placeholders q => p.Enlarged q ∧
      ∀ i ∈ placeholders, ∃ j, q.graph.placeholder? j = some i) fun _ q => p.Enlarged q
  | [], p, _ => by
    rw [addInputs]
    exact ends_pure.2 ⟨.refl p, by simp⟩
  | n :: ns, p, hp => by
    rw [addInputs]
    apply (ends_add_enlarged n p hp).bind
    intro id q hq
    refine ends_bind.2 (ends_bind.2 (ends_get.2 ?_))
    cases hplaceholder : q.graph.placeholder? id with
    | none => exact ends_structuralFault.2 hq
    | some placeholder =>
      refine ends_pure.2 (ends_bind.2 ((ends_addInputs_enlarged ns q (hq.reliable hp)).mono ?_
        fun _ _ hr => hq.trans hr))
      rintro rest r ⟨hr, hrest⟩
      exact ends_pure.2 ⟨hq.trans hr, List.forall_mem_cons.2
        ⟨⟨id, hr.placeholders id placeholder hplaceholder⟩, hrest⟩⟩

end

theorem evolves_add (node : Node) : Evolves (add node) := fun p hp =>
  (ends_add_enlarged node p hp).mono (fun _ _ h => h.toEvolved) fun _ _ h => h.toEvolved

theorem evolves_setRoot (plan : Node) : Evolves (setRoot plan) :=
  (evolves_add plan).bind fun root => (evolves_setRoot_graph root).bind fun _ =>
    evolves_read fun _ => evolves_log _

/-! ## Redirecting -/

section Redirect

variable {preserved discarded : VertexId} {placeholder : Node}

theorem ends_redirect_enlarged (h : p.graph.placeholder? preserved = some placeholder)
    (parent : VertexId) : Ends (redirect preserved discarded placeholder parent) p
      (fun _ q => p.Enlarged q) fun _ q => p.Enlarged q := by
  cases hnode : p.graph.current? parent with
  | none =>
    refine ends_bind.2 (ends_bind.2 (ends_get.2 ?_))
    rw [hnode]
    exact ends_structuralFault.2 (.refl p)
  | some node =>
    refine (ends_redirect hnode _).mono ?_ fun _ _ h => h
    rintro _ _ ⟨events, rfl⟩
    exact .of_change (.redirected h discarded parent)
      (redirected_redirect _ preserved discarded placeholder hnode).placeholders

/-- The placeholder stays that of the preserved vertex while parents are redirected. -/
theorem ends_forM_redirect_enlarged (parents : List VertexId) :
    ∀ p : Planner, p.graph.placeholder? preserved = some placeholder →
      Ends (parents.forM (redirect preserved discarded placeholder)) p
        (fun _ q => p.Enlarged q) fun _ q => p.Enlarged q := by
  induction parents with
  | nil => exact fun p _ => ends_pure.2 (.refl p)
  | cons parent parents ih =>
    intro p h
    apply (ends_redirect_enlarged h parent).bind
    intro _ q hq
    exact (ih q (hq.placeholders preserved placeholder h)).mono (fun _ _ => hq.trans)
      fun _ _ => hq.trans

end Redirect

theorem evolves_contract (preserved discarded : VertexId) (parents : List VertexId) :
    Evolves (Planner.contract preserved discarded parents) := by
  intro p hp
  unfold Planner.contract
  split_ifs
  · exact ends_pure.2 (.refl p)
  refine ends_bind.2 (ends_bind.2 (ends_get.2 ?_))
  cases hnode : p.graph.current? preserved with
  | none => exact ends_structuralFault.2 (.refl p)
  | some node =>
    refine ends_pure.2 (ends_bind.2 ((ends_replace (contains_of_current hnode) false _).mono ?_
      fun _ _ h => h))
    rintro _ _ ⟨events, rfl⟩
    have h₁ : p.Enlarged { p with
        graph := p.graph.replace preserved node (node.key p.settings.digestMode), events } :=
      .of_change (.registered hnode) fun i => (bodies_replace hnode _ i).2
    have hplaceholder := h₁.placeholders preserved _ (hp.placeholders preserved node hnode)
    refine ends_bind.2 (ends_bind.2 (ends_get.2 ?_))
    rw [hplaceholder]
    refine ends_pure.2 (ends_bind.2 ((ends_forM_redirect_enlarged parents _ hplaceholder).mono ?_
      fun _ _ h => (h₁.trans h).toEvolved))
    intro _ q hq
    have h₂ := (h₁.trans hq).toEvolved
    refine ends_bind.2 (ends_get.2 ?_)
    split_ifs
    · exact (evolves_setRoot_graph preserved q (h₂.reliable hp)).mono (fun _ _ => h₂.trans)
        fun _ _ => h₂.trans
    · exact ends_pure.2 h₂

/-! ## Firing and executing -/

theorem evolves_collectGarbage : Evolves collectGarbage := fun p _ =>
  (ends_collectGarbage_caughtUp p fun _ q => p.Evolved q).mono
    (fun _ _ h => (evolved_caughtUp p).trans h.reported.evolved) fun _ _ h => h

theorem evolves_substitute (rule : Rule) (id : VertexId) (accepts : Node → Bool) (first : Node)
    (others : List Node) : Evolves (substitute rule id accepts first others) := by
  refine (evolves_asks fun _ => asks_cheapest first others).bind fun best => evolves_read fun p => ?_
  refine (evolves_add best).bind fun result => evolves_ite (evolves_pure _) ?_
  refine (evolves_contract result id _).bind fun _ => ?_
  have hrest : Evolves (do
      log (.substituted rule.description id result)
      checkAcyclic (some rule.description)
      return some result) :=
    evolves_asks fun _ => (Asks.log _).bind fun _ => (asks_checkAcyclic _).bind fun _ => .pure _
  split
  · exact Evolves.bind (evolves_modify (fun _ => rfl) (fun _ => rfl) fun _ => rfl) fun _ => hrest
  · exact hrest

theorem evolves_attempt (rule : Rule) (id : VertexId) (force : Bool) :
    Evolves (attempt rule id force) := by
  refine evolves_read fun p => evolves_ite (evolves_pure _) ?_
  refine (evolves_asks fun _ => asks_occasion? rule id force).bind ?_
  rintro (_ | occasion)
  · exact evolves_pure _
  refine (evolves_asks fun _ => asks_current id).bind fun node => evolves_read fun p => ?_
  split
  · exact evolves_throw _
  · exact evolves_pure _
  refine (evolves_asks fun _ => asks_fire rule node _).bind ?_
  rintro (_ | ⟨first, others⟩)
  · exact evolves_pure _
  refine (evolves_substitute rule id _ first others).bind ?_
  rintro (_ | result)
  · exact evolves_pure _
  · exact evolves_pure _

theorem evolves_apply (rule : Rule) (id : VertexId) (force : Bool) :
    Evolves (apply rule id force) := by
  refine (evolves_attempt rule id force).bind ?_
  rintro (_ | replacement)
  · exact evolves_pure _
  refine Evolves.bind ?_ fun _ => evolves_pure _
  refine evolves_read fun p => evolves_ite ?_ (evolves_pure _)
  refine (evolves_asks fun _ => asks_current _).bind fun after => evolves_read fun p => ?_
  refine (evolves_onGraph (caching_cumulativeCost _ _)).bind fun _ =>
    (evolves_onGraph (caching_cumulativeCost _ _)).bind fun _ => ?_
  exact (evolves_asks fun _ => .report rfl rfl).bind fun _ => evolves_collectGarbage

theorem evolves_schedule (start : VertexId) : Evolves (schedule start) := by
  refine evolves_collectGarbage.bind fun _ => evolves_read fun p => ?_
  split
  · exact evolves_read fun _ => evolves_pure _
  · exact evolves_read fun _ => evolves_pure _
  · exact evolves_asks fun _ => asks_topologicalOrder
  · exact (evolves_asks fun _ => asks_topologicalOrder).bind fun _ => evolves_pure _

theorem evolves_scheduleFromRoot : Evolves scheduleFromRoot :=
  (evolves_asks fun _ => asks_requireRoot).bind evolves_schedule

theorem evolves_visit (rules : List Rule) (force : Bool) (id : VertexId) :
    Evolves (visit rules force id) := by
  induction rules with
  | nil => exact evolves_pure _
  | cons rule rest ih =>
    rw [visit]
    refine (evolves_apply rule id force).bind ?_
    rintro (_ | result)
    · exact ih
    · exact evolves_ite (evolves_pure _) ih

theorem evolves_resume (result : VertexId) (settled : Bool) (rest : List VertexId) :
    Evolves (resume result settled rest) :=
  evolves_read fun _ => evolves_ite evolves_scheduleFromRoot
    ((evolves_schedule result).bind fun _ => evolves_pure _)

theorem evolves_traverse (rules : List Rule) (force : Bool) (n : Nat) :
    ∀ pending settled matched, Evolves (traverse rules force n pending settled matched) := by
  induction n with
  | zero => exact fun _ _ _ => evolves_throw _
  | succ n ih =>
    intro pending settled matched
    cases pending with
    | nil =>
      rw [traverse]
      exact evolves_ite (evolves_pure _) (evolves_scheduleFromRoot.bind fun _ => ih _ _ _)
    | cons id rest =>
      rw [traverse]
      refine (evolves_visit rules force id).bind ?_
      rintro (_ | result)
      · exact ih _ _ _
      · refine evolves_read fun p => evolves_ite (evolves_pure _) ?_
        exact (evolves_resume result settled rest).bind fun _ => evolves_read fun _ => ih _ _ _

theorem evolves_fireRules (fuel : Nat) (rules : List Rule) (force : Bool) :
    Evolves (fireRules fuel rules force) :=
  (evolves_log _).bind fun _ => evolves_scheduleFromRoot.bind fun _ =>
    evolves_traverse rules force fuel _ _ _

theorem evolves_sweepIfLarge : Evolves sweepIfLarge :=
  evolves_read fun _ => evolves_ite evolves_collectGarbage (evolves_pure _)

/-- An operation in whose course graphs evolve, seen as run twice. -/
theorem Evolves.paired {p₀ : Planner} (hx : Evolves x) (hp₀ : p₀.graph.Reliable)
    (h : q = p ∧ p₀.Evolved p) :
    Paired x x p q (fun _ _ p q => q = p ∧ p₀.Evolved p) fun _ _ p q => q = p ∧ p₀.Evolved p := by
  obtain ⟨rfl, h⟩ := h
  have hends := hx q (h.reliable hp₀)
  unfold Ends at hends
  unfold Paired
  cases hend : x q <;> rw [hend] at hends <;> exact ⟨rfl, h.trans hends⟩

theorem lockstep_evolved {p₀ : Planner} (hp₀ : p₀.graph.Reliable) :
    Lockstep (fun _ => True) (fun _ => True) (fun p q => q = p ∧ p₀.Evolved p)
      fun _ _ p q => q = p ∧ p₀.Evolved p where
  fresh := trivial
  allows _ := ⟨by simp, by simp, by simp⟩
  order _ := trivial
  registry h := by rw [h.1]
  execution h := by rw [h.1]
  transformations h := by rw [h.1]
  executed h _ _ := ⟨by rw [h.1], h.2.settings, h.2.course⟩
  log m h := (evolves_log m).paired hp₀ h
  fireRules fuel force _ h := (evolves_fireRules fuel _ force).paired hp₀ h
  sweepIfLarge h := evolves_sweepIfLarge.paired hp₀ h
  fault _ h := h
  fault_execution _ h := ⟨by rw [h.1], h.2.settings, h.2.course⟩

theorem evolves_execute (fuel : Nat) (program : Program) : Evolves (execute fuel program) := by
  intro p hp
  have hrules : ∀ r ∈ program.rules, True := fun _ _ => trivial
  have h := (lockstep_evolved hp).execute hrules (fun _ _ => trivial) ⟨rfl, .refl p⟩ fuel
  unfold Ends
  obtain ⟨_, _, q, _, hq, -, h⟩ | ⟨f, _, q, _, hq, -, h⟩ := h.cases_on
  · rw [hq]
    exact h.2
  · rw [hq]
    exact h.2

/-! ## Building and extracting -/

theorem evolves_addRule (rule : Rule) : Evolves (addRule rule) := by
  rw [addRule_eq]
  refine evolves_read fun p => ?_
  split
  · exact evolves_throw _
  · exact evolves_pure _
  · refine (evolves_log _).bind fun _ => Evolves.bind ?_ fun _ => evolves_pure _
    exact evolves_modify (fun _ => rfl) (fun _ => rfl) fun _ => rfl

theorem evolves_load (rules : List Rule) (plan : Node) : Evolves (load rules plan) :=
  evolves_read fun _ => (evolves_forM (fun rule => (evolves_addRule rule).bind fun _ =>
    evolves_pure _) _).bind fun _ => evolves_setRoot plan

theorem evolves_extractInputs {ofVertex : VertexId → Assembly → Planning (Nat × Assembly)}
    (h : ∀ id a, Evolves (ofVertex id a)) (ns : List Node) :
    ∀ a, Evolves (extractInputs ofVertex ns a) := by
  induction ns with
  | nil => exact fun a => evolves_pure _
  | cons n ns ih =>
    intro a
    rw [extractInputs]
    cases n.vertexId? with
    | none => exact (evolves_pure _).bind fun _ => (ih _).bind fun _ => evolves_pure _
    | some id => exact (h id a).bind fun _ => (ih _).bind fun _ => evolves_pure _

theorem evolves_extract (n : Nat) : ∀ id a, Evolves (extract n id a) := by
  induction n with
  | zero => exact fun _ _ => evolves_throw _
  | succ n ih =>
    intro id a
    rw [extract]
    split
    · exact evolves_pure _
    refine (evolves_asks fun _ => asks_current id).bind fun node => ?_
    split
    · exact evolves_throw _
    · exact (evolves_observe _).bind fun _ => (evolves_extractInputs ih node.inputs a).bind fun _ =>
        evolves_pure _

theorem evolves_finalPlan (root : VertexId) : Evolves (finalPlan root) := by
  refine evolves_read fun p => (evolves_extract _ root .empty).bind fun a => ?_
  simp only
  split
  · exact evolves_pure _
  · exact evolves_asks fun _ => asks_structuralFault _ _

theorem evolves_findBestPlan (fuel : Nat) : Evolves (findBestPlan fuel) := by
  refine evolves_read fun p => (evolves_log _).bind fun _ => (evolves_execute fuel _).bind fun _ => ?_
  refine evolves_collectGarbage.bind fun _ => ?_
  refine (evolves_asks fun _ => asks_requireRoot).bind fun root => ?_
  exact (evolves_finalPlan root).bind fun plan => evolves_read fun _ => (evolves_log _).bind fun _ =>
    evolves_pure _

/-! ## Use -/

/-- The operations of a planner, those that programs consist of among them. -/
inductive Operation : {α : Type} → Planning α → Prop
  | add (node : Node) : Operation (add node)
  | setRoot (plan : Node) : Operation (setRoot plan)
  | contract (preserved discarded : VertexId) (parents : List VertexId) :
      Operation (Planner.contract preserved discarded parents)
  | collectGarbage : Operation collectGarbage
  | addRule (rule : Rule) : Operation (addRule rule)
  | execute (fuel : Nat) (program : Program) : Operation (execute fuel program)
  | findBestPlan (fuel : Nat) : Operation (findBestPlan fuel)
  | convertTraits (node : Node) (traits : TraitSet) : Operation (convertTraits node traits)
  | rowCount (node : Node) : Operation (onGraph (rowCount node))
  | cumulativeCost (model : CostModel) (node : Node) :
      Operation (onGraph (cumulativeCost model node))
  | apply (rule : Rule) (id : VertexId) (force : Bool) : Operation (apply rule id force)
  | log (m : Message) : Operation (log m)
  | execution (f : Execution → Execution) :
      Operation (modify fun p : Planner => { p with execution := f p.execution })

theorem Operation.evolves (h : Operation x) : Evolves x := by
  cases h with
  | add node => exact evolves_add node
  | setRoot plan => exact evolves_setRoot plan
  | contract preserved discarded parents => exact evolves_contract preserved discarded parents
  | collectGarbage => exact evolves_collectGarbage
  | addRule rule => exact evolves_addRule rule
  | execute fuel program => exact evolves_execute fuel program
  | findBestPlan fuel => exact evolves_findBestPlan fuel
  | convertTraits node traits => exact evolves_asks fun _ => asks_convertTraits node traits
  | rowCount node => exact evolves_onGraph (caching_rowCount node)
  | cumulativeCost model node => exact evolves_onGraph (caching_cumulativeCost model node)
  | apply rule id force => exact evolves_apply rule id force
  | log m => exact evolves_log m
  | execution f => exact evolves_modify (fun _ => rfl) (fun _ => rfl) fun _ => rfl

/-- States of a planner that is told to do whatever it can do, also where it fails. -/
inductive Later (p : Planner) : Planner → Prop
  | refl : Later p p
  | called {q : Planner} {α : Type} {x : Planning α} (h : Later p q) (hx : Operation x) :
      Later p (left (x q))

/-- States of a planner that was built and is in use. -/
inductive Used : Planner → Prop
  | of_build {settings : Settings} {program : Program} {rules : List Rule} {plan : Node}
      {p q : Planner} (h : build settings program rules plan = .ok () p) (hq : p.Later q) : Used q

theorem Evolves.left (hx : Evolves x) (hp : p.graph.Reliable) : p.Evolved (left (x p)) := by
  have h := hx p hp
  unfold Ends at h
  cases hend : x p <;> rw [hend] at h <;> exact h

theorem Later.evolved (hp : p.graph.Reliable) (h : p.Later q) : p.Evolved q := by
  induction h with
  | refl => exact .refl p
  | called _ hx ih => exact ih.trans (hx.evolves.left (ih.reliable hp))

/-- The graph of a planner that is used comes about by changes of the empty one. -/
theorem Used.arises (h : Used p) : p.graph.Arises p.settings.digestMode := by
  obtain @⟨settings, program, rules, plan, p, q, h, hq⟩ := h
  have hload := (evolves_load rules plan (initial settings program) reliable_empty).ok h
  have hq := hload.trans (hq.evolved (hload.reliable reliable_empty))
  obtain ⟨sweeps, -, hcourse⟩ := hq.course
  rw [hq.settings]
  exact ⟨sweeps, hcourse⟩

/-- Every vertex of a planner that is used was created for some expression, and not removed since
then. At all times of its life it has the same placeholder, and an expression that differs from the
first one in its inputs alone; whoever refers to it reads from the placeholder what its expression
has. At any later time it lives on if none of the sweeps that the planner has noted since then has
removed its id; otherwise the first of them that did has ended its life. -/
theorem lives_of_used (h : Used p) (hid : p.graph.contains id = true) :
    ∃ origin, Lives p.settings.digestMode origin id p.graph ∧
      (∀ g, Lives p.settings.digestMode origin id g → g.Upholds origin id) ∧
      ∀ q, p.Later q → ∃ sweeps, q.sweeps = p.sweeps ++ sweeps ∧
        ((∀ removed ∈ sweeps, id ∉ removed) ∧ Lives p.settings.digestMode origin id q.graph ∨
          Ended p.settings.digestMode origin id p.graph sweeps q.graph) := by
  obtain ⟨origin, hlives⟩ := h.arises.exists_lives hid
  refine ⟨origin, hlives, fun g hg => hg.upholds, fun q hq => ?_⟩
  obtain ⟨sweeps, hsweeps, hcourse⟩ := (hq.evolved h.arises.reliable).course
  exact ⟨sweeps, hsweeps, hlives.lives_or_ended hcourse⟩

/-- After the limits were merged, the id of the outer one is given to a limit with other traits. -/
def recycledLimits : Planner :=
  left (add ⟨.limit 7, [.placeholder 0 .default .empty], ⟨⟨"LOCAL"⟩, .unordered⟩, .empty⟩
    mergedLimits)

theorem lives_of_used_recycledLimits :
    mergedLimits.graph.contains 2 = false ∧ (∃ removed ∈ mergedLimits.sweeps, 2 ∈ removed) ∧
    mergedLimits.Later recycledLimits ∧
    ∃ origin, Lives recycledLimits.settings.digestMode origin 2 recycledLimits.graph ∧
      (∀ g, Lives recycledLimits.settings.digestMode origin 2 g → g.Upholds origin 2) ∧
      ∀ q, recycledLimits.Later q → ∃ sweeps, q.sweeps = recycledLimits.sweeps ++ sweeps ∧
        ((∀ removed ∈ sweeps, 2 ∉ removed) ∧
            Lives recycledLimits.settings.digestMode origin 2 q.graph ∨
          Ended recycledLimits.settings.digestMode origin 2 recycledLimits.graph sweeps
            q.graph) := by
  have hbuild : succeeded (build .default ⟨[]⟩ [] stackedLimits) = true := by decide +kernel
  have hlater : mergedLimits.Later recycledLimits := .called .refl (.add _)
  have hused : Used recycledLimits := .of_build (eq_ok_of_succeeded hbuild)
    (.called (.called .refl (.execute 9 ⟨[.rule Rule.removeLimit]⟩)) (.add _))
  exact ⟨by decide +kernel, by decide +kernel, hlater, lives_of_used hused (by decide +kernel)⟩

end Planner

end QueryPlanner
