import QueryPlanner.Proofs.Graph.Equivariance
import QueryPlanner.Proofs.Planner.Fixpoint
import QueryPlanner.Proofs.Planner.Pairing
import QueryPlanner.Proofs.Rule.Blindness

/-!
# Planners with renamed vertices

Two planners whose graphs differ in the names of vertices get the same answers up to these names: from
rules and converters that do not look at vertex ids, from patterns, and from the cost model. This needs
caches that are exact, and a digest entry for every vertex where vertices are shared.
-/

namespace QueryPlanner

open QueryPlanner.Graph Planning

variable {α β γ δ : Type} {π : Equiv.Perm VertexId} {A : Rule → Prop} {p q p' q' : Planner}
  {phase : Phase}

/-! ## Impartial planners -/

/-- An unobserved planner in which nothing depends on vertex ids but the order in which vertices are
visited. -/
structure Planner.Impartial (A : Rule → Prop) (p : Planner) : Prop where
  tame : p.Tame
  unobserved : p.settings.observed = false
  model : p.settings.model.Blind
  rules : ∀ r, A r → r.Blind ∧ Plain p.settings.dag r
  allows : p.Allows A
  converters : ∀ s t, ∀ r ∈ p.registry.convertersOf s t, A r
  /-- Where vertices are shared, each is found by its key. -/
  entered : p.settings.dag = true → p.graph.Entered

namespace Planner.Impartial

theorem linked (h : p.Impartial A) : p.graph.Linked p.settings.digestMode :=
  h.tame.exact.consistent.toLinked

/-- What the settings and the registry promise stays true as long as they stay. -/
theorem congr (h : p.Impartial A) (hsettings : q.settings = p.settings)
    (hregistry : q.registry = p.registry) (htame : q.Tame) (hallows : q.Allows A)
    (hentered : p.settings.dag = true → q.graph.Entered) : q.Impartial A where
  tame := htame
  unobserved := by rw [hsettings, h.unobserved]
  model := by
    rw [hsettings]
    exact h.model
  rules := by
    rw [hsettings]
    exact h.rules
  allows := hallows
  converters := by
    rw [hregistry]
    exact h.converters
  entered := by rwa [hsettings]

theorem undisturbed (h : p.Impartial A) (hq : p.Undisturbed q) : q.Impartial A :=
  h.congr hq.settings hq.registry (h.tame.undisturbed hq) (h.allows.congr hq.registry hq.execution)
    fun hdag => (h.entered hdag).congr hq.graph

end Planner.Impartial

/-! ## Renamed planners -/

/-- Settings that differ in the order in which garbage is removed, in which messages are written down
and in whether somebody observes the planner. -/
structure Settings.Resemble (s t : Settings) : Prop where
  dag : t.dag = s.dag
  digestMode : t.digestMode = s.digestMode
  model : t.model = s.model
  rootTraits : t.rootTraits = s.rootTraits
  dimensions : t.dimensions = s.dimensions
  cancelled : t.cancelled = s.cancelled

/-- Planners that differ in the order in which garbage is removed, in the names of vertices, in cached
costs and in reports. -/
structure Planner.Renamed (π : Equiv.Perm VertexId) (p q : Planner) : Prop where
  settings : p.settings.Resemble q.settings
  program : q.program = p.program
  registry : q.registry = p.registry
  execution : q.execution = p.execution
  graph : p.graph.Renamed π q.graph
  transformations : q.transformations = p.transformations
  transformationsAtSweep : q.transformationsAtSweep = p.transformationsAtSweep
  sizeAtSweep : q.sizeAtSweep = p.sizeAtSweep

theorem Planner.Renamed.alike (h : p.Renamed π q) (hp : p.Alike p') (hq : q.Alike q') :
    p'.Renamed π q' where
  settings := by
    rw [hp.settings, hq.settings]
    exact h.settings
  program := by rw [hq.program, h.program, hp.program]
  registry := by rw [hq.registry, h.registry, hp.registry]
  execution := by rw [hq.execution, h.execution, hp.execution]
  graph := h.graph.congr hp.graph hq.graph
  transformations := by rw [hq.transformations, h.transformations, hp.transformations]
  transformationsAtSweep := by
    rw [hq.transformationsAtSweep, h.transformationsAtSweep, hp.transformationsAtSweep]
  sizeAtSweep := by rw [hq.sizeAtSweep, h.sizeAtSweep, hp.sizeAtSweep]

/-- Faults that are the same up to vertex ids. -/
def Blurred (f f' : Fault) (_ _ : Planner) : Prop := f'.blurred = f.blurred

/-! ## Operations that ask -/

/-- The operations find out the same about planners with renamed vertices, and change nothing but
cached costs and reports. -/
def Tallies (A : Rule → Prop) (π : Equiv.Perm VertexId) (R : α → β → Prop) (x : Planning α)
    (y : Planning β) : Prop :=
  ∀ p q, p.Renamed π q → p.Impartial A → q.Impartial A →
    Paired x y p q (fun a b p' q' => R a b ∧ p.Undisturbed p' ∧ q.Undisturbed q')
      fun f f' p' q' => Blurred f f' p' q' ∧ p.Undisturbed p' ∧ q.Undisturbed q'

section Tallies

variable {R : α → β → Prop} {S : γ → δ → Prop} {x : Planning α} {y : Planning β}

theorem tallies_pure {a : α} {b : β} (h : R a b) :
    Tallies A π R (pure a : Planning α) (pure b : Planning β) :=
  fun p q _ _ _ => paired_pure ⟨h, .refl p, .refl q⟩

theorem tallies_throw {f f' : Fault} (h : f'.blurred = f.blurred) :
    Tallies A π R (throw f : Planning α) (throw f' : Planning β) :=
  fun p q _ _ _ => paired_throw ⟨h, .refl p, .refl q⟩

/-- What is read in both states may be related before it is used. -/
theorem tallies_get {k : Planner → Planning α} {l : Planner → Planning β}
    (h : ∀ p q, p.Renamed π q → p.Impartial A → q.Impartial A → Tallies A π R (k p) (l q)) :
    Tallies A π R (get >>= k) (get >>= l) :=
  fun p q hr hp hq => paired_get (h p q hr hp hq p q hr hp hq)

theorem Tallies.bind {f : α → Planning γ} {g : β → Planning δ} (hx : Tallies A π R x y)
    (hf : ∀ a b, R a b → Tallies A π S (f a) (g b)) : Tallies A π S (x >>= f) (y >>= g) := by
  intro p q hr hp hq
  refine (hx p q hr hp hq).bind ?_
  rintro a b p' q' ⟨hab, hp', hq'⟩
  refine (hf a b hab p' q' (hr.alike hp'.toAlike hq'.toAlike) (hp.undisturbed hp')
    (hq.undisturbed hq')).mono ?_ ?_
  · exact fun _ _ _ _ h => ⟨h.1, hp'.trans h.2.1, hq'.trans h.2.2⟩
  · exact fun _ _ _ _ h => ⟨h.1, hp'.trans h.2.1, hq'.trans h.2.2⟩

theorem Tallies.mono {R' : α → β → Prop} (h : Tallies A π R x y) (hR : ∀ a b, R a b → R' a b) :
    Tallies A π R' x y := fun p q hr hp hq =>
  (h p q hr hp hq).mono (fun _ _ _ _ h => ⟨hR _ _ h.1, h.2⟩) fun _ _ _ _ h => h

theorem tallies_ite {c c' : Prop} [Decidable c] [Decidable c'] {x' : Planning α} {y' : Planning β}
    (hc : c' ↔ c) (h : Tallies A π R x y) (h' : Tallies A π R x' y') :
    Tallies A π R (if c then x else x') (if c' then y else y') := by
  by_cases hcase : c
  · rwa [if_pos hcase, if_pos (hc.2 hcase)]
  · rwa [if_neg hcase, if_neg (mt hc.1 hcase)]

theorem Tallies.paired (h : Tallies A π R x y) (hr : p.Renamed π q) (hp : p.Impartial A)
    (hq : q.Impartial A) : Paired x y p q (fun a b p' q' => R a b ∧ p'.Renamed π q' ∧
      (p'.Impartial A ∧ p.Undisturbed p') ∧ q'.Impartial A ∧ q.Undisturbed q') Blurred :=
  (h p q hr hp hq).mono (fun _ _ _ _ ⟨hab, hp', hq'⟩ => ⟨hab, hr.alike hp'.toAlike hq'.toAlike,
    ⟨hp.undisturbed hp', hp'⟩, hq.undisturbed hq', hq'⟩) fun _ _ _ _ h => h.1

theorem Tallies.caught (h : Tallies A π R x y) :
    Tallies A π (SameOutcome R) (Planner.caught x) (Planner.caught y) := by
  intro p q hr hp hq
  unfold Paired Planner.caught
  obtain ⟨a, b, p', q', hx, hy, h⟩ | ⟨f, g, p', q', hx, hy, h⟩ := (h p q hr hp hq).cases_on
  · rw [hx, hy]
    exact h
  · rw [hx, hy]
    exact h

/-- A fault that is met is turned into another one. -/
theorem Tallies.rethrow {wrap : Fault → Fault} (h : Tallies A π R x y)
    (hwrap : ∀ f f' : Fault, f'.blurred = f.blurred → (wrap f').blurred = (wrap f).blurred) :
    Tallies A π R (tryCatch x fun f => throw (wrap f)) (tryCatch y fun f => throw (wrap f)) := by
  intro p q hr hp hq
  show Paired (EStateM.tryCatch x _) (EStateM.tryCatch y _) p q _ _
  unfold Paired EStateM.tryCatch
  obtain ⟨a, b, p', q', hx, hy, h⟩ | ⟨f, g, p', q', hx, hy, h⟩ := (h p q hr hp hq).cases_on
  · rw [hx, hy]
    exact h
  · rw [hx, hy]
    exact ⟨hwrap f g h.1, h.2⟩

end Tallies

namespace Planner

theorem paired_log (m m' : Message) (p q : Planner) (E : Fault → Fault → Planner → Planner → Prop) :
    Paired (log m) (log m') p q (fun _ _ p' q' => p.Reported p' ∧ q.Reported q') E := by
  obtain ⟨_, p', hp, hp'⟩ := (ends_log m p fun _ _ => False).exists_ok
  obtain ⟨_, q', hq, hq'⟩ := (ends_log m' q fun _ _ => False).exists_ok
  exact paired_of_eq_ok hp hq ⟨hp', hq'⟩

theorem tallies_log (m m' : Message) : Tallies A π Eq (log m) (log m') := fun p q _ _ _ =>
  (paired_log m m' p q _).mono (fun _ _ _ _ h => ⟨rfl, h.1.undisturbed, h.2.undisturbed⟩)
    fun _ _ _ _ h => h

theorem tallies_observe (e e' : Event) : Tallies A π Eq (observe e) (observe e') := by
  intro p q _ _ _
  obtain ⟨_, p', hp, hp'⟩ := (ends_observe e p fun _ _ => False).exists_ok
  obtain ⟨_, q', hq, hq'⟩ := (ends_observe e' q fun _ _ => False).exists_ok
  exact paired_of_eq_ok hp hq ⟨rfl, hp'.undisturbed, hq'.undisturbed⟩

theorem paired_structuralFault {defect defect' : GraphDefect} (h : defect'.blurred = defect.blurred)
    (rule : Option String) (p q : Planner) (Q : α → β → Planner → Planner → Prop) :
    Paired (structuralFault defect rule) (structuralFault defect' rule) p q Q Blurred := by
  refine paired_get (paired_throw ?_)
  show Fault.blurred _ = Fault.blurred _
  rw [Fault.blurred, Fault.blurred, h]

theorem tallies_structuralFault {R : α → β → Prop} {defect defect' : GraphDefect}
    (h : defect'.blurred = defect.blurred) (rule : Option String) :
    Tallies A π R (structuralFault defect rule : Planning α) (structuralFault defect' rule) :=
  tallies_get fun _ _ _ _ _ => tallies_throw (by rw [Fault.blurred, Fault.blurred, h])

theorem tallies_current (id : VertexId) :
    Tallies A π (fun n n' => n' = n.rename π) (current id) (current (π id)) := by
  refine tallies_get fun p q hr _ _ => ?_
  rw [hr.graph.current]
  cases p.graph.current? id with
  | none =>
    refine tallies_structuralFault ?_ none
    rfl
  | some n => exact tallies_pure rfl

theorem tallies_placeholder (id : VertexId) :
    Tallies A π (fun n n' => n' = n.rename π) (placeholder id) (placeholder (π id)) := by
  refine tallies_get fun p q hr _ _ => ?_
  rw [hr.graph.placeholder]
  cases p.graph.placeholder? id with
  | none =>
    refine tallies_structuralFault ?_ none
    rfl
  | some n => exact tallies_pure rfl

theorem tallies_requireRoot : Tallies A π (fun i j => j = π i) requireRoot requireRoot := by
  refine tallies_get fun p q hr _ _ => ?_
  simp only [hr.graph.root]
  cases p.graph.root with
  | none => exact tallies_structuralFault rfl none
  | some root =>
    simp only [Option.map_some, hr.graph.contains]
    exact tallies_ite .rfl (tallies_pure rfl) (tallies_structuralFault rfl none)

/-! ## Questions -/

theorem tallies_rowCount (node : Node) :
    Tallies A π Eq (onGraph (rowCount node)) (onGraph (rowCount (node.rename π))) := by
  intro p q hr hp hq
  obtain ⟨n, rows, cost, hrows, -⟩ :=
    hp.tame.exact.consistent.exists_estimates p.settings.model node
  have hp' := finds_rowCount hp.tame.exact.consistent ⟨n, hrows⟩ p.graph (.refl _)
    hp.tame.exact.caches
  have hq' := finds_rowCount hq.tame.exact.consistent ⟨n, (hr.graph.plainRowCount n node).trans hrows⟩
    q.graph (.refl _) hq.tame.exact.caches
  exact ⟨hp'.1.trans hq'.1.symm, undisturbed_rowCount node p, undisturbed_rowCount _ q⟩

theorem tallies_cumulativeCost (node : Node) :
    Tallies A π Eq (do onGraph (Graph.cumulativeCost (← get).settings.model node))
      (do onGraph (Graph.cumulativeCost (← get).settings.model (node.rename π))) := by
  intro p q hr hp hq
  obtain ⟨n, rows, cost, -, hcost⟩ :=
    hp.tame.exact.consistent.exists_estimates p.settings.model node
  have hcost' := (hr.graph.plainCost hp.model n node).trans hcost
  rw [← hr.settings.model] at hcost'
  have hp' := finds_cumulativeCost hp.tame.exact.consistent ⟨n, hcost⟩ p.graph (.refl _)
    hp.tame.exact.caches
  have hq' := finds_cumulativeCost hq.tame.exact.consistent ⟨n, hcost'⟩ q.graph (.refl _)
    hq.tame.exact.caches
  exact ⟨hp'.1.trans hq'.1.symm, undisturbed_cumulativeCost node p, undisturbed_cumulativeCost _ q⟩

theorem tallies_answer (question : Question) :
    Tallies A π (fun a b => b = question.renameAnswer π a) (answer question)
      (answer (question.rename π)) := by
  cases question with
  | resolve node =>
    refine tallies_get fun p q hr _ _ => ?_
    rw [hr.graph.resolve]
    exact tallies_pure rfl
  | rowCount node => exact (tallies_rowCount node).mono fun _ _ h => h.symm
  | cumulativeCost node => exact (tallies_cumulativeCost node).mono fun _ _ h => h.symm
  | cheaper a b =>
    refine tallies_get fun p q hr _ _ => ?_
    rw [hr.settings.model]
    exact tallies_pure rfl
  | cancelled =>
    refine tallies_get fun p q hr _ _ => ?_
    rw [hr.settings.cancelled]
    exact tallies_pure rfl

/-! ## Converting -/

theorem tallies_run_converterAnswerer {R : α → β → Prop} {i : Inquiry phase α} {i' : Inquiry phase β}
    (h : i.Renamed π R i') :
    Tallies A π R (i.run converterAnswerer) (i'.run converterAnswerer) := by
  induction h with
  | done h => exact tallies_pure h
  | fail h => exact tallies_throw h
  | @ask question next next' _ ih =>
    refine (tallies_answer question).bind ?_
    rintro a _ rfl
    exact ih a
  | convert _ ih => exact ih (.ok none) (.ok none) rfl
  | propose _ ih => exact ih

theorem tallies_convertByFirst (node : Node) {rules : List Rule} (hrules : ∀ r ∈ rules, r.Blind) :
    Tallies A π (Node.RenamedTo π) (convertByFirst node rules)
      (convertByFirst (node.rename π) rules) := by
  induction rules with
  | nil => exact tallies_pure rfl
  | cons rule rest ih =>
    rw [List.forall_mem_cons] at hrules
    rw [convertByFirst, convertByFirst]
    cases hc : rule.conversion with
    | none => exact ih hrules.2
    | some c =>
      refine (tallies_run_converterAnswerer (hrules.1.conversion c hc π node c.target)).bind ?_
      rintro (_ | converted) _ rfl
      · exact ih hrules.2
      · exact tallies_pure rfl

theorem tallies_convertAlong (path : List Convention) : ∀ node : Node,
    Tallies A π (fun n n' => n' = n.rename π) (convertAlong node path)
      (convertAlong (node.rename π) path) := by
  induction path with
  | nil => exact fun node => tallies_pure rfl
  | cons source path ih =>
    intro node
    cases path with
    | nil => exact tallies_pure rfl
    | cons target rest =>
      rw [convertAlong, convertAlong]
      refine tallies_get fun p q hr hp _ => ?_
      rw [hr.registry]
      refine (tallies_convertByFirst node fun r hmem =>
        (hp.rules r (hp.converters source target r hmem)).1).bind ?_
      rintro (_ | converted) _ rfl
      · exact tallies_structuralFault rfl none
      · exact ih converted

theorem tallies_convertTrait (node : Node) (trait : Trait) :
    Tallies A π (Node.RenamedTo π) (convertTrait node trait) (convertTrait (node.rename π) trait) := by
  cases trait with
  | convention target =>
    refine tallies_get fun p q hr _ _ => ?_
    rw [hr.registry, Node.convention_rename]
    cases p.registry.conversions.paths node.convention target with
    | nil => exact tallies_pure rfl
    | cons path rest =>
      refine (tallies_convertAlong path node).bind ?_
      rintro converted _ rfl
      exact tallies_pure rfl
  | collation collation =>
    refine Tallies.bind (R := fun n n' => n' = n.rename π) ?_ ?_
    · have hmake : SameOutcome (fun n n' => n' = n.rename π)
          (Node.make (.sort collation none) [node] (node.traits.replace (.collation collation)))
          (Node.make (.sort collation none) [node.rename π]
            (node.traits.replace (.collation collation))) :=
        Node.sameOutcome_make (.sort collation none) [node] _
      unfold sortBy
      rw [Node.traits_rename]
      obtain ⟨a, b, ha, hb, hab⟩ | ⟨f, g, hf, hg, hfg⟩ := hmake.cases_on
      · rw [ha, hb]
        exact tallies_pure hab
      · rw [hf, hg]
        exact tallies_throw hfg
    · rintro sorted _ rfl
      exact tallies_pure rfl

theorem tallies_convertDimensions (traits : TraitSet) (dimensions : List Dimension) :
    ∀ node : Node, Tallies A π (Node.RenamedTo π) (convertDimensions traits dimensions node)
      (convertDimensions traits dimensions (node.rename π)) := by
  induction dimensions with
  | nil => exact fun node => tallies_pure rfl
  | cons d rest ih =>
    intro node
    rw [convertDimensions, convertDimensions, Node.traits_rename]
    refine tallies_ite .rfl (ih node) ((tallies_convertTrait node _).bind ?_)
    rintro (_ | converted) _ rfl
    · exact tallies_pure rfl
    · exact ih converted

theorem tallies_convertTraits (node : Node) (traits : TraitSet) :
    Tallies A π (Node.RenamedTo π) (convertTraits node traits)
      (convertTraits (node.rename π) traits) := by
  refine tallies_get fun p q hr _ _ => ?_
  rw [hr.settings.dimensions]
  exact tallies_convertDimensions traits _ node

/-! ## Rules -/

/-- A rule that does not look at vertex ids proposes the same. -/
theorem tallies_run_ruleAnswerer {R : α → β → Prop} {i : Inquiry phase α} {i' : Inquiry phase β}
    (h : i.Renamed π R i') : ∀ proposed : List Node,
    Tallies A π (fun r r' => R r.1 r'.1 ∧ r'.2 = r.2.map (Node.rename π))
      ((i.run ruleAnswerer).run proposed)
      ((i'.run ruleAnswerer).run (proposed.map (Node.rename π))) := by
  induction h with
  | done h => exact fun proposed => tallies_pure ⟨h, rfl⟩
  | fail h => exact fun _ => tallies_throw h
  | @ask question next next' _ ih =>
    intro proposed
    refine Tallies.bind (R := fun r r' => r'.1 = question.renameAnswer π r.1 ∧
      r'.2 = r.2.map (Node.rename π)) ((tallies_answer question).bind ?_) ?_
    · rintro a _ rfl
      exact tallies_pure ⟨rfl, rfl⟩
    · rintro ⟨a, proposed⟩ ⟨_, _⟩ ⟨rfl, rfl⟩
      exact ih a proposed
  | @convert _ node traits next next' _ ih =>
    intro proposed
    refine Tallies.bind (R := fun r r' => SameOutcome (Node.RenamedTo π) r.1 r'.1 ∧
      r'.2 = r.2.map (Node.rename π)) ((tallies_convertTraits node traits).caught.bind ?_) ?_
    · exact fun a b hab => tallies_pure ⟨hab, rfl⟩
    · rintro ⟨a, proposed⟩ ⟨b, _⟩ ⟨hab, rfl⟩
      exact ih a b hab proposed
  | @propose _ node next next' _ ih =>
    intro proposed
    have hproposed := ih (proposed ++ [node])
    rw [List.map_append, List.map_singleton] at hproposed
    exact hproposed

theorem tallies_fire {rule : Rule} (hrule : rule.Blind) (node : Node) {call call' : Call}
    (hcall : call.Renamed π call') :
    Tallies A π (fun ns ns' => ns' = ns.map (Node.rename π)) (fire rule node call)
      (fire rule (node.rename π) call') := by
  refine (tallies_run_ruleAnswerer (hrule.applies π call call' hcall) []).bind ?_
  rintro ⟨applies, _⟩ ⟨_, _⟩ ⟨rfl, rfl⟩
  refine tallies_ite .rfl (tallies_pure rfl) ((tallies_log _ _).bind fun _ _ _ => ?_)
  refine Tallies.bind (R := fun ns ns' => ns' = ns.map (Node.rename π)) ?_ ?_
  · refine Tallies.rethrow ((tallies_run_ruleAnswerer (hrule.fire π call call' hcall) []).bind ?_) ?_
    · rintro ⟨_, proposed⟩ ⟨_, _⟩ ⟨-, rfl⟩
      exact tallies_pure rfl
    · intro f f' h
      rw [Fault.blurred, Fault.blurred, h]
  · rintro proposed _ rfl
    exact (tallies_observe _ _).bind fun _ _ _ => tallies_pure rfl

/-! ## Occasions -/

theorem Renamed.parents (h : p.Renamed π q) (hp : p.Impartial A) (hq : q.Impartial A)
    (id : VertexId) : (q.graph.parents (π id)).Perm ((p.graph.parents id).map π) :=
  h.graph.parents hp.linked.edges_nodup hq.linked.edges_nodup id

/-- Parents that accept the result of a rule, in another order. -/
theorem Renamed.parents_filter (h : p.Renamed π q) (hp : p.Impartial A) (hq : q.Impartial A)
    {accepts accepts' : Node → Bool} (haccepts : ∀ n : Node, accepts' (n.rename π) = accepts n)
    (id : VertexId) :
    ((q.graph.parents (π id)).filter fun i => (q.graph.current? i).any accepts').Perm
      (((p.graph.parents id).filter fun i => (p.graph.current? i).any accepts).map π) := by
  refine ((h.parents hp hq id).filter _).trans ?_
  rw [List.filter_map]
  refine List.Perm.map π (List.Perm.of_eq (List.filter_congr fun i _ => ?_))
  rw [Function.comp_apply, h.graph.current]
  cases p.graph.current? i with
  | none => rfl
  | some n => exact haccepts n

theorem Renamed.parents_current (h : p.Renamed π q) (hp : p.Impartial A) (hq : q.Impartial A)
    (id : VertexId) : ((q.graph.parents (π id)).filterMap q.graph.current?).Perm
      (((p.graph.parents id).filterMap p.graph.current?).map (Node.rename π)) := by
  refine ((h.parents hp hq id).filterMap _).trans (List.Perm.of_eq ?_)
  rw [List.filterMap_map, List.map_filterMap]
  congr 1
  funext i
  exact h.graph.current i

theorem tallies_isWanted (c : Conversion) (id : VertexId) :
    Tallies A π Eq (isWanted c id) (isWanted c (π id)) := by
  refine tallies_get fun p q hr hp hq => tallies_pure ?_
  have hparents : ((q.graph.parents (π id)).filterMap q.graph.current?).any c.wantedBy =
      ((p.graph.parents id).filterMap p.graph.current?).any c.wantedBy := by
    rw [(hr.parents_current hp hq id).any_eq, List.any_map]
    congr 1
    funext n
    exact c.wantedBy_rename n
  have hroot : q.graph.root = some (π id) ↔ p.graph.root = some id := by
    rw [hr.graph.root]
    cases p.graph.root <;> simp
  rw [hparents, hr.settings.rootTraits]
  simp only [hroot]

/-- Occasions that differ in the names of vertices and in the order of parents. -/
structure Occasion.Renamed (π : Equiv.Perm VertexId) (o o' : Occasion) : Prop where
  accepts : ∀ n : Node, o'.accepts (n.rename π) = o.accepts n
  parents : Option.Rel (fun ns ns' => ns'.Perm (ns.map (Node.rename π))) o.parents o'.parents

theorem tallies_occasion? (rule : Rule) (id : VertexId) (force : Bool) :
    Tallies A π (Option.Rel (Occasion.Renamed π)) (occasion? rule id force)
      (occasion? rule (π id) force) := by
  unfold occasion?
  split
  · next c _ _ =>
    refine tallies_ite .rfl ((tallies_isWanted c id).bind ?_)
      (tallies_pure (.some ⟨fun _ => rfl, .none⟩))
    rintro wanted _ rfl
    exact tallies_ite .rfl (tallies_pure (.some ⟨c.wantedBy_rename, .none⟩)) (tallies_pure .none)
  · refine tallies_get fun p q hr hp hq => ?_
    have hlength : (q.graph.parents (π id)).length = (p.graph.parents id).length := by
      rw [(hr.parents hp hq id).length_eq, List.length_map]
    simp only [hlength]
    exact tallies_ite .rfl (tallies_pure .none)
      (tallies_pure (.some ⟨fun _ => rfl, .some (hr.parents_current hp hq id)⟩))
  · exact tallies_pure (.some ⟨fun _ => rfl, .none⟩)

/-! ## Choosing among proposals -/

theorem tallies_consider (node : Node) :
    Tallies A π Eq (cheapest.consider node) (cheapest.consider (node.rename π)) := by
  unfold cheapest.consider
  rw [← bind_assoc, ← bind_assoc]
  refine (tallies_cumulativeCost node).bind ?_
  rintro cost _ rfl
  exact (tallies_log _ _).bind fun _ _ _ => tallies_pure rfl

theorem tallies_cheapest_go (others : List Node) : ∀ (best : Node) (cost : Cost),
    Tallies A π (fun n n' => n' = n.rename π) (cheapest.go best cost others)
      (cheapest.go (best.rename π) cost (others.map (Node.rename π))) := by
  induction others with
  | nil => exact fun best _ => tallies_pure rfl
  | cons node rest ih =>
    intro best cost
    rw [List.map_cons, cheapest.go, cheapest.go]
    refine (tallies_consider node).bind ?_
    rintro cost _ rfl
    refine tallies_get fun p q hr _ _ => ?_
    rw [hr.settings.model]
    exact tallies_ite .rfl (ih _ _) (ih _ _)

theorem tallies_cheapest (first : Node) (others : List Node) :
    Tallies A π (fun n n' => n' = n.rename π) (cheapest first others)
      (cheapest (first.rename π) (others.map (Node.rename π))) := by
  unfold cheapest
  rw [List.isEmpty_map]
  refine tallies_ite .rfl (tallies_pure rfl) ((tallies_consider first).bind ?_)
  rintro cost _ rfl
  exact tallies_cheapest_go others first cost

end Planner

end QueryPlanner
