import QueryPlanner.Proofs.Planner.Asking

/-!
# The questions of a planner

Looking up vertices, answering rules and converters, binding patterns, firing a rule and choosing
among what it proposes are operations that ask.
-/

namespace QueryPlanner

open QueryPlanner.Graph Planning

variable {α β : Type} {p q : Planner} {s : Settings}

namespace Planning

open Planner

theorem asks_ite {c : Prop} [Decidable c] {x y : Planning α} (hx : Asks s x) (hy : Asks s y) :
    Asks s (if c then x else y) := by
  split <;> assumption

theorem asks_structuralFault (defect : GraphDefect) (rule : Option String) :
    Asks s (structuralFault defect rule : Planning α) := by
  refine .read (fun _ _ => .throw _) fun p q h => ?_
  rw [h.graph.dump]

theorem asks_current (id : VertexId) : Asks s (current id) := by
  refine .read (fun p _ => ?_) fun p q h => ?_
  · split
    · exact .pure _
    · exact asks_structuralFault _ _
  · rw [h.graph.current?]

theorem asks_requireRoot : Asks s requireRoot := by
  refine .read (fun p _ => ?_) fun p q h => ?_
  · simp only
    split
    · exact asks_ite (.pure _) (asks_structuralFault _ _)
    · exact asks_structuralFault _ _
  · simp only [h.graph.root, h.graph.contains]

theorem asks_topologicalOrder : Asks s topologicalOrder := by
  refine .read (fun p _ => ?_) fun p q h => ?_
  · split
    · exact .pure _
    · exact asks_structuralFault _ _
  · rw [h.graph.topologicalOrder]

theorem asks_checkAcyclic (rule : Option String) : Asks s (checkAcyclic rule) := by
  refine .read (fun p _ => asks_ite (asks_structuralFault _ _) (.pure _)) fun p q h => ?_
  rw [isAcyclic, isAcyclic, h.graph.topologicalOrder]

theorem asks_requireNoGroup (i : Instruction) : Asks s (requireNoGroup i) := by
  refine .read (fun p _ => asks_ite (.throw _) (.pure _)) fun p q h => ?_
  rw [h.execution]

/-! ## Questions and conversions -/

theorem asks_cumulativeCost (node : Node) :
    Asks s (do onGraph (Graph.cumulativeCost (← get).settings.model node)) := by
  refine .read (fun p hp => hp ▸ .cumulativeCost node) fun p q h => ?_
  rw [h.settings.model]

theorem asks_answer (question : Question) : Asks s (answer question) := by
  cases question with
  | resolve node =>
    refine .read (fun p _ => .pure _) fun p q h => ?_
    rw [h.graph.resolve]
  | rowCount node => exact .rowCount node
  | cumulativeCost node => exact asks_cumulativeCost node
  | cheaper a b =>
    refine .read (fun p _ => .pure _) fun p q h => ?_
    rw [h.settings.model]
  | cancelled =>
    refine .read (fun p _ => .pure _) fun p q h => ?_
    rw [h.settings.cancelled]

theorem asks_run_converterAnswerer {phase : Phase} (i : Inquiry phase α) :
    Asks s (i.run converterAnswerer) := by
  induction i with
  | done a => exact .pure a
  | fail f => exact .throw f
  | ask question next ih => exact (asks_answer question).bind ih
  | convert _ node traits next ih => exact (Asks.pure (.ok none)).bind ih
  | propose _ node next ih => exact (Asks.pure ()).bind fun _ => ih

theorem asks_convertByFirst (node : Node) (rules : List Rule) :
    Asks s (convertByFirst node rules) := by
  induction rules with
  | nil => exact .pure _
  | cons rule rest ih =>
    rw [convertByFirst]
    split
    · exact ih
    · apply (asks_run_converterAnswerer _).bind
      intro converted
      cases converted with
      | some converted => exact .pure _
      | none => exact ih

theorem asks_convertAlong (path : List Convention) : ∀ node, Asks s (convertAlong node path) := by
  induction path with
  | nil => exact fun node => .pure node
  | cons source path ih =>
    intro node
    cases path with
    | nil => exact .pure node
    | cons target rest =>
      rw [convertAlong]
      refine .read (fun p _ => (asks_convertByFirst node _).bind fun converted => ?_) fun p q h => ?_
      · cases converted with
        | some converted => exact ih converted
        | none => exact asks_structuralFault _ _
      · rw [h.registry]

theorem asks_convertTrait (node : Node) (trait : Trait) : Asks s (convertTrait node trait) := by
  cases trait with
  | convention target =>
    refine .read (fun p _ => ?_) fun p q h => ?_
    · split
      · exact (asks_convertAlong _ node).bind fun _ => .pure _
      · exact .pure _
    · rw [h.registry]
  | collation collation =>
    refine Asks.bind ?_ fun _ => .pure _
    unfold sortBy
    split
    · exact .pure _
    · exact .throw _

theorem asks_convertDimensions (traits : TraitSet) (dimensions : List Dimension) :
    ∀ node, Asks s (convertDimensions traits dimensions node) := by
  induction dimensions with
  | nil => exact fun node => .pure _
  | cons d rest ih =>
    intro node
    rw [convertDimensions]
    refine asks_ite (ih node) ((asks_convertTrait node _).bind fun converted => ?_)
    cases converted with
    | some converted => exact ih converted
    | none => exact .pure _

theorem asks_convertTraits (node : Node) (traits : TraitSet) : Asks s (convertTraits node traits) := by
  refine .read (fun p _ => asks_convertDimensions traits _ node) fun p q h => ?_
  rw [h.settings.dimensions]

/-! ## Rules -/

/-- Asking a rule asks nothing more, whatever it proposes. -/
theorem asks_run_ruleAnswerer {phase : Phase} (i : Inquiry phase α) :
    ∀ proposed, Asks s ((i.run ruleAnswerer).run proposed) := by
  induction i with
  | done a => exact fun proposed => .pure (a, proposed)
  | fail f => exact fun _ => .throw f
  | ask question next ih =>
    intro proposed
    exact ((asks_answer question).bind fun a => .pure (a, proposed)).bind fun a => ih a.1 a.2
  | convert _ node traits next ih =>
    intro proposed
    exact ((asks_convertTraits node traits).caught.bind fun a => .pure (a, proposed)).bind
      fun a => ih a.1 a.2
  | propose _ node next ih =>
    exact fun proposed => (Asks.pure ((), proposed ++ [node])).bind fun a => ih a.2

theorem asks_fire (rule : Rule) (node : Node) (call : Call) : Asks s (fire rule node call) := by
  apply (asks_run_ruleAnswerer _ _).bind
  intro applies
  obtain ⟨applies, _⟩ := applies
  refine asks_ite (.pure _) ((Asks.log _).bind fun _ => Asks.bind ?_ fun proposed =>
    (Asks.observe rfl rfl).bind fun _ => .pure _)
  exact ((asks_run_ruleAnswerer _ _).bind fun _ => .pure _).tryCatch fun _ => .throw _

theorem asks_isWanted (c : Conversion) (id : VertexId) : Asks s (isWanted c id) := by
  refine .read (fun p _ => .pure _) fun p q h => ?_
  simp only [h.graph.parents, funext h.graph.current?, h.graph.root, h.settings.rootTraits]

theorem asks_occasion? (rule : Rule) (id : VertexId) (force : Bool) :
    Asks s (occasion? rule id force) := by
  unfold occasion?
  split
  · exact asks_ite ((asks_isWanted _ id).bind fun _ => asks_ite (.pure _) (.pure _)) (.pure _)
  · refine .read (fun p _ => asks_ite (.pure _) (.pure _)) fun p q h => ?_
    simp only [h.graph.parents, funext h.graph.current?]
  · exact .pure _

theorem asks_consider (node : Node) : Asks s (cheapest.consider node) := by
  refine .read (fun p hp => ?_) fun p q h => ?_
  · exact Asks.bind (hp ▸ .cumulativeCost node) fun _ => (Asks.log _).bind fun _ => .pure _
  · rw [h.settings.model]

theorem asks_cheapest_go (others : List Node) :
    ∀ best cost, Asks s (cheapest.go best cost others) := by
  induction others with
  | nil => exact fun best _ => .pure best
  | cons node rest ih =>
    intro best cost
    rw [cheapest.go]
    refine (asks_consider node).bind fun _ =>
      .read (fun p _ => asks_ite (ih _ _) (ih _ _)) fun p q h => ?_
    rw [h.settings.model]

theorem asks_cheapest (first : Node) (others : List Node) : Asks s (cheapest first others) :=
  asks_ite (.pure _) ((asks_consider first).bind fun _ => asks_cheapest_go others _ _)

end Planning

namespace Planner

theorem ends_log_remarked {m : Message} (hm : (Event.logged m).step? = none) (p : Planner)
    (E : Fault → Planner → Prop) : Ends (log m) p (fun _ q => p.Remarked q) E := by
  refine ends_bind.2 (ends_get.2 ?_)
  split
  · exact ends_modify.2 (remarked_report hm p)
  · exact ends_pure.2 (.refl p)

end Planner

end QueryPlanner
