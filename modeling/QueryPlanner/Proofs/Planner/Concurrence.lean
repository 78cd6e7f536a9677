import QueryPlanner.Proofs.Graph.Binding
import QueryPlanner.Proofs.Graph.Congruence
import QueryPlanner.Planner.Run
import QueryPlanner.Proofs.Planner.Firing

/-!
# Planners in step

Two planners are in step if they have taken the same steps, of which the first has written down all, and
differ in whether they are observed, at which level they write down messages, in cached costs and in
other reports. Adding, redirecting and substituting end in the same way in both, and they are in step
again.
-/

namespace QueryPlanner

open QueryPlanner.Graph Planning

namespace Planner

variable {α : Type} {level : Level} {p q p' q' : Planner} {Q : α → Planner → Planner → Prop}
  {E : Planner → Planner → Prop}

/-! ## Planners in step -/

structure InStep (level : Level) (p q : Planner) : Prop where
  parallel : p.Parallel q
  retold : Retold level p q

namespace InStep

theorem asked (h : InStep level p q) (hasked : Asked p q p' q') : InStep level p' q' :=
  ⟨hasked.parallel h.parallel, hasked.retold level h.retold⟩

/-- An operation that asks ends in the same way in both planners if their caches are exact. -/
theorem asks {x : Planning α} (h : InStep level p q) (hx : Asks p.settings x) (hp : p.Exact)
    (hq : q.Exact) :
    Concur x p q (fun _ p' q' => InStep level p' q' ∧ p.Undisturbed p' ∧ q.Undisturbed q')
      (Retold level) :=
  (hx.concur p q rfl h.parallel hp hq).mono
    (fun _ _ _ hasked => ⟨h.asked hasked, hasked.left, hasked.right⟩)
    fun _ _ hasked => (h.asked hasked).retold

theorem withGraph {g g' : Graph} (h : InStep level p q) (hg : g.Alike g') :
    InStep level { p with graph := g } { q with graph := g' } where
  parallel := ⟨h.parallel.settings, h.parallel.program, h.parallel.registry, h.parallel.execution,
    hg, h.parallel.transformations, h.parallel.transformationsAtSweep, h.parallel.sizeAtSweep,
    h.parallel.sweeps⟩
  retold := h.retold.congr rfl rfl rfl rfl

theorem count (h : InStep level p q) :
    InStep level { p with transformations := p.transformations + 1 }
      { q with transformations := q.transformations + 1 } where
  parallel := ⟨h.parallel.settings, h.parallel.program, h.parallel.registry, h.parallel.execution,
    h.parallel.graph, congrArg (· + 1) h.parallel.transformations,
    h.parallel.transformationsAtSweep, h.parallel.sizeAtSweep, h.parallel.sweeps⟩
  retold := h.retold.congr rfl rfl rfl rfl

end InStep

/-! ## Looking up and reporting -/

theorem concur_structuralFault (h : InStep level p q) (defect : GraphDefect) (rule : Option String) :
    Concur (structuralFault defect rule) p q Q (Retold level) := by
  refine concur_get ?_ (concur_throw h.retold)
  rw [h.parallel.graph.dump]

theorem concur_log (h : InStep level p q) (m : Message) :
    Concur (log m) p q (fun _ => InStep level) E :=
  (concur_log_asked m p q E).mono (fun _ _ _ => h.asked) fun _ _ h => h

theorem concur_observe (h : InStep level p q) {e : Event} (he : e.step? = none) :
    Concur (observe e) p q (fun _ => InStep level) E :=
  (concur_observe_asked he p q E).mono (fun _ _ _ => h.asked) fun _ _ h => h

theorem concur_modifyGraph (h : InStep level p q) {f : Graph → Graph}
    (hf : (f p.graph).Alike (f q.graph)) : Concur (modifyGraph f) p q (fun _ => InStep level) E :=
  ⟨rfl, h.withGraph hf⟩

theorem concur_current (h : InStep level p q) (id : VertexId) :
    Concur (current id) p q (fun _ => InStep level) (Retold level) := by
  refine concur_get (by rw [h.parallel.graph.current?]) ?_
  split
  · exact concur_pure h
  · exact concur_structuralFault h _ _

theorem concur_placeholder (h : InStep level p q) (id : VertexId) :
    Concur (placeholder id) p q (fun _ => InStep level) (Retold level) := by
  refine concur_get (by rw [h.parallel.graph.placeholder?]) ?_
  split
  · exact concur_pure h
  · exact concur_structuralFault h _ _

theorem concur_checkAcyclic (h : InStep level p q) (rule : Option String) :
    Concur (checkAcyclic rule) p q (fun _ => InStep level) (Retold level) := by
  refine concur_get (by rw [isAcyclic, isAcyclic, h.parallel.graph.topologicalOrder]) ?_
  split
  · exact concur_structuralFault h _ _
  · exact concur_pure h

theorem concur_topologicalOrder (h : InStep level p q) :
    Concur topologicalOrder p q (fun _ p' q' => p' = p ∧ q' = q) (Retold level) := by
  refine concur_get (by rw [h.parallel.graph.topologicalOrder]) ?_
  split
  · exact concur_pure ⟨rfl, rfl⟩
  · exact concur_structuralFault h _ _

/-! ## Adding -/

theorem concur_place (h : InStep level p q) (node : Node) :
    Concur (place node) p q (fun _ => InStep level) (Retold level) := by
  have hshared : q.shared? node = p.shared? node := by
    rw [shared?, shared?, h.parallel.settings.dag, h.parallel.settings.digestMode,
      h.parallel.graph.lookup]
  have hp := place_eq node p
  have hq := place_eq node q
  rw [hshared, h.parallel.settings.digestMode] at hq
  obtain ⟨hid, hg⟩ := h.parallel.graph.insert node (node.key p.settings.digestMode)
  cases hcase : p.shared? node with
  | some id =>
    rw [hcase] at hp hq
    exact concur_of_eq_ok hp hq h
  | none =>
    simp only [hcase, hid] at hp hq
    exact concur_of_eq_ok hp hq (h.withGraph hg).count

mutual

theorem concur_add : ∀ (n : Node) (p q : Planner), InStep level p q →
    Concur (add n) p q (fun _ => InStep level) (Retold level)
  | ⟨op, inputs, traits, rowType⟩, p, q, h => by
    by_cases hop : ∃ j, op = .vertex j
    · obtain ⟨j, rfl⟩ := hop
      rw [add]
      refine concur_get (by rw [h.parallel.graph.contains]) ?_
      split
      · exact (concur_structuralFault h _ _).bind fun _ _ _ h => concur_pure h
      · exact concur_pure h
    · rw [add]
      · exact (concur_addInputs inputs p q h).bind fun _ p q h => concur_place h _
      · exact fun j hj => hop ⟨j, hj⟩

theorem concur_addInputs : ∀ (ns : List Node) (p q : Planner), InStep level p q →
    Concur (addInputs ns) p q (fun _ => InStep level) (Retold level)
  | [], p, q, h => by
    rw [addInputs]
    exact concur_pure h
  | n :: ns, p, q, h => by
    rw [addInputs]
    refine (concur_add n p q h).bind fun id p q h => (concur_placeholder h id).bind fun _ p q h => ?_
    exact (concur_addInputs ns p q h).bind fun _ _ _ h => concur_pure h

end

/-! ## Redirecting -/

theorem concur_replace (h : InStep level p q) (id : VertexId) (node : Node) (isNew : Bool) :
    Concur (replace id node isNew) p q (fun _ => InStep level) (Retold level) := by
  have hmode := h.parallel.settings.digestMode
  have hvertex := h.parallel.graph.vertex? id
  cases hold : p.graph.vertex? id with
  | none =>
    refine concur_get (by simp only [hvertex, hold]) ?_
    simp only [hold]
    exact concur_structuralFault h _ _
  | some old =>
    refine concur_get (by simp only [hvertex, hold, hmode]) ?_
    simp only [hold]
    refine (concur_modifyGraph h (h.parallel.graph.replace id node _)).bind fun _ p q h => ?_
    split
    · exact concur_observe h rfl
    · exact concur_pure h

theorem concur_redirect (h : InStep level p q) (preserved discarded : VertexId) (placeholder : Node)
    (parent : VertexId) :
    Concur (redirect preserved discarded placeholder parent) p q (fun _ => InStep level)
      (Retold level) := by
  refine (concur_current h parent).bind fun node p q h => ?_
  refine (concur_modifyGraph h ?_).bind fun _ p q h => concur_replace h _ _ _
  rw [h.parallel.graph.ancestors]
  have hforget := (alike_forget p.graph (p.graph.ancestors parent)).symm.trans
    (h.parallel.graph.trans (alike_forget q.graph (p.graph.ancestors parent)))
  exact (hforget.removeEdge parent discarded).addEdge parent preserved

theorem concur_forM {f : α → Planning PUnit} (hf : ∀ a p q, InStep level p q →
    Concur (f a) p q (fun _ => InStep level) (Retold level)) (xs : List α) :
    ∀ {p q}, InStep level p q → Concur (xs.forM f) p q (fun _ => InStep level) (Retold level) := by
  induction xs with
  | nil => exact fun h => concur_pure h
  | cons x xs ih => exact fun h => (hf x _ _ h).bind fun _ _ _ h => ih h

theorem concur_contract (h : InStep level p q) (preserved discarded : VertexId)
    (parents : List VertexId) :
    Concur (contract preserved discarded parents) p q (fun _ => InStep level) (Retold level) := by
  unfold contract
  split
  · exact concur_pure h
  refine (concur_current h preserved).bind fun node p q h => ?_
  refine (concur_replace h preserved node false).bind fun _ p q h => ?_
  refine (concur_placeholder h preserved).bind fun placeholder p q h => ?_
  refine (concur_forM (fun parent _ _ h => concur_redirect h preserved discarded placeholder parent)
    parents h).bind fun _ p q h => ?_
  refine concur_get (by rw [h.parallel.graph.root]) ?_
  split
  · exact concur_modifyGraph h (h.parallel.graph.withRoot _)
  · exact concur_pure h

/-! ## Firing -/

theorem concur_substitute (h : InStep level p q) (hp : p.Exact) (hq : q.Exact) (rule : Rule)
    (id : VertexId) (accepts : Node → Bool) (first : Node) (others : List Node) :
    Concur (substitute rule id accepts first others) p q (fun _ => InStep level) (Retold level) := by
  refine (h.asks (asks_cheapest first others) hp hq).bind ?_
  rintro best p q ⟨h, -, -⟩
  refine concur_get (by simp only [h.parallel.graph.parents, h.parallel.graph.current?]) ?_
  refine (concur_add best p q h).bind fun result p q h => ?_
  split
  · exact concur_pure h
  refine (concur_contract h result id _).bind fun _ p q h => ?_
  have hrest : ∀ {p q : Planner}, InStep level p q → Concur (do
      log (.substituted rule.description id result)
      checkAcyclic (some rule.description)
      return some result) p q (fun _ => InStep level) (Retold level) := by
    intro p q h
    refine (concur_log h _).bind fun _ p q h => ?_
    exact (concur_checkAcyclic h _).bind fun _ p q h => concur_pure h
  split
  · exact Concur.bind (Q := fun _ => InStep level) ⟨rfl, h.count⟩ fun _ _ _ h => hrest h
  · exact hrest h

/-- A rule that is tried on a vertex does the same in both planners. -/
theorem concur_attempt (h : InStep level p q) (hp : p.Exact) (hq : q.Exact) (rule : Rule)
    (id : VertexId) (force : Bool) :
    Concur (attempt rule id force) p q (fun _ => InStep level) (Retold level) := by
  refine concur_get (by rw [h.parallel.graph.contains]) ?_
  split
  · exact concur_pure h
  refine (h.asks (asks_occasion? rule id force) hp hq).bind ?_
  rintro (_ | occasion) p₁ q₁ ⟨h₁, hp₁, hq₁⟩
  · exact concur_pure h₁
  refine (h₁.asks (asks_current id) (hp₁.exact hp) (hq₁.exact hq)).bind ?_
  rintro node p₂ q₂ ⟨h₂, hp₂, hq₂⟩
  have hp₂ := hp₁.trans hp₂
  have hq₂ := hq₁.trans hq₂
  refine concur_get (by rw [h₂.parallel.graph.bind]) ?_
  split
  · exact concur_throw h₂.retold
  · exact concur_pure h₂
  refine (h₂.asks (asks_fire rule node _) (hp₂.exact hp) (hq₂.exact hq)).bind ?_
  rintro (_ | ⟨first, others⟩) p₃ q₃ ⟨h₃, hp₃, hq₃⟩
  · exact concur_pure h₃
  refine (concur_substitute h₃ ((hp₂.trans hp₃).exact hp) ((hq₂.trans hq₃).exact hq) rule id _ first
    others).bind ?_
  rintro (_ | result) p₄ q₄ h₄
  · exact concur_pure h₄
  · exact concur_pure h₄

/-! ## Building -/

theorem concur_addRule (h : InStep level p q) (rule : Rule) :
    Concur (addRule rule) p q (fun _ => InStep level) (Retold level) := by
  rw [addRule_eq]
  refine concur_get (by rw [h.parallel.registry]) ?_
  split
  · exact concur_throw h.retold
  · exact concur_pure h
  · next registry _ =>
    refine (concur_log h _).bind fun _ p q h => ?_
    refine Concur.bind (Q := fun _ => InStep level) ⟨rfl, ?_⟩ fun _ _ _ h => concur_pure h
    exact ⟨⟨h.parallel.settings, h.parallel.program, rfl, h.parallel.execution, h.parallel.graph,
      h.parallel.transformations, h.parallel.transformationsAtSweep, h.parallel.sizeAtSweep,
      h.parallel.sweeps⟩, h.retold.congr rfl rfl rfl rfl⟩

theorem concur_load (h : InStep level p q) (rules : List Rule) (plan : Node) :
    Concur (load rules plan) p q (fun _ => InStep level) (Retold level) := by
  refine concur_get (by rw [h.parallel.program]) ?_
  refine (concur_forM (fun rule p q h => ?_) _ h).bind fun _ p q h => ?_
  · exact (concur_addRule h rule).bind fun _ _ _ h => concur_pure h
  refine (concur_add plan p q h).bind fun root p q h => ?_
  refine (concur_modifyGraph h (h.parallel.graph.withRoot _)).bind fun _ p q h => ?_
  exact concur_get (by rw [h.parallel.graph.dump]) (concur_log h _)

/-! ## Extracting the plan -/

theorem concur_extractInputs {ofVertex : VertexId → Assembly → Planning (Nat × Assembly)}
    (hvertex : ∀ id a p q, InStep level p q →
      Concur (ofVertex id a) p q (fun _ => InStep level) (Retold level))
    (inputs : List Node) : ∀ {p q a}, InStep level p q →
      Concur (extractInputs ofVertex inputs a) p q (fun _ => InStep level) (Retold level) := by
  induction inputs with
  | nil => exact fun h => concur_pure h
  | cons n ns ih =>
    intro p q a h
    rw [extractInputs]
    have hrest : ∀ (built : Nat × Assembly) (p q : Planner), InStep level p q →
        Concur (extractInputs ofVertex ns built.2 >>= fun r => pure (built.1 :: r.1, r.2)) p q
          (fun _ => InStep level) (Retold level) :=
      fun _ _ _ h => (ih h).bind fun _ _ _ h => concur_pure h
    split
    · exact (hvertex _ a p q h).bind hrest
    · exact hrest _ p q h

theorem concur_extract (n : Nat) : ∀ id a p q, InStep level p q →
    Concur (extract n id a) p q (fun _ => InStep level) (Retold level) := by
  induction n with
  | zero => exact fun _ _ p q h => concur_throw h.retold
  | succ n ih =>
    intro id a p q h
    rw [extract]
    split
    · exact concur_pure h
    refine (concur_current h id).bind fun node p q h => ?_
    split_ifs
    · exact concur_throw h.retold
    refine (concur_observe h rfl).bind fun _ p q h => ?_
    refine (concur_extractInputs ih node.inputs h).bind ?_
    rintro ⟨inputs, a⟩ p q h
    exact concur_pure h

theorem concur_finalPlan (h : InStep level p q) (root : VertexId) :
    Concur (finalPlan root) p q (fun _ => InStep level) (Retold level) := by
  refine concur_get (by rw [depthBound, depthBound, h.parallel.graph.size]) ?_
  refine (concur_extract _ root .empty p q h).bind ?_
  rintro ⟨position, a⟩ p q h
  simp only
  split_ifs
  · exact concur_pure h
  · exact concur_structuralFault h _ _

end Planner

end QueryPlanner
