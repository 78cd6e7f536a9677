import QueryPlanner.Proofs.Graph.Binding
import QueryPlanner.Proofs.Planner.Execution

/-!
# Orderly operations

Only the instructions of a program look at the execution state or complain about the program. What
they are made of (trying rules, whose conditions come to a decision, passing over the graph, sweeping)
leaves the registered rules and the execution state as they are, and no fault met there blames the
program: a fault of a firing rule is the rule's, whatever its cause.
-/

namespace QueryPlanner

open QueryPlanner.Graph Planning

/-- Whether the fault is that of a program. -/
def Fault.blamesProgram : Fault → Bool
  | .invalidProgram _ => true
  | _ => false

/-- The inquiry fails on no answers. -/
def Inquiry.Unfailing {phase : Phase} {α : Type} : Inquiry phase α → Prop
  | done _ => True
  | fail _ => False
  | ask _ next => ∀ a, (next a).Unfailing
  | convert _ _ _ next => ∀ r, (next r).Unfailing
  | propose _ _ next => next.Unfailing

/-- The condition of the rule comes to a decision, whatever it is told. -/
def Rule.Decides (r : Rule) : Prop := ∀ call, (r.applies call).Unfailing

/-- No fault of the computation blames the program. -/
def Blameless {α : Type} (x : Except Fault α) : Prop := ∀ f, x = .error f → f.blamesProgram = false

variable {α β : Type}

theorem blameless_ok (a : α) : Blameless (.ok a) := by
  intro f h
  cases h

theorem Blameless.bind {x : Except Fault α} {f : α → Except Fault β} (hx : Blameless x)
    (hf : ∀ a, Blameless (f a)) : Blameless (x >>= f) := by
  intro fault h
  cases x with
  | error e => exact hx fault (by cases h; rfl)
  | ok a => exact hf a fault h

theorem blameless_ite {c : Prop} [Decidable c] {x y : Except Fault α} (hx : Blameless x)
    (hy : Blameless y) : Blameless (if c then x else y) := by
  split <;> assumption

theorem blameless_mapM {f : α → Except Fault β} (hf : ∀ a, Blameless (f a)) (xs : List α) :
    Blameless (xs.mapM f) := by
  induction xs with
  | nil => exact blameless_ok _
  | cons x xs ih =>
    rw [List.mapM_cons]
    exact (hf x).bind fun _ => ih.bind fun _ => blameless_ok _

/-! ## Patterns -/

namespace Graph

variable (g : Graph)

theorem blameless_inputExpressions (node : Node) : Blameless (g.inputExpressions node) := by
  refine blameless_mapM (fun input => ?_) _
  split
  · exact blameless_ok _
  · intro f h
    cases h
    rfl

theorem blameless_bindSome {bind : Node → Binding → Except Fault (Option Binding)}
    (hbind : ∀ n b, Blameless (bind n b)) (nodes : List Node) (b : Binding) :
    Blameless (bindSome bind nodes b) := by
  induction nodes with
  | nil => exact blameless_ok _
  | cons n ns ih =>
    rw [bindSome]
    refine (hbind n b).bind fun found => ?_
    cases found with
    | some b => exact blameless_ok _
    | none => exact ih

mutual

theorem blameless_bind : ∀ (pattern : Pattern) (node : Node) (b : Binding),
    Blameless (g.bind pattern node b)
  | ⟨kind, convention, test, policy, children⟩, node, b => by
    rw [bind]
    refine blameless_ite (blameless_ok _) (blameless_ite (blameless_ok _) ?_)
    cases policy with
    | any => exact blameless_ok _
    | unordered =>
      refine (g.blameless_inputExpressions node).bind fun inputs => ?_
      refine (blameless_bindEach children inputs _).bind fun found => ?_
      cases found with
      | some b' => exact blameless_ok _
      | none => exact blameless_ok _
    | exact =>
      refine blameless_ite (blameless_ok _) ?_
      exact (g.blameless_inputExpressions node).bind fun inputs =>
        blameless_bindPairwise children inputs _

theorem blameless_bindPairwise : ∀ (patterns : List Pattern) (nodes : List Node) (b : Binding),
    Blameless (g.bindPairwise patterns nodes b)
  | [], _, b => by
    simp only [bindPairwise]
    exact blameless_ok _
  | _ :: _, [], b => by
    simp only [bindPairwise]
    exact blameless_ok _
  | p :: ps, n :: ns, b => by
    rw [bindPairwise]
    refine (blameless_bind p n b).bind fun found => ?_
    cases found with
    | some b => exact blameless_bindPairwise ps ns b
    | none => exact blameless_ok _

theorem blameless_bindEach : ∀ (patterns : List Pattern) (inputs : List Node) (b : Binding),
    Blameless (g.bindEach patterns inputs b)
  | [], _, b => by
    rw [bindEach]
    exact blameless_ok _
  | p :: ps, inputs, b => by
    rw [bindEach]
    refine (blameless_bindSome (blameless_bind p) inputs b).bind fun found => ?_
    cases found with
    | some b => exact blameless_bindEach ps inputs b
    | none => exact blameless_ok _

end

end Graph

variable {p q : Planner}

namespace Planning

open Planner

/-- The operation leaves the registered rules and the execution state as they are, and no fault of it
blames the program. -/
def Orderly (x : Planning α) : Prop :=
  ∀ p, Ends x p (fun _ q => q.registry = p.registry ∧ q.execution = p.execution)
    fun f _ => f.blamesProgram = false

theorem orderly_pure (a : α) : Orderly (pure a : Planning α) := fun _ => ends_pure.2 ⟨rfl, rfl⟩

theorem orderly_throw {f : Fault} (hf : f.blamesProgram = false) : Orderly (throw f : Planning α) :=
  fun _ => ends_throw.2 hf

theorem orderly_read {k : Planner → Planning α} (hk : ∀ p, Orderly (k p)) : Orderly (get >>= k) :=
  fun p => ends_bind.2 (ends_get.2 (hk p p))

theorem orderly_modify {f : Planner → Planner} (hregistry : ∀ p, (f p).registry = p.registry)
    (hexecution : ∀ p, (f p).execution = p.execution) : Orderly (modify f) :=
  fun p => ends_modify.2 ⟨hregistry p, hexecution p⟩

theorem Orderly.bind {x : Planning α} {f : α → Planning β} (hx : Orderly x)
    (hf : ∀ a, Orderly (f a)) : Orderly (x >>= f) := by
  intro p
  refine (hx p).bind ?_
  rintro a q ⟨hregistry, hexecution⟩
  exact (hf a q).mono (fun _ _ h => ⟨h.1.trans hregistry, h.2.trans hexecution⟩) fun _ _ h => h

theorem orderly_ite {c : Prop} [Decidable c] {x y : Planning α} (hx : Orderly x) (hy : Orderly y) :
    Orderly (if c then x else y) := by
  split <;> assumption

/-- What is only asked, and fails without blaming the program, is orderly. -/
theorem Asks.orderly {x : Planning α} (hx : ∀ s, Asks s x)
    (hfault : ∀ p f q, x p = .error f q → f.blamesProgram = false) : Orderly x := by
  intro p
  exact ((hx p.settings).ends.and (ends_self x p)).mono
    (fun _ _ h => ⟨h.1.registry, h.1.execution⟩) fun f q h => hfault p f q h.2

/-- A fault that is handed over blames nobody. -/
theorem Asks.orderly_caught {x : Planning α} (hx : ∀ s, Asks s x) : Orderly (Planner.caught x) := by
  refine Asks.orderly (fun s => (hx s).caught) fun p f q h => ?_
  unfold Planner.caught at h
  split at h <;> cases h

/-- A fault that is thrown again as the fault of a rule does not blame the program. -/
theorem orderly_rethrown {x : Planning α} (hx : ∀ s, Asks s x) (rule : String) :
    Orderly (tryCatch x fun cause => throw (.firing rule cause)) := by
  refine Asks.orderly (fun s => (hx s).tryCatch fun _ => .throw _) fun p f q h => ?_
  have hcaught : EStateM.tryCatch x (fun cause => throw (.firing rule cause)) p = .error f q := h
  unfold EStateM.tryCatch at hcaught
  split at hcaught
  · next cause _ _ =>
    have hthrown : EStateM.Result.error (.firing rule cause) _ = EStateM.Result.error f q := hcaught
    cases hthrown
    rfl
  · next hne =>
    exact absurd hcaught (hne f q)

theorem orderly_forM {xs : List α} {f : α → Planning PUnit} (hf : ∀ x ∈ xs, Orderly (f x)) :
    Orderly (xs.forM f) := by
  induction xs with
  | nil => exact orderly_pure _
  | cons x xs ih =>
    exact (hf x List.mem_cons_self).bind fun _ => ih fun y hy => hf y (List.mem_cons_of_mem x hy)

end Planning

namespace Planner

/-! ## The graph -/

theorem orderly_report (e : Event) : Orderly (report e) :=
  orderly_modify (fun _ => rfl) fun _ => rfl

theorem orderly_observe (e : Event) : Orderly (observe e) :=
  orderly_read fun _ => orderly_ite (orderly_report e) (orderly_pure _)

theorem orderly_log (m : Message) : Orderly (log m) :=
  orderly_read fun _ => orderly_ite (orderly_report _) (orderly_pure _)

theorem orderly_modifyGraph (f : Graph → Graph) : Orderly (modifyGraph f) :=
  orderly_modify (fun _ => rfl) fun _ => rfl

theorem orderly_onGraph (x : StateM Graph α) : Orderly (onGraph x) := fun _ => ⟨rfl, rfl⟩

theorem orderly_structuralFault (defect : GraphDefect) (rule : Option String) :
    Orderly (structuralFault defect rule : Planning α) :=
  orderly_read fun _ => orderly_throw rfl

theorem orderly_current (id : VertexId) : Orderly (current id) := by
  refine orderly_read fun p => ?_
  split
  · exact orderly_pure _
  · exact orderly_structuralFault _ _

theorem orderly_placeholder (id : VertexId) : Orderly (placeholder id) := by
  refine orderly_read fun p => ?_
  split
  · exact orderly_pure _
  · exact orderly_structuralFault _ _

theorem orderly_requireRoot : Orderly requireRoot := by
  refine orderly_read fun p => ?_
  simp only
  split
  · exact orderly_ite (orderly_pure _) (orderly_structuralFault _ _)
  · exact orderly_structuralFault _ _

theorem orderly_topologicalOrder : Orderly topologicalOrder := by
  refine orderly_read fun p => ?_
  split
  · exact orderly_pure _
  · exact orderly_structuralFault _ _

theorem orderly_checkAcyclic (rule : Option String) : Orderly (checkAcyclic rule) :=
  orderly_read fun _ => orderly_ite (orderly_structuralFault _ _) (orderly_pure _)

theorem orderly_countTransformation : Orderly countTransformation :=
  orderly_modify (fun _ => rfl) fun _ => rfl

theorem orderly_place (node : Node) : Orderly (place node) := by
  intro p
  refine ends_bind.2 (ends_get.2 ?_)
  simp only
  split
  · exact ends_pure.2 ⟨rfl, rfl⟩
  · exact ends_bind.2 (ends_set.2 (ends_bind.2 (ends_modify.2 (ends_pure.2 ⟨rfl, rfl⟩))))

mutual

theorem orderly_add : ∀ node : Node, Orderly (add node)
  | ⟨op, inputs, traits, rowType⟩ => by
    by_cases hop : ∃ j, op = .vertex j
    · obtain ⟨j, rfl⟩ := hop
      rw [add]
      refine orderly_read fun p => ?_
      split
      · exact (orderly_structuralFault _ _).bind fun _ => orderly_pure _
      · exact orderly_pure _
    · rw [add]
      · exact (orderly_addInputs inputs).bind fun _ => orderly_place _
      · exact fun j hj => hop ⟨j, hj⟩

theorem orderly_addInputs : ∀ nodes : List Node, Orderly (addInputs nodes)
  | [] => orderly_pure _
  | n :: ns => by
    rw [addInputs]
    refine (orderly_add n).bind fun id => (orderly_placeholder id).bind fun _ => ?_
    exact (orderly_addInputs ns).bind fun _ => orderly_pure _

end

theorem orderly_replace (id : VertexId) (node : Node) (isNew : Bool) :
    Orderly (replace id node isNew) := by
  refine orderly_read fun p => ?_
  split
  · exact orderly_structuralFault _ _
  · refine (orderly_modifyGraph _).bind fun _ => ?_
    exact orderly_ite (orderly_observe _) (orderly_pure _)

theorem orderly_redirect (preserved discarded : VertexId) (node : Node) (parent : VertexId) :
    Orderly (redirect preserved discarded node parent) :=
  (orderly_current parent).bind fun _ => (orderly_modifyGraph _).bind fun _ =>
    orderly_replace parent _ true

theorem orderly_contract (preserved discarded : VertexId) (parents : List VertexId) :
    Orderly (contract preserved discarded parents) := by
  refine orderly_ite (orderly_pure _) ((orderly_current preserved).bind fun node => ?_)
  refine (orderly_replace preserved node false).bind fun _ => ?_
  refine (orderly_placeholder preserved).bind fun node => ?_
  refine (orderly_forM fun parent _ => orderly_redirect _ _ node parent).bind fun _ => ?_
  exact orderly_read fun _ => orderly_ite (orderly_modifyGraph _) (orderly_pure _)

theorem orderly_collectGarbage : Orderly collectGarbage := by
  intro p
  exact (ends_collectGarbage p _).mono (fun _ _ h => ⟨h.registry, h.execution⟩) fun _ _ h => h

/-! ## Trying a rule -/


theorem orderly_answer (question : Question) : Orderly (answer question) := by
  cases question with
  | resolve node => exact orderly_read fun _ => orderly_pure _
  | rowCount node => exact orderly_onGraph (Graph.rowCount node)
  | cumulativeCost node =>
    exact orderly_read fun p => orderly_onGraph (Graph.cumulativeCost p.settings.model node)
  | cheaper a b => exact orderly_read fun _ => orderly_pure _
  | cancelled => exact orderly_read fun _ => orderly_pure _

/-- Asking an inquiry that never fails, whatever it proposes. -/
theorem orderly_run_ruleAnswerer {phase : Phase} (i : Inquiry phase α) (hi : i.Unfailing) :
    ∀ proposed, Orderly ((i.run ruleAnswerer).run proposed) := by
  induction i with
  | done a => exact fun proposed => orderly_pure (a, proposed)
  | fail f => exact hi.elim
  | ask question next ih =>
    intro proposed
    exact ((orderly_answer question).bind fun a => orderly_pure (a, proposed)).bind
      fun a => ih a.1 (hi a.1) a.2
  | convert _ node traits next ih =>
    intro proposed
    have hconvert : Orderly (caught (convertTraits node traits)) :=
      Asks.orderly_caught fun _ => asks_convertTraits node traits
    exact (hconvert.bind fun a => orderly_pure (a, proposed)).bind fun a => ih a.1 (hi a.1) a.2
  | propose _ node next ih =>
    exact fun proposed => (orderly_pure ((), proposed ++ [node])).bind fun a => ih hi a.2

theorem orderly_fire {rule : Rule} (hrule : rule.Decides) (node : Node) (call : Call) :
    Orderly (fire rule node call) := by
  apply (orderly_run_ruleAnswerer _ (hrule call) []).bind
  intro applies
  obtain ⟨applies, _⟩ := applies
  refine orderly_ite (orderly_pure _) ((orderly_log _).bind fun _ => Orderly.bind ?_ fun proposed =>
    (orderly_observe _).bind fun _ => orderly_pure _)
  exact orderly_rethrown
    (fun _ => (asks_run_ruleAnswerer (rule.fire call) []).bind fun _ => .pure _) _

theorem orderly_isWanted (c : Conversion) (id : VertexId) : Orderly (isWanted c id) :=
  orderly_read fun _ => orderly_pure _

theorem orderly_occasion? (rule : Rule) (id : VertexId) (force : Bool) :
    Orderly (occasion? rule id force) := by
  unfold occasion?
  split
  · refine orderly_ite ?_ (orderly_pure _)
    exact (orderly_isWanted _ id).bind fun _ => orderly_ite (orderly_pure _) (orderly_pure _)
  · exact orderly_read fun _ => orderly_ite (orderly_pure _) (orderly_pure _)
  · exact orderly_pure _

theorem orderly_consider (node : Node) : Orderly (cheapest.consider node) :=
  orderly_read fun _ => (orderly_onGraph _).bind fun _ => (orderly_log _).bind fun _ =>
    orderly_pure _

theorem orderly_cheapest_go (others : List Node) :
    ∀ best cost, Orderly (cheapest.go best cost others) := by
  induction others with
  | nil => exact fun best _ => orderly_pure best
  | cons node rest ih =>
    intro best cost
    rw [cheapest.go]
    exact (orderly_consider node).bind fun _ => orderly_read fun _ => orderly_ite (ih _ _) (ih _ _)

theorem orderly_cheapest (first : Node) (others : List Node) : Orderly (cheapest first others) :=
  orderly_ite (orderly_pure _) ((orderly_consider first).bind fun _ => orderly_cheapest_go others _ _)

theorem orderly_substitute (rule : Rule) (id : VertexId) (accepts : Node → Bool) (first : Node)
    (others : List Node) : Orderly (substitute rule id accepts first others) := by
  refine (orderly_cheapest first others).bind fun best => orderly_read fun p => ?_
  refine (orderly_add best).bind fun result => orderly_ite (orderly_pure _) ?_
  refine (orderly_contract _ _ _).bind fun _ => ?_
  have hrest : Orderly (do
      log (.substituted rule.description id result)
      checkAcyclic (some rule.description)
      return some result) :=
    (orderly_log _).bind fun _ => (orderly_checkAcyclic _).bind fun _ => orderly_pure _
  exact orderly_ite (orderly_countTransformation.bind fun _ => hrest) hrest

theorem orderly_attempt {rule : Rule} (hrule : rule.Decides) (id : VertexId) (force : Bool) :
    Orderly (attempt rule id force) := by
  refine orderly_read fun p => orderly_ite (orderly_pure _) ?_
  refine (orderly_occasion? rule id force).bind fun occasion => ?_
  cases occasion with
  | none => exact orderly_pure _
  | some occasion =>
    refine (orderly_current id).bind fun node => orderly_read fun p => ?_
    split
    · next f hf => exact orderly_throw (p.graph.blameless_bind _ _ _ f hf)
    · exact orderly_pure _
    · refine (orderly_fire hrule _ _).bind fun proposed => ?_
      cases proposed with
      | nil => exact orderly_pure _
      | cons first others =>
        refine (orderly_substitute rule id _ first others).bind fun result => ?_
        cases result with
        | none => exact orderly_pure _
        | some result => exact orderly_pure _

theorem orderly_reportProduction (rule : Rule) (replacement : Replacement) :
    Orderly (reportProduction rule replacement) := by
  refine orderly_read fun p => orderly_ite ?_ (orderly_pure _)
  refine (orderly_current _).bind fun after => orderly_read fun p => ?_
  refine (orderly_onGraph _).bind fun _ => (orderly_onGraph _).bind fun _ => ?_
  exact (orderly_report _).bind fun _ => orderly_collectGarbage

theorem orderly_apply {rule : Rule} (hrule : rule.Decides) (id : VertexId) (force : Bool) :
    Orderly (apply rule id force) := by
  refine (orderly_attempt hrule id force).bind fun replacement => ?_
  cases replacement with
  | none => exact orderly_pure _
  | some replacement =>
    exact (orderly_reportProduction rule replacement).bind fun _ => orderly_pure _

/-! ## Passes -/

theorem orderly_schedule (start : VertexId) : Orderly (schedule start) := by
  refine orderly_collectGarbage.bind fun _ => orderly_read fun p => ?_
  split
  · exact orderly_read fun _ => orderly_pure _
  · exact orderly_read fun _ => orderly_pure _
  · exact orderly_topologicalOrder
  · exact orderly_topologicalOrder.bind fun _ => orderly_pure _

theorem orderly_scheduleFromRoot : Orderly scheduleFromRoot :=
  orderly_requireRoot.bind orderly_schedule

theorem orderly_visit {rules : List Rule} (hrules : ∀ r ∈ rules, r.Decides) (force : Bool)
    (id : VertexId) : Orderly (visit rules force id) := by
  induction rules with
  | nil => exact orderly_pure _
  | cons rule rest ih =>
    have hrest := ih fun r hr => hrules r (List.mem_cons_of_mem rule hr)
    refine (orderly_apply (hrules rule List.mem_cons_self) id force).bind fun result => ?_
    cases result with
    | none => exact hrest
    | some result => exact orderly_ite (orderly_pure _) hrest

theorem orderly_resume (result : VertexId) (settled : Bool) (rest : List VertexId) :
    Orderly (resume result settled rest) :=
  orderly_read fun _ => orderly_ite orderly_scheduleFromRoot
    ((orderly_schedule result).bind fun _ => orderly_pure _)

theorem orderly_traverse {rules : List Rule} (hrules : ∀ r ∈ rules, r.Decides) (force : Bool)
    (n : Nat) : ∀ pending settled matched, Orderly (traverse rules force n pending settled matched) := by
  induction n with
  | zero => exact fun _ _ _ => orderly_throw rfl
  | succ n ih =>
    intro pending settled matched
    cases pending with
    | nil =>
      rw [traverse]
      exact orderly_ite (orderly_pure _) (orderly_scheduleFromRoot.bind fun _ => ih _ _ _)
    | cons id rest =>
      rw [traverse]
      refine (orderly_visit hrules force id).bind fun result => ?_
      cases result with
      | none => exact ih _ _ _
      | some result =>
        refine orderly_read fun p => orderly_ite (orderly_pure _) ?_
        exact (orderly_resume result settled rest).bind fun _ => orderly_read fun _ => ih _ _ _

theorem orderly_fireRules {rules : List Rule} (hrules : ∀ r ∈ rules, r.Decides) (fuel : Nat)
    (force : Bool) : Orderly (fireRules fuel rules force) :=
  (orderly_log _).bind fun _ => orderly_scheduleFromRoot.bind fun _ =>
    orderly_traverse hrules force fuel _ _ _

theorem orderly_sweepIfLarge : Orderly sweepIfLarge :=
  orderly_read fun _ => orderly_ite orderly_collectGarbage (orderly_pure _)

end Planner

end QueryPlanner
