import QueryPlanner.Planner.Execution
import QueryPlanner.Proofs.Planner.Insertion
import QueryPlanner.Proofs.Planner.Lockstep

/-!
# Reports are not read

An operation commutes with a change of the state if it ends in the changed state as it ends in the
state itself, and leaves what it leaves there, changed in the same way. All operations commute with
putting reports before those that were made: a planner adds to its reports and never reads them. What
it reports from some state on is therefore the same whatever was reported before.
-/

namespace QueryPlanner

open QueryPlanner.Graph Planning

namespace Planning

variable {α β : Type} {u : Planner → Planner} {p q : Planner}

/-- An outcome with another state. -/
def restate (u : Planner → Planner) : EStateM.Result Fault Planner α → EStateM.Result Fault Planner α
  | .ok a q => .ok a (u q)
  | .error f q => .error f (u q)

/-- The operation does in the changed state what it does in the state itself. -/
def Commutes (u : Planner → Planner) (x : Planning α) : Prop := ∀ p, x (u p) = restate u (x p)

theorem commutes_pure (a : α) : Commutes u (pure a : Planning α) := fun _ => rfl

theorem commutes_throw (f : Fault) : Commutes u (throw f : Planning α) := fun _ => rfl

theorem Commutes.bind {x : Planning α} {f : α → Planning β} (hx : Commutes u x)
    (hf : ∀ a, Commutes u (f a)) : Commutes u (x >>= f) := by
  intro p
  show EStateM.bind x f (u p) = restate u (EStateM.bind x f p)
  unfold EStateM.bind
  rw [hx p]
  cases x p with
  | ok a q => exact hf a q
  | error f q => rfl

theorem Commutes.discard {x : Planning α} (hx : Commutes u x) : Commutes u (discard x) := by
  intro p
  show EStateM.map _ x (u p) = restate u (EStateM.map _ x p)
  unfold EStateM.map
  rw [hx p]
  cases x p with
  | ok a q => rfl
  | error f q => rfl

/-- What is read is the same in the changed state. -/
theorem commutes_get {k : Planner → Planning β} (hk : ∀ p, k (u p) = k p)
    (h : ∀ p, Commutes u (k p)) : Commutes u (get >>= k) := by
  intro p
  show k (u p) (u p) = restate u (k p p)
  rw [hk]
  exact h p p

theorem commutes_modify {f : Planner → Planner} (h : ∀ p, f (u p) = u (f p)) :
    Commutes u (modify f : Planning Unit) := by
  intro p
  show EStateM.Result.ok () (f (u p)) = .ok () (u (f p))
  rw [h]

theorem commutes_ite {c : Prop} [Decidable c] {x y : Planning α} (hx : Commutes u x)
    (hy : Commutes u y) : Commutes u (if c then x else y) := by
  split
  · exact hx
  · exact hy

theorem commutes_forM {f : α → Planning PUnit} (hf : ∀ a, Commutes u (f a)) (xs : List α) :
    Commutes u (xs.forM f) := by
  induction xs with
  | nil => exact commutes_pure _
  | cons x xs ih => exact (hf x).bind fun _ => ih

end Planning

/-! ## Earlier reports -/

/-- The planner after earlier reports. -/
def Planner.following (earlier : Array Event) (p : Planner) : Planner :=
  { p with events := earlier ++ p.events }

namespace Planning

open Planner

variable {α β : Type} {s : Settings} {earlier : Array Event} {p q : Planner}

/-- The operation adds to the reports and does not read them. -/
def Oblivious (x : Planning α) : Prop := ∀ earlier, Commutes (following earlier) x

theorem following_parallel (earlier : Array Event) (p : Planner) :
    p.Parallel (following earlier p) :=
  (Reported.undisturbed ⟨_, rfl⟩).toAlike.parallel

theorem oblivious_report (e : Event) : Oblivious (report e) := by
  refine fun earlier => commutes_modify fun p => ?_
  simp only [following, Array.append_push]

theorem oblivious_log (m : Message) : Oblivious (log m) := fun earlier =>
  commutes_get (fun _ => rfl) fun _ => commutes_ite (oblivious_report _ earlier) (commutes_pure _)

theorem oblivious_observe (e : Event) : Oblivious (observe e) := fun earlier =>
  commutes_get (fun _ => rfl) fun _ => commutes_ite (oblivious_report _ earlier) (commutes_pure _)

theorem oblivious_onGraph {x : StateM Graph α} : Oblivious (onGraph x) := fun _ _ => rfl

/-- What is found out by asking does not depend on what was reported. -/
theorem Asks.restate {x : Planning α} (h : Asks s x) (earlier : Array Event) :
    ∀ p, p.settings = s → x (following earlier p) = restate (following earlier) (x p) := by
  induction h with
  | pure a => exact fun p _ => rfl
  | throw f => exact fun p _ => rfl
  | @read α k _ hparallel ih =>
    intro p hs
    show k (following earlier p) (following earlier p) = Planning.restate _ (k p p)
    rw [hparallel p _ (following_parallel earlier p)]
    exact ih p hs p hs
  | log m => exact fun p _ => oblivious_log m earlier p
  | report => exact fun p _ => oblivious_report _ earlier p
  | observe => exact fun p _ => oblivious_observe _ earlier p
  | rowCount node => exact fun p _ => rfl
  | cumulativeCost node => exact fun p _ => rfl
  | @bind α β x f hx _ ihx ihf =>
    intro p hs
    show EStateM.bind x f (following earlier p) = Planning.restate _ (EStateM.bind x f p)
    unfold EStateM.bind
    rw [ihx p hs]
    cases hend : x p with
    | ok a q => exact ihf a q (((hx.undisturbed p hs).ok hend).settings.trans hs)
    | error f q => rfl
  | @caught α x _ ih =>
    intro p hs
    show Planner.caught x (following earlier p) = Planning.restate _ (Planner.caught x p)
    unfold Planner.caught
    rw [ih p hs]
    cases x p <;> rfl
  | @tryCatch α x handler hx _ ihx ihh =>
    intro p hs
    show EStateM.tryCatch x handler (following earlier p) =
      Planning.restate _ (EStateM.tryCatch x handler p)
    unfold EStateM.tryCatch
    rw [ihx p hs]
    cases hend : x p with
    | ok a q => rfl
    | error f q => exact ihh f q (((hx.undisturbed p hs).error hend).settings.trans hs)

theorem Asks.oblivious {x : Planning α} (h : ∀ s, Asks s x) : Oblivious x :=
  fun earlier p => (h p.settings).restate earlier p rfl

/-! ## Adding and redirecting -/

theorem oblivious_modifyGraph (f : Graph → Graph) : Oblivious (modifyGraph f) :=
  fun _ => commutes_modify fun _ => rfl

theorem oblivious_structuralFault (defect : GraphDefect) (rule : Option String) :
    Oblivious (structuralFault defect rule : Planning α) :=
  Asks.oblivious fun _ => asks_structuralFault defect rule

theorem oblivious_current (id : VertexId) : Oblivious (current id) :=
  Asks.oblivious fun _ => asks_current id

theorem oblivious_placeholder (id : VertexId) : Oblivious (placeholder id) := by
  refine fun earlier => commutes_get (fun _ => rfl) fun p => ?_
  split
  · exact commutes_pure _
  · exact oblivious_structuralFault _ _ earlier

theorem oblivious_place (node : Node) : Oblivious (place node) := by
  intro earlier p
  have hshared : (following earlier p).shared? node = p.shared? node := rfl
  rw [place_eq, place_eq, hshared]
  cases p.shared? node <;> rfl

mutual

theorem oblivious_add : ∀ n : Node, Oblivious (add n)
  | ⟨op, inputs, traits, rowType⟩ => by
    by_cases hop : ∃ j, op = .vertex j
    · obtain ⟨j, rfl⟩ := hop
      rw [add]
      refine fun earlier => commutes_get (fun _ => rfl) fun p => ?_
      split
      · exact (oblivious_structuralFault _ _ earlier).bind fun _ => commutes_pure _
      · exact commutes_pure _
    · rw [add]
      · exact fun earlier => (oblivious_addInputs inputs earlier).bind fun _ =>
          oblivious_place _ earlier
      · exact fun j hj => hop ⟨j, hj⟩

theorem oblivious_addInputs : ∀ ns : List Node, Oblivious (addInputs ns)
  | [] => by
    rw [addInputs]
    exact fun _ => commutes_pure _
  | n :: ns => by
    rw [addInputs]
    exact fun earlier => (oblivious_add n earlier).bind fun id =>
      (oblivious_placeholder id earlier).bind fun _ =>
        (oblivious_addInputs ns earlier).bind fun _ => commutes_pure _

end

theorem oblivious_replace (id : VertexId) (node : Node) (isNew : Bool) :
    Oblivious (replace id node isNew) := by
  refine fun earlier => commutes_get (fun _ => rfl) fun p => ?_
  split
  · exact oblivious_structuralFault _ _ earlier
  · exact (oblivious_modifyGraph _ earlier).bind fun _ =>
      commutes_ite (oblivious_observe _ earlier) (commutes_pure _)

theorem oblivious_redirect (preserved discarded : VertexId) (placeholder : Node)
    (parent : VertexId) : Oblivious (redirect preserved discarded placeholder parent) :=
  fun earlier => (oblivious_current parent earlier).bind fun _ =>
    (oblivious_modifyGraph _ earlier).bind fun _ => oblivious_replace _ _ _ earlier

theorem oblivious_contract (preserved discarded : VertexId) (parents : List VertexId) :
    Oblivious (Planner.contract preserved discarded parents) := by
  intro earlier
  unfold Planner.contract
  refine commutes_ite (commutes_pure _) ?_
  refine (oblivious_current preserved earlier).bind fun node => ?_
  refine (oblivious_replace preserved node false earlier).bind fun _ => ?_
  refine (oblivious_placeholder preserved earlier).bind fun _ => ?_
  refine (commutes_forM (fun parent => oblivious_redirect _ _ _ parent earlier) parents).bind
    fun _ => ?_
  exact commutes_get (fun _ => rfl) fun p =>
    commutes_ite (oblivious_modifyGraph _ earlier) (commutes_pure _)

/-! ## Firing -/

theorem oblivious_substitute (rule : Rule) (id : VertexId) (accepts : Node → Bool) (first : Node)
    (others : List Node) : Oblivious (substitute rule id accepts first others) := by
  intro earlier
  refine (Asks.oblivious (fun _ => asks_cheapest first others) earlier).bind fun best => ?_
  refine commutes_get (fun _ => rfl) fun p => ?_
  refine (oblivious_add best earlier).bind fun result => ?_
  refine commutes_ite (commutes_pure _) ?_
  refine (oblivious_contract result id _ earlier).bind fun _ => ?_
  have hrest : Commutes (following earlier) (do
      log (.substituted rule.description id result)
      checkAcyclic (some rule.description)
      return some result) :=
    (oblivious_log _ earlier).bind fun _ =>
      (Asks.oblivious (fun _ => asks_checkAcyclic _) earlier).bind fun _ => commutes_pure _
  split
  · exact Commutes.bind (commutes_modify fun _ => rfl) fun _ => hrest
  · exact hrest

theorem oblivious_attempt (rule : Rule) (id : VertexId) (force : Bool) :
    Oblivious (attempt rule id force) := by
  refine fun earlier => commutes_get (fun _ => rfl) fun p => ?_
  refine commutes_ite (commutes_pure _) ?_
  refine (Asks.oblivious (fun _ => asks_occasion? rule id force) earlier).bind ?_
  rintro (_ | occasion)
  · exact commutes_pure _
  refine (oblivious_current id earlier).bind fun node => ?_
  refine commutes_get (fun _ => rfl) fun p => ?_
  split
  · exact commutes_throw _
  · exact commutes_pure _
  refine (Asks.oblivious (fun _ => asks_fire rule node _) earlier).bind ?_
  rintro (_ | ⟨first, others⟩)
  · exact commutes_pure _
  refine (oblivious_substitute rule id _ first others earlier).bind ?_
  rintro (_ | result)
  · exact commutes_pure _
  · exact commutes_pure _

end Planning

/-! ## Sweeping -/

namespace Planner

/-- What is done when the graph has changed since garbage was last looked for. -/
def sweep (g : Graph) : Planning Unit :=
  match g.root with
  | none => log .sweepWithoutRoot
  | some root =>
    if !g.contains root then log .sweepWithoutRoot
    else do
      modify fun p => { p with sizeAtSweep := (g.reachableFrom root).length }
      if (g.garbage root).isEmpty then return
      log (.sweeping (g.garbage root).length)
      remove (g.garbage root)

theorem collectGarbage_eq (p : Planner) : collectGarbage p =
    if p.transformations = p.transformationsAtSweep then .ok () p
    else sweep p.graph { p with transformationsAtSweep := p.transformations } := by
  show (if p.transformations = p.transformationsAtSweep then pure ()
    else set { p with transformationsAtSweep := p.transformations } >>= fun _ => sweep p.graph :
      Planning Unit) p = _
  split
  · rfl
  · rfl

end Planner

namespace Planning

open Planner

/-- A change of reports, and of how rule instructions are executed. -/
def Sideways (u : Planner → Planner) : Prop :=
  ∃ (earlier : Array Event) (f : Execution → Execution),
    u = fun p => { p with events := earlier ++ p.events, execution := f p.execution }

theorem sideways_following (earlier : Array Event) : Sideways (following earlier) :=
  ⟨earlier, id, rfl⟩

theorem sideways_execution (e : Execution) : Sideways fun p => { p with execution := e } :=
  ⟨#[], fun _ => e, by simp⟩

section Sideways

variable {u : Planner → Planner}

theorem Sideways.report (hu : Sideways u) (e : Event) : Commutes u (report e) := by
  obtain ⟨earlier, f, rfl⟩ := hu
  refine commutes_modify fun p => ?_
  simp only [Array.append_push]

theorem Sideways.log (hu : Sideways u) (m : Message) : Commutes u (log m) := by
  refine commutes_get (fun p => ?_) fun _ => commutes_ite (hu.report _) (commutes_pure _)
  obtain ⟨earlier, f, rfl⟩ := hu
  rfl

theorem Sideways.observe (hu : Sideways u) (e : Event) : Commutes u (observe e) := by
  refine commutes_get (fun p => ?_) fun _ => commutes_ite (hu.report _) (commutes_pure _)
  obtain ⟨earlier, f, rfl⟩ := hu
  rfl

theorem Sideways.remove (hu : Sideways u) (garbage : List VertexId) :
    Commutes u (remove garbage) := by
  refine (commutes_forM (fun id => commutes_get (fun p => ?_) fun p => ?_) garbage).bind
    fun _ => commutes_modify fun p => ?_
  · obtain ⟨earlier, f, rfl⟩ := hu
    rfl
  · split
    · exact hu.observe _
    · exact commutes_pure _
  · obtain ⟨earlier, f, rfl⟩ := hu
    rfl

theorem Sideways.sweep (hu : Sideways u) (g : Graph) : Commutes u (sweep g) := by
  unfold Planner.sweep
  split
  · exact hu.log _
  · refine commutes_ite (hu.log _) (Commutes.bind (commutes_modify fun p => ?_) fun _ =>
      commutes_ite (commutes_pure _) ((hu.log _).bind fun _ => hu.remove _))
    obtain ⟨earlier, f, rfl⟩ := hu
    rfl

/-- Garbage is looked for in the same way. -/
theorem Sideways.collectGarbage (hu : Sideways u) : Commutes u collectGarbage := by
  intro p
  have hsweep := hu.sweep p.graph { p with transformationsAtSweep := p.transformations }
  rw [collectGarbage_eq, collectGarbage_eq]
  obtain ⟨earlier, f, rfl⟩ := hu
  by_cases hclean : p.transformations = p.transformationsAtSweep
  · rw [if_pos hclean, if_pos hclean]
    rfl
  · rw [if_neg hclean, if_neg hclean]
    exact hsweep

end Sideways

theorem oblivious_collectGarbage : Oblivious collectGarbage :=
  fun earlier => (sideways_following earlier).collectGarbage

theorem oblivious_sweepIfLarge : Oblivious sweepIfLarge := fun earlier =>
  commutes_get (fun _ => rfl) fun _ =>
    commutes_ite (oblivious_collectGarbage earlier) (commutes_pure _)

/-! ## Passes -/

theorem oblivious_reportProduction (rule : Rule) (replacement : Replacement) :
    Oblivious (reportProduction rule replacement) := by
  refine fun earlier => commutes_get (fun _ => rfl) fun p => commutes_ite ?_ (commutes_pure _)
  refine (oblivious_current _ earlier).bind fun after => commutes_get (fun _ => rfl) fun p => ?_
  refine (oblivious_onGraph earlier).bind fun _ => (oblivious_onGraph earlier).bind fun _ => ?_
  exact (oblivious_report _ earlier).bind fun _ => oblivious_collectGarbage earlier

theorem oblivious_apply (rule : Rule) (id : VertexId) (force : Bool) :
    Oblivious (apply rule id force) := by
  refine fun earlier => (oblivious_attempt rule id force earlier).bind ?_
  rintro (_ | replacement)
  · exact commutes_pure _
  · exact (oblivious_reportProduction rule replacement earlier).bind fun _ => commutes_pure _

theorem oblivious_visit (rules : List Rule) (force : Bool) (id : VertexId) :
    Oblivious (visit rules force id) := by
  intro earlier
  induction rules with
  | nil => exact commutes_pure _
  | cons rule rest ih =>
    rw [visit]
    refine (oblivious_apply rule id force earlier).bind ?_
    rintro (_ | result)
    · exact ih
    · exact commutes_ite (commutes_pure _) ih

theorem oblivious_schedule (start : VertexId) : Oblivious (schedule start) := by
  refine fun earlier => (oblivious_collectGarbage earlier).bind fun _ => ?_
  have horder := Asks.oblivious (fun _ => asks_topologicalOrder) earlier
  refine commutes_get (fun _ => rfl) fun p => ?_
  split
  · exact commutes_get (fun _ => rfl) fun _ => commutes_pure _
  · exact commutes_get (fun _ => rfl) fun _ => commutes_pure _
  · exact horder
  · exact horder.bind fun _ => commutes_pure _

theorem oblivious_scheduleFromRoot : Oblivious scheduleFromRoot := fun earlier =>
  (Asks.oblivious (fun _ => asks_requireRoot) earlier).bind fun root =>
    oblivious_schedule root earlier

theorem oblivious_resume (result : VertexId) (settled : Bool) (rest : List VertexId) :
    Oblivious (resume result settled rest) := by
  refine fun earlier => commutes_get (fun _ => rfl) fun p => ?_
  refine commutes_ite (oblivious_scheduleFromRoot earlier) ?_
  exact (oblivious_schedule result earlier).bind fun _ => commutes_pure _

theorem oblivious_traverse (rules : List Rule) (force : Bool) (n : Nat) :
    ∀ pending settled matched, Oblivious (traverse rules force n pending settled matched) := by
  induction n with
  | zero => exact fun _ _ _ _ => commutes_throw _
  | succ n ih =>
    intro pending settled matched earlier
    cases pending with
    | nil =>
      rw [Planner.traverse]
      exact commutes_ite (commutes_pure _)
        ((oblivious_scheduleFromRoot earlier).bind fun pending => ih pending _ _ earlier)
    | cons id rest =>
      rw [Planner.traverse]
      refine (oblivious_visit rules force id earlier).bind ?_
      rintro (_ | result)
      · exact ih _ _ _ earlier
      · refine commutes_get (fun _ => rfl) fun p => commutes_ite (commutes_pure _) ?_
        refine (oblivious_resume result settled rest earlier).bind fun pending => ?_
        exact commutes_get (fun _ => rfl) fun _ => ih _ _ _ earlier

theorem oblivious_fireRules (fuel : Nat) (rules : List Rule) (force : Bool) :
    Oblivious (fireRules fuel rules force) := fun earlier =>
  (oblivious_log _ earlier).bind fun _ =>
    (oblivious_scheduleFromRoot earlier).bind fun _ => oblivious_traverse _ _ _ _ _ _ earlier

/-! ## Programs -/

theorem Commutes.paired {u : Planner → Planner} {x : Planning α} (h : Commutes u x) {p q : Planner}
    (hpq : q = u p) :
    Paired x x p q (fun a b p q => b = a ∧ q = u p) fun f g p q => g = f ∧ q = u p := by
  unfold Paired
  rw [hpq, h p]
  cases x p with
  | ok a p => exact ⟨rfl, rfl⟩
  | error f p => exact ⟨rfl, rfl⟩

/-- Whatever a program does, a planner with earlier reports does the same. -/
theorem lockstep_following (earlier : Array Event) :
    Lockstep (fun _ => True) (fun _ => True) (fun p q => q = following earlier p)
      fun f g p q => g = f ∧ q = following earlier p where
  fresh := trivial
  allows _ := ⟨by simp, by simp, by simp⟩
  order _ := trivial
  registry h := h ▸ rfl
  execution h := h ▸ rfl
  transformations h := h ▸ rfl
  executed h _ _ := h ▸ rfl
  log m h := ((oblivious_log m earlier).paired h).mono (fun _ _ _ _ h => h.2) fun _ _ _ _ h => h
  fireRules fuel force _ h := ((oblivious_fireRules fuel _ force earlier).paired h).mono
    (fun _ _ _ _ h => h.2) fun _ _ _ _ h => h
  sweepIfLarge h :=
    ((oblivious_sweepIfLarge earlier).paired h).mono (fun _ _ _ _ h => h.2) fun _ _ _ _ h => h
  fault _ h := ⟨rfl, h⟩
  fault_execution _ h := ⟨h.1, h.2 ▸ rfl⟩

theorem oblivious_executeAll (fuel : Nat) (is : List Instruction) :
    Oblivious (executeAll fuel is) := by
  intro earlier p
  have h := (lockstep_following earlier).executeAll fuel is (fun _ _ => trivial)
    (fun _ _ => trivial) p _ rfl
  obtain ⟨_, _, p', q', hp, hq, h⟩ | ⟨f, g, p', q', hp, hq, h⟩ := h.cases_on
  · rw [hp, hq, h]
    rfl
  · rw [hp, hq, h.1, h.2]
    rfl

end Planning

end QueryPlanner
