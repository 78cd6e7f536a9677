import QueryPlanner.Proofs.Planner.Ledger

/-!
# Recording

Everything that a planner does until it extracts its plan has a ledger: adding, redirecting, sweeping,
firing and executing programs, whatever rules there are. Nothing is chosen before the plan is
extracted.
-/

namespace QueryPlanner

open QueryPlanner.Graph Planning

namespace Planner

variable {α β : Type} {p q : Planner} {x : Planning α}

/-- The operation has a ledger in which exactly these are chosen. -/
def Selects (x : Planning α) (p : Planner) (choices : List (VertexId × Node)) : Prop :=
  ∃ rs, Records x p rs ∧ rs.filterMap Record.choice? = choices

/-- The operation has a ledger in which nothing is chosen. -/
def Recorded (x : Planning α) (p : Planner) : Prop := Selects x p []

theorem selects_read {k : Planner → Planning α} {choices : List (VertexId × Node)}
    (h : Selects (k p) p choices) : Selects (get >>= k) p choices := by
  obtain ⟨rs, hrs, hchoices⟩ := h
  exact ⟨rs, .read hrs, hchoices⟩

/-- What comes before a choice is recorded with it. -/
theorem Recorded.selects {f : α → Planning β} {a : α} {choices : List (VertexId × Node)}
    (hx : Recorded x p) (hok : x p = .ok a q) (hf : Selects (f a) q choices) :
    Selects (x >>= f) p choices := by
  obtain ⟨rs, hrs, hnone⟩ := hx
  obtain ⟨rs', hrs', hchoices⟩ := hf
  refine ⟨rs ++ rs', .bind hrs hok hrs', ?_⟩
  rw [List.filterMap_append, hnone, hchoices]
  rfl

theorem recorded_asks (h : Asks p.settings x) : Recorded x p := ⟨[], .asks h, rfl⟩

theorem recorded_pure (a : α) (p : Planner) : Recorded (pure a) p := recorded_asks (.pure a)

theorem recorded_throw (f : Fault) (p : Planner) : Recorded (throw f : Planning α) p :=
  recorded_asks (.throw f)

theorem recorded_read {k : Planner → Planning α} (h : Recorded (k p) p) : Recorded (get >>= k) p :=
  selects_read h

theorem recorded_set (h : p.Keeps q) : Recorded (set q) p := ⟨[], .set h, rfl⟩

theorem recorded_modify {f : Planner → Planner} (h : p.Keeps (f p)) : Recorded (modify f) p :=
  ⟨[], .modify h, rfl⟩

theorem Recorded.bind {f : α → Planning β} (hx : Recorded x p)
    (hf : ∀ a q, x p = .ok a q → Recorded (f a) q) : Recorded (x >>= f) p := by
  cases hend : x p with
  | ok a q => exact hx.selects hend (hf a q hend)
  | error f q =>
    obtain ⟨rs, hrs, hchoices⟩ := hx
    exact ⟨rs, .fault hrs hend, hchoices⟩

theorem recorded_forM {f : α → Planning PUnit} (hf : ∀ a p, Recorded (f a) p) (xs : List α) :
    ∀ p, Recorded (xs.forM f) p := by
  induction xs with
  | nil => exact fun p => recorded_pure _ p
  | cons a xs ih => exact fun p => (hf a p).bind fun _ q _ => ih q

theorem recorded_isolated {body : Planning Unit}
    (h : Recorded body { p with execution := .fresh }) : Recorded (isolated body) p := by
  obtain ⟨rs, hrs, hchoices⟩ := h
  exact ⟨rs, .isolated hrs, hchoices⟩

theorem recorded_log (m : Message) (p : Planner) : Recorded (log m) p := recorded_asks (Asks.log m)

theorem recorded_structuralFault (defect : GraphDefect) (rule : Option String) (p : Planner) :
    Recorded (structuralFault defect rule : Planning α) p :=
  recorded_asks (asks_structuralFault defect rule)

theorem recorded_placeholder (id : VertexId) (p : Planner) : Recorded (placeholder id) p := by
  refine recorded_read ?_
  split
  · exact recorded_pure _ p
  · exact recorded_structuralFault _ _ p

/-- What is changed of the graph is not its vertices. -/
theorem recorded_modifyGraph {f : Graph → Graph} (hslots : (f p.graph).slots = p.graph.slots)
    (hfree : (f p.graph).free = p.graph.free) :
    Recorded (modifyGraph f) p :=
  recorded_modify ⟨rfl, rfl, hslots, hfree⟩

/-! ## Adding -/

theorem recorded_place (node : Node) (p : Planner) : Recorded (place node) p := by
  refine ⟨_, .place node p, ?_⟩
  cases p.shared? node <;> rfl

mutual

theorem recorded_add : ∀ (n : Node) (p : Planner), Recorded (add n) p
  | ⟨op, inputs, traits, rowType⟩, p => by
    by_cases hop : ∃ j, op = .vertex j
    · obtain ⟨j, rfl⟩ := hop
      rw [add]
      refine recorded_read ?_
      split
      · exact (recorded_structuralFault _ _ p).bind fun _ q _ => recorded_pure _ q
      · exact recorded_pure _ p
    · rw [add]
      · exact (recorded_addInputs inputs p).bind fun _ q _ => recorded_place _ q
      · exact fun j hj => hop ⟨j, hj⟩

theorem recorded_addInputs : ∀ (ns : List Node) (p : Planner), Recorded (addInputs ns) p
  | [], p => by
    rw [addInputs]
    exact recorded_pure _ p
  | n :: ns, p => by
    rw [addInputs]
    refine (recorded_add n p).bind fun id q _ => (recorded_placeholder id q).bind fun _ r _ => ?_
    exact (recorded_addInputs ns r).bind fun _ s _ => recorded_pure _ s

end

theorem recorded_setRoot (plan : Node) (p : Planner) : Recorded (setRoot plan) p := by
  refine (recorded_add plan p).bind fun root q _ => ?_
  refine (recorded_modifyGraph rfl rfl).bind fun _ r _ => ?_
  exact recorded_read (recorded_log _ r)

/-! ## Redirecting -/

theorem recorded_replace (id : VertexId) (node : Node) (p : Planner) :
    Recorded (replace id node true) p := by
  refine ⟨_, .replace id node p, ?_⟩
  cases p.graph.current? id <;> rfl

theorem recorded_redirect (preserved discarded : VertexId) (node : Node) (parent : VertexId)
    (p : Planner) : Recorded (redirect preserved discarded node parent) p := by
  refine (recorded_asks (asks_current parent)).bind fun n q _ => ?_
  have hforget := alike_forget q.graph (q.graph.ancestors parent)
  refine (recorded_modifyGraph ?_ ?_).bind fun _ r _ => recorded_replace _ _ r
  · rw [addEdge_slots]
    exact hforget.slots
  · rw [addEdge_free]
    exact hforget.free

/-- The preserved vertex is registered once more, and its expression stays. -/
theorem recorded_contract (preserved discarded : VertexId) (parents : List VertexId) (p : Planner) :
    Recorded (contract preserved discarded parents) p := by
  unfold contract
  split
  · exact recorded_pure _ p
  refine (recorded_asks (asks_current preserved)).bind fun node q hcurrent => ?_
  obtain ⟨hnode, rfl⟩ := current_eq_ok.1 hcurrent
  have hregister : Recorded (replace preserved node false) q := ⟨[], .register hnode, rfl⟩
  refine hregister.bind fun _ r _ => (recorded_placeholder preserved r).bind fun placeholder r _ => ?_
  refine (recorded_forM (recorded_redirect preserved discarded placeholder) parents r).bind
    fun _ r _ => recorded_read ?_
  split
  · exact recorded_modifyGraph rfl rfl
  · exact recorded_pure _ r

/-! ## Sweeping -/

theorem recorded_collectGarbage (p : Planner) : Recorded collectGarbage p := by
  unfold collectGarbage
  refine recorded_read ?_
  split
  · exact recorded_pure _ p
  refine Recorded.bind (recorded_set ?_) fun _ q _ => ?_
  · exact ⟨rfl, rfl, rfl, rfl⟩
  split
  · exact recorded_log _ q
  split
  · exact recorded_log _ q
  refine (recorded_modify ⟨rfl, rfl, rfl, rfl⟩).bind fun _ r _ => ?_
  simp only
  split
  · exact recorded_pure _ r
  refine (recorded_log _ r).bind fun _ s _ => ⟨_, .remove ?_ s, ?_⟩
  · exact p.graph.nodup_vertexIds.filter _
  · rw [List.filterMap_map]
    exact List.filterMap_eq_nil_iff.2 fun _ _ => rfl

theorem recorded_sweepIfLarge (p : Planner) : Recorded sweepIfLarge p := by
  refine recorded_read ?_
  split
  · exact recorded_collectGarbage p
  · exact recorded_pure _ p

/-! ## Firing -/

theorem recorded_substitute (rule : Rule) (id : VertexId) (accepts : Node → Bool) (first : Node)
    (others : List Node) (p : Planner) : Recorded (substitute rule id accepts first others) p := by
  refine (recorded_asks (asks_cheapest first others)).bind fun best q _ => recorded_read ?_
  refine (recorded_add best q).bind fun result r _ => ?_
  split
  · exact recorded_pure _ r
  refine (recorded_contract result id _ r).bind fun _ s _ => ?_
  have hrest : ∀ p, Recorded (do
      log (.substituted rule.description id result)
      checkAcyclic (some rule.description)
      return some result) p := fun p =>
    recorded_asks ((Asks.log _).bind fun _ => (asks_checkAcyclic _).bind fun _ => .pure _)
  split
  · exact (recorded_modify ⟨rfl, rfl, rfl, rfl⟩).bind fun _ t _ => hrest t
  · exact hrest s

theorem recorded_attempt (rule : Rule) (id : VertexId) (force : Bool) (p : Planner) :
    Recorded (attempt rule id force) p := by
  refine recorded_read ?_
  split
  · exact recorded_pure _ p
  refine (recorded_asks (asks_occasion? rule id force)).bind fun occasion q _ => ?_
  cases occasion with
  | none => exact recorded_pure _ q
  | some occasion =>
    refine (recorded_asks (asks_current id)).bind fun node r _ => recorded_read ?_
    split
    · exact recorded_throw _ r
    · exact recorded_pure _ r
    refine (recorded_asks (asks_fire rule node _)).bind fun proposed s _ => ?_
    cases proposed with
    | nil => exact recorded_pure _ s
    | cons first others =>
      refine (recorded_substitute rule id _ first others s).bind fun result t _ => ?_
      cases result with
      | none => exact recorded_pure _ t
      | some result => exact recorded_pure _ t

theorem recorded_reportProduction (rule : Rule) (replacement : Replacement) (p : Planner) :
    Recorded (reportProduction rule replacement) p := by
  refine recorded_read ?_
  split
  · refine (recorded_asks (asks_current _)).bind fun after q _ => recorded_read ?_
    refine (recorded_asks (.cumulativeCost _)).bind fun beforeCost r hr => ?_
    have hsettings := ((Asks.cumulativeCost replacement.before).ends.ok hr).settings
    refine (recorded_asks (hsettings ▸ .cumulativeCost _)).bind fun afterCost s _ => ?_
    exact (recorded_asks (.report rfl rfl)).bind fun _ t _ => recorded_collectGarbage t
  · exact recorded_pure _ p

theorem recorded_apply (rule : Rule) (id : VertexId) (force : Bool) (p : Planner) :
    Recorded (apply rule id force) p := by
  refine (recorded_attempt rule id force p).bind fun replacement q _ => ?_
  cases replacement with
  | none => exact recorded_pure _ q
  | some replacement =>
    exact (recorded_reportProduction rule replacement q).bind fun _ r _ => recorded_pure _ r

/-! ## Executing programs -/

theorem recorded_schedule (start : VertexId) (p : Planner) : Recorded (schedule start) p := by
  refine (recorded_collectGarbage p).bind fun _ q _ => recorded_read ?_
  split
  · exact recorded_read (recorded_pure _ q)
  · exact recorded_read (recorded_pure _ q)
  · exact recorded_asks asks_topologicalOrder
  · exact (recorded_asks asks_topologicalOrder).bind fun _ r _ => recorded_pure _ r

theorem recorded_scheduleFromRoot (p : Planner) : Recorded scheduleFromRoot p :=
  (recorded_asks asks_requireRoot).bind fun root q _ => recorded_schedule root q

theorem recorded_visit (rules : List Rule) (force : Bool) (id : VertexId) :
    ∀ p, Recorded (visit rules force id) p := by
  induction rules with
  | nil => exact fun p => recorded_pure _ p
  | cons rule rest ih =>
    intro p
    rw [visit]
    refine (recorded_apply rule id force p).bind fun result q _ => ?_
    cases result with
    | none => exact ih q
    | some result =>
      simp only
      split
      · exact recorded_pure _ q
      · exact ih q

theorem recorded_resume (result : VertexId) (settled : Bool) (rest : List VertexId) (p : Planner) :
    Recorded (resume result settled rest) p := by
  refine recorded_read ?_
  simp only
  split
  · exact recorded_scheduleFromRoot p
  · refine (recorded_schedule result p).bind fun _ q _ => ?_
    split <;> exact recorded_pure _ q

theorem recorded_traverse (rules : List Rule) (force : Bool) (n : Nat) :
    ∀ pending settled matched p, Recorded (traverse rules force n pending settled matched) p := by
  induction n with
  | zero => exact fun _ _ _ p => recorded_throw _ p
  | succ n ih =>
    intro pending settled matched p
    cases pending with
    | nil =>
      rw [traverse]
      split
      · exact recorded_pure _ p
      · exact (recorded_scheduleFromRoot p).bind fun _ q _ => ih _ _ _ q
    | cons id rest =>
      rw [traverse]
      refine (recorded_visit rules force id p).bind fun result q _ => ?_
      cases result with
      | none => exact ih _ _ _ q
      | some result =>
        refine recorded_read ?_
        split
        · exact recorded_pure _ q
        · exact (recorded_resume result settled rest q).bind fun _ r _ => recorded_read (ih _ _ _ r)

theorem recorded_applyRules (fuel : Nat) (rules : List Rule) (force : Bool) (p : Planner) :
    Recorded (applyRules fuel rules force) p := by
  refine recorded_read ?_
  simp only
  split
  · exact recorded_modify ⟨rfl, rfl, rfl, rfl⟩
  · refine Recorded.bind ?_ fun _ q _ => recorded_pure _ q
    refine (recorded_log _ p).bind fun _ q _ => (recorded_scheduleFromRoot q).bind fun _ r _ => ?_
    exact recorded_traverse rules force fuel _ _ _ r

theorem recorded_execution (f : Execution → Execution) (p : Planner) :
    Recorded (modify fun p : Planner => { p with execution := f p.execution }) p :=
  recorded_modify ⟨rfl, rfl, rfl, rfl⟩

theorem recorded_untilStable {body : Planning Unit} (hbody : ∀ p, Recorded body p) (n : Nat) :
    ∀ p, Recorded (untilStable body n) p := by
  induction n with
  | zero => exact fun p => recorded_throw _ p
  | succ n ih =>
    intro p
    rw [untilStable]
    refine recorded_read ((hbody p).bind fun _ q _ => recorded_read ?_)
    split
    · exact ih q
    · exact recorded_pure _ q

mutual

theorem recorded_executeInstruction (fuel : Nat) : ∀ (i : Instruction) (p : Planner),
    Recorded (executeInstruction fuel i) p
  | .rule r, p => by
    rw [executeInstruction]
    exact recorded_applyRules fuel _ _ p
  | .described d, p => by
    rw [executeInstruction]
    refine recorded_read ?_
    split
    · exact recorded_applyRules fuel _ _ p
    · exact recorded_log _ p
  | .ruleClass belongs, p => by
    rw [executeInstruction]
    exact recorded_read (recorded_applyRules fuel _ _ p)
  | .rules rs, p => by
    rw [executeInstruction]
    exact recorded_applyRules fuel _ _ p
  | .converters guaranteed, p => by
    rw [executeInstruction]
    refine (recorded_asks (asks_requireNoGroup _)).bind fun _ q _ => ?_
    exact recorded_read (recorded_applyRules fuel _ _ q)
  | .commonSubexpressions, p => by
    rw [executeInstruction]
    refine (recorded_asks (asks_requireNoGroup _)).bind fun _ q _ => ?_
    exact recorded_read (recorded_applyRules fuel _ _ q)
  | .order o, p => by
    rw [executeInstruction]
    exact recorded_execution (fun e => { e with order := o }) p
  | .limit n, p => by
    rw [executeInstruction]
    exact recorded_execution (fun e => { e with limit := some n }) p
  | .subprogram is, p => by
    rw [executeInstruction]
    refine (recorded_log _ p).bind fun _ q _ => ?_
    refine (recorded_untilStable (fun p => recorded_isolated ?_) fuel q).bind
      fun _ r _ => recorded_log _ r
    exact recorded_executeAll fuel is _
  | .beginGroup, p => by
    rw [executeInstruction]
    refine (recorded_asks (asks_requireNoGroup _)).bind fun _ q _ => ?_
    exact recorded_execution (fun e => { e with group := some [] }) q
  | .endGroup, p => by
    rw [executeInstruction]
    refine recorded_read ?_
    split
    · exact recorded_throw _ p
    · exact (recorded_execution (fun e => { e with group := none }) p).bind
        fun _ q _ => recorded_applyRules fuel _ _ q

theorem recorded_executeAll (fuel : Nat) : ∀ (is : List Instruction) (p : Planner),
    Recorded (executeAll fuel is) p
  | [], p => by
    rw [executeAll]
    exact recorded_pure _ p
  | i :: is, p => by
    rw [executeAll]
    refine (recorded_log _ p).bind fun _ q _ => ?_
    refine (recorded_executeInstruction fuel i q).bind fun _ r _ => ?_
    exact (recorded_sweepIfLarge r).bind fun _ s _ => recorded_executeAll fuel is s

end

theorem recorded_execute (fuel : Nat) (program : Program) (p : Planner) :
    Recorded (execute fuel program) p :=
  recorded_isolated (recorded_executeAll fuel program.instructions _)

/-! ## Building -/

theorem recorded_addRule (rule : Rule) (p : Planner) : Recorded (addRule rule) p := by
  rw [addRule_eq]
  refine recorded_read ?_
  split
  · exact recorded_throw _ p
  · exact recorded_pure _ p
  · refine (recorded_log _ p).bind fun _ q _ => ?_
    exact (recorded_modify ⟨rfl, rfl, rfl, rfl⟩).bind fun _ r _ => recorded_pure _ r

theorem recorded_load (rules : List Rule) (plan : Node) (p : Planner) :
    Recorded (load rules plan) p := by
  refine recorded_read ((recorded_forM (fun rule p => ?_) _ p).bind fun _ q _ => recorded_setRoot plan q)
  exact (recorded_addRule rule p).bind fun _ q _ => recorded_pure _ q

end Planner

end QueryPlanner
