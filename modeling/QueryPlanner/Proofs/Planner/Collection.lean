import QueryPlanner.Proofs.Planner.Exactness
import QueryPlanner.Proofs.Planner.Startup

/-!
# Garbage

Garbage is looked for only if a transformation was counted since it was looked for last. Adding,
firing and executing count what they do, so what they leave behind is found. Setting a root and
redirecting parents by hand count nothing: if nothing was added with them, what they leave behind is
overlooked until something else is counted.
-/

namespace QueryPlanner

open QueryPlanner.Graph Planning Relation

namespace Graph

variable {g : Graph} {mode : DigestMode}

/-- The vertices are exactly those that can be reached from the root. -/
def Trim (g : Graph) : Prop :=
  ∃ root, g.root = some root ∧ ∀ id, g.contains id = true ↔ ReflTransGen g.Edge root id

theorem trim_iff (hg : g.Consistent mode) (hroot : ∃ root, g.root = some root) :
    g.Trim ↔ g.Spanned := by
  obtain ⟨root, hroot⟩ := hroot
  constructor
  · rintro ⟨root', hroot', htrim⟩ r hr id hid
    obtain rfl := Option.some.inj (hr.symm.trans hroot')
    exact (htrim id).1 hid
  · intro hspanned
    refine ⟨root, hroot, fun id => ⟨hspanned root hroot id, fun hreached => ?_⟩⟩
    exact hg.toLinked.contains_of_reachable hreached (hg.root root hroot)

end Graph

namespace Planner

variable {p q : Planner}

namespace Tidy

theorem added {node : Node} {id : VertexId} (h : p.Tidy) (hadd : add node p = .ok id q) :
    q.Tidy := by
  have hq := ((ends_add node p h.consistent).ok hadd).1
  have hcounted := (ends_add_counts node p).ok hadd
  have hle := hcounted.le
  have hsweep := hcounted.transformationsAtSweep
  have hswept := h.swept
  refine ⟨hq.consistent h.consistent, by omega, fun hclean => ?_, ?_⟩
  · have hclean : q.transformations = q.transformationsAtSweep := hclean
    rw [hcounted.unchanged (by omega)]
    exact h.spanned (show p.transformations = p.transformationsAtSweep by omega)
  · rw [(hq.graph h.consistent).root]
    exact h.rooted

/-- A merge is counted after what was added for it. -/
theorem merged {mode : DigestMode} {node : Node} {id result : VertexId} {old g : Graph}
    {events : Array Event} (h : p.Tidy) (hadd : add node p = .ok result q)
    (hg : q.graph.Merged mode result id old g) (hmode : p.settings.digestMode = mode)
    (hcheck : g.isAcyclic = true) :
    Tidy { q with graph := g, transformations := q.transformations + 1, events } := by
  have hq := ((ends_add node p h.consistent).ok hadd).1
  have hqc := hq.consistent h.consistent
  rw [hq.settings, hmode] at hqc
  obtain ⟨hswept, hclean⟩ := ((ends_add_counts node p).ok hadd).not_clean h g events
  refine ⟨?_, hswept, fun h => absurd h hclean, ?_⟩
  · show g.Consistent q.settings.digestMode
    rw [hq.settings, hmode]
    exact hg.consistent hqc hcheck
  · obtain ⟨root, hroot⟩ := h.rooted
    obtain ⟨placeholder, parents, -, -, hc⟩ := hg.contracted hqc.toLinked
    show ∃ root, g.root = some root
    rw [hc.root, (hq.graph h.consistent).root, hroot]
    split_ifs <;> simp

theorem attempted {rule : Rule} {id : VertexId} {force : Bool} {replacement : Option Replacement}
    (h : p.Tidy) (hq : p.Attempted rule id force replacement q) : q.Tidy := by
  cases hq with
  | idle hq => exact h.alike hq.toAlike
  | tried hproposes h₁ hs =>
    have h₁ := h.alike h₁.toAlike
    cases hs with
    | circular hbest h₂ hadd hlive => exact (h₁.alike h₂.toAlike).added hadd
    | kept hbest h₂ hadd hq =>
      exact ((h₁.alike h₂.toAlike).added hadd).alike hq.undisturbed.toAlike
    | merged hbest h₂ hadd hne hg hcheck =>
      exact (h₁.alike h₂.toAlike).merged hadd hg (by rw [h₂.settings]) hcheck

end Tidy

/-- Whatever programs leave behind was counted. -/
theorem law_tidy : Law (fun _ => True) (fun p q => p.Tidy → q.Tidy) fun _ _ _ => True where
  undisturbed _ _ h hp := hp.alike h.toAlike
  execution _ e hp := hp.executed e
  trans _ _ _ h h' := h' ∘ h
  swept _ _ _ h hp := (hp.sweep h).1
  attempt _ rule id force hp _ :=
    (ends_attempt_cases hp rule id force).mono (fun _ _ h htidy => htidy.attempted h)
      fun _ _ _ => trivial
  fault _ _ _ _ := trivial
  fault_trans _ _ _ _ _ _ := trivial
  fault_execution _ _ _ _ _ := trivial

/-! ## Setting roots and redirecting by hand -/

/-- If there is garbage then it will be looked for. -/
def Noticed (p : Planner) : Prop := p.Clean → p.graph.Spanned

theorem collectGarbage_of_clean (h : p.Clean) : collectGarbage p = .ok () p := by
  refine bind_eq_ok.2 ⟨p, p, rfl, ?_⟩
  rw [if_pos (show p.transformations = p.transformationsAtSweep from h)]
  rfl

theorem forM_addRule_equipped (rules : List Rule) (p : Planner) :
    Ends (rules.forM fun rule => discard (addRule rule)) p
      (fun _ q => ∃ registry, p.Equipped registry q) fun _ _ => True := by
  refine ends_forM (R := fun p q => ∃ registry, p.Equipped registry q) (E := fun _ _ _ => True)
    (fun p => ⟨p.registry, p.events, rfl⟩) ?_ (fun _ _ _ _ _ h => h) ?_ p
  · rintro p _ _ ⟨registry, events, rfl⟩ ⟨registry', events', rfl⟩
    exact ⟨registry', events', rfl⟩
  · intro rule _ p
    rw [addRule_eq]
    refine ends_bind.2 (ends_bind.2 (ends_get.2 ?_))
    split
    · exact ends_throw.2 trivial
    · exact ends_pure.2 ⟨p.registry, p.events, rfl⟩
    · next registry _ =>
      refine (ends_log _ p _).bind ?_
      rintro _ _ ⟨events, rfl⟩
      exact ends_bind.2 (ends_modify.2 (ends_pure.2 (ends_pure.2 ⟨registry, events, rfl⟩)))

/-- A planner starts with its plan alone, all of it counted. -/
theorem tidy_of_build {settings : Settings} {program : Program} {rules : List Rule} {plan : Node}
    (h : build settings program rules plan = .ok () p) : p.Tidy := by
  obtain ⟨_, _, ⟨⟩, h⟩ := bind_eq_ok.1 h
  obtain ⟨_, p₁, hrules, h⟩ := bind_eq_ok.1 h
  obtain ⟨registry, events, rfl⟩ := (forM_addRule_equipped _ _).ok hrules
  have hempty : (initial settings program).graph.Consistent settings.digestMode :=
    consistent_empty _
  obtain ⟨q, id, hadd, hq, hplaces, events', rfl⟩ := (ends_setRoot plan _ hempty).ok h
  have hcounted := (ends_add_counts plan _).ok hadd
  have hsweep : q.transformationsAtSweep = 0 := hcounted.transformationsAtSweep
  refine ⟨(hq.consistent hempty).setRoot hplaces.contains, ?_, fun hclean => ?_, id, rfl⟩
  · show q.transformationsAtSweep ≤ q.transformations
    omega
  · -- at least one vertex was added
    have hclean : q.transformations = q.transformationsAtSweep := hclean
    have hlive := hplaces.contains
    rw [hcounted.unchanged (hclean.trans hsweep)] at hlive
    simp [initial, Graph.contains, Graph.vertex?, Graph.empty] at hlive

section Contract

variable {preserved discarded : VertexId} {placeholder : Node} {parents : List VertexId}

/-- Parents of the discarded vertex are redirected one after the other, maybe more than once. -/
theorem ends_forM_redirect_linked (hg : p.graph.Linked p.settings.digestMode)
    (hplaceholder : p.graph.placeholder? preserved = some placeholder)
    (hne : preserved ≠ discarded)
    (hedge : ∀ i ∈ parents, p.graph.Edge i discarded ∨ p.graph.Edge i preserved)
    (E : Fault → Planner → Prop) :
    Ends (parents.forM (redirect preserved discarded placeholder)) p
      (fun _ q => ∃ g, p.Regraphed g q ∧ g.Linked p.settings.digestMode ∧
        g.root = p.graph.root ∧ ∀ i, p.graph.contains i = true → g.contains i = true) E := by
  induction parents generalizing p with
  | nil => exact ends_pure.2 ⟨p.graph, ⟨p.events, rfl⟩, hg, rfl, fun _ h => h⟩
  | cons parent parents ih =>
    rw [List.forall_mem_cons] at hedge
    have hlive : p.graph.contains parent = true :=
      hedge.1.elim (fun h => (hg.edges_live _ h).1) fun h => (hg.edges_live _ h).1
    obtain ⟨node, hnode⟩ := Linked.exists_current hlive
    apply (ends_redirect hnode E).bind
    rintro _ _ ⟨events, rfl⟩
    have h := redirected_redirect p.settings.digestMode preserved discarded placeholder hnode
    let q : Planner := { p with
      graph := p.graph.redirect p.settings.digestMode preserved discarded placeholder parent, events }
    refine (ih (p := q) (h.linked hg hnode hplaceholder (hedge.1.imp_right fun h => ⟨hne, h⟩))
      ((h.placeholders preserved).trans hplaceholder) (fun i hi => ?_)).mono ?_ fun _ _ h => h
    · by_cases heq : i = parent
      · exact .inr ((h.edges _).2 (.inl (by rw [heq])))
      · refine (hedge.2 i hi).imp (fun he => (h.edges _).2 (.inr ⟨?_, he⟩))
          fun he => (h.edges _).2 (.inr ⟨?_, he⟩) <;>
        exact fun hpair => heq (Prod.mk.inj hpair).1
    · rintro _ _ ⟨g, ⟨events', rfl⟩, hlinked, hroot, hcontains⟩
      refine ⟨g, ⟨events', rfl⟩, hlinked, hroot.trans h.root, fun i hi => hcontains i ?_⟩
      obtain ⟨n, hn⟩ := Linked.exists_placeholder hi
      exact contains_of_placeholder ((h.placeholders i).trans hn)

/-- Redirecting parents of the discarded vertex changes the graph alone, and closes cycles at worst. -/
theorem regraphed_of_contract (hp : p.graph.Consistent p.settings.digestMode)
    (hproot : ∃ root, p.graph.root = some root)
    (hparents : ∀ i ∈ parents, p.graph.Edge i discarded)
    (hcontract : contract preserved discarded parents p = .ok () q) (hq : q.graph.Acyclic) :
    ∃ g, p.Regraphed g q ∧ g.Consistent p.settings.digestMode ∧ ∃ root, g.root = some root := by
  unfold Planner.contract at hcontract
  split_ifs at hcontract with hne
  · cases hcontract
    exact ⟨p.graph, ⟨p.events, rfl⟩, hp, hproot⟩
  obtain ⟨node, p₁, hcurrent, h₁⟩ := bind_eq_ok.1 hcontract
  obtain ⟨hnode, rfl⟩ := current_eq_ok.1 hcurrent
  obtain ⟨_, p₂, hreplace, h₂⟩ := bind_eq_ok.1 h₁
  obtain ⟨events, rfl⟩ :=
    (ends_replace (contains_of_current hnode) false fun _ _ => True).ok hreplace
  obtain ⟨hlinked, hbody, hedges, hroot⟩ := replace_current hp.toLinked hnode
  obtain ⟨placeholder, p₃, hplaceholder, h₃⟩ := bind_eq_ok.1 h₂
  obtain ⟨hfound, rfl⟩ := placeholder_eq_ok.1 hplaceholder
  obtain ⟨_, p₄, hredirect, h₄⟩ := bind_eq_ok.1 h₃
  have hedge : ∀ i ∈ parents, (p₁.graph.replace preserved node (node.key p₁.settings.digestMode)).Edge
      i discarded := by
    intro i hi
    rw [Edge, hedges]
    exact hparents i hi
  obtain ⟨g, ⟨events', rfl⟩, hg, hgroot, hcontains⟩ := (ends_forM_redirect_linked hlinked hfound hne
    (fun i hi => .inl (hedge i hi)) fun _ _ => True).ok hredirect
  have hlive : ∀ i, p₁.graph.contains i = true → g.contains i = true := fun i hi =>
    hcontains i (by rwa [contains, hbody, ← contains])
  obtain ⟨_, _, ⟨⟩, h₅⟩ := bind_eq_ok.1 h₄
  split_ifs at h₅ with hdiscarded
  · cases h₅
    refine ⟨_, ⟨events', rfl⟩, ⟨hg.setRoot _, hq, fun i hi => ?_⟩, preserved, rfl⟩
    cases hi
    exact hlive _ (contains_of_current hnode)
  · cases h₅
    have hgroot : g.root = p₁.graph.root := hgroot.trans hroot
    exact ⟨g, ⟨events', rfl⟩, ⟨hg, hq, fun i hi => hlive i (hp.root i (hgroot ▸ hi))⟩,
      hgroot ▸ hproot⟩

end Contract

/-- States reached by successful calls after a planner was built. Where a root was set, or parents of
a vertex were redirected by hand so that there is no cycle, the state is as required. -/
inductive Operated (P : Planner → Prop) : Planner → Prop
  | built {settings : Settings} {program : Program} {rules : List Rule} {plan : Node} {p : Planner}
      (h : build settings program rules plan = .ok () p) : Operated P p
  | added {p q : Planner} {node : Node} {id : VertexId} (hp : Operated P p)
      (h : add node p = .ok id q) : Operated P q
  | rooted {p q : Planner} {plan : Node} (hp : Operated P p) (h : setRoot plan p = .ok () q)
      (hq : P q) : Operated P q
  | contracted {p q : Planner} {preserved discarded : VertexId} {parents : List VertexId}
      (hp : Operated P p) (hparents : ∀ i ∈ parents, p.graph.Edge i discarded)
      (h : contract preserved discarded parents p = .ok () q) (hacyclic : q.graph.Acyclic)
      (hq : P q) : Operated P q
  | executed {p q : Planner} {fuel : Nat} {program : Program} (hp : Operated P p)
      (h : execute fuel program p = .ok () q) : Operated P q
  | collected {p q : Planner} (hp : Operated P p) (h : collectGarbage p = .ok () q) : Operated P q

namespace Operated

variable {P : Planner → Prop}

theorem ready_root (h : Operated P p) :
    p.Ready (fun _ => True) ∧ ∃ root, p.graph.root = some root := by
  have hready : ∀ {r : Planner}, r.graph.Consistent r.settings.digestMode →
      r.Ready fun _ => True := fun hr => ⟨hr, by simp, by simp, by simp⟩
  induction h with
  | built h => exact ⟨hready (tidy_of_build h).consistent, (tidy_of_build h).rooted⟩
  | @added p q node id _ h ih =>
    have hq := ((ends_add node p ih.1.consistent).ok h).1
    exact ⟨hready (hq.consistent ih.1.consistent), (hq.graph ih.1.consistent).root ▸ ih.2⟩
  | @rooted p q plan _ h _ ih =>
    obtain ⟨r, id, -, hr, hplaces, events, rfl⟩ := (ends_setRoot plan p ih.1.consistent).ok h
    exact ⟨hready ((hr.consistent ih.1.consistent).setRoot hplaces.contains), id, rfl⟩
  | contracted _ hparents h hacyclic _ ih =>
    obtain ⟨g, ⟨events, rfl⟩, hg, hroot⟩ :=
      regraphed_of_contract ih.1.consistent ih.2 hparents h hacyclic
    exact ⟨hready hg, hroot⟩
  | @executed p q fuel program _ h ih =>
    have hq := (law_root.execute (fun _ _ => trivial) ih.1 fuel).ok h
    exact ⟨hq.ready, Option.isSome_iff_exists.1 (hq.related (Option.isSome_iff_exists.2 ih.2))⟩
  | collected _ h ih =>
    have hq := (law_root.collectGarbage ih.1).ok h
    exact ⟨hq.ready, Option.isSome_iff_exists.1 (hq.related (Option.isSome_iff_exists.2 ih.2))⟩

/-- If garbage is noticed wherever it may be left uncounted, then it always is. -/
theorem tidy (h : Operated P p) (hP : ∀ r, P r → r.Noticed) : p.Tidy := by
  induction h with
  | built h => exact tidy_of_build h
  | added _ h ih => exact ih.added h
  | @rooted p q plan hp h hq ih =>
    obtain ⟨hready, hroot⟩ := (Operated.rooted hp h hq).ready_root
    refine ⟨hready.consistent, ?_, hP q hq, hroot⟩
    obtain ⟨r, id, hadd, hr, hplaces, events, rfl⟩ := (ends_setRoot plan p ih.consistent).ok h
    have hcounted := (ends_add_counts plan p).ok hadd
    have hle := hcounted.le
    have hsweep := hcounted.transformationsAtSweep
    have hswept := ih.swept
    show r.transformationsAtSweep ≤ r.transformations
    omega
  | @contracted p q _ _ _ hp hparents h hacyclic hq ih =>
    obtain ⟨g, ⟨events, rfl⟩, hg, hroot⟩ :=
      regraphed_of_contract ih.consistent ih.rooted hparents h hacyclic
    exact ⟨hg, ih.swept, hP _ hq, hroot⟩
  | @executed p q fuel program hp h ih =>
    exact ((law_tidy.execute (fun _ _ => trivial) hp.ready_root.1 fuel).ok h).related ih
  | collected hp h ih => exact ((law_tidy.collectGarbage hp.ready_root.1).ok h).related ih

end Operated

/-- Looking for garbage leaves exactly what can be reached from the root, unless there is garbage that
was not noticed. This is so only where a root was set or parents were redirected by hand, and nothing
was counted; if it never happens there, then nothing but what can be reached is left, whatever
operations come before. -/
theorem trim_of_collectGarbage {P : Planner → Prop} (hp : Operated P p)
    (h : collectGarbage p = .ok () q) :
    (q.graph.Trim ↔ p.Noticed) ∧ ((∀ r, P r → r.Noticed) → q.graph.Trim) := by
  obtain ⟨hready, -⟩ := hp.ready_root
  obtain ⟨hready', hroot'⟩ := (hp.collected h).ready_root
  have hswept : p.Swept q := (ends_collectGarbage p fun _ _ => True).ok h
  have htrim : q.graph.Trim ↔ p.Noticed := by
    rw [trim_iff hready'.consistent hroot']
    refine ⟨fun hspanned hclean => ?_, fun hnoticed => hswept.spanned hready.consistent hnoticed⟩
    rw [collectGarbage_of_clean hclean] at h
    cases h
    exact hspanned
  exact ⟨htrim, fun hP => htrim.2 fun hclean => (hp.tidy hP).spanned hclean⟩

/-- The inner limit is bypassed, while garbage was not looked for yet. -/
def bypassedLimit : Planner := left (contract 0 1 [2] loadedLimits)

theorem trim_of_collectGarbage_bypassedLimit : (left (collectGarbage bypassedLimit)).graph.Trim := by
  have hloaded : build .default ⟨[]⟩ [] stackedLimits = .ok () loadedLimits :=
    eq_ok_of_succeeded (by decide +kernel)
  have hlive : ∀ e ∈ bypassedLimit.graph.edges,
      bypassedLimit.graph.contains e.1 = true ∧ bypassedLimit.graph.contains e.2 = true := by
    decide +kernel
  have hacyclic : bypassedLimit.graph.Acyclic := acyclic_of_isAcyclic hlive (by decide +kernel)
  have hnoticed : bypassedLimit.Noticed := fun hclean =>
    absurd hclean (show bypassedLimit.transformations ≠ bypassedLimit.transformationsAtSweep by
      decide +kernel)
  have hedge : (2, 1) ∈ loadedLimits.graph.edges := by decide +kernel
  have hbypassed : Operated Noticed bypassedLimit :=
    .contracted (.built hloaded) (by simpa [Edge] using hedge)
      (eq_ok_of_succeeded (by decide +kernel)) hacyclic hnoticed
  exact (trim_of_collectGarbage hbypassed (eq_ok_of_succeeded (by decide +kernel))).2 fun _ h => h

/-- After a sweep the plan is replaced by what is below its limits. -/
def uncoveredValues : Planner :=
  left (setRoot (.placeholder 0 .default .empty) (left (collectGarbage loadedLimits)))

/-- The limits are garbage then, but no transformation was counted. -/
theorem not_trim_uncoveredValues : ¬ ∀ p q : Planner, Operated (fun _ => True) p →
    collectGarbage p = .ok () q → q.graph.Trim := by
  intro h
  have hloaded : build .default ⟨[]⟩ [] stackedLimits = .ok () loadedLimits :=
    eq_ok_of_succeeded (by decide +kernel)
  have huncovered : Operated (fun _ => True) uncoveredValues :=
    .rooted (.collected (.built hloaded) (eq_ok_of_succeeded (by decide +kernel)))
      (eq_ok_of_succeeded (by decide +kernel)) trivial
  obtain ⟨root, hroot, htrim⟩ := h _ _ huncovered (eq_ok_of_succeeded (by decide +kernel))
  have hvalues : (left (collectGarbage uncoveredValues)).graph.root = some 0 := by decide +kernel
  obtain rfl := Option.some.inj (hvalues.symm.trans hroot)
  have hlimit : (left (collectGarbage uncoveredValues)).graph.contains 1 = true := by decide +kernel
  have hedges : ∀ e ∈ (left (collectGarbage uncoveredValues)).graph.edges, e.1 ≠ 0 := by
    decide +kernel
  rcases ReflTransGen.cases_head ((htrim 1).1 hlimit) with heq | ⟨id, hedge, -⟩
  · cases heq
  · exact hedges _ hedge rfl

end Planner

end QueryPlanner
