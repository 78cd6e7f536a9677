import QueryPlanner.Proofs.Planner.Exactness

/-!
# What failures leave behind

However a program fails, the graph that it leaves is linked and has a live root. It is consistent, and
the planner can be used as before, unless the fault reports a cycle: cycles are looked for only when
the parents have been redirected, and the redirections stay.
-/

namespace QueryPlanner

open QueryPlanner.Graph Planning Relation

namespace Planner

variable {p q : Planner} {f : Fault}

/-- A planner that can be asked and driven: what it keeps is exact, and its root is a vertex. -/
structure Sound (p : Planner) : Prop extends Exact p where
  root : ∃ root, p.graph.root = some root ∧ p.graph.contains root = true

/-- What a fault leaves of a sound planner. -/
structure Spared (f : Fault) (q : Planner) : Prop where
  linked : q.graph.Linked q.settings.digestMode
  root : ∃ root, q.graph.root = some root ∧ q.graph.contains root = true
  sound : f.reportsCycle = false → q.Sound

theorem Sound.spared (h : q.Sound) (f : Fault) : q.Spared f :=
  ⟨h.consistent.toLinked, h.root, fun _ => h⟩

theorem Sound.of_exact (hq : q.Exact) (hroot : q.graph.root.isSome) : q.Sound := by
  obtain ⟨root, hroot⟩ := Option.isSome_iff_exists.1 hroot
  exact ⟨hq, root, hroot, hq.consistent.root root hroot⟩

theorem Sound.isSome_root (h : p.Sound) : p.graph.root.isSome := by
  obtain ⟨root, hroot, -⟩ := h.root
  simp [hroot]

theorem Extended.sound (hp : p.Sound) (h : p.Extended q) : q.Sound := by
  refine .of_exact (h.exact hp.toExact) ?_
  rw [(h.graph hp.consistent).root]
  exact hp.isSome_root

/-- An operation that was given up spares what the fault does not report as broken. -/
theorem Aborted.spared (hp : p.Sound) (h : p.Aborted f q) : q.Spared f := by
  rcases h.graph with hgrowth | ⟨g, preserved, discarded, hgrowth, hm, -, hcycle⟩
  · exact (Extended.sound hp ⟨h.settings, h.program, h.registry, h.execution, hgrowth⟩).spared f
  · have hg := hgrowth.consistent hp.consistent
    obtain ⟨placeholder, parents, -, hr, hc⟩ := hm.contracted hg.toLinked
    refine ⟨h.settings ▸ hc.linked, ?_, fun h => absurd (hcycle.symm.trans h) (by simp)⟩
    obtain ⟨root, hroot, hlive⟩ := hp.root
    have hext := hgrowth.extends hp.consistent
    rw [hc.root, hext.root, hroot]
    split_ifs
    · exact ⟨preserved, rfl, hc.contains (contains_of_placeholder hr.placeholder_eq)⟩
    · exact ⟨root, rfl, hc.contains (hext.contains hlive)⟩

/-- Programs keep planners sound, and if they fail they spare them. -/
theorem law_sound : Law (fun _ => True) (fun p q => p.Sound → q.Sound)
    fun p f q => p.Sound → q.Spared f where
  undisturbed p q h hp := h.extended.sound hp
  execution _ _ h := ⟨⟨h.consistent, h.caches⟩, h.root⟩
  trans _ _ _ h h' := h' ∘ h
  swept p q hp h hsound := by
    refine .of_exact (h.exact hsound.toExact) ?_
    rw [h.root hp]
    exact hsound.isSome_root
  attempt p rule id force hp _ := by
    refine (((ends_attempt hp rule id force).and
      (law_exact.attempt p rule id force hp trivial)).and
        (law_root.attempt p rule id force hp trivial)).mono ?_ fun _ _ h hsound => h.1.1.spared hsound
    rintro replacement q ⟨⟨-, hexact⟩, hroot⟩ hsound
    exact .of_exact (hexact hsound.toExact) (hroot hsound.isSome_root)
  fault p f q h hp := (h hp).spared f
  fault_trans _ _ _ _ h h' := h' ∘ h
  fault_execution _ _ _ _ h hp :=
    ⟨(h hp).linked, (h hp).root, fun hf =>
      ⟨⟨((h hp).sound hf).consistent, ((h hp).sound hf).caches⟩, ((h hp).sound hf).root⟩⟩

/-! ## Driving on -/

/-- States of a planner that is kept although programs failed, as long as no cycle is reported. -/
inductive Kept : Planner → Prop
  | driven {p : Planner} (hp : Driven p) : Kept p
  | executed {p q : Planner} {fuel : Nat} {program : Program} (hp : Kept p)
      (h : execute fuel program p = .ok () q) : Kept q
  | failed {p q : Planner} {fuel : Nat} {program : Program} {f : Fault} (hp : Kept p)
      (h : execute fuel program p = .error f q) (hf : f.reportsCycle = false) : Kept q

theorem Sound.ready (h : p.Sound) : p.Ready fun _ => True :=
  ⟨h.consistent, by simp, by simp, by simp⟩

theorem Kept.sound (h : Kept p) : p.Sound := by
  induction h with
  | driven hp => exact .of_exact hp.exact (reached_ready hp.reached).2
  | @executed p q fuel program hp h ih =>
    exact ((law_sound.execute (fun _ _ => trivial) ih.ready fuel).ok h).related ih
  | @failed p q fuel program f hp h hf ih =>
    exact ((law_sound.execute (fun _ _ => trivial) ih.ready fuel).error h ih).sound hf

/-- However a program fails, its graph is linked: expressions refer to live vertices, and edges agree
with them. Its root is live. If the fault does not report a cycle, then there is none, the planner can
be driven on, and row counts and costs are found, the same as without a cache. -/
theorem usable_of_execute_error (hp : Kept p) {fuel : Nat} {program : Program}
    (h : execute fuel program p = .error f q) :
    q.graph.Linked q.settings.digestMode ∧
      (∃ root, q.graph.root = some root ∧ q.graph.contains root = true) ∧
      (f.reportsCycle = false → q.graph.Acyclic ∧ Kept q ∧ ∀ node, ∃ rows cost n,
        (∀ m ≥ n, q.graph.plainRowCount m node = some rows ∧
          q.graph.plainCost q.settings.model m node = some cost) ∧
        (∃ r, onGraph (rowCount node) q = .ok rows r) ∧
          ∃ r, onGraph (cumulativeCost q.settings.model node) q = .ok cost r) := by
  have hspared : q.Spared f :=
    (law_sound.execute (fun _ _ => trivial) hp.sound.ready fuel).error h hp.sound
  refine ⟨hspared.linked, hspared.root, fun hf => ?_⟩
  have hq := hspared.sound hf
  refine ⟨hq.consistent.acyclic, .failed hp h hf, fun node => ?_⟩
  obtain ⟨n, rows, cost, hrows, hcost⟩ :=
    hq.consistent.exists_estimates q.settings.model node
  have hcounted := finds_rowCount hq.consistent ⟨n, hrows⟩ q.graph (.refl _) hq.caches
  have hcosted := finds_cumulativeCost hq.consistent ⟨n, hcost⟩ q.graph (.refl _) hq.caches
  exact ⟨rows, cost, n, fun m hm => ⟨plainRowCount_mono hm hrows, plainCost_mono hm hcost⟩,
    ⟨_, by rw [onGraph_eq, hcounted.1]⟩, _, by rw [onGraph_eq, hcosted.1]⟩

/-- A firing and then the end of a group that was never opened. -/
def strayGroupEnd : Program := ⟨[.rule Rule.removeLimit, .endGroup]⟩

theorem usable_of_execute_strayGroupEnd :
    ∃ f q, execute 9 strayGroupEnd loadedLimits = .error f q ∧ q.graph.Acyclic ∧ Kept q ∧
      ∃ root, q.graph.root = some root ∧ q.graph.contains root = true := by
  obtain ⟨f, hrun, hf⟩ := exists_error_of_fails (P := fun f => f.reportsCycle = false)
    (x := execute 9 strayGroupEnd loadedLimits) (by decide +kernel)
  have hloaded : Driven loadedLimits := .built (eq_ok_of_succeeded (by decide +kernel))
  obtain ⟨-, hroot, husable⟩ := usable_of_execute_error (.driven hloaded) hrun
  obtain ⟨hacyclic, hkept, -⟩ := husable hf
  exact ⟨f, _, hrun, hacyclic, hkept, hroot⟩

/-- Proposes two limits over an expression without inputs. -/
def stackLimits : Rule :=
  .transformation "StackLimits" (.ofKind .values) fun call =>
    match call.rel? 0 with
    | some values => .offer ⟨.limit 5, [⟨.limit 3, [values], .default, .empty⟩], .default, .empty⟩
    | none => return

/-- What is proposed is the grandparent, which is not among the parents that are redirected to it. The
limits then refer to each other, and the fault leaves them so. -/
theorem not_acyclic_stackLimits : ¬ ∀ (p q : Planner) (fuel : Nat) (program : Program) (f : Fault),
    Driven p → execute fuel program p = .error f q → q.graph.Acyclic := by
  intro h
  obtain ⟨f, hrun, -⟩ := exists_error_of_fails (P := fun _ => True)
    (x := execute 9 ⟨[.rule stackLimits]⟩ loadedLimits) (by decide +kernel)
  have hloaded : Driven loadedLimits := .built (eq_ok_of_succeeded (by decide +kernel))
  have hedges : (1, 2) ∈ (left (execute 9 ⟨[.rule stackLimits]⟩ loadedLimits)).graph.edges ∧
      (2, 1) ∈ (left (execute 9 ⟨[.rule stackLimits]⟩ loadedLimits)).graph.edges := by
    decide +kernel
  exact h _ _ 9 _ f hloaded hrun 1 (.tail (.single hedges.1) hedges.2)

end Planner

end QueryPlanner
