import QueryPlanner.Proofs.Graph.Sharing
import QueryPlanner.Proofs.Planner.Reached

/-!
# Sharing along a history

A history is what a planner goes through while rules are fired and garbage is swept. Where equal
expressions are to share a vertex, they do in all states of a history if and only if no firing
gives a vertex the key of another one. Parents that are redirected get new keys without a lookup, so
a firing may do that.
-/

namespace QueryPlanner.Planner

open QueryPlanner.Graph Planning

variable {p q : Planner} {ps : List Planner}

/-- The states of a planner, the latest first: it was built, then rules were tried on vertices,
firings reported and garbage collected, all with success. -/
inductive History : List Planner → Prop
  | built {settings : Settings} {program : Program} {rules : List Rule} {plan : Node} {p : Planner}
      (h : build settings program rules plan = .ok () p) : History [p]
  | attempted {p q : Planner} {ps : List Planner} {rule : Rule} {id : VertexId} {force : Bool}
      {replacement : Option Replacement} (hp : History (p :: ps))
      (h : attempt rule id force p = .ok replacement q) : History (q :: p :: ps)
  | reported {p q : Planner} {ps : List Planner} {rule : Rule} {replacement : Replacement}
      (hp : History (p :: ps)) (h : reportProduction rule replacement p = .ok () q) :
      History (q :: p :: ps)
  | collected {p q : Planner} {ps : List Planner} (hp : History (p :: ps))
      (h : collectGarbage p = .ok () q) : History (q :: p :: ps)

theorem History.consistent (h : History ps) :
    ∀ p ∈ ps, p.graph.Consistent p.settings.digestMode := by
  induction h with
  | @built settings program rules plan p h =>
    have hinit := ready_initial settings program fun _ => True
    obtain ⟨-, hloaded⟩ := (ends_load plan (by simp [Closed]) hinit).ok h
    simpa using (hloaded.consistent hinit.consistent).1
  | @attempted p q ps rule id force replacement hp h ih =>
    have hpc := ih p List.mem_cons_self
    refine List.forall_mem_cons.2 ⟨?_, ih⟩
    have hq := (ends_attempt hpc rule id force).ok h
    cases replacement with
    | none => exact hq.consistent hpc
    | some replacement =>
      obtain ⟨-, -, best, -, hq⟩ := hq
      exact hq.consistent hpc
  | @reported p q ps rule replacement hp h ih =>
    have hpc := ih p List.mem_cons_self
    refine List.forall_mem_cons.2 ⟨?_, ih⟩
    rcases (ends_reportProduction rule replacement p).ok h with hq | ⟨r, hr, hq⟩
    · exact hq.extended.consistent hpc
    · exact hq.consistent (hr.extended.consistent hpc)
  | @collected p q ps hp h ih =>
    have hpc := ih p List.mem_cons_self
    exact List.forall_mem_cons.2
      ⟨((ends_collectGarbage p fun _ _ => True).ok h).consistent hpc, ih⟩

theorem Swept.entered (hp : p.graph.Linked p.settings.digestMode) (he : p.graph.Entered)
    (h : p.Swept q) : q.graph.Entered := by
  rcases h.graph with heq | h
  · rwa [heq]
  · exact h.entered hp he

theorem not_collision_of_entered (hq : q.graph.Linked q.settings.digestMode) (he : q.graph.Entered)
    (g : Graph) : ¬ g.Collision q.graph := by
  rintro ⟨i, j, key, -, -, hi, hj, hne⟩
  exact hne (((shared_iff_entered hq).2 he).distinct i j key hi hj)

/-- A firing keeps the vertices entered if and only if it gives no vertex the key of another one. -/
theorem ends_attempt_entered (hp : p.graph.Consistent p.settings.digestMode)
    (hdag : p.settings.dag = true) (he : p.graph.Entered) (rule : Rule) (id : VertexId)
    (force : Bool) :
    Ends (attempt rule id force) p (fun _ q => q.graph.Entered ↔ ¬ p.graph.Collision q.graph)
      fun _ _ => True := by
  refine (ends_attempt hp rule id force).mono ?_ fun _ _ _ => trivial
  rintro replacement q h
  cases replacement with
  | none =>
    have hq := h.growth.entered hp hdag he
    exact ⟨fun _ => not_collision_of_entered (h.consistent hp).toLinked hq _, fun _ => hq⟩
  | some replacement =>
    obtain ⟨-, -, best, -, h⟩ := h
    have hq := (h.consistent hp).toLinked
    obtain ⟨g, hgrowth, -, hg⟩ := h.graph
    have hgl := (hgrowth.consistent hp).toLinked
    have hge := hgrowth.entered hp hdag he
    refine ⟨fun hqe => not_collision_of_entered hq hqe _, fun hcollision => ?_⟩
    rcases hg with ⟨-, heq⟩ | ⟨hm, -⟩
    · rwa [heq]
    · have hgd := ((shared_iff_entered hgl).2 hge).distinct
      exact hm.entered hgl hge (hm.distinct hgl hgd (hgrowth.extends hp) hcollision)

/-- In all states of a history equal expressions share a vertex, and every vertex is found by its
key, if and only if no step gives a vertex the key of another one. -/
theorem shared_throughout_iff (h : History ps) (hdag : ∀ p ∈ ps, p.settings.dag = true) :
    (∀ p ∈ ps, p.graph.Shared) ↔ ps.IsChain fun q p => ¬ p.graph.Collision q.graph := by
  suffices he : (∀ p ∈ ps, p.graph.Entered) ↔ ps.IsChain fun q p => ¬ p.graph.Collision q.graph by
    rw [← he]
    exact forall₂_congr fun p hp => shared_iff_entered (h.consistent p hp).toLinked
  induction h with
  | @built settings program rules plan p h =>
    have hinit := ready_initial settings program fun _ => True
    obtain ⟨-, hloaded⟩ := (ends_load plan (by simp [Closed]) hinit).ok h
    obtain ⟨g, id, hgrowth, -, hg⟩ := hloaded.graph
    have hdag : (initial settings program).settings.dag = true := by
      rw [← hloaded.settings]
      exact hdag p List.mem_cons_self
    have he : g.Entered := hgrowth.entered hinit.consistent hdag fun i key hi => by
      simp [initial, Graph.empty, Graph.key?, Graph.vertex?] at hi
    simp only [List.mem_singleton, forall_eq, hg, List.isChain_singleton, iff_true]
    exact he
  | @attempted p q ps rule id force replacement hp h ih =>
    rw [List.forall_mem_cons] at hdag ⊢
    rw [List.isChain_cons_cons, ih hdag.2]
    apply and_congr_left
    intro hchain
    have hpe := (ih hdag.2).2 hchain p List.mem_cons_self
    have hpd := hdag.2 p List.mem_cons_self
    exact (ends_attempt_entered (hp.consistent p List.mem_cons_self) hpd hpe rule id force).ok h
  | @reported p q ps rule replacement hp h ih =>
    rw [List.forall_mem_cons] at hdag ⊢
    rw [List.isChain_cons_cons, ih hdag.2]
    apply and_congr_left
    intro hchain
    have hpe := (ih hdag.2).2 hchain p List.mem_cons_self
    have hpc := hp.consistent p List.mem_cons_self
    have hq := (History.reported hp h).consistent q List.mem_cons_self
    have hqe : q.graph.Entered := by
      rcases (ends_reportProduction rule replacement p).ok h with hq | ⟨r, hr, hq⟩
      · exact hpe.congr hq.graph
      · exact hq.entered (hr.extended.consistent hpc).toLinked (hpe.congr hr.graph)
    exact ⟨fun _ => not_collision_of_entered hq.toLinked hqe _, fun _ => hqe⟩
  | @collected p q ps hp h ih =>
    rw [List.forall_mem_cons] at hdag ⊢
    rw [List.isChain_cons_cons, ih hdag.2]
    apply and_congr_left
    intro hchain
    have hpe := (ih hdag.2).2 hchain p List.mem_cons_self
    have hpc := hp.consistent p List.mem_cons_self
    have hq := (History.collected hp h).consistent q List.mem_cons_self
    have hqe := ((ends_collectGarbage p fun _ _ => True).ok h).entered hpc.toLinked hpe
    exact ⟨fun _ => not_collision_of_entered hq.toLinked hqe _, fun _ => hqe⟩

/-- Two limits over one table, a trivial filter below one of them. -/
def filteredTwin : Node :=
  let scan : Node := ⟨.tableScan ⟨"t", .empty, none, none⟩, [], .default, .empty⟩
  let filter : Node := ⟨.filter (.literal (.boolean (some true))), [scan], .default, .empty⟩
  ⟨.join .inner (.literal (.boolean (some true))),
    [⟨.limit 1, [filter], .default, .empty⟩, ⟨.limit 1, [scan], .default, .empty⟩], .default, .empty⟩

/-- The planner of the two limits. -/
def twinPlanner : Planner := left (build .default ⟨[]⟩ [] filteredTwin)

/-- The filter, vertex 1, is removed. -/
def twinFired : Planner := left (attempt Rule.removeTrivialFilter 1 true twinPlanner)

theorem history_twin : History [twinFired, twinPlanner] := by
  obtain ⟨_, h⟩ : ∃ replacement, attempt Rule.removeTrivialFilter 1 true twinPlanner =
      .ok replacement twinFired := exists_ok_of_succeeded (by decide +kernel)
  exact .attempted (.built (eq_ok_of_succeeded (by decide +kernel))) h

/-- The first limit, vertex 2, is given the key of the second one, vertex 3. -/
theorem not_shared_twinFired :
    ¬ ∀ ps, History ps → (∀ p ∈ ps, p.settings.dag = true) → ∀ p ∈ ps, p.graph.Shared := by
  intro h
  have hdag : ∀ p ∈ [twinFired, twinPlanner], p.settings.dag = true := by decide +kernel
  have hshared := h _ history_twin hdag twinFired List.mem_cons_self
  have hkeys : twinFired.graph.key? 2 = twinFired.graph.key? 3 := by decide +kernel
  have hsome : (twinFired.graph.key? 2).isSome = true := by decide +kernel
  obtain ⟨key, hkey⟩ := Option.isSome_iff_exists.1 hsome
  exact absurd (hshared.distinct 2 3 key hkey (hkeys ▸ hkey)) (by decide)

/-- The planner as it was built shares, the fired one does not. -/
theorem shared_throughout_iff_twin :
    ((∀ p ∈ [twinPlanner], p.graph.Shared) ↔
      [twinPlanner].IsChain fun q p => ¬ p.graph.Collision q.graph) ∧
    ((∀ p ∈ [twinFired, twinPlanner], p.graph.Shared) ↔
      [twinFired, twinPlanner].IsChain fun q p => ¬ p.graph.Collision q.graph) :=
  ⟨shared_throughout_iff (.built (eq_ok_of_succeeded (by decide +kernel))) (by decide +kernel),
    shared_throughout_iff history_twin (by decide +kernel)⟩

end QueryPlanner.Planner
