import QueryPlanner.Planner.Sweep
import QueryPlanner.Proofs.Graph.Collection
import QueryPlanner.Proofs.Planner.Questions

/-!
# Sweeping

Looking for garbage never fails. It leaves the graph as it is, or discards exactly what cannot be
reached from the root.
-/

namespace QueryPlanner

open QueryPlanner.Graph Planning

namespace Graph

/-- The vertices that cannot be reached from a root. -/
def garbage (g : Graph) (root : VertexId) : List VertexId :=
  g.vertexIds.filter (· ∉ g.reachableFrom root)

/-- The garbage of a graph was removed, in some order. -/
inductive Sweep (g : Graph) : Graph → Prop
  | discard {root : VertexId} {order : List VertexId} (hroot : g.root = some root)
      (hlive : g.contains root = true) (hperm : order.Perm (g.garbage root)) :
      Sweep g (g.discard order (g.garbage root))

theorem Sweep.discarded {mode : DigestMode} {g g' : Graph} (hg : g.Linked mode) (h : g.Sweep g') :
    ∃ root, g.root = some root ∧ g.contains root = true ∧ Discarded g (g.garbage root) g' := by
  obtain ⟨hroot, hlive, hperm⟩ := h
  exact ⟨_, hroot, hlive, discarded_discard hg hperm⟩

theorem Sweep.consistent {mode : DigestMode} {g g' : Graph} (hg : g.Consistent mode)
    (h : g.Sweep g') : g'.Consistent mode := by
  obtain ⟨hroot, hlive, hperm⟩ := h
  exact consistent_discard hg hperm (discardable_unreachable hg.toLinked hroot hlive)

/-- Every vertex can be reached from the root. -/
def Spanned (g : Graph) : Prop :=
  ∀ root, g.root = some root → ∀ id, g.contains id = true → Relation.ReflTransGen g.Edge root id

theorem Spanned.congr {g g' : Graph} (h : g.Spanned) (hg : g.Alike g') : g'.Spanned := by
  intro root hroot id hid
  rw [hg.root] at hroot
  rw [hg.contains] at hid
  have hedge : g'.Edge = g.Edge := by
    funext a b
    rw [Edge, Edge, hg.edges]
  exact hedge ▸ h root hroot id hid

/-- What is left after a sweep is reached along what is left. -/
theorem Sweep.spanned {mode : DigestMode} {g g' : Graph} (hg : g.Linked mode) (h : g.Sweep g') :
    g'.Spanned := by
  obtain ⟨root, hroot, hlive, hd⟩ := h.discarded hg
  intro root' hroot' id hid
  rw [hd.root, hroot, Option.some.injEq] at hroot'
  subst hroot'
  have hkept : ∀ {i}, Relation.ReflTransGen g.Edge root i → i ∉ g.garbage root := by
    intro i hi hgarbage
    have hreached := (mem_reachableFrom_iff hlive).2 hi
    exact of_decide_eq_true (List.mem_filter.1 hgarbage).2 hreached
  have hreached : Relation.ReflTransGen g.Edge root id := by
    rw [contains, hd.vertex] at hid
    split_ifs at hid with hgarbage
    · cases hid
    · rw [← contains] at hid
      by_contra hcon
      refine hgarbage (List.mem_filter.2 ⟨mem_vertexIds.2 hid, decide_eq_true fun hmem => hcon ?_⟩)
      exact (mem_reachableFrom_iff hlive).1 hmem
  induction hreached with
  | refl => exact .refl
  | @tail a b ha hab ih =>
    refine .tail (ih ?_) ((hd.edges (a, b)).2 ⟨hab, hkept ha, hkept (ha.tail hab)⟩)
    rw [contains, hd.vertex, if_neg (hkept ha), ← contains]
    exact (hg.edges_live _ hab).1

end Graph

namespace Planner

variable {p q : Planner}

/-- The garbage was looked for since the last transformation. -/
def Clean (p : Planner) : Prop := p.transformations = p.transformationsAtSweep

theorem Clean.congr (h : p.Clean) (hpq : p.Alike q) : q.Clean := by
  rw [Clean, hpq.transformations, hpq.transformationsAtSweep]
  exact h

/-- The garbage was removed or left, and nothing else has changed but counters and reports. -/
structure Swept (p q : Planner) : Prop where
  settings : q.settings = p.settings
  program : q.program = p.program
  registry : q.registry = p.registry
  execution : q.execution = p.execution
  transformations : q.transformations = p.transformations
  clean : q.Clean
  graph : q.graph = p.graph ∨ p.graph.Sweep q.graph
  /-- Garbage that is left was looked for before the last transformation. -/
  looked : p.Clean ∨ (∀ root, p.graph.root = some root → p.graph.contains root = true →
    ∀ id, p.graph.contains id = true → id ∈ p.graph.reachableFrom root) ∨ p.graph.Sweep q.graph

theorem Swept.consistent (hp : p.graph.Consistent p.settings.digestMode) (h : p.Swept q) :
    q.graph.Consistent q.settings.digestMode := by
  rw [h.settings]
  rcases h.graph with heq | h
  · rwa [heq]
  · exact h.consistent hp

theorem Swept.root (hp : p.graph.Consistent p.settings.digestMode) (h : p.Swept q) :
    q.graph.root = p.graph.root := by
  rcases h.graph with heq | hsweep
  · rw [heq]
  · obtain ⟨_, -, -, hdiscarded⟩ := hsweep.discarded hp.toLinked
    exact hdiscarded.root

/-- Nothing but what can be reached is left, if nothing else was there when garbage was looked for
last. -/
theorem Swept.spanned (hp : p.graph.Consistent p.settings.digestMode)
    (hspanned : p.Clean → p.graph.Spanned) (h : p.Swept q) : q.graph.Spanned := by
  rcases h.graph with heq | hsweep
  · rw [heq]
    rcases h.looked with hclean | hreached | hsweep
    · exact hspanned hclean
    · intro root hroot id hid
      have hlive := hp.root root hroot
      exact (mem_reachableFrom_iff hlive).1 (hreached root hroot hlive id hid)
    · rw [← heq]
      exact hsweep.spanned hp.toLinked
  · exact hsweep.spanned hp.toLinked

theorem Swept.reported {r : Planner} (h : p.Swept q) (hq : q.Reported r) : p.Swept r := by
  obtain ⟨events, rfl⟩ := hq
  exact ⟨h.settings, h.program, h.registry, h.execution, h.transformations, h.clean, h.graph, h.looked⟩

/-- The planner after garbage was looked for, reports aside. -/
def caughtUp (p : Planner) : Planner :=
  if p.transformations = p.transformationsAtSweep then p
  else
    match p.graph.root with
    | none => { p with transformationsAtSweep := p.transformations }
    | some root =>
      if p.graph.contains root = false then { p with transformationsAtSweep := p.transformations }
      else if p.graph.garbage root = [] then
        { p with
          transformationsAtSweep := p.transformations
          sizeAtSweep := (p.graph.reachableFrom root).length }
      else
        { p with
          transformationsAtSweep := p.transformations
          sizeAtSweep := (p.graph.reachableFrom root).length
          graph := p.graph.discard (p.settings.sweepOrder p.sweeps.length (p.graph.garbage root))
            (p.graph.garbage root)
          sweeps := p.sweeps ++ [p.settings.sweepOrder p.sweeps.length (p.graph.garbage root)] }

theorem Clean.caughtUp (h : p.Clean) : p.caughtUp = p := if_pos h

theorem swept_caughtUp (p : Planner) : p.Swept p.caughtUp := by
  unfold Planner.caughtUp
  split_ifs with hclean
  · exact ⟨rfl, rfl, rfl, rfl, rfl, hclean, .inl rfl, .inl hclean⟩
  cases hroot : p.graph.root with
  | none => exact ⟨rfl, rfl, rfl, rfl, rfl, rfl, .inl rfl, .inr (.inl (by simp [hroot]))⟩
  | some root =>
    simp only
    split_ifs with hdead hempty
    · refine ⟨rfl, rfl, rfl, rfl, rfl, rfl, .inl rfl, .inr (.inl fun root' hroot' hlive => ?_)⟩
      obtain rfl := Option.some.inj (hroot.symm.trans hroot')
      rw [hdead] at hlive
      cases hlive
    · refine ⟨rfl, rfl, rfl, rfl, rfl, rfl, .inl rfl, .inr (.inl fun root' hroot' _ id hid => ?_)⟩
      obtain rfl := Option.some.inj (hroot.symm.trans hroot')
      by_contra hunreached
      refine List.ne_nil_of_mem (List.mem_filter.2 ⟨mem_vertexIds.2 hid, ?_⟩) hempty
      exact decide_eq_true hunreached
    · have hsweep : p.graph.Sweep _ :=
        .discard hroot (Bool.not_eq_false _ ▸ hdead) (p.settings.sweepOrder_perm p.sweeps.length _)
      exact ⟨rfl, rfl, rfl, rfl, rfl, rfl, .inr hsweep, .inr (.inr hsweep)⟩

/-- The discarded expressions are reported before anything is removed. -/
theorem ends_remove (garbage : List VertexId) (p : Planner) (E : Fault → Planner → Prop) :
    Ends (remove garbage) p (fun _ q => Remarked { p with
      graph := p.graph.discard (p.settings.sweepOrder p.sweeps.length garbage) garbage
      sweeps := p.sweeps ++ [p.settings.sweepOrder p.sweeps.length garbage] } q) E := by
  refine Ends.bind (ends_forM (E := fun _ => E) Remarked.refl (fun _ _ _ h => h.trans)
    (fun _ _ _ _ _ h => h) ?_ p) ?_
  · intro id _ p
    refine ends_bind.2 (ends_get.2 ?_)
    split
    · exact ends_observe_remarked rfl p E
    · exact ends_pure.2 (.refl p)
  · rintro _ q ⟨⟨events, rfl⟩, htranscript⟩
    exact ends_modify.2 ⟨⟨events, rfl⟩, htranscript⟩

/-- Looking for garbage tells no step. -/
theorem ends_collectGarbage_caughtUp (p : Planner) (E : Fault → Planner → Prop) :
    Ends collectGarbage p (fun _ q => p.caughtUp.Remarked q) E := by
  unfold collectGarbage caughtUp
  refine ends_bind.2 (ends_get.2 ?_)
  split_ifs with hclean
  · exact ends_pure.2 (.refl p)
  refine ends_bind.2 (ends_set.2 ?_)
  cases hroot : p.graph.root with
  | none => exact ends_log_remarked rfl _ E
  | some root =>
    simp only [Bool.not_eq_true']
    by_cases hdead : p.graph.contains root = false
    · rw [if_pos hdead, if_pos hdead]
      exact ends_log_remarked rfl _ E
    · rw [if_neg hdead, if_neg hdead]
      refine ends_bind.2 (ends_modify.2 ?_)
      show Ends (if (p.graph.garbage root).isEmpty then pure () else do
        log (.sweeping (p.graph.garbage root).length)
        remove (p.graph.garbage root)) _ _ E
      simp only [List.isEmpty_iff]
      split
      · exact ends_pure.2 (.refl _)
      · refine (ends_log_remarked rfl _ E).bind fun _ q hq => ?_
        obtain ⟨⟨events, rfl⟩, htranscript⟩ := hq
        refine (ends_remove _ _ E).mono ?_ fun _ _ h => h
        rintro _ r ⟨⟨events', rfl⟩, htranscript'⟩
        exact ⟨⟨events', rfl⟩, htranscript'.trans htranscript⟩

theorem ends_collectGarbage (p : Planner) (E : Fault → Planner → Prop) :
    Ends collectGarbage p (fun _ q => p.Swept q) E :=
  (ends_collectGarbage_caughtUp p E).mono (fun _ _ h => (swept_caughtUp p).reported h.reported)
    fun _ _ h => h

end Planner

end QueryPlanner
