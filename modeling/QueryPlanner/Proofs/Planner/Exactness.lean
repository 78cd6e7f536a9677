import QueryPlanner.Proofs.Planner.Reached

/-!
# Estimates do not show the caches

However a planner is driven, and whatever row counts and costs it is asked for in between, its answers
are those that it would give without a cache. Whatever it knows is known of vertices that are in the
graph, also where the id of a vertex was that of another one before, and is what would be found anew.
-/

namespace QueryPlanner

open QueryPlanner.Graph Planning

namespace Graph

variable {mode : DigestMode} {model : CostModel} {g g' old : Graph} {preserved discarded : VertexId}

theorem Sweep.exact (hg : g.Linked mode) (hexact : g.Exact model) (h : g.Sweep g') :
    g'.Exact model := by
  obtain ⟨hroot, hlive, hperm⟩ := h
  exact hexact.retained hg (retains_discard hg hperm (discardable_unreachable hg hroot hlive))

theorem Merged.exact (hg : g.Linked mode) (hexact : g.Exact model)
    (h : g.Merged mode preserved discarded old g') : g'.Exact model := by
  obtain ⟨hnode, hr, -⟩ := h
  exact hexact.merge hg hnode hr

end Graph

namespace Planner

variable {p q : Planner} {id result : VertexId}

theorem Swept.exact (hp : p.Exact) (h : p.Swept q) : q.Exact := by
  refine ⟨h.consistent hp.consistent, ?_⟩
  rw [h.settings]
  rcases h.graph with heq | h
  · rw [heq]
    exact hp.caches
  · exact h.exact hp.consistent.toLinked hp.caches

theorem Replaced.exact {best : Node} (hp : p.Exact) (h : p.Replaced id best result q) :
    q.Exact := by
  refine ⟨h.consistent hp.consistent, ?_⟩
  rw [h.settings]
  obtain ⟨g, hgrowth, -, hg⟩ := h.graph
  have hexact := hgrowth.exact hp.consistent hp.caches
  rcases hg with ⟨-, heq⟩ | ⟨hm, -⟩
  · rwa [heq]
  · exact hm.exact (hgrowth.consistent hp.consistent).toLinked hexact

/-- No program leaves anything in the caches that is not exact. -/
theorem law_exact : Law (fun _ => True) (fun p q => p.Exact → q.Exact) fun _ _ _ => True where
  undisturbed _ _ h := h.exact
  execution _ _ h := ⟨h.consistent, h.caches⟩
  trans _ _ _ h h' := h' ∘ h
  swept _ _ _ h hp := h.exact hp
  attempt p rule id force hp _ := by
    refine (ends_attempt hp rule id force).mono ?_ fun _ _ _ => trivial
    rintro replacement q h hexact
    cases replacement with
    | none => exact h.exact hexact
    | some replacement =>
      obtain ⟨-, -, best, -, h⟩ := h
      exact h.exact hexact
  fault _ _ _ _ := trivial
  fault_trans _ _ _ _ _ _ := trivial
  fault_execution _ _ _ _ _ := trivial

/-- States reached by successful calls after a planner was built, row counts and costs being asked for
at any time. -/
inductive Driven : Planner → Prop
  | built {settings : Settings} {program : Program} {rules : List Rule} {plan : Node} {p : Planner}
      (h : build settings program rules plan = .ok () p) : Driven p
  | added {p q : Planner} {node : Node} {id : VertexId} (hp : Driven p)
      (h : add node p = .ok id q) : Driven q
  | rooted {p q : Planner} {plan : Node} (hp : Driven p) (h : setRoot plan p = .ok () q) : Driven q
  | executed {p q : Planner} {fuel : Nat} {program : Program} (hp : Driven p)
      (h : execute fuel program p = .ok () q) : Driven q
  | collected {p q : Planner} (hp : Driven p) (h : collectGarbage p = .ok () q) : Driven q
  | registered {p q : Planner} {rule : Rule} {isNew : Bool} (hp : Driven p)
      (h : addRule rule p = .ok isNew q) : Driven q
  | counted {p q : Planner} {node : Node} {rows : Float} (hp : Driven p)
      (h : onGraph (rowCount node) p = .ok rows q) : Driven q
  | costed {p q : Planner} {node : Node} {cost : Cost} (hp : Driven p)
      (h : onGraph (cumulativeCost p.settings.model node) p = .ok cost q) : Driven q

theorem Driven.reached (h : Driven p) : Reached p := by
  induction h with
  | built h => exact .built h
  | added _ h ih => exact .added ih h
  | rooted _ h ih => exact .rooted ih h
  | executed _ h ih => exact .executed ih h
  | collected _ h ih => exact .collected ih h
  | registered _ h ih => exact .registered ih h
  | counted _ h ih => exact .counted ih h
  | costed _ h ih => exact .costed ih h

theorem Loaded.exact {plan : Node} (hp : p.Exact) (h : p.Loaded plan q) : q.Exact := by
  refine ⟨(h.consistent hp.consistent).1, ?_⟩
  obtain ⟨g, id, hgrowth, -, hg⟩ := h.graph
  rw [h.settings, hg]
  exact (hgrowth.exact hp.consistent hp.caches).setRoot _

theorem exact_initial (settings : Settings) (program : Program) :
    (initial settings program).Exact where
  consistent := consistent_empty _
  caches := ⟨by simp [initial, Graph.empty], by simp [initial, Graph.empty]⟩

/-- What a driven planner knows of its vertices is exact. -/
theorem Driven.exact (h : Driven p) : p.Exact := by
  induction h with
  | @built settings program rules plan p h =>
    have hinit := ready_initial settings program fun _ => True
    obtain ⟨-, hloaded⟩ := (ends_load plan (by simp [Closed]) hinit).ok h
    exact hloaded.exact (exact_initial settings program)
  | @added p q node id hp h ih => exact ((ends_add node p ih.consistent).ok h).1.exact ih
  | @rooted p q plan hp h ih => exact (loaded_of_setRoot ih.consistent h).2.exact ih
  | @executed p q fuel program hp h ih =>
    exact ((law_exact.execute (fun _ _ => trivial) (reached_ready hp.reached).1 fuel).ok h).related ih
  | collected hp h ih => exact ((ends_collectGarbage _ fun _ _ => True).ok h).exact ih
  | @registered p q rule isNew hp h ih =>
    have hq := (ends_addRule rule p).ok h
    exact ⟨by rw [hq.settings, hq.graph]; exact ih.consistent,
      by rw [hq.settings, hq.graph]; exact ih.caches⟩
  | counted hp h ih => exact ((Asks.rowCount _).ends.ok h).exact ih
  | costed hp h ih => exact ((Asks.cumulativeCost _).ends.ok h).exact ih

/-- In a driven planner row counts and costs of all expressions, also above placeholders whose vertex
is gone, are those found without a cache. Every entry of the caches is that of a vertex in the graph, and
is what is found without a cache for its expression. -/
theorem estimates_without_cache (h : Driven p) :
    (∀ node, ∃ rows cost n,
      (∀ m ≥ n, p.graph.plainRowCount m node = some rows ∧
        p.graph.plainCost p.settings.model m node = some cost) ∧
      (∃ q, onGraph (rowCount node) p = .ok rows q) ∧
        ∃ q, onGraph (cumulativeCost p.settings.model node) p = .ok cost q) ∧
      (∀ id rows, (id, rows) ∈ p.graph.knownRowCounts → ∃ node n,
        p.graph.current? id = some node ∧ ∀ m ≥ n, p.graph.plainRowCount m node = some rows) ∧
      ∀ id cost, (id, cost) ∈ p.graph.knownCosts → ∃ node n,
        p.graph.current? id = some node ∧
          ∀ m ≥ n, p.graph.plainCost p.settings.model m node = some cost := by
  have hexact := h.exact
  refine ⟨fun node => ?_, fun id rows hrows => ?_, fun id cost hcost => ?_⟩
  · obtain ⟨n, rows, cost, hrows, hcost⟩ :=
      hexact.consistent.exists_estimates p.settings.model node
    have hcounted := finds_rowCount hexact.consistent ⟨n, hrows⟩ p.graph (.refl _) hexact.caches
    have hcosted := finds_cumulativeCost hexact.consistent ⟨n, hcost⟩ p.graph (.refl _) hexact.caches
    exact ⟨rows, cost, n, fun m hm => ⟨plainRowCount_mono hm hrows, plainCost_mono hm hcost⟩,
      ⟨_, by rw [onGraph_eq, hcounted.1]⟩, _, by rw [onGraph_eq, hcosted.1]⟩
  · obtain ⟨node, hnode, n, hn⟩ := hexact.caches.rowCount id rows hrows
    exact ⟨node, n, hnode, fun m hm => plainRowCount_mono hm hn⟩
  · obtain ⟨node, hnode, n, hn⟩ := hexact.caches.cost id cost hcost
    exact ⟨node, n, hnode, fun m hm => plainCost_mono hm hn⟩

def loadedLimits : Planner := left (build .default ⟨[]⟩ [] stackedLimits)

/-- A limit on a limit was asked for its cost. -/
def pricedLimits : Planner :=
  left (onGraph (cumulativeCost loadedLimits.settings.model (.placeholder 2 .default .empty))
    loadedLimits)

/-- The limits were then merged and the upper one was swept. Its id was given to another limit on the
row. -/
def refilledLimits : Planner :=
  left (add ⟨.limit 7, [.placeholder 0 .default .empty], .default, .empty⟩
    (left (execute 9 ⟨[.rule Rule.removeLimit]⟩ pricedLimits)))

theorem estimates_without_cache_refilledLimits :
    pricedLimits.graph.Knows 2 ∧ refilledLimits.graph.contains 2 = true ∧
    (∀ node, ∃ rows cost n,
      (∀ m ≥ n, refilledLimits.graph.plainRowCount m node = some rows ∧
        refilledLimits.graph.plainCost refilledLimits.settings.model m node = some cost) ∧
      (∃ q, onGraph (rowCount node) refilledLimits = .ok rows q) ∧
        ∃ q, onGraph (cumulativeCost refilledLimits.settings.model node) refilledLimits =
          .ok cost q) ∧
      (∀ id rows, (id, rows) ∈ refilledLimits.graph.knownRowCounts → ∃ node n,
        refilledLimits.graph.current? id = some node ∧
          ∀ m ≥ n, refilledLimits.graph.plainRowCount m node = some rows) ∧
      ∀ id cost, (id, cost) ∈ refilledLimits.graph.knownCosts → ∃ node n,
        refilledLimits.graph.current? id = some node ∧
          ∀ m ≥ n, refilledLimits.graph.plainCost refilledLimits.settings.model m node =
            some cost := by
  have hbuild : succeeded (build .default ⟨[]⟩ [] stackedLimits) = true := by decide +kernel
  have hloaded : Driven loadedLimits := .built (eq_ok_of_succeeded hbuild)
  obtain ⟨cost, hcost⟩ := exists_ok_of_succeeded (x := onGraph (cumulativeCost
    loadedLimits.settings.model (.placeholder 2 .default .empty)) loadedLimits) rfl
  have hpriced : Driven pricedLimits := .costed hloaded hcost
  have hrun : succeeded (execute 9 ⟨[.rule Rule.removeLimit]⟩ pricedLimits) = true := by
    decide +kernel
  have hadd : succeeded (add ⟨.limit 7, [.placeholder 0 .default .empty], .default, .empty⟩
      (left (execute 9 ⟨[.rule Rule.removeLimit]⟩ pricedLimits))) = true := by decide +kernel
  obtain ⟨id, hid⟩ := exists_ok_of_succeeded hadd
  exact ⟨by decide +kernel, by decide +kernel,
    estimates_without_cache (.added (.executed hpriced (eq_ok_of_succeeded hrun)) hid)⟩

end Planner

end QueryPlanner
