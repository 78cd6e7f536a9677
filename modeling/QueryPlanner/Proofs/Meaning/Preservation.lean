import QueryPlanner.Proofs.Graph.Matching
import QueryPlanner.Proofs.Meaning.Soundness
import QueryPlanner.Proofs.Planner.Extraction

/-!
# The optimizer preserves meaning

If every rule proposes expressions of the value of the matched one, then no firing changes the value
of a vertex, no program changes the value of the root, and the plan that is found has the value of
the plan that was given.
-/

namespace QueryPlanner

open QueryPlanner.Graph Planning

variable {V : Type*} {I : Interpretation V}

mutual

/-- Plans without placeholders. -/
def Node.Closed : Node → Prop
  | ⟨op, inputs, _, _⟩ => (∀ id, op ≠ .vertex id) ∧ AllClosed inputs

def Node.AllClosed : List Node → Prop
  | [] => True
  | n :: ns => n.Closed ∧ AllClosed ns

end

namespace Graph

variable {g g' : Graph} {mode : DigestMode}

mutual

/-- A plan without placeholders has the same value in every graph. -/
theorem means_value (g : Graph) (I : Interpretation V) : ∀ n : Node, n.Closed →
    g.Means I n (n.value I)
  | ⟨op, inputs, traits, rowType⟩, h => by
    rw [Node.Closed] at h
    rw [Node.value]
    exact (means_operator (Node.vertexId?_eq_none.2 h.1)).2
      ⟨_, means_valuesOf g I inputs h.2, rfl⟩

theorem means_valuesOf (g : Graph) (I : Interpretation V) : ∀ ns : List Node,
    Node.AllClosed ns → List.Forall₂ (g.Means I) ns (Node.valuesOf I ns)
  | [], _ => .nil
  | n :: ns, h => by
    rw [Node.AllClosed] at h
    exact .cons (means_value g I n h.1) (means_valuesOf g I ns h.2)

end

/-- The root may change, but not its value. -/
def KeepsRoot (I : Interpretation V) (g g' : Graph) : Prop :=
  ∀ root v, g.root = some root → g.ValueOf I root v →
    ∃ root', g'.root = some root' ∧ g'.ValueOf I root' v

theorem KeepsRoot.of_extends (h : g.Extends g') : KeepsRoot I g g' :=
  fun root _ hroot hv => ⟨root, h.root.trans hroot, hv.extends h⟩

theorem KeepsRoot.of_sweep (hg : g.Consistent mode) (h : g.Sweep g') : KeepsRoot I g g' := by
  intro root v hroot hv
  have hg' := h.consistent hg
  obtain ⟨_, -, -, hd⟩ := h.discarded hg.toLinked
  have hroot' : g'.root = some root := hd.root.trans hroot
  exact ⟨root, hroot', hv.sweep hg h (hg'.root root hroot')⟩

end Graph

namespace Planner

variable {p q : Planner} {rule : Rule} {id : VertexId} {force : Bool}

/-- A firing changes neither the value of a vertex nor that of the root. -/
theorem ends_attempt_values (hp : p.graph.Consistent p.settings.digestMode)
    (hkeys : p.settings.dag = true → KeysDetermine I p.settings.digestMode)
    (hrule : rule.Sound I) :
    Ends (attempt rule id force) p (fun _ q => q.settings = p.settings ∧
      q.graph.Consistent q.settings.digestMode ∧ KeepsRoot I p.graph q.graph ∧
      ∀ i v, p.graph.ValueOf I i v → q.graph.ValueOf I i v) fun _ _ => True := by
  refine (ends_attempt hp rule id force).mono ?_ fun _ _ _ => trivial
  rintro replacement q h
  cases replacement with
  | none =>
    have hext := h.graph hp
    exact ⟨h.settings, h.consistent hp, .of_extends hext, fun i v hv => hv.extends hext⟩
  | some replacement =>
    obtain ⟨proposed, hproposed, best, hbest, h⟩ := h
    have hq := h.consistent hp
    obtain ⟨g, hgrowth, hplaces, hg⟩ := h.graph
    have hext := hgrowth.extends hp
    have hgc := hgrowth.consistent hp
    rcases hg with ⟨-, heq⟩ | ⟨hm, -⟩
    · rw [heq]
      rw [heq] at hq
      exact ⟨h.settings, hq, .of_extends hext, fun i v hv => hv.extends hext⟩
    · obtain ⟨placeholder, parents, -, hr, hc⟩ := hm.contracted hgc.toLinked
      rw [h.settings] at hq
      -- the vertex of the best expression has the value of the replaced one
      have hequal : ∀ v, g.ValueOf I id v → g.ValueOf I replacement.result v := by
        intro v hv
        obtain ⟨w, hw⟩ := hp.exists_value (I := I) (contains_of_current hproposed.current)
        obtain rfl := hv.unique (hw.extends hext)
        obtain ⟨node, hnode, hmeans⟩ := hw
        rw [hproposed.current] at hnode
        cases hnode
        exact hplaces.valueOf hkeys hgc ((hrule p id force _ proposed hp hproposed best
          hbest _ hmeans).extends hext)
      have hlive : ∀ i, g.contains i = true → q.graph.contains i = true := by
        intro i hi
        obtain ⟨n, hn⟩ := Linked.exists_placeholder hi
        exact contains_of_placeholder ((hc.placeholders i).trans hn)
      have hvalues : ∀ i v, g.ValueOf I i v → q.graph.ValueOf I i v := fun i v hv =>
        hv.contracted hgc.toLinked hr hc hq hequal (hlive i hv.contains)
      refine ⟨h.settings, h.settings ▸ hq, ?_, fun i v hv => hvalues i v (hv.extends hext)⟩
      intro root v hroot hv
      have hroot' := hc.root
      rw [hext.root, hroot] at hroot'
      split_ifs at hroot' with hdiscarded
      · cases hdiscarded
        exact ⟨_, hroot', hvalues _ v (hequal v (hv.extends hext))⟩
      · exact ⟨root, hroot', hvalues root v (hv.extends hext)⟩

/-- Programs of sound rules keep the value of the root. -/
theorem law_meaning (I : Interpretation V) : Law (Rule.Sound I) (fun p q =>
    (p.settings.dag = true → KeysDetermine I p.settings.digestMode) →
      q.settings = p.settings ∧ KeepsRoot I p.graph q.graph) fun _ _ _ => True where
  undisturbed p q h _ := ⟨h.settings, .of_extends h.graph.extends⟩
  execution p e _ := ⟨rfl, .of_extends (.refl _)⟩
  trans p q r h h' hkeys := by
    obtain ⟨hs, hroot⟩ := h hkeys
    obtain ⟨hs', hroot'⟩ := h' (by rwa [hs])
    refine ⟨hs'.trans hs, fun root v hr hv => ?_⟩
    obtain ⟨root', hr', hv'⟩ := hroot root v hr hv
    exact hroot' root' v hr' hv'
  swept p q hp h _ := by
    refine ⟨h.settings, ?_⟩
    rcases h.graph with heq | h
    · rw [heq]
      exact .of_extends (.refl _)
    · exact .of_sweep hp h
  attempt p rule id force hp hrule := by
    by_cases hkeys : p.settings.dag = true → KeysDetermine I p.settings.digestMode
    · exact (ends_attempt_values hp hkeys hrule).mono
        (fun _ q h _ => ⟨h.1, h.2.2.1⟩) fun _ _ h => h
    · exact (ends_self _ p).mono (fun _ _ _ h => absurd h hkeys) fun _ _ _ => trivial
  fault _ _ _ _ := trivial
  fault_trans _ _ _ _ _ _ := trivial
  fault_execution _ _ _ _ _ := trivial

/-- The best plan has the value that the root had. -/
theorem ends_findBestPlan (hp : p.Ready (Rule.Sound I)) (hprogram : ∀ r ∈ p.program.rules, r.Sound I)
    (hkeys : p.settings.dag = true → KeysDetermine I p.settings.digestMode) {root : VertexId} {v : V}
    (hroot : p.graph.root = some root) (hv : p.graph.ValueOf I root v) (fuel : Nat) :
    Ends (findBestPlan fuel) p (fun plan _ => plan.tree.value I = v) fun _ _ => True := by
  refine ((law_meaning I).findBestPlan hp hprogram fuel).mono ?_ fun _ _ h => h
  rintro plan - ⟨q, root', hrelated, -, -, hroot', htree⟩
  obtain ⟨root'', hroot'', hv''⟩ := (hrelated hkeys).2 root v hroot hv
  obtain rfl := Option.some.inj (hroot'.symm.trans hroot'')
  exact (valueOf_iff.2 ⟨_, htree, rfl⟩).unique hv''

theorem ends_apply_values (hp : p.graph.Consistent p.settings.digestMode)
    (hkeys : p.settings.dag = true → KeysDetermine I p.settings.digestMode)
    (hrule : rule.Sound I) :
    Ends (apply rule id force) p (fun _ q => ∀ i v, q.graph.contains i = true →
      p.graph.ValueOf I i v → q.graph.ValueOf I i v) fun _ _ => True := by
  apply (ends_attempt_values hp hkeys hrule).bind
  rintro replacement q ⟨-, hq, -, hvalues⟩
  cases replacement with
  | none => exact ends_pure.2 fun i v _ => hvalues i v
  | some replacement =>
    refine ends_bind.2 ((ends_reportProduction rule replacement q).mono ?_ fun _ _ _ => trivial)
    rintro _ r (h | ⟨q', h, hs⟩)
    · exact ends_pure.2 fun i v _ hv => (hvalues i v hv).extends h.graph.extends
    · apply ends_pure.2
      intro i v hi hv
      have hv' := (hvalues i v hv).extends h.graph.extends
      rcases hs.graph with heq | hs
      · rwa [heq]
      · exact hv'.sweep (h.extended.consistent hq) hs hi

/-- The plan that is found has the value of the plan that was given, and no firing changes the value
of a vertex that is there before and after it. -/
theorem meaning_preserved (I : Interpretation V) {settings : Settings} {program : Program}
    {rules : List Rule} {plan : Node} {p : Planner} (hplan : plan.Closed)
    (hrules : Closed (Rule.Sound I) (rules ++ program.rules))
    (hkeys : settings.dag = true → KeysDetermine I settings.digestMode)
    (hbuild : build settings program rules plan = .ok () p) :
    (∀ fuel best q, findBestPlan fuel p = .ok best q → best.tree.value I = plan.value I) ∧
      ∀ (q r : Planner) (rule : Rule) (id : VertexId) (force : Bool) (result : Option VertexId),
        q.settings = settings → q.graph.Consistent settings.digestMode → rule.Sound I →
        apply rule id force q = .ok result r →
          ∀ i, q.graph.contains i = true → r.graph.contains i = true →
            ∀ v, r.graph.ValueOf I i v ↔ q.graph.ValueOf I i v := by
  constructor
  · intro fuel best q hbest
    have hinit := ready_initial settings program (Rule.Sound I)
    obtain ⟨hallows, hloaded⟩ := (ends_load plan hrules hinit).ok hbuild
    have hp := (hloaded.consistent hinit.consistent).1
    obtain ⟨g, root, hgrowth, hplaces, hg⟩ := hloaded.graph
    have hgc := hgrowth.consistent hinit.consistent
    have hv : g.ValueOf I root (plan.value I) :=
      hplaces.valueOf hkeys hgc (means_value g I plan hplan)
    have hv : p.graph.ValueOf I root (plan.value I) := by
      rw [hg]
      exact ValueOf.mono (g := g) (fun _ _ h => h) hv
    refine (ends_findBestPlan ⟨hp, hallows⟩ (fun r hr => ?_) ?_ (by rw [hg]) hv fuel).ok hbest
    · rw [hloaded.program] at hr
      exact (hrules r (List.mem_append_right _ hr)).1
    · rwa [hloaded.settings]
  · intro q r rule id force result hs hq hrule happly i hi hi' v
    rw [← hs] at hq hkeys
    have hvalues := (ends_apply_values hq hkeys hrule).ok happly
    constructor
    · intro hv
      obtain ⟨w, hw⟩ := hq.exists_value (I := I) hi
      rwa [hv.unique (hvalues i w hi' hw)]
    · exact hvalues i v hi'

/-- A bound on the number of rows. -/
def rowBound : Interpretation Nat
  | .limit n, vs => min n vs.sum
  | .values _ tuples, _ => tuples.length
  | _, vs => vs.sum

theorem closed_removeLimit {I : Interpretation V} (hI : I.MergesLimits) :
    Closed (Rule.Sound I) [Rule.removeLimit] := by
  intro r hr
  obtain rfl := List.mem_singleton.1 hr
  exact ⟨Rule.sound_removeLimit hI, fun companion h => nomatch h⟩

/-- With limits merged, where vertices are shared a union of a limit and a limit over that still has two
branches, and where they are not a limit over a limit still has one row. -/
theorem meaning_preserved_stackedLimits :
    (∃ best q, findBestPlan 12 (left (build .default ⟨[.rule Rule.removeLimit]⟩ [] limitedUnion)) =
        .ok best q ∧ best.tree.value branches = 2) ∧
      ∃ best q, findBestPlan 9 (left (build { Settings.default with dag := false }
        ⟨[.rule Rule.removeLimit]⟩ [] stackedLimits)) = .ok best q ∧
          best.tree.value rowBound = 1 := by
  constructor
  · have hplan : limitedUnion.Closed := by
      simp [limitedUnion, Node.Closed, Node.AllClosed]
    have hmerges : branches.MergesLimits := by
      intro outer count vs
      simp [branches]
    obtain ⟨best, hbest⟩ := exists_ok_of_succeeded (x := findBestPlan 12
      (left (build .default ⟨[.rule Rule.removeLimit]⟩ [] limitedUnion))) (by decide +kernel)
    refine ⟨best, _, hbest, ?_⟩
    exact (meaning_preserved branches hplan (closed_removeLimit hmerges)
      (fun _ => keysDetermine_branches _) (eq_ok_of_succeeded (by decide +kernel))).1 12 best _ hbest
  · obtain ⟨best, hbest⟩ := exists_ok_of_succeeded (x := findBestPlan 9 (left (build
      { Settings.default with dag := false } ⟨[.rule Rule.removeLimit]⟩ [] stackedLimits)))
      (by decide +kernel)
    refine ⟨best, _, hbest, ?_⟩
    have hplan : stackedLimits.Closed := by
      simp [stackedLimits, Node.Closed, Node.AllClosed]
    have hbound : rowBound.MergesLimits := by
      intro outer count vs
      simp [rowBound, min_assoc]
    have hdag : ({ Settings.default with dag := false } : Settings).dag = true →
        KeysDetermine rowBound .normalized := by simp
    exact (meaning_preserved rowBound hplan (closed_removeLimit hbound) hdag
      (eq_ok_of_succeeded (by decide +kernel))).1 9 best _ hbest

end Planner

end QueryPlanner
