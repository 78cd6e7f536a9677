import QueryPlanner.Planner.Extraction
import QueryPlanner.Proofs.Graph.Unfolding
import QueryPlanner.Proofs.Node.Tree
import QueryPlanner.Proofs.Planner.Reached
import QueryPlanner.Proofs.Planner.Schedules

/-!
# The extracted plan

The plan that is extracted below a vertex is the tree of the vertex. Each entry of the assembly has a
tree over the trees of the entries before it, and those of the vertices that are built are the trees
of their vertices. The only thing that can stop an extraction is a request for traits somewhere in
the tree.
-/

namespace QueryPlanner

namespace Plan

/-- The trees of entries, each over the trees before it. -/
def trees (entries : Array Entry) : Array Node :=
  entries.foldl (fun earlier e => earlier.push (e.node earlier)) #[]

theorem trees_push (entries : Array Entry) (e : Entry) :
    trees (entries.push e) = (trees entries).push (e.node (trees entries)) := by
  simp [trees]

theorem size_trees (entries : Array Entry) : (trees entries).size = entries.size := by
  unfold trees
  refine Array.foldl_induction (fun i (a : Array Node) => a.size = i) rfl ?_
  intro i a h
  simp [h]

end Plan

/-- The tree requests no traits that were not met. -/
def Node.Met (t : Node) : Prop := t.Everywhere fun n => n.kind ≠ .abstractConverter

theorem Node.met_bare (t : Node) : t.bare.Met ↔ t.Met := everywhere_bare (fun _ _ _ _ => .rfl) t

/-- The fault names a request for traits that some vertex holds. -/
def Graph.Requests (g : Graph) (f : Fault) : Prop :=
  ∃ id node, g.current? id = some node ∧ node.kind = .abstractConverter ∧
    f = .unimplemented (node.digest .full)

theorem Graph.Requests.exists_request {g : Graph} {f : Fault} (h : g.Requests f) :
    ∃ request, f = .unimplemented request := by
  obtain ⟨_, node, -, -, hf⟩ := h
  exact ⟨node.digest .full, hf⟩

open QueryPlanner.Graph Planning

namespace Planner

namespace Assembly

variable {g : Graph} {a b c : Assembly} {t : Node}

/-- The tree of an entry. -/
def Holds (a : Assembly) (position : Nat) (t : Node) : Prop :=
  (Plan.trees a.entries)[position]? = some t

/-- Later assemblies keep the entries of earlier ones. -/
def Within (a b : Assembly) : Prop := ∀ (i : Nat) (t : Node), a.Holds i t → b.Holds i t

/-- The entries of built vertices have the trees of their vertices, in which all requests are met. -/
def Faithful (g : Graph) (a : Assembly) : Prop :=
  ∀ id position, (id, position) ∈ a.built → ∃ t, a.Holds position t ∧ g.UnfoldsTo id t ∧ t.Met

theorem Within.refl (a : Assembly) : a.Within a := fun _ _ h => h

theorem Within.trans (h : a.Within b) (h' : b.Within c) : a.Within c :=
  fun i t ht => h' i t (h i t ht)

theorem within_push (a : Assembly) (node : Node) (inputs : List Nat) :
    a.Within (a.push node inputs).2 := by
  intro i t ht
  have hi := (Array.getElem?_eq_some_iff.1 ht).1
  simp only [Holds, push, Plan.trees_push, Array.getElem?_push]
  rw [if_neg (by omega)]
  exact ht

/-- The tree of a new entry is over the trees of its inputs. -/
theorem holds_push (node : Node) {inputs : List Nat} {ts : List Node}
    (hts : List.Forall₂ a.Holds inputs ts) :
    (a.push node inputs).2.Holds (a.push node inputs).1 { node with inputs := ts } := by
  have htrees : (inputs.filterMap fun i => (Plan.trees a.entries)[i]?) = ts := by
    induction hts with
    | nil => rfl
    | cons ht hts ih => rw [List.filterMap_cons, ht, ih]
  simp only [Holds, push, Plan.trees_push]
  rw [← Plan.size_trees, Array.getElem?_push_size, Plan.Entry.node, htrees]

end Assembly

open Assembly

variable {g : Graph} {mode : DigestMode} {rank : VertexId → ℕ}

/-- How extracting a vertex below some rank ends. -/
def Extracts (g : Graph) (rank : VertexId → ℕ) (n : Nat)
    (ofVertex : VertexId → Assembly → Planning (Nat × Assembly)) : Prop :=
  ∀ id a p t, rank id < n → p.graph = g → a.Faithful g → g.UnfoldsTo id t →
    Ends (ofVertex id a) p (fun r q => q.graph = g ∧ r.2.Faithful g ∧ a.Within r.2 ∧
      r.2.Holds r.1 t ∧ t.Met) fun f _ => ¬ t.Met ∧ g.Requests f

theorem ends_extractInputs {n : Nat} {ofVertex : VertexId → Assembly → Planning (Nat × Assembly)}
    (hvertex : Extracts g rank n ofVertex) {ns ts : List Node}
    (hns : ∀ m ∈ ns, ∃ id, m.vertexId? = some id ∧ rank id < n)
    (hts : List.Forall₂ g.Unfolds ns ts) :
    ∀ a p, p.graph = g → a.Faithful g →
      Ends (extractInputs ofVertex ns a) p (fun r q => q.graph = g ∧ r.2.Faithful g ∧
        a.Within r.2 ∧ List.Forall₂ r.2.Holds r.1 ts ∧ ∀ t ∈ ts, t.Met)
        fun f _ => (∃ t ∈ ts, ¬ t.Met) ∧ g.Requests f := by
  induction hts with
  | nil =>
    intro a p hp ha
    exact ends_pure.2 ⟨hp, ha, .refl a, .nil, by simp⟩
  | @cons m t ns ts ht hts ih =>
    intro a p hp ha
    rw [List.forall_mem_cons] at hns
    obtain ⟨⟨id, hid, hrank⟩, hns⟩ := hns
    rw [extractInputs]
    simp only [hid]
    refine ends_bind.2 ((hvertex id a p t hrank hp ha ((unfolds_of_vertexId? hid).1 ht)).mono ?_
      fun f _ ⟨hunmet, hf⟩ => ⟨⟨t, List.mem_cons_self, hunmet⟩, hf⟩)
    rintro ⟨position, b⟩ q ⟨hq, hb, hab, hposition, hmet⟩
    refine ends_bind.2 ((ih hns b q hq hb).mono ?_ fun f _ ⟨⟨u, hu, hunmet⟩, hf⟩ =>
      ⟨⟨u, List.mem_cons_of_mem t hu, hunmet⟩, hf⟩)
    rintro ⟨positions, c⟩ r ⟨hr, hc, hbc, hpositions, hall⟩
    exact ends_pure.2 ⟨hr, hc, hab.trans hbc, .cons (hbc position t hposition) hpositions,
      List.forall_mem_cons.2 ⟨hmet, hall⟩⟩

/-- A vertex is extracted as its tree, unless the tree has a request: by induction on the depth, which
bounds the rank. -/
theorem ends_extract (hg : g.Linked mode) (hrank : g.Ranked rank) (n : Nat) :
    Extracts g rank n (extract n) := by
  induction n with
  | zero => intro id a p t hid; omega
  | succ n ih =>
    intro id a p t hid hp ha ht
    rw [extract]
    cases hbuilt : a.built.lookup id with
    | some position =>
      obtain ⟨u, hu, hunfolds, hmet⟩ := ha id position (mem_of_lookup hbuilt)
      rw [hunfolds.unique ht] at hu hmet
      exact ends_pure.2 ⟨hp, ha, .refl a, hu, hmet⟩
    | none =>
      have hvertex := ht
      obtain ⟨node, hnode, hunfolds⟩ := hvertex
      have hover := hg.currents id node hnode
      obtain ⟨ts, hts, rfl⟩ := (unfolds_operator hover.isOperator).1 hunfolds
      have hmet : Node.Met { node with inputs := ts } ↔
          node.kind ≠ .abstractConverter ∧ ∀ t ∈ ts, t.Met := Node.everywhere_iff
      refine ends_bind.2 (ends_bind.2 (ends_get.2 ?_))
      rw [hp, hnode]
      refine ends_pure.2 ?_
      split_ifs with hkind
      · exact ends_bind.2 (ends_throw.2 ⟨fun h => (hmet.1 h).1 hkind, id, node, hnode, hkind, rfl⟩)
      apply (ends_observe _ p _).bind
      rintro _ q hq
      have hq : q.graph = g := by
        obtain ⟨events, rfl⟩ := hq
        exact hp
      refine ends_bind.2 ((ends_extractInputs ih (fun m hm => ?_) hts a q hq ha).mono ?_
        fun f _ ⟨⟨u, hu, hunmet⟩, hf⟩ => ⟨fun h => hunmet ((hmet.1 h).2 u hu), hf⟩)
      · obtain ⟨j, hj, hedge⟩ := hg.exists_edge_of_input hnode hm
        have := hrank id j hedge
        exact ⟨j, hj, by omega⟩
      rintro ⟨inputs, b⟩ r ⟨hr, hb, hab, hinputs, hall⟩
      have hpush := within_push b node inputs
      have hnew := holds_push node hinputs
      have hmet := hmet.2 ⟨hkind, hall⟩
      refine ends_pure.2 ⟨hr, fun i position hi => ?_, hab.trans hpush, hnew, hmet⟩
      rcases List.mem_cons.1 hi with heq | hi
      · cases heq
        exact ⟨_, hnew, ht, hmet⟩
      · obtain ⟨u, hu, hunfolds⟩ := hb i position hi
        exact ⟨u, hpush position u hu, hunfolds⟩

/-- The plan below a vertex is its tree. There is none if a request was left in it. -/
theorem ends_finalPlan {p : Planner} (hg : p.graph.Consistent mode) {root : VertexId} {t : Node}
    (ht : p.graph.UnfoldsTo root t) :
    Ends (finalPlan root) p (fun plan _ => plan.tree = t ∧ t.Met)
      fun f _ => ¬ t.Met ∧ p.graph.Requests f := by
  obtain ⟨rank, hrank, hle⟩ := hg.acyclic.exists_ranked_le hg.edges_live
  refine ends_bind.2 (ends_get.2 (ends_bind.2 ?_))
  have hempty : Assembly.empty.Faithful p.graph := by simp [Faithful, Assembly.empty]
  have hdepth : rank root < p.graph.depthBound := Nat.lt_succ_of_le (hle root)
  refine (ends_extract hg.toLinked hrank _ root .empty p t hdepth rfl hempty ht).mono ?_
    fun _ _ h => h
  rintro ⟨position, a⟩ q ⟨-, -, -, hholds, hmet⟩
  obtain ⟨hlt, htree⟩ := Array.getElem?_eq_some_iff.1 hholds
  simp only
  rw [dif_pos (Plan.size_trees a.entries ▸ hlt)]
  exact ends_pure.2 ⟨htree, hmet⟩

end Planner

open Planner in
/-- The best plan is the tree of the root after the program was executed and the garbage was
collected. -/
theorem Law.findBestPlan {A : Rule → Prop} {R : Planner → Planner → Prop}
    {F : Planner → Fault → Planner → Prop} (L : Law A R F) {p : Planner} (hp : p.Ready A)
    (hprogram : ∀ r ∈ p.program.rules, A r) (fuel : Nat) :
    Ends (Planner.findBestPlan fuel) p (fun plan _ => ∃ q root, R p q ∧
      q.graph.Consistent q.settings.digestMode ∧ q.settings = p.settings ∧
      q.graph.root = some root ∧ q.graph.UnfoldsTo root plan.tree) fun _ _ => True := by
  refine ends_bind.2 (ends_get.2 (ends_bind.2 ?_))
  refine (L.asks (Asks.log _) hp).mono (fun _ p₁ h₁ => ?_) fun _ _ _ => trivial
  refine ends_bind.2 ((L.execute (h₁.program ▸ hprogram) h₁.ready fuel).mono (fun _ p₂ h₂ => ?_)
    fun _ _ _ => trivial)
  refine ends_bind.2 ((L.collectGarbage h₂.ready).mono (fun _ q hq => ?_) fun _ _ _ => trivial)
  have h := L.carried_trans (L.carried_trans h₁ h₂) hq
  refine ends_bind.2 ((ends_self _ q).mono (fun root r hroot => ?_) fun _ _ _ => trivial)
  obtain ⟨hroot, hlive, rfl⟩ := requireRoot_eq_ok.1 hroot
  obtain ⟨t, ht⟩ := h.ready.consistent.exists_tree hlive
  refine ends_bind.2 ((ends_finalPlan h.ready.consistent ht).mono (fun plan p₄ h₄ => ?_)
    fun _ _ _ => trivial)
  refine ends_bind.2 (ends_get.2 (ends_bind.2 ((ends_log _ p₄ _).mono (fun _ _ _ => ?_)
    fun _ _ h => h)))
  refine ends_pure.2 ⟨r, root, h.related, h.ready.consistent, h.settings, hroot, ?_⟩
  rw [h₄.1]
  exact ht

end QueryPlanner
