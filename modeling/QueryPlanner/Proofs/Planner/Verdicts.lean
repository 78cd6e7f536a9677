import QueryPlanner.Proofs.Planner.Collection
import QueryPlanner.Proofs.Planner.Recording

/-!
# What becomes of expressions

The final plan is extracted from a graph without garbage. Each vertex is built once and with it, before
it, what it refers to; so every expression that is left is chosen, once. All others are gone, and were
reported when they went.
-/

namespace QueryPlanner

open QueryPlanner.Graph Planning Relation

/-- A node apart from its inputs. -/
def Plan.Entry.head (e : Plan.Entry) : Operator × TraitSet × Schema :=
  (e.operator, e.traits, e.rowType)

def Node.head (n : Node) : Operator × TraitSet × Schema := (n.operator, n.traits, n.rowType)

namespace Planner

variable {g : Graph} {mode : DigestMode} {rank : VertexId → ℕ} {p q : Planner}

namespace Assembly

variable {a b c : Assembly} {choices choices' : List (VertexId × Node)}

/-- The vertices that are built. -/
def ids (a : Assembly) : List VertexId := a.built.map Prod.fst

/-- The nodes of the entries, apart from their inputs. -/
def heads (a : Assembly) : List (Operator × TraitSet × Schema) :=
  a.entries.toList.map Plan.Entry.head

/-- No vertex is built twice, and what a vertex refers to is built before. -/
structure Settled (g : Graph) (a : Assembly) : Prop where
  nodup : a.ids.Nodup
  closed : ∀ i ∈ a.ids, ∀ j, g.Edge i j → j ∈ a.ids

/-- An assembly was extended by the expressions of vertices that were not in it. -/
structure Enlarged (g : Graph) (a : Assembly) (choices : List (VertexId × Node)) (b : Assembly) :
    Prop where
  current : ∀ c ∈ choices, g.current? c.1 = some c.2
  ids : b.ids.Perm (choices.map Prod.fst ++ a.ids)
  heads : b.heads.Perm (choices.map (fun c => c.2.head) ++ a.heads)
  settled : b.Settled g

namespace Enlarged

theorem refl (ha : a.Settled g) : Enlarged g a [] a := ⟨by simp, .refl _, .refl _, ha⟩

theorem trans (h : Enlarged g a choices b) (h' : Enlarged g b choices' c) :
    Enlarged g a (choices ++ choices') c where
  current := List.forall_mem_append.2 ⟨h.current, h'.current⟩
  ids := by
    rw [List.map_append, List.append_assoc]
    exact (h'.ids.trans (h.ids.append_left _)).trans (List.perm_append_comm_assoc ..)
  heads := by
    rw [List.map_append, List.append_assoc]
    exact (h'.heads.trans (h.heads.append_left _)).trans (List.perm_append_comm_assoc ..)
  settled := h'.settled

theorem mem_ids (h : Enlarged g a choices b) {id : VertexId} (hid : id ∈ a.ids) : id ∈ b.ids :=
  h.ids.mem_iff.2 (List.mem_append_right _ hid)

/-- A vertex that was not built and is above all that was added is not built yet. -/
theorem not_mem {id : VertexId} (h : Enlarged g a choices b) (hbuilt : a.built.lookup id = none)
    (hbelow : ∀ c ∈ choices, rank c.1 < rank id) : id ∉ b.ids := by
  intro hmem
  rcases List.mem_append.1 (h.ids.mem_iff.1 hmem) with hmem | hmem
  · obtain ⟨c, hc, rfl⟩ := List.mem_map.1 hmem
    exact lt_irrefl _ (hbelow c hc)
  · obtain ⟨c, hc, rfl⟩ := List.mem_map.1 hmem
    simpa using List.lookup_eq_none_iff.1 hbuilt c hc

/-- A vertex is built after what it refers to. -/
theorem push {id : VertexId} {node : Node} {inputs : List Nat} (h : Enlarged g a choices b)
    (hnode : g.current? id = some node) (hid : id ∉ b.ids) (hclosed : ∀ j, g.Edge id j → j ∈ b.ids) :
    let pushed := (b.push node inputs).2
    Enlarged g a ((id, node) :: choices)
      { pushed with built := (id, (b.push node inputs).1) :: pushed.built } where
  current := List.forall_mem_cons.2 ⟨hnode, h.current⟩
  ids := h.ids.cons id
  heads := by
    show ((b.entries.push ⟨node.operator, inputs, node.traits, node.rowType⟩).toList.map
      Plan.Entry.head).Perm _
    rw [Array.toList_push, List.map_append]
    exact (List.perm_append_singleton _ _).trans (h.heads.cons _)
  settled := by
    refine ⟨List.nodup_cons.2 ⟨hid, h.settled.nodup⟩, List.forall_mem_cons.2
      ⟨fun j hj => List.mem_cons_of_mem _ (hclosed j hj), fun i hi j hj => ?_⟩⟩
    exact List.mem_cons_of_mem _ (h.settled.closed i hi j hj)

end Enlarged

end Assembly

/-! ## Extracting -/

/-- The records of what is chosen. -/
def chosen (choices : List (VertexId × Node)) : List Record := choices.map fun c => .chosen c.1 c.2

/-- The planner after observers, if there are any, were told what is chosen. -/
def announced (p : Planner) (choices : List (VertexId × Node)) : Planner :=
  if p.settings.observed then
    { p with events := p.events ++ choices.map fun c => Event.chosen (c.2.digest .full) }
  else p

@[simp] theorem announced_graph (p : Planner) (choices : List (VertexId × Node)) :
    (p.announced choices).graph = p.graph := by
  unfold announced
  split_ifs <;> rfl

@[simp] theorem announced_nil (p : Planner) : p.announced [] = p := by
  simp [announced]

theorem announced_append (p : Planner) (choices choices' : List (VertexId × Node)) :
    (p.announced choices).announced choices' = p.announced (choices ++ choices') := by
  unfold announced
  split_ifs with hobserved
  · congr 1
    apply Array.ext'
    simp
  · rfl

/-- What is chosen is told at once. -/
theorem observe_chosen (id : VertexId) (node : Node) (p : Planner) :
    observe (.chosen (node.digest .full)) p = .ok () (p.announced [(id, node)]) := by
  rw [observe_eq]
  simp [announced]

/-- Extracting has added to the assembly exactly what it has chosen, all of it below some rank, and
has told nothing else. -/
structure Extraction (g : Graph) (rank : VertexId → ℕ) (bound : ℕ) {α : Type}
    (x : Planning (α × Assembly)) (p : Planner) (a : Assembly) (r : α × Assembly) (q : Planner) :
    Prop where
  recorded : ∃ choices, q = p.announced choices ∧ Records x p (chosen choices) ∧
    a.Enlarged g choices r.2 ∧ ∀ c ∈ choices, rank c.1 < bound

/-- A vertex is extracted with everything below it. -/
def ExtractsBelow (g : Graph) (rank : VertexId → ℕ)
    (ofVertex : VertexId → Assembly → Planning (Nat × Assembly)) : Prop :=
  ∀ id a p r q, p.graph = g → a.Settled g → ofVertex id a p = .ok r q →
    Extraction g rank (rank id + 1) (ofVertex id a) p a r q ∧ id ∈ r.2.ids

theorem extraction_extractInputs {ofVertex : VertexId → Assembly → Planning (Nat × Assembly)}
    (hvertex : ExtractsBelow g rank ofVertex) {bound : ℕ} {ns : List Node}
    (hns : ∀ m ∈ ns, ∃ id, m.vertexId? = some id ∧ rank id < bound) :
    ∀ a p r q, p.graph = g → a.Settled g → extractInputs ofVertex ns a p = .ok r q →
      Extraction g rank bound (extractInputs ofVertex ns a) p a r q ∧
        ∀ m ∈ ns, ∀ id, m.vertexId? = some id → id ∈ r.2.ids := by
  induction ns with
  | nil =>
    rintro a p _ _ hp ha ⟨⟩
    exact ⟨⟨[], (announced_nil p).symm, .asks (.pure _), .refl ha, by simp⟩, by simp⟩
  | cons m ns ih =>
    intro a p r q hp ha h
    rw [List.forall_mem_cons] at hns
    obtain ⟨⟨id, hid, hrank⟩, hns⟩ := hns
    rw [extractInputs] at h ⊢
    simp only [hid] at h ⊢
    obtain ⟨⟨position, b⟩, p₁, h₁, h⟩ := bind_eq_ok.1 h
    obtain ⟨⟨choices, hp₁, hrecords, hb, hbelow⟩, hmem⟩ := hvertex id a p _ p₁ hp ha h₁
    obtain ⟨⟨positions, c⟩, p₂, h₂, h⟩ := bind_eq_ok.1 h
    have hgraph : p₁.graph = g := by rw [hp₁, announced_graph, hp]
    obtain ⟨⟨choices', hp₂, hrecords', hc, hbelow'⟩, hall⟩ := ih hns b p₁ _ p₂ hgraph hb.settled h₂
    cases h
    refine ⟨⟨choices ++ choices', ?_, ?_, hb.trans hc, ?_⟩, List.forall_mem_cons.2 ⟨?_, hall⟩⟩
    · rw [hp₂, hp₁, announced_append]
    · rw [chosen, List.map_append]
      refine .bind hrecords h₁ ?_
      rw [← List.append_nil (List.map _ choices')]
      exact .bind hrecords' h₂ (.asks (.pure _))
    · refine List.forall_mem_append.2 ⟨fun c hc => ?_, hbelow'⟩
      exact (hbelow c hc).trans_le hrank
    · rintro _ hid'
      rw [hid, Option.some.injEq] at hid'
      exact hid' ▸ hc.mem_ids hmem

section Extract

variable {n : ℕ} {id : VertexId} {node : Node} {a b : Assembly} {r : ℕ × Assembly} {inputs : List ℕ}
  {choices : List (VertexId × Node)}

/-- A vertex is found in the assembly, or it is reported and its inputs are extracted first. -/
theorem extract_succ_eq_ok (h : extract (n + 1) id a p = .ok r q) :
    (∃ position, a.built.lookup id = some position ∧ r = (position, a) ∧ q = p) ∨
      a.built.lookup id = none ∧ ∃ node inputs b p₁, p.graph.current? id = some node ∧
        node.kind ≠ .abstractConverter ∧ observe (.chosen (node.digest .full)) p = .ok () p₁ ∧
        extractInputs (extract n) node.inputs a p₁ = .ok (inputs, b) q ∧
        r = ((b.push node inputs).1, { (b.push node inputs).2 with
          built := (id, (b.push node inputs).1) :: (b.push node inputs).2.built }) := by
  rw [extract] at h
  cases hbuilt : a.built.lookup id with
  | some position =>
    simp only [hbuilt] at h
    cases h
    exact .inl ⟨position, rfl, rfl, rfl⟩
  | none =>
    simp only [hbuilt] at h
    obtain ⟨node, _, hcurrent, h₁⟩ := bind_eq_ok.1 h
    obtain ⟨hnode, rfl⟩ := current_eq_ok.1 hcurrent
    split_ifs at h₁ with hkind
    · obtain ⟨_, _, ⟨⟩, -⟩ := bind_eq_ok.1 h₁
    obtain ⟨_, p₁, hobserve, h₂⟩ := bind_eq_ok.1 h₁
    obtain ⟨⟨inputs, b⟩, _, hinputs, h₃⟩ := bind_eq_ok.1 h₂
    cases h₃
    exact .inr ⟨rfl, node, inputs, b, p₁, hnode, hkind, hobserve, hinputs, rfl⟩

/-- A vertex that is not in the assembly is chosen before what it refers to. -/
theorem records_extract {p₁ : Planner} (hbuilt : a.built.lookup id = none)
    (hnode : p.graph.current? id = some node) (hkind : node.kind ≠ .abstractConverter)
    (hobserve : observe (.chosen (node.digest .full)) p = .ok () p₁)
    (hinputs : extractInputs (extract n) node.inputs a p₁ = .ok (inputs, b) q)
    (hrecords : Records (extractInputs (extract n) node.inputs a) p₁ (chosen choices)) :
    Records (extract (n + 1) id a) p (chosen ((id, node) :: choices)) := by
  rw [extract]
  simp only [hbuilt]
  refine .bind (.asks (asks_current id)) (current_eq_ok.2 ⟨hnode, rfl⟩) ?_
  rw [if_neg hkind]
  refine .bind (.choose hnode) hobserve ?_
  rw [← List.append_nil (List.map _ choices)]
  exact .bind hrecords hinputs (.asks (.pure _))

/-- A vertex that is extracted for the first time is chosen, and so is what is below it and was not
extracted before: by induction on the depth. -/
theorem extractsBelow_extract (hg : g.Linked mode) (hrank : g.Ranked rank) (n : ℕ) :
    ExtractsBelow g rank (extract n) := by
  induction n with
  | zero =>
    intro id a p r q _ _ h
    cases h
  | succ n ih =>
    intro id a p r q hp ha h
    obtain ⟨position, hbuilt, rfl, rfl⟩ | ⟨hbuilt, node, inputs, b, p₁, hnode, hkind, hobserve,
      hinputs, rfl⟩ := extract_succ_eq_ok h
    · refine ⟨⟨[], (announced_nil q).symm, ?_, .refl ha, by simp⟩,
        List.mem_map_of_mem (mem_of_lookup hbuilt)⟩
      rw [extract]
      simp only [hbuilt]
      exact .asks (.pure _)
    · have hcurrent : g.current? id = some node := hp ▸ hnode
      have hp₁ : p₁ = p.announced [(id, node)] := by
        rw [observe_chosen id] at hobserve
        cases hobserve
        rfl
      have hgraph : p₁.graph = g := by rw [hp₁, announced_graph, hp]
      obtain ⟨⟨choices, hq, hrecords, hb, hbelow⟩, hall⟩ :=
        extraction_extractInputs ih (fun m hm => by
          obtain ⟨j, hj, hedge⟩ := hg.exists_edge_of_input hcurrent hm
          exact ⟨j, hj, hrank id j hedge⟩) a p₁ _ q hgraph ha hinputs
      have hclosed : ∀ j, g.Edge id j → j ∈ b.ids := by
        intro j hj
        obtain ⟨m, hm, hvertex⟩ := hg.exists_input_of_edge hcurrent hj
        exact hall m hm j hvertex
      refine ⟨⟨(id, node) :: choices, ?_, records_extract hbuilt hnode hkind hobserve hinputs hrecords,
        hb.push hcurrent (hb.not_mem hbuilt hbelow) hclosed, ?_⟩, List.mem_cons_self⟩
      · rw [hq, hp₁, announced_append, List.singleton_append]
      exact List.forall_mem_cons.2 ⟨Nat.lt_succ_self _, fun c hc => (hbelow c hc).trans
        (Nat.lt_succ_self _)⟩

end Extract

/-- What is settled contains everything that can be reached from what is in it. -/
theorem Assembly.Settled.mem_of_reachable {a : Assembly} {root id : VertexId} (h : a.Settled g)
    (hroot : root ∈ a.ids) (hreached : ReflTransGen g.Edge root id) : id ∈ a.ids := by
  induction hreached with
  | refl => exact hroot
  | @tail i j _ hij ih => exact h.closed i ih j hij

/-- The final plan consists of the expressions of the graph, if there is no garbage in it. -/
theorem exists_chosen_finalPlan (hp : p.graph.Consistent mode) {root : VertexId}
    (hroot : p.graph.root = some root) (hspanned : p.graph.Spanned) {plan : Plan}
    (h : finalPlan root p = .ok plan q) :
    ∃ choices, Records (finalPlan root) p (chosen choices) ∧ q = p.announced choices ∧
      choices.Perm p.graph.contents ∧
        (plan.entries.toList.map Plan.Entry.head).Perm (choices.map fun c => c.2.head) := by
  obtain ⟨rank, hrank, -⟩ := hp.acyclic.exists_ranked_le hp.edges_live
  obtain ⟨_, _, ⟨⟩, h⟩ := bind_eq_ok.1 h
  obtain ⟨⟨position, a⟩, p₁, hextract, h⟩ := bind_eq_ok.1 h
  have hempty : Assembly.empty.Settled p.graph := ⟨.nil, by simp [Assembly.ids, Assembly.empty]⟩
  obtain ⟨⟨choices, hp₁, hrecords, ha, -⟩, hmem⟩ :=
    extractsBelow_extract hp.toLinked hrank _ root _ p _ p₁ rfl hempty hextract
  have hids : a.ids.Perm (choices.map Prod.fst) := by simpa [Assembly.ids, Assembly.empty] using ha.ids
  have hheads : a.heads.Perm (choices.map fun c => c.2.head) := by
    simpa [Assembly.heads, Assembly.empty] using ha.heads
  have hcontents : choices.Perm p.graph.contents := by
    refine perm_contents (.of_map Prod.fst (hids.nodup_iff.1 ha.settled.nodup)) fun id node =>
      ⟨ha.current (id, node), fun hnode => ?_⟩
    have hreached := hspanned root hroot id (contains_of_current hnode)
    obtain ⟨c, hc, rfl⟩ := List.mem_map.1 (hids.mem_iff.1 (ha.settled.mem_of_reachable hmem hreached))
    obtain rfl := Option.some.inj ((ha.current c hc).symm.trans hnode)
    exact hc
  simp only at h
  split_ifs at h with hlt
  · cases h
    refine ⟨choices, .read ?_, hp₁, hcontents, hheads⟩
    rw [← List.append_nil (chosen choices)]
    refine .bind hrecords hextract ?_
    simp only
    rw [dif_pos hlt]
    exact .asks (.pure _)
  · cases h

/-! ## Whole runs -/

theorem filterMap_choice?_chosen (choices : List (VertexId × Node)) :
    (chosen choices).filterMap Record.choice? = choices := by
  rw [chosen, List.filterMap_map]
  exact List.filterMap_some

/-- A planner that was built and finds its best plan chooses what is left in the graph. -/
theorem selects_findBestPlan {fuel : Nat} {best : Plan} (hp : p.Tidy)
    (h : findBestPlan fuel p = .ok best q) :
    ∃ choices, Selects (findBestPlan fuel) p choices ∧ choices.Perm q.graph.contents ∧
      (best.entries.toList.map Plan.Entry.head).Perm (choices.map fun c => c.2.head) := by
  have hready : ∀ {r : Planner}, r.Tidy → r.Ready fun _ => True := fun hr =>
    ⟨hr.consistent, by simp, by simp, by simp⟩
  obtain ⟨_, _, ⟨⟩, h₀⟩ := bind_eq_ok.1 h
  obtain ⟨_, p₁, hlog, h₁⟩ := bind_eq_ok.1 h₀
  have hp₁ : p₁.Tidy := hp.alike ((Asks.log _).ends.ok hlog).toAlike
  obtain ⟨_, p₂, hexecute, h₂⟩ := bind_eq_ok.1 h₁
  have hp₂ : p₂.Tidy :=
    ((law_tidy.execute (fun _ _ => trivial) (hready hp₁) fuel).ok hexecute).related hp₁
  obtain ⟨_, p₃, hsweep, h₃⟩ := bind_eq_ok.1 h₂
  obtain ⟨hp₃, hspanned⟩ := hp₂.sweep ((ends_collectGarbage p₂ fun _ _ => True).ok hsweep)
  obtain ⟨root, _, hrequire, h₄⟩ := bind_eq_ok.1 h₃
  obtain ⟨hroot, -, rfl⟩ := requireRoot_eq_ok.1 hrequire
  obtain ⟨plan, p₄, hfinal, h₅⟩ := bind_eq_ok.1 h₄
  obtain ⟨choices, hrecords, hannounced, hcontents, hheads⟩ :=
    exists_chosen_finalPlan hp₃.consistent hroot hspanned hfinal
  obtain ⟨_, _, ⟨⟩, h₆⟩ := bind_eq_ok.1 h₅
  obtain ⟨_, p₅, hfinish, h₇⟩ := bind_eq_ok.1 h₆
  cases h₇
  have hq : q.graph = p₄.graph := by
    obtain ⟨events, rfl⟩ := (ends_log _ p₄ fun _ _ => True).ok hfinish
    rfl
  refine ⟨choices, ?_, ?_, hheads⟩
  · refine selects_read ((recorded_log _ p).selects hlog ?_)
    refine (recorded_execute fuel _ p₁).selects hexecute ?_
    refine (recorded_collectGarbage p₂).selects hsweep ?_
    refine Recorded.selects (recorded_asks asks_requireRoot) hrequire ?_
    refine ⟨_, .bind hrecords hfinal (.read (.asks ((Asks.log _).bind fun _ => .pure _))), ?_⟩
    rw [List.append_nil, filterMap_choice?_chosen]
  · rw [hq, hannounced, announced_graph]
    exact hcontents

/-- No expression is lost, and none is reported twice. Of all expressions that ever were the current
one of a vertex of an observed planner, each time one is put there counted for itself, each is reported
once: as discarded when another takes its place or it is swept, or as chosen, if the vertex still has
it at the end and so it is in the plan. -/
theorem expressions_reported_once {settings : Settings} {program : Program} {rules : List Rule}
    {plan : Node} {fuel : Nat} {best : Plan} (hobserved : settings.observed = true)
    (hbuild : build settings program rules plan = .ok () p)
    (hbest : findBestPlan fuel p = .ok best q) :
    ∃ ledger, Records (load rules plan >>= fun _ => findBestPlan fuel) (initial settings program)
        ledger ∧
      q.verdicts = ledger.filterMap Record.verdict? ∧
      (ledger.filterMap Record.arrival?).Perm
        (ledger.filterMap Record.departure? ++ ledger.filterMap Record.choice?) ∧
      (ledger.filterMap Record.choice?).Perm q.graph.contents ∧
      (best.entries.toList.map Plan.Entry.head).Perm
        ((ledger.filterMap Record.choice?).map fun c => c.2.head) := by
  obtain ⟨choices, hselects, hcontents, hheads⟩ := selects_findBestPlan (tidy_of_build hbuild) hbest
  obtain ⟨ledger, hledger, rfl⟩ := Recorded.selects (f := fun _ => findBestPlan fuel)
    (recorded_load rules plan _) hbuild hselects
  have hempty : (initial settings program).graph.FreeUnused :=
    (consistent_empty settings.digestMode).free
  have hok : (load rules plan >>= fun _ => findBestPlan fuel) (initial settings program) = .ok best q :=
    bind_eq_ok.2 ⟨(), p, hbuild, hbest⟩
  have haccounts := (hledger.accounts hempty).ok hok
  refine ⟨ledger, hledger, haccounts.verdicts hobserved, ?_, hcontents, hheads⟩
  have hbalance := haccounts.balance
  rw [show (initial settings program).graph.contents = [] from rfl, List.append_nil] at hbalance
  exact hbalance.trans (hcontents.symm.append_left _)

/-- A limit on a limit: the two are merged into a new expression, and both are swept. -/
theorem expressions_reported_once_stackedLimits :
    let settings : Settings := { Settings.default with observed := true }
    let program : Program := ⟨[.rule Rule.removeLimit]⟩
    ∃ best q, findBestPlan 9 (left (build settings program [] stackedLimits)) = .ok best q ∧
      ∃ ledger, Records (load [] stackedLimits >>= fun _ => findBestPlan 9) (initial settings program)
          ledger ∧
        q.verdicts = ledger.filterMap Record.verdict? ∧
        (ledger.filterMap Record.arrival?).Perm
          (ledger.filterMap Record.departure? ++ ledger.filterMap Record.choice?) ∧
        (ledger.filterMap Record.choice?).Perm q.graph.contents ∧
        (best.entries.toList.map Plan.Entry.head).Perm
          ((ledger.filterMap Record.choice?).map fun c => c.2.head) := by
  intro settings program
  obtain ⟨best, hbest⟩ := exists_ok_of_succeeded
    (x := findBestPlan 9 (left (build settings program [] stackedLimits))) (by decide +kernel)
  exact ⟨best, _, hbest,
    expressions_reported_once rfl (eq_ok_of_succeeded (by decide +kernel)) hbest⟩

end Planner

end QueryPlanner
