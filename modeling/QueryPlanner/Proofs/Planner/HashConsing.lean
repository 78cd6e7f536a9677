import QueryPlanner.Proofs.Graph.Contents
import QueryPlanner.Proofs.Graph.Equivariance
import QueryPlanner.Proofs.Planner.Exactness
import QueryPlanner.Proofs.Planner.Insertion

/-!
# Adding an expression again

An addition only adds: what a vertex holds and what it refers to, the root and the digest entries stay
as they are, also where the addition fails half way. Where vertices are shared, an expression that
was added once is therefore found again by every expression of the same structure. This is by
recursion on the expression: its inputs are found at the vertices from before, so that both
expressions have the same key over the placeholders of these.
-/

namespace QueryPlanner

/-! ## Expressions of the same structure -/

/-- Operators that are the same or compare as equal. A scan whose row count is not a number is the
same as itself, though it does not compare so. -/
def Operator.Same (a b : Operator) : Prop := a = b ∨ a.equal b = true

namespace Operator

variable {a b : Operator}

/-- What is left open is the statistics of a scan, which do not appear in terms. -/
theorem Same.kind_termTexts (h : a.Same b) (mode : DigestMode) :
    a.kind = b.kind ∧ a.termTexts mode = b.termTexts mode := by
  rcases h with rfl | h
  · exact ⟨rfl, rfl⟩
  unfold equal at h
  split at h
  · next s t =>
    simp only [TableScan.equal, Bool.and_eq_true, decide_eq_true_eq] at h
    obtain ⟨⟨⟨htable, -⟩, hlimit⟩, -⟩ := h
    constructor
    · rfl
    · simp only [termTexts, terms, htable, hlimit]
  · rw [of_decide_eq_true h]
    exact ⟨rfl, rfl⟩

theorem Same.ne_vertex (h : a.Same b) (ha : ∀ j, a ≠ .vertex j) (j : VertexId) : b ≠ .vertex j := by
  rintro rfl
  have hkind : a.kind = .vertex := (h.kind_termTexts .full).1
  cases a <;> cases hkind
  exact ha _ rfl

end Operator

namespace Node

/-- Equal operators with equal traits and types of fields over inputs of the same structure, or
placeholders of the same vertex. -/
inductive SameStructure : Node → Node → Prop
  | placeholder {n n' : Node} (id : VertexId) (h : n.vertexId? = some id)
      (h' : n'.vertexId? = some id) : SameStructure n n'
  | operator {op op' : Operator} {inputs inputs' : List Node} {traits : TraitSet}
      {rowType rowType' : Schema} (hop : ∀ j, op ≠ .vertex j) (hsame : op.Same op')
      (htypes : rowType.types = rowType'.types)
      (hinputs : List.Forall₂ SameStructure inputs inputs') :
      SameStructure ⟨op, inputs, traits, rowType⟩ ⟨op', inputs', traits, rowType'⟩

variable {op op' : Operator} {traits : TraitSet} {rowType rowType' : Schema}

/-- Over the same placeholders, expressions of the same structure have the same key. -/
theorem key_eq_of_same (hop : ∀ j, op ≠ .vertex j) (hsame : op.Same op')
    (htypes : rowType.types = rowType'.types) (mode : DigestMode) (placeholders : List Node) :
    key mode ⟨op, placeholders, traits, rowType⟩ =
      key mode ⟨op', placeholders, traits, rowType'⟩ := by
  obtain ⟨hkind, hterms⟩ := hsame.kind_termTexts mode
  have hop' := hsame.ne_vertex hop
  have hdigest : digest mode ⟨op, placeholders, traits, rowType⟩ =
      digest mode ⟨op', placeholders, traits, rowType'⟩ := by
    rw [digest_eq_render (vertexId?_eq_none.2 hop), digest_eq_render (vertexId?_eq_none.2 hop')]
    unfold render
    rw [hkind, hterms]
  unfold key
  rw [hdigest, htypes]

end Node

/-! ## Insertion -/

namespace Graph

variable {g g' : Graph} {id : VertexId}

/-- The vertices that another graph has in addition. -/
def added (g g' : Graph) : List VertexId := g'.vertexIds.filter fun id => !g.contains id

theorem vertexCount_eq_add_added (h : ∀ i, g.contains i = true → g'.contains i = true) :
    g'.vertexCount = g.vertexCount + (g.added g').length := by
  have hkept : (g'.vertexIds.filter g.contains).Perm g.vertexIds := by
    apply (List.perm_ext_iff_of_nodup (g'.nodup_vertexIds.filter _) g.nodup_vertexIds).2
    intro i
    rw [List.mem_filter, mem_vertexIds, mem_vertexIds]
    exact ⟨And.right, fun hi => ⟨h i hi, hi⟩⟩
  have hparts := List.length_eq_length_filter_add (l := g'.vertexIds) g.contains
  rw [hkept.length_eq] at hparts
  exact hparts

theorem vertexCount_insert (h : g.FreeUnused) (node : Node) (key : DigestKey) :
    (g.insert node key).2.vertexCount = g.vertexCount + 1 := by
  have hins := inserted_insert h node key
  have hunused : g.nextId ∉ g.vertexIds := by
    rw [mem_vertexIds, h.nextId_unused]
    exact Bool.false_ne_true
  have hperm : (g.insert node key).2.vertexIds.Perm (g.nextId :: g.vertexIds) := by
    apply (List.perm_ext_iff_of_nodup (nodup_vertexIds _)
      (List.nodup_cons.2 ⟨hunused, g.nodup_vertexIds⟩)).2
    intro i
    rw [mem_vertexIds, List.mem_cons, mem_vertexIds, contains, hins.vertex, hins.id_eq, contains]
    split_ifs with hi <;> simp [hi]
  exact hperm.length_eq

theorem successors_foldl_addEdge {a i : VertexId} (hi : i ≠ a) (bs : List VertexId) (g : Graph) :
    (bs.foldl (fun g b => g.addEdge a b) g).successors i = g.successors i := by
  induction bs generalizing g with
  | nil => rfl
  | cons b bs ih =>
    rw [List.foldl_cons, ih, successors_addEdge, if_neg]
    intro h
    exact hi h.1

theorem successors_insert (node : Node) (key : DigestKey) (hid : id ≠ g.nextId) :
    (g.insert node key).2.successors id = g.successors id := by
  have hnext := addVertex_fst g node key
  have hedges := addVertex_edges g node key
  unfold insert
  generalize g.addVertex node key = added at *
  obtain ⟨next, g₁⟩ := added
  simp only at hnext hedges ⊢
  rw [successors_foldl_addEdge (hnext ▸ hid)]
  have hsame : (g₁.register key next).successors = g.successors := successors_congr hedges
  rw [hsame]

theorem lookup_register (g : Graph) (key key' : DigestKey) (id : VertexId) :
    (g.register key id).lookup key' = if key' = key then some id else g.lookup key' := by
  unfold register lookup
  rw [List.lookup_cons]
  split_ifs with h
  · rw [beq_iff_eq.2 h]
  · rw [beq_eq_false_iff_ne.2 h]
    induction g.digests with
    | nil => rfl
    | cons e entries ih => grind

theorem lookup_insert (h : g.FreeUnused) (node : Node) (key key' : DigestKey) :
    (g.insert node key).2.lookup key' =
      if key' = key then some (g.insert node key).1 else g.lookup key' := by
  have hins := inserted_insert h node key
  rw [← lookup_register]
  unfold lookup
  rw [hins.digests]

end Graph

/-! ## What an addition leaves as it is -/

namespace Planner

open QueryPlanner.Graph Planning

variable {p q r : Planner} {id : VertexId}

/-- There are more vertices, each of them counted. Everything that was there is there and as it was;
digest entries are so where vertices are shared. -/
structure Augments (p q : Planner) : Prop where
  settings : q.settings = p.settings
  /-- Expressions, placeholders and keys. -/
  vertices : ∀ i, p.graph.contains i = true → q.graph.vertex? i = p.graph.vertex? i
  successors : ∀ i, p.graph.contains i = true → q.graph.successors i = p.graph.successors i
  root : q.graph.root = p.graph.root
  /-- Row counts and costs. -/
  known : q.graph.known = p.graph.known
  entries : p.settings.dag = true → ∀ key i, p.graph.lookup key = some i →
    q.graph.lookup key = some i
  transformations : q.transformations = p.transformations + (p.graph.added q.graph).length

namespace Augments

theorem contains (h : p.Augments q) (hid : p.graph.contains id = true) :
    q.graph.contains id = true := by
  unfold Graph.contains at hid ⊢
  rwa [h.vertices id hid]

theorem placeholder?_of_some (h : p.Augments q) {node : Node}
    (hnode : p.graph.placeholder? id = some node) : q.graph.placeholder? id = some node := by
  unfold placeholder? at hnode ⊢
  rwa [h.vertices id (contains_of_placeholder hnode)]

theorem refl (p : Planner) : p.Augments p where
  settings := rfl
  vertices _ _ := rfl
  successors _ _ := rfl
  root := rfl
  known := rfl
  entries _ _ _ h := h
  transformations := by
    have hcount : p.graph.vertexCount = p.graph.vertexCount + (p.graph.added p.graph).length :=
      vertexCount_eq_add_added fun _ hi => hi
    omega

theorem trans (h : p.Augments q) (h' : q.Augments r) : p.Augments r where
  settings := h'.settings.trans h.settings
  vertices i hi := (h'.vertices i (h.contains hi)).trans (h.vertices i hi)
  successors i hi := (h'.successors i (h.contains hi)).trans (h.successors i hi)
  root := h'.root.trans h.root
  known := h'.known.trans h.known
  entries hdag key i hi := h'.entries (h.settings ▸ hdag) key i (h.entries hdag key i hi)
  transformations := by
    have hpq := vertexCount_eq_add_added fun _ => h.contains
    have hqr := vertexCount_eq_add_added fun _ => h'.contains
    have hpr := vertexCount_eq_add_added fun _ hi => h'.contains (h.contains hi)
    have hfirst := h.transformations
    have hsecond := h'.transformations
    omega

end Augments

/-- The state after the insertion of an expression. -/
theorem augments_insert (hp : p.graph.FreeUnused) {node : Node} {key : DigestKey}
    (hnew : p.settings.dag = true → p.graph.lookup key = none) :
    p.Augments { p with
      graph := (p.graph.insert node key).2, transformations := p.transformations + 1 } := by
  have hins := inserted_insert hp node key
  have hne : ∀ i, p.graph.contains i = true → i ≠ p.graph.nextId := by
    rintro i hi rfl
    rw [hp.nextId_unused] at hi
    cases hi
  have hvertices : ∀ i, p.graph.contains i = true →
      (p.graph.insert node key).2.vertex? i = p.graph.vertex? i := by
    intro i hi
    rw [hins.vertex, hins.id_eq, if_neg (hne i hi)]
  constructor
  case settings => rfl
  case vertices => exact hvertices
  case successors => exact fun i hi => successors_insert node key (hne i hi)
  case root => exact hins.root
  case known => exact known_insert p.graph node key
  case entries =>
    intro hdag key' i hi
    show (p.graph.insert node key).2.lookup key' = some i
    rw [lookup_insert hp, if_neg]
    · exact hi
    · rintro rfl
      rw [hnew hdag] at hi
      cases hi
  case transformations =>
    have hmore := vertexCount_insert hp node key
    have hkept : ∀ i, p.graph.contains i = true →
        (p.graph.insert node key).2.contains i = true := by
      intro i hi
      unfold Graph.contains at hi ⊢
      rwa [hvertices i hi]
    have hadded := vertexCount_eq_add_added hkept
    simp only
    omega

/-- An expression over placeholders is placed at a vertex that its key leads to afterwards. -/
theorem ends_place_augments (node : Node) (p : Planner) (E : Fault → Planner → Prop) :
    Ends (place node) p (fun id q => p.graph.FreeUnused → p.Augments q ∧ q.graph.FreeUnused ∧
      (p.settings.dag = true → q.graph.lookup (node.key p.settings.digestMode) = some id)) E := by
  have hplace := place_eq node p
  cases hshared : p.shared? node with
  | some id =>
    rw [hshared] at hplace
    apply (ends_of_eq_ok hplace).2
    intro hp
    refine ⟨.refl p, hp, fun hdag => ?_⟩
    rwa [shared?, if_pos hdag] at hshared
  | none =>
    rw [hshared] at hplace
    apply (ends_of_eq_ok hplace).2
    intro hp
    refine ⟨augments_insert hp fun hdag => ?_, hp.insert node _, fun _ => ?_⟩
    · rwa [shared?, if_pos hdag] at hshared
    · exact (lookup_insert hp node _ _).trans (if_pos rfl)

/-- From a graph whose free ids are unused to one of that kind, only with more in it. -/
def Fills (p q : Planner) : Prop := p.graph.FreeUnused → p.Augments q ∧ q.graph.FreeUnused

theorem Fills.refl (p : Planner) : p.Fills p := fun hp => ⟨.refl p, hp⟩

theorem Fills.trans (h : p.Fills q) (h' : q.Fills r) : p.Fills r := by
  intro hp
  obtain ⟨hpq, hq⟩ := h hp
  obtain ⟨hqr, hr⟩ := h' hq
  exact ⟨hpq.trans hqr, hr⟩

theorem ends_place_fills (node : Node) (p : Planner) :
    Ends (place node) p (fun _ q => p.Fills q) fun _ _ => False := by
  apply (ends_place_augments node p _).mono
  · intro _ q h hp
    exact ⟨(h hp).1, (h hp).2.1⟩
  · exact fun _ _ h => h

/-- Whether an addition succeeds or fails, it has only added. -/
theorem ends_add_fills (n : Node) (p : Planner) :
    Ends (add n) p (fun _ q => p.Fills q) fun _ q => p.Fills q :=
  ends_add_of_place Fills.refl Fills.trans ends_place_fills n p

theorem ends_addInputs_fills (ns : List Node) (p : Planner) :
    Ends (addInputs ns) p (fun _ q => p.Fills q) fun _ q => p.Fills q :=
  ends_addInputs_of_place Fills.refl Fills.trans ends_place_fills ns p

/-- Adds expressions one after the other. Where one cannot be added, what was added of its inputs
stays. -/
def addedAll (ns : List Node) (p : Planner) : Planner := ns.foldl (fun p n => left (add n p)) p

theorem fills_left_add (n : Node) (p : Planner) : p.Fills (left (add n p)) := by
  have hends := ends_add_fills n p
  cases h : add n p with
  | ok v q => exact hends.ok h
  | error f q => exact hends.error h

theorem fills_addedAll (ns : List Node) (p : Planner) : p.Fills (addedAll ns p) := by
  induction ns generalizing p with
  | nil => exact .refl p
  | cons n ns ih => exact (fills_left_add n p).trans (ih (left (add n p)))

/-! ## Finding what was added -/

mutual

/-- The graph may have grown since the first addition, and it was growing while that went on. The
inputs are found because the graph in which each was placed is a part of the present one. -/
theorem add_of_sameStructure : ∀ (n n' : Node) (p q r : Planner) (v : VertexId),
    p.graph.FreeUnused → p.settings.dag = true → n.SameStructure n' → add n p = .ok v q →
      q.Augments r → add n' r = .ok v r
  | ⟨op, inputs, traits, rowType⟩, ⟨op', inputs', traits', rowType'⟩, p, q, r, v, hp, hdag, hsame,
      hadd, hqr => by
    cases hsame with
    | placeholder id h h' =>
      obtain rfl := Node.operator_of_vertexId? h
      obtain rfl := Node.operator_of_vertexId? h'
      obtain ⟨hlive, rfl, rfl⟩ := add_vertex_eq_ok.1 hadd
      exact add_vertex_eq_ok.2 ⟨hqr.contains hlive, rfl, rfl⟩
    | operator hop hsame htypes hinputs =>
      obtain ⟨placeholders, p₁, haddInputs, hplace⟩ := (add_operator_eq_ok hop).1 hadd
      obtain ⟨hpp₁, hp₁⟩ := (ends_addInputs_fills inputs p).ok haddInputs hp
      obtain ⟨hp₁q, -, hentry⟩ := (ends_place_augments _ p₁ fun _ _ => True).ok hplace hp₁
      have hp₁r := hp₁q.trans hqr
      have hdag₁ : p₁.settings.dag = true := hpp₁.settings ▸ hdag
      have haddInputs' : addInputs inputs' r = .ok placeholders r :=
        addInputs_of_sameStructure inputs inputs' p p₁ r placeholders hp hdag hinputs haddInputs hp₁r
      -- over the same placeholders the two have the same key, which leads to the vertex since then
      have hkey : Node.key p₁.settings.digestMode ⟨op, placeholders, traits, rowType⟩ =
          Node.key p₁.settings.digestMode ⟨op', placeholders, traits, rowType'⟩ :=
        Node.key_eq_of_same hop hsame htypes _ placeholders
      have hshared : r.shared? ⟨op', placeholders, traits, rowType'⟩ = some v := by
        unfold shared?
        rw [hp₁r.settings, if_pos hdag₁, ← hkey]
        exact hqr.entries (hp₁q.settings ▸ hdag₁) _ _ (hentry hdag₁)
      have hplace' := place_eq ⟨op', placeholders, traits, rowType'⟩ r
      rw [hshared] at hplace'
      exact (add_operator_eq_ok (hsame.ne_vertex hop)).2 ⟨placeholders, r, haddInputs', hplace'⟩

theorem addInputs_of_sameStructure : ∀ (ns ns' : List Node) (p q r : Planner)
    (placeholders : List Node), p.graph.FreeUnused → p.settings.dag = true →
      List.Forall₂ Node.SameStructure ns ns' → addInputs ns p = .ok placeholders q →
        q.Augments r → addInputs ns' r = .ok placeholders r
  | [], ns', p, q, r, placeholders, hp, hdag, hsame, hadd, hqr => by
    cases hsame
    rw [addInputs] at hadd ⊢
    cases hadd
    rfl
  | n :: ns, ns', p, q, r, placeholders, hp, hdag, hsame, hadd, hqr => by
    cases hsame with
    | cons hfirst hothers =>
      obtain ⟨id, placeholder, rest, p₁, hn, hplaceholder, hns, rfl⟩ := addInputs_cons_eq_ok.1 hadd
      obtain ⟨hpp₁, hp₁⟩ := (ends_add_fills n p).ok hn hp
      obtain ⟨hp₁q, -⟩ := (ends_addInputs_fills ns p₁).ok hns hp₁
      have hp₁r := hp₁q.trans hqr
      have hn' := add_of_sameStructure n _ p p₁ r id hp hdag hfirst hn hp₁r
      have hns' := addInputs_of_sameStructure ns _ p₁ q r rest hp₁ (hpp₁.settings ▸ hdag) hothers
        hns hqr
      exact addInputs_cons_eq_ok.2 ⟨id, placeholder, rest, r, hn',
        hp₁r.placeholder?_of_some hplaceholder, hns', rfl⟩

end

/-- Where vertices are shared, an expression of the structure of one that was added is found at its
vertex, whatever was added in between, and nothing changes. In every mode an addition leaves what is
there as it is and counts the vertices that it adds, whether it succeeds or fails. -/
theorem add_again (hp : p.graph.Consistent p.settings.digestMode) :
    (p.settings.dag = true → ∀ n n' v q, n.SameStructure n' → add n p = .ok v q →
      ∀ ns, add n' (addedAll ns q) = .ok v (addedAll ns q)) ∧
      ∀ n, p.Augments (left (add n p)) := by
  constructor
  · intro hdag n n' v q hsame hadd ns
    obtain ⟨-, hq⟩ := (ends_add_fills n p).ok hadd hp.free
    exact add_of_sameStructure n n' p q _ v hp.free hdag hsame hadd (fills_addedAll ns q hq).1
  · intro n
    exact (fills_left_add n p hp.free).1

/-- Two limits over the values that a limit is on already. -/
def limitsOver (placeholder : Node) : Node :=
  ⟨.limit 9, [⟨.limit 4, [placeholder], .default, .empty⟩], .default, .empty⟩

/-- A union of limits that are new and of a vertex that does not exist. -/
def brokenUnion : Node :=
  ⟨.setOp .union true, [limitsOver (.placeholder 1 .default .empty), .placeholder 9 .default .empty],
    .default, .empty⟩

/-- The values are referred to by placeholders with other traits and another row type. In between an
addition fails after two vertices. -/
theorem add_again_loadedLimits :
    (∃ v q, add (limitsOver (.placeholder 0 .default .empty)) loadedLimits = .ok v q ∧
      add (limitsOver (.placeholder 0 ⟨⟨"LOGICAL"⟩, .unordered⟩ ⟨[⟨"n", .int64, true⟩]⟩))
        (addedAll [brokenUnion] q) = .ok v (addedAll [brokenUnion] q)) ∧
      succeeded (add brokenUnion loadedLimits) = false ∧
        (left (add brokenUnion loadedLimits)).transformations = loadedLimits.transformations + 2 ∧
          loadedLimits.Augments (left (add brokenUnion loadedLimits)) := by
  have hconsistent : loadedLimits.graph.Consistent loadedLimits.settings.digestMode :=
    (reached_consistent (.built (eq_ok_of_succeeded (by decide +kernel)))).1
  have hsame : (limitsOver (.placeholder 0 .default .empty)).SameStructure
      (limitsOver (.placeholder 0 ⟨⟨"LOGICAL"⟩, .unordered⟩ ⟨[⟨"n", .int64, true⟩]⟩)) := by
    apply Node.SameStructure.operator (by simp) (.inl rfl) rfl
    apply List.Forall₂.cons _ .nil
    apply Node.SameStructure.operator (by simp) (.inl rfl) rfl
    apply List.Forall₂.cons _ .nil
    exact Node.SameStructure.placeholder 0 rfl rfl
  obtain ⟨v, hadd⟩ := exists_ok_of_succeeded
    (x := add (limitsOver (.placeholder 0 .default .empty)) loadedLimits) (by decide +kernel)
  have hagain := add_again hconsistent
  refine ⟨⟨v, _, hadd, ?_⟩, by decide +kernel, by decide +kernel, hagain.2 brokenUnion⟩
  exact hagain.1 (by decide +kernel) _ _ v _ hsame hadd [brokenUnion]

end Planner

end QueryPlanner
