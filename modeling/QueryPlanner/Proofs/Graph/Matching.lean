import QueryPlanner.Proofs.Graph.Binding
import QueryPlanner.Proofs.Planner.Reached

/-!
# Matches of patterns

Whether a pattern matches an expression, and which expressions its nodes are placed on, is said
without bindings. The binder finds a match exactly if there is one, and extends the binding by the
expressions of the match and by the inputs of those under unordered pattern nodes.

A matcher can also work on one binding in place. It has to cut the binding back after every failed
attempt, to the number of expressions that it had before, and then comes to the same results.
-/

namespace QueryPlanner

open Planning

/-! ## Declarative matches -/

/-- The expressions that the inputs of a node stand for, as far as they stand for any. -/
def Graph.below (g : Graph) (node : Node) : List Node :=
  node.inputs.filterMap fun input => input.vertexId?.bind g.current?

namespace Pattern

mutual

/-- The pattern matches the expression. -/
def Matches (g : Graph) : Pattern → Node → Prop
  | ⟨kind, convention, test, policy, children⟩, node =>
    accepts ⟨kind, convention, test, policy, children⟩ node = true ∧
      (∀ i ∈ node.inputs, i.vertexId?.isSome = true) ∧
      match policy with
      | .any => True
      | .unordered => MatchEach g children (g.below node)
      | .exact =>
        node.inputs.length = children.length ∧ MatchPairwise g children (g.below node)

/-- Every pattern matches some of the expressions. -/
def MatchEach (g : Graph) : List Pattern → List Node → Prop
  | [], _ => True
  | p :: ps, nodes => (∃ n ∈ nodes, p.Matches g n) ∧ MatchEach g ps nodes

/-- Every pattern matches the expression in its place. -/
def MatchPairwise (g : Graph) : List Pattern → List Node → Prop
  | [], [] => True
  | p :: ps, n :: ns => p.Matches g n ∧ MatchPairwise g ps ns
  | _, _ => False

end

mutual

/-- The nodes of the pattern, each before its children. -/
def preorder : Pattern → List Pattern
  | ⟨kind, convention, test, policy, children⟩ =>
    ⟨kind, convention, test, policy, children⟩ :: preorders children

def preorders : List Pattern → List Pattern
  | [] => []
  | p :: ps => p.preorder ++ preorders ps

end

mutual

/-- The nodes of a pattern that matches, each with the expression it is placed on, in preorder. -/
inductive Placed (g : Graph) : Pattern → Node → List (Pattern × Node) → Prop
  | any {p : Pattern} {node : Node} : p.policy = .any → p.accepts node = true →
      Placed g p node [(p, node)]
  | unordered {p : Pattern} {node : Node} {placed : List (Pattern × Node)} :
      p.policy = .unordered → p.accepts node = true → PlacedEach g p.children (g.below node) placed →
      Placed g p node ((p, node) :: placed)
  | exact {p : Pattern} {node : Node} {placed : List (Pattern × Node)} :
      p.policy = .exact → p.accepts node = true →
      PlacedPairwise g p.children (g.below node) placed →
      Placed g p node ((p, node) :: placed)

/-- Every pattern is placed on the first of the expressions that it matches. -/
inductive PlacedEach (g : Graph) : List Pattern → List Node → List (Pattern × Node) → Prop
  | nil {nodes : List Node} : PlacedEach g [] nodes []
  | cons {p : Pattern} {ps : List Pattern} {n : Node} {before after : List Node}
      {placed rest : List (Pattern × Node)} :
      (∀ m ∈ before, ¬ p.Matches g m) → p.Matches g n → Placed g p n placed →
      PlacedEach g ps (before ++ n :: after) rest →
      PlacedEach g (p :: ps) (before ++ n :: after) (placed ++ rest)

/-- Every pattern is placed on the expression in its place. -/
inductive PlacedPairwise (g : Graph) :
    List Pattern → List Node → List (Pattern × Node) → Prop
  | nil : PlacedPairwise g [] [] []
  | cons {p : Pattern} {ps : List Pattern} {n : Node} {ns : List Node}
      {placed rest : List (Pattern × Node)} :
      Placed g p n placed → PlacedPairwise g ps ns rest →
      PlacedPairwise g (p :: ps) (n :: ns) (placed ++ rest)

end

end Pattern

namespace Pattern

variable {g : Graph} {p : Pattern} {ps : List Pattern} {node : Node} {nodes : List Node}
  {placed : List (Pattern × Node)}

theorem matchEach_iff : MatchEach g ps nodes ↔ ∀ p ∈ ps, ∃ n ∈ nodes, p.Matches g n := by
  induction ps with
  | nil => simp [MatchEach]
  | cons p ps ih => rw [MatchEach, ih, List.forall_mem_cons]

theorem matchPairwise_iff : ∀ {ps : List Pattern} {nodes : List Node},
    MatchPairwise g ps nodes ↔ List.Forall₂ (Matches g) ps nodes
  | [], [] => by simp [MatchPairwise]
  | [], _ :: _ => by simp [MatchPairwise]
  | _ :: _, [] => by simp [MatchPairwise]
  | p :: ps, n :: ns => by rw [MatchPairwise, List.forall₂_cons, matchPairwise_iff]

/-- What a match of a pattern asks of an expression. -/
theorem matches_iff : p.Matches g node ↔
    p.accepts node = true ∧ (∀ i ∈ node.inputs, i.vertexId?.isSome = true) ∧
      (p.policy = .unordered → ∀ c ∈ p.children, ∃ n ∈ g.below node, c.Matches g n) ∧
      (p.policy = .exact → node.inputs.length = p.children.length ∧
        List.Forall₂ (Matches g) p.children (g.below node)) := by
  obtain ⟨kind, convention, test, policy, children⟩ := p
  cases policy <;> simp [Matches, matchEach_iff, matchPairwise_iff]

/-! ## Nodes of a pattern in preorder -/

@[simp] theorem preorder_eq (p : Pattern) : p.preorder = p :: preorders p.children := by
  obtain ⟨kind, convention, test, policy, children⟩ := p
  rw [preorder]

mutual

theorem length_preorder : ∀ p : Pattern, p.preorder.length = p.count
  | ⟨kind, convention, test, policy, children⟩ => by
    rw [preorder, count, List.length_cons, length_preorders children, Nat.add_comm]

theorem length_preorders : ∀ ps : List Pattern, (preorders ps).length = countAll ps
  | [] => by rw [preorders, countAll, List.length_nil]
  | p :: ps => by
    rw [preorders, countAll, List.length_append, length_preorder p, length_preorders ps]

end

theorem firstDefect?_eq_none : firstDefect? ps = none ↔ ∀ p ∈ ps, p.defect? = none := by
  induction ps with
  | nil => simp [firstDefect?]
  | cons p ps ih => simp [firstDefect?, Option.or_eq_none_iff, ih]

theorem defect?_of_mem_children (h : p.defect? = none) : ∀ c ∈ p.children, c.defect? = none := by
  obtain ⟨kind, convention, test, policy, children⟩ := p
  rw [← firstDefect?_eq_none]
  cases policy <;> cases children <;> simp_all [defect?]

theorem children_of_any (h : p.defect? = none) (hp : p.policy = .any) : p.children = [] := by
  obtain ⟨kind, convention, test, policy, children⟩ := p
  cases policy <;> cases children <;> simp_all [defect?]

mutual

/-- A pattern without defects is placed with all its nodes. -/
theorem Placed.preorder : ∀ {p : Pattern} {node : Node} {placed : List (Pattern × Node)},
    p.defect? = none → Placed g p node placed → placed.map Prod.fst = p.preorder
  | p, _, _, h, .any hpolicy _ => by
    simp [children_of_any h hpolicy, preorders]
  | p, _, _, h, .unordered _ _ hplaced => by
    simp [hplaced.preorders (defect?_of_mem_children h)]
  | p, _, _, h, .exact _ _ hplaced => by
    simp [hplaced.preorders (defect?_of_mem_children h)]

theorem PlacedEach.preorders : ∀ {ps : List Pattern} {nodes : List Node}
    {placed : List (Pattern × Node)}, (∀ p ∈ ps, p.defect? = none) →
    PlacedEach g ps nodes placed → placed.map Prod.fst = preorders ps
  | _, _, _, _, .nil => by rw [Pattern.preorders, List.map_nil]
  | _, _, _, h, .cons _ _ hplaced hrest => by
    rw [List.forall_mem_cons] at h
    rw [Pattern.preorders, List.map_append, hplaced.preorder h.1, hrest.preorders h.2]

theorem PlacedPairwise.preorders : ∀ {ps : List Pattern} {nodes : List Node}
    {placed : List (Pattern × Node)}, (∀ p ∈ ps, p.defect? = none) →
    PlacedPairwise g ps nodes placed → placed.map Prod.fst = preorders ps
  | _, _, _, _, .nil => by rw [Pattern.preorders, List.map_nil]
  | _, _, _, h, .cons hplaced hrest => by
    rw [List.forall_mem_cons] at h
    rw [Pattern.preorders, List.map_append, hplaced.preorder h.1, hrest.preorders h.2]

end

end Pattern

/-! ## Expressions below an expression -/

namespace Graph

variable {mode : DigestMode} {g : Graph} {p : Pattern} {ps : List Pattern} {node n : Node}
  {nodes : List Node} {b b' b'' : Binding} {placed rest : List (Pattern × Node)}

/-- The vertices that a node refers to exist. -/
def Refers (g : Graph) (node : Node) : Prop := ∀ id ∈ node.references, g.contains id = true

theorem Linked.refers_of_mem_below (hg : g.Linked mode) (hn : n ∈ g.below node) : g.Refers n := by
  obtain ⟨input, -, hinput⟩ := List.mem_filterMap.1 hn
  obtain ⟨id, -, hid⟩ := Option.bind_eq_some_iff.1 hinput
  exact fun j hj => hg.contains_of_reference (hg.currents id n hid) hj

theorem exists_current_of_input (hn : g.Refers node) {input : Node} (hinput : input ∈ node.inputs)
    (hsome : input.vertexId?.isSome = true) : ∃ m, input.vertexId?.bind g.current? = some m := by
  obtain ⟨id, hid⟩ := Option.isSome_iff_exists.1 hsome
  obtain ⟨m, hm⟩ := contains_iff_current.1 (hn id (Node.mem_references.2 ⟨input, hinput, hid⟩))
  exact ⟨m, by rw [hid, Option.bind_some, hm]⟩

theorem inputExpressions_eq (hn : g.Refers node)
    (hsome : ∀ i ∈ node.inputs, i.vertexId?.isSome = true) :
    g.inputExpressions node = .ok (g.below node) ∧
      (g.below node).length = node.inputs.length := by
  have hfound : ∀ i ∈ node.inputs, ∃ m, i.vertexId?.bind g.current? = some m :=
    fun i hi => exists_current_of_input hn hi (hsome i hi)
  rw [inputExpressions, below]
  generalize node.inputs = inputs at hfound
  induction inputs with
  | nil => exact ⟨rfl, rfl⟩
  | cons i rest ih =>
    rw [List.forall_mem_cons] at hfound
    obtain ⟨⟨m, hm⟩, hrest⟩ := hfound
    obtain ⟨hmap, hlength⟩ := ih hrest
    simp only [List.mapM_cons, hmap, hm, List.filterMap_cons, List.length_cons, hlength]
    exact ⟨rfl, trivial⟩

end Graph

/-! ## What a match adds to a binding -/

/-- The binding has the placed expressions in addition, and at the ordinals of unordered patterns all
expressions below the one that was matched. -/
structure Binding.Gains (g : Graph) (b : Binding) (placed : List (Pattern × Node)) (b' : Binding) :
    Prop where
  rels : b'.rels = b.rels ++ placed.map Prod.snd
  inputs : ∀ i q n, placed[i]? = some (q, n) → q.policy = .unordered →
    b'.inputs.lookup (b.rels.length + i) = some (g.below n)
  others : ∀ ordinal, (∀ i q n, ordinal = b.rels.length + i → placed[i]? = some (q, n) →
    q.policy ≠ .unordered) → b'.inputs.lookup ordinal = b.inputs.lookup ordinal

namespace Binding

variable {g : Graph} {p : Pattern} {node : Node} {b b' b'' : Binding}
  {placed rest : List (Pattern × Node)}

theorem Gains.refl (b : Binding) : b.Gains g [] b := ⟨by simp, by simp, fun _ _ => rfl⟩

theorem Gains.append (h : b.Gains g placed b') (h' : b'.Gains g rest b'') :
    b.Gains g (placed ++ rest) b'' := by
  have hlength : b'.rels.length = b.rels.length + placed.length := by
    rw [h.rels, List.length_append, List.length_map]
  refine ⟨by rw [h'.rels, h.rels, List.map_append, List.append_assoc], ?_, ?_⟩
  · intro i q n hi hq
    by_cases hlt : i < placed.length
    · -- recorded by the first match, and out of reach of the second one
      rw [List.getElem?_append_left hlt] at hi
      rw [h'.others _ fun j _ _ hj => by omega]
      exact h.inputs i q n hi hq
    · rw [List.getElem?_append_right (by omega)] at hi
      have := h'.inputs _ q n hi hq
      rwa [hlength, Nat.add_assoc, Nat.add_sub_cancel' (by omega)] at this
  · intro ordinal hnone
    rw [h'.others ordinal, h.others ordinal]
    · intro i q n hi hq
      have hlt : i < placed.length := (List.getElem?_eq_some_iff.1 hq).1
      exact hnone i q n hi (by rwa [List.getElem?_append_left hlt])
    · intro i q n hi hq
      refine hnone (placed.length + i) q n (by omega) ?_
      rwa [List.getElem?_append_right (by omega), Nat.add_sub_cancel_left]

theorem gains_push (h : p.policy ≠ .unordered) : b.Gains g [(p, node)] (b.push node) where
  rels := rfl
  inputs i q n hi hq := by
    have hmem : (q, n) ∈ [(p, node)] := List.mem_of_getElem? hi
    cases List.mem_singleton.1 hmem
    exact absurd hq h
  others _ _ := rfl

/-- The inputs of an unordered pattern are recorded once its children are matched. -/
theorem Gains.record (h : (b.push node).Gains g placed b') (hp : p.policy = .unordered) :
    b.Gains g ((p, node) :: placed)
      { b' with inputs := (b.rels.length, g.below node) :: b'.inputs } := by
  have hlength : (b.push node).rels.length = b.rels.length + 1 := by simp [push]
  refine ⟨by simp [h.rels, push], ?_, ?_⟩
  · intro i q n hi hq
    cases i with
    | zero =>
      cases hi
      simp
    | succ i =>
      have := h.inputs i q n (by simpa using hi) hq
      have hne : (b.rels.length + (i + 1) == b.rels.length) = false := by simp
      rw [hlength, Nat.add_assoc, Nat.add_comm 1] at this
      simpa only [List.lookup_cons, hne] using this
  · intro ordinal hnone
    have hne : (ordinal == b.rels.length) = false :=
      beq_false_of_ne fun he => hnone 0 p node he rfl hp
    simp only [List.lookup_cons, hne]
    exact h.others ordinal fun i q n hi hq => hnone (i + 1) q n (by omega) (by simpa using hq)

end Binding

/-! ## The binder finds the match -/

namespace Graph

/-- An attempt that succeeds exactly if there is a match, and extends the binding by the match. -/
def Binds (g : Graph) (b : Binding) (matched : Prop) (placed : List (Pattern × Node) → Prop)
    (attempt : Except Fault (Option Binding)) : Prop :=
  (matched → ∃ l b', placed l ∧ b.Gains g l b' ∧ attempt = .ok (some b')) ∧
    (¬ matched → attempt = .ok none)

variable {mode : DigestMode} {g : Graph} {node n : Node} {nodes : List Node} {b b' : Binding}

/-- The first of the expressions that match is bound. -/
theorem binds_bindSome {matched : Node → Prop} {placed : Node → List (Pattern × Node) → Prop}
    {attempt : Node → Binding → Except Fault (Option Binding)}
    (h : ∀ n ∈ nodes, g.Binds b (matched n) (placed n) (attempt n b)) :
    g.Binds b (∃ n ∈ nodes, matched n)
      (fun l => ∃ before n after, nodes = before ++ n :: after ∧
        (∀ m ∈ before, ¬ matched m) ∧ matched n ∧ placed n l)
      (bindSome attempt nodes b) := by
  induction nodes with
  | nil => exact ⟨by simp, fun _ => rfl⟩
  | cons n ns ih =>
    rw [List.forall_mem_cons] at h
    rw [bindSome]
    by_cases hn : matched n
    · obtain ⟨l, b', hl, hgains, hok⟩ := h.1.1 hn
      refine ⟨fun _ => ⟨l, b', ⟨[], n, ns, rfl, by simp, hn, hl⟩, hgains, ?_⟩, fun hnone => ?_⟩
      · rw [hok]
        rfl
      · exact absurd ⟨n, List.mem_cons_self, hn⟩ hnone
    · have hrest := ih h.2
      rw [h.1.2 hn]
      refine ⟨fun hsome => ?_, fun hnone => hrest.2 ?_⟩
      · obtain ⟨m, hm, hmatched⟩ := hsome
        have hm : m ∈ ns := (List.mem_cons.1 hm).resolve_left fun he => hn (he ▸ hmatched)
        obtain ⟨l, b', ⟨before, k, after, rfl, hbefore, hk, hl⟩, hgains, hok⟩ :=
          hrest.1 ⟨m, hm, hmatched⟩
        exact ⟨l, b', ⟨n :: before, k, after, rfl, List.forall_mem_cons.2 ⟨hn, hbefore⟩, hk, hl⟩,
          hgains, hok⟩
      · rintro ⟨m, hm, hmatched⟩
        exact hnone ⟨m, List.mem_cons_of_mem n hm, hmatched⟩

mutual

theorem binds_bind (hg : g.Linked mode) : ∀ (p : Pattern) (node : Node) (b : Binding),
    g.Refers node → g.Binds b (p.Matches g node) (p.Placed g node) (g.bind p node b)
  | ⟨kind, convention, test, policy, children⟩, node, b, hn => by
    have haccepts : Pattern.accepts ⟨kind, convention, test, policy, []⟩ node =
      Pattern.accepts ⟨kind, convention, test, policy, children⟩ node := rfl
    rw [bind, Pattern.Matches.eq_def, haccepts]
    cases ha : Pattern.accepts ⟨kind, convention, test, policy, children⟩ node with
    | false => exact ⟨fun h => by simp [ha] at h, fun _ => rfl⟩
    | true =>
    by_cases hsome : ∀ i ∈ node.inputs, i.vertexId?.isSome = true
    case neg =>
      have hany : node.inputs.any (·.vertexId?.isNone) = true := by
        simpa [Option.isNone_iff_eq_none, Option.isSome_iff_ne_none] using hsome
      rw [hany]
      exact ⟨fun h => absurd h.2.1 hsome, fun _ => rfl⟩
    have hany : node.inputs.any (·.vertexId?.isNone) = false := by
      simpa [Option.isNone_iff_eq_none, Option.isSome_iff_ne_none] using hsome
    obtain ⟨hbelow, hlength⟩ := inputExpressions_eq hn hsome
    have hrefers : ∀ n ∈ g.below node, g.Refers n := fun n hn => hg.refers_of_mem_below hn
    rw [hany]
    cases policy with
    | any =>
      refine ⟨fun _ => ⟨_, b.push node, .any rfl ha, Binding.gains_push (by simp), rfl⟩, fun h => ?_⟩
      exact absurd ⟨ha, hsome, trivial⟩ h
    | unordered =>
      have hchildren := binds_bindEach hg children (g.below node) (b.push node) hrefers
      simp only [hbelow]
      by_cases heach : Pattern.MatchEach g children (g.below node)
      · obtain ⟨l, b', hl, hgains, hok⟩ := hchildren.1 heach
        refine ⟨fun _ => ⟨_, _, .unordered rfl ha hl, hgains.record rfl, ?_⟩, fun h => ?_⟩
        · show (g.bindEach children (g.below node) (b.push node) >>= _) = _
          rw [hok]
          rfl
        · exact absurd ⟨ha, hsome, heach⟩ h
      · refine ⟨fun h => absurd h.2.2 heach, fun _ => ?_⟩
        show (g.bindEach children (g.below node) (b.push node) >>= _) = _
        rw [hchildren.2 heach]
        rfl
    | exact =>
      simp only [hbelow]
      by_cases hcount : node.inputs.length = children.length
      · have hchildren := binds_bindPairwise hg children (g.below node) (b.push node)
          (hcount ▸ hlength) hrefers
        have hpush : b.Gains g [(⟨kind, convention, test, .exact, children⟩, node)] (b.push node) :=
          Binding.gains_push (by simp)
        refine ⟨fun h => ?_, fun h => ?_⟩
        · obtain ⟨l, b', hl, hgains, hok⟩ := hchildren.1 h.2.2.2
          refine ⟨_, b', .exact rfl ha hl, hpush.append hgains, ?_⟩
          simp only [hcount, ne_eq, not_true_eq_false, if_false]
          exact hok
        · have hnone := hchildren.2 fun hpairwise => h ⟨ha, hsome, hcount, hpairwise⟩
          simp only [hcount, ne_eq, not_true_eq_false, if_false]
          exact hnone
      · refine ⟨fun h => absurd h.2.2.1 hcount, fun _ => ?_⟩
        simp [hcount, pure, Except.pure]

theorem binds_bindPairwise (hg : g.Linked mode) : ∀ (ps : List Pattern) (nodes : List Node)
    (b : Binding), nodes.length = ps.length → (∀ n ∈ nodes, g.Refers n) →
    g.Binds b (Pattern.MatchPairwise g ps nodes) (Pattern.PlacedPairwise g ps nodes)
      (g.bindPairwise ps nodes b)
  | [], [], b, _, _ => by
    rw [bindPairwise, Pattern.MatchPairwise]
    · exact ⟨fun _ => ⟨[], b, .nil, .refl b, rfl⟩, fun h => absurd trivial h⟩
    · simp
  | p :: ps, n :: ns, b, hlength, hn => by
    rw [List.forall_mem_cons] at hn
    have hhead := binds_bind hg p n b hn.1
    rw [bindPairwise, Pattern.MatchPairwise]
    by_cases hp : p.Matches g n
    · obtain ⟨l, b', hl, hgains, hok⟩ := hhead.1 hp
      have hrest := binds_bindPairwise hg ps ns b' (by simpa using hlength) hn.2
      rw [hok]
      refine ⟨fun h => ?_, fun h => hrest.2 fun hps => h ⟨hp, hps⟩⟩
      obtain ⟨l', b'', hl', hgains', hok'⟩ := hrest.1 h.2
      exact ⟨_, b'', .cons hl hl', hgains.append hgains', hok'⟩
    · rw [hhead.2 hp]
      exact ⟨fun h => absurd h.1 hp, fun _ => rfl⟩

theorem binds_bindEach (hg : g.Linked mode) : ∀ (ps : List Pattern) (nodes : List Node)
    (b : Binding), (∀ n ∈ nodes, g.Refers n) →
    g.Binds b (Pattern.MatchEach g ps nodes) (Pattern.PlacedEach g ps nodes)
      (g.bindEach ps nodes b)
  | [], nodes, b, _ => by
    rw [bindEach, Pattern.MatchEach]
    exact ⟨fun _ => ⟨[], b, .nil, .refl b, rfl⟩, fun h => absurd trivial h⟩
  | p :: ps, nodes, b, hn => by
    have hhead := binds_bindSome fun n hmem => binds_bind hg p n b (hn n hmem)
    rw [bindEach, Pattern.MatchEach]
    by_cases hp : ∃ n ∈ nodes, p.Matches g n
    · obtain ⟨l, b', ⟨before, n, after, rfl, hbefore, hmatch, hl⟩, hgains, hok⟩ := hhead.1 hp
      have hrest := binds_bindEach hg ps _ b' hn
      rw [hok]
      refine ⟨fun h => ?_, fun h => hrest.2 fun hps => h ⟨hp, hps⟩⟩
      obtain ⟨l', b'', hl', hgains', hok'⟩ := hrest.1 h.2
      exact ⟨_, b'', .cons hbefore hmatch hl hl', hgains.append hgains', hok'⟩
    · rw [hhead.2 hp]
      exact ⟨fun h => absurd h.1 hp, fun _ => rfl⟩

end

end Graph

/-! ## Matching in place -/

namespace Binding

variable {b b' b'' : Binding}

/-- All recorded inputs are those of expressions that the binding has. -/
def Closed (b : Binding) : Prop := ∀ e ∈ b.inputs, e.1 < b.rels.length

/-- The binding cut back to its first expressions and to the inputs of these. -/
def rollback (b : Binding) (length : Nat) : Binding :=
  ⟨b.rels.take length, b.inputs.filter (·.1 < length)⟩

/-- What an attempt from a binding comes to. If it has failed, it is undone. -/
def settle (b : Binding) : Bool × Binding → Bool × Binding
  | (true, b') => (true, b')
  | (false, b') => (false, b'.rollback b.rels.length)

/-- One binding starts with another and records further inputs for its further expressions alone. -/
def Extends (b b' : Binding) : Prop :=
  ∃ rels inputs, b' = ⟨b.rels ++ rels, inputs ++ b.inputs⟩ ∧
    ∀ e ∈ inputs, b.rels.length ≤ e.1 ∧ e.1 < b.rels.length + rels.length

theorem Extends.refl (b : Binding) : b.Extends b := ⟨[], [], by simp, by simp⟩

theorem Extends.trans (h : b.Extends b') (h' : b'.Extends b'') : b.Extends b'' := by
  obtain ⟨rels, inputs, rfl, hinputs⟩ := h
  obtain ⟨rels', inputs', rfl, hinputs'⟩ := h'
  refine ⟨rels ++ rels', inputs' ++ inputs, by simp, fun e he => ?_⟩
  rw [List.length_append]
  rcases List.mem_append.1 he with he | he
  · have := hinputs' e he
    rw [List.length_append] at this
    omega
  · have := hinputs e he
    omega

theorem extends_push (b : Binding) (node : Node) : b.Extends (b.push node) :=
  ⟨[node], [], rfl, by simp⟩

theorem Extends.record {node : Node} (h : (b.push node).Extends b') (inputs : List Node) :
    b.Extends { b' with inputs := (b.rels.length, inputs) :: b'.inputs } := by
  obtain ⟨rels, entries, rfl, hentries⟩ := h
  have hlength : (b.push node).rels.length = b.rels.length + 1 := by simp [push]
  refine ⟨node :: rels, (b.rels.length, inputs) :: entries, by simp [push], fun e he => ?_⟩
  rw [List.length_cons]
  rcases List.mem_cons.1 he with rfl | he
  · simp
  · have := hentries e he
    omega

theorem Closed.of_extends (hb : b.Closed) (h : b.Extends b') : b'.Closed := by
  obtain ⟨rels, inputs, rfl, hinputs⟩ := h
  intro e he
  rw [List.length_append]
  rcases List.mem_append.1 he with he | he
  · exact (hinputs e he).2
  · exact Nat.lt_add_right _ (hb e he)

/-- Nothing is left of what was added. -/
theorem Extends.rollback (h : b.Extends b') (hb : b.Closed) : b'.rollback b.rels.length = b := by
  obtain ⟨rels, inputs, rfl, hinputs⟩ := h
  have hnew : inputs.filter (·.1 < b.rels.length) = [] := by
    simpa using fun i ns he => (hinputs (i, ns) he).1
  have hold : b.inputs.filter (·.1 < b.rels.length) = b.inputs :=
    List.filter_eq_self.2 fun e he => by simpa using hb e he
  simp [Binding.rollback, List.filter_append, hnew, hold]

end Binding

namespace Graph

/-- Tries expressions in turn until one matches. -/
def tryEach (attempt : Node → Binding → Except Fault (Bool × Binding)) :
    List Node → Binding → Except Fault (Bool × Binding)
  | [], b => return (false, b)
  | n :: ns, b => do
    match ← (attempt n b).map b.settle with
    | (true, b') => return (true, b')
    | (false, b') => tryEach attempt ns b'

mutual

/-- Matches a pattern in place. An attempt that fails leaves in the binding what it has added. -/
def attempt (g : Graph) : Pattern → Node → Binding → Except Fault (Bool × Binding)
  | ⟨kind, convention, test, policy, children⟩, node, b => do
    if !Pattern.accepts ⟨kind, convention, test, policy, []⟩ node then return (false, b)
    if node.inputs.any (·.vertexId?.isNone) then return (false, b)
    let matched := b.push node
    match policy with
    | .any => return (true, matched)
    | .unordered =>
      let inputs ← g.inputExpressions node
      match ← attemptEach g children inputs matched with
      | (true, b') => return (true, { b' with inputs := (b.rels.length, inputs) :: b'.inputs })
      | (false, b') => return (false, b')
    | .exact =>
      if node.inputs.length ≠ children.length then return (false, matched)
      attemptPairwise g children (← g.inputExpressions node) matched

def attemptPairwise (g : Graph) :
    List Pattern → List Node → Binding → Except Fault (Bool × Binding)
  | p :: ps, n :: ns, b => do
    match ← (attempt g p n b).map b.settle with
    | (true, b') => attemptPairwise g ps ns b'
    | (false, b') => return (false, b')
  | _, _, b => return (true, b)

def attemptEach (g : Graph) :
    List Pattern → List Node → Binding → Except Fault (Bool × Binding)
  | [], _, b => return (true, b)
  | p :: ps, inputs, b => do
    match ← tryEach (fun n b => attempt g p n b) inputs b with
    | (true, b') => attemptEach g ps inputs b'
    | (false, b') => return (false, b')

end

/-- Matches a pattern in place and cuts the binding back if that has failed. -/
def matchInPlace (g : Graph) (p : Pattern) (node : Node) (b : Binding) :
    Except Fault (Bool × Binding) :=
  (g.attempt p node b).map b.settle

/-- One attempt in place and one that leaves the binding alone, both from the same binding, come to
the same. -/
def Mirrors (b : Binding) (inPlace : Except Fault (Bool × Binding)) :
    Except Fault (Option Binding) → Prop
  | .ok (some b') => b.Extends b' ∧ inPlace = .ok (true, b')
  | .ok none => ∃ b', b.Extends b' ∧ inPlace = .ok (false, b')
  | .error f => inPlace = .error f

variable {g : Graph} {b b' : Binding} {inPlace : Except Fault (Bool × Binding)}
  {bound : Except Fault (Option Binding)} {nodes : List Node}

/-- An attempt that failed, once it is settled, has changed nothing. -/
theorem Mirrors.map_settle (h : Mirrors b inPlace bound) (hb : b.Closed) :
    inPlace.map b.settle = bound.map fun
      | some b' => (true, b')
      | none => (false, b) := by
  match bound, h with
  | .ok (some b'), ⟨_, hok⟩ =>
    rw [hok]
    rfl
  | .ok none, ⟨b', hextends, hok⟩ =>
    rw [hok]
    show Except.ok (false, b'.rollback b.rels.length) = .ok (false, b)
    rw [hextends.rollback hb]
  | .error f, h =>
    rw [show inPlace = .error f from h]
    rfl

/-- An attempt that is settled is again one that comes to the same. -/
theorem Mirrors.settled (h : Mirrors b inPlace bound) (hb : b.Closed) :
    Mirrors b (inPlace.map b.settle) bound := by
  rw [h.map_settle hb]
  match bound, h with
  | .ok (some _), ⟨hextends, _⟩ => exact ⟨hextends, rfl⟩
  | .ok none, _ => exact ⟨b, .refl b, rfl⟩
  | .error _, _ => rfl

theorem Mirrors.of_extends (h : Mirrors b' inPlace bound) (hb : b.Extends b') :
    Mirrors b inPlace bound := by
  match bound, h with
  | .ok (some _), ⟨hextends, hok⟩ => exact ⟨hb.trans hextends, hok⟩
  | .ok none, ⟨b'', hextends, hok⟩ => exact ⟨b'', hb.trans hextends, hok⟩
  | .error _, h => exact h

/-- The inputs of an unordered pattern are recorded once its children are matched. -/
theorem Mirrors.record {node : Node} (h : Mirrors (b.push node) inPlace bound)
    (inputs : List Node) :
    Mirrors b
      (do match ← inPlace with
        | (true, b') => return (true, { b' with inputs := (b.rels.length, inputs) :: b'.inputs })
        | (false, b') => return (false, b'))
      (do match ← bound with
        | some b' => return some { b' with inputs := (b.rels.length, inputs) :: b'.inputs }
        | none => return none) := by
  match bound, h with
  | .ok (some b'), ⟨hextends, hok⟩ =>
    rw [hok]
    exact ⟨hextends.record inputs, rfl⟩
  | .ok none, ⟨b', hextends, hok⟩ =>
    rw [hok]
    exact ⟨b', (b.extends_push node).trans hextends, rfl⟩
  | .error f, h =>
    rw [show inPlace = .error f from h]
    rfl

/-- One attempt after another: the second starts from what the first has come to. -/
theorem Mirrors.next (h : Mirrors b inPlace bound) (hb : b.Closed)
    {inPlace' : Binding → Except Fault (Bool × Binding)}
    {bound' : Binding → Except Fault (Option Binding)}
    (h' : ∀ b', b'.Closed → Mirrors b' (inPlace' b') (bound' b')) :
    Mirrors b
      (do match ← inPlace with
        | (true, b') => inPlace' b'
        | (false, b') => return (false, b'))
      (do match ← bound with
        | some b' => bound' b'
        | none => return none) := by
  match bound, h with
  | .ok (some b'), ⟨hextends, hok⟩ =>
    rw [hok]
    exact (h' b' (hb.of_extends hextends)).of_extends hextends
  | .ok none, ⟨b', hextends, hok⟩ =>
    rw [hok]
    exact ⟨b', hextends, rfl⟩
  | .error f, h =>
    rw [show inPlace = .error f from h]
    rfl

theorem mirrors_tryEach {inPlace : Node → Binding → Except Fault (Bool × Binding)}
    {bound : Node → Binding → Except Fault (Option Binding)} (hb : b.Closed)
    (h : ∀ n, Mirrors b (inPlace n b) (bound n b)) :
    Mirrors b (tryEach inPlace nodes b) (bindSome bound nodes b) := by
  induction nodes with
  | nil => exact ⟨b, .refl b, rfl⟩
  | cons n ns ih =>
    -- the next expression is tried from the same binding again
    rw [tryEach, bindSome, (h n).map_settle hb]
    match bound n b, h n with
    | .ok (some _), ⟨hextends, _⟩ => exact ⟨hextends, rfl⟩
    | .ok none, _ => exact ih
    | .error _, _ => rfl

mutual

theorem mirrors_attempt (g : Graph) : ∀ (p : Pattern) (node : Node) (b : Binding), b.Closed →
    Mirrors b (g.attempt p node b) (g.bind p node b)
  | ⟨kind, convention, test, policy, children⟩, node, b, hb => by
    have hpush := b.extends_push node
    rw [attempt, bind]
    cases Pattern.accepts ⟨kind, convention, test, policy, []⟩ node with
    | false => exact ⟨b, .refl b, rfl⟩
    | true =>
    cases node.inputs.any (·.vertexId?.isNone) with
    | true => exact ⟨b, .refl b, rfl⟩
    | false =>
    cases policy with
    | any => exact ⟨hpush, rfl⟩
    | unordered =>
      cases hinputs : g.inputExpressions node with
      | error f => exact rfl
      | ok inputs =>
        have hchildren := mirrors_attemptEach g children inputs (b.push node) (hb.of_extends hpush)
        exact hchildren.record inputs
    | exact =>
      by_cases hcount : node.inputs.length = children.length
      · simp only [hcount, ne_eq, not_true_eq_false, if_false]
        cases hinputs : g.inputExpressions node with
        | error f => exact rfl
        | ok inputs =>
          have hchildren := mirrors_attemptPairwise g children inputs (b.push node)
            (hb.of_extends hpush)
          exact hchildren.of_extends hpush
      · simp only [hcount, ne_eq, not_false_eq_true, if_true]
        exact ⟨b.push node, hpush, rfl⟩

theorem mirrors_attemptPairwise (g : Graph) : ∀ (ps : List Pattern) (nodes : List Node)
    (b : Binding), b.Closed →
    Mirrors b (g.attemptPairwise ps nodes b) (g.bindPairwise ps nodes b)
  | [], _, b, _ => by
    simp only [attemptPairwise, bindPairwise]
    exact ⟨.refl b, rfl⟩
  | _ :: _, [], b, _ => by
    simp only [attemptPairwise, bindPairwise]
    exact ⟨.refl b, rfl⟩
  | p :: ps, n :: ns, b, hb => by
    rw [attemptPairwise, bindPairwise]
    exact ((mirrors_attempt g p n b hb).settled hb).next hb fun b' hb' =>
      mirrors_attemptPairwise g ps ns b' hb'

theorem mirrors_attemptEach (g : Graph) : ∀ (ps : List Pattern) (nodes : List Node)
    (b : Binding), b.Closed →
    Mirrors b (g.attemptEach ps nodes b) (g.bindEach ps nodes b)
  | [], _, b, _ => by
    rw [attemptEach, bindEach]
    exact ⟨.refl b, rfl⟩
  | p :: ps, nodes, b, hb => by
    have hp : Mirrors b (tryEach (fun n b => g.attempt p n b) nodes b)
        (bindSome (fun n b => g.bind p n b) nodes b) :=
      mirrors_tryEach hb fun n => mirrors_attempt g p n b hb
    rw [attemptEach, bindEach]
    exact hp.next hb fun b' hb' => mirrors_attemptEach g ps nodes b' hb'

end

/-- Matching in place comes to what the binder comes to, and a failure leaves nothing behind. -/
theorem matchInPlace_eq (g : Graph) (p : Pattern) (node : Node) (hb : b.Closed) :
    g.matchInPlace p node b = (g.bind p node b).map fun
      | some b' => (true, b')
      | none => (false, b) :=
  (mirrors_attempt g p node b hb).map_settle hb

/-- A pattern without defects is bound exactly if it matches. It then gains one expression for each of
its nodes, in preorder, and the inputs of those on unordered nodes. Otherwise nothing is left of the
attempt, even if the binding is matched in place. -/
theorem bind_iff_matches {mode : DigestMode} {p : Pattern} {node : Node} (hg : g.Consistent mode)
    (hp : p.defect? = none) (hn : g.Refers node) (b : Binding) :
    (p.Matches g node → ∃ placed b', p.Placed g node placed ∧
      placed.map Prod.fst = p.preorder ∧ placed.length = p.count ∧ b.Gains g placed b' ∧
      g.bind p node b = .ok (some b') ∧
      (b.Closed → b'.Closed ∧ g.matchInPlace p node b = .ok (true, b'))) ∧
    (¬ p.Matches g node → g.bind p node b = .ok none ∧
      (b.Closed → g.matchInPlace p node b = .ok (false, b))) := by
  have hbinds := binds_bind hg.toLinked p node b hn
  refine ⟨fun h => ?_, fun h => ⟨hbinds.2 h, fun hb => ?_⟩⟩
  · obtain ⟨placed, b', hplaced, hgains, hok⟩ := hbinds.1 h
    have hpreorder := hplaced.preorder hp
    refine ⟨placed, b', hplaced, hpreorder, ?_, hgains, hok, fun hb => ⟨?_, ?_⟩⟩
    · rw [← Pattern.length_preorder, ← hpreorder, List.length_map]
    · have hmirrors := mirrors_attempt g p node b hb
      rw [hok] at hmirrors
      exact hb.of_extends hmirrors.1
    · rw [matchInPlace_eq g p node hb, hok]
      rfl
  · rw [matchInPlace_eq g p node hb, hbinds.2 h]
    rfl

/-- A limit over a single row and a limit over that limit, one after the other. -/
def limitedUnion : Node :=
  let values : Node := ⟨.values .empty [[]], [], .default, .empty⟩
  let limit : Node := ⟨.limit 3, [values], .default, .empty⟩
  ⟨.setOp .union true, [limit, ⟨.limit 5, [limit], .default, .empty⟩], .default, .empty⟩

/-- A limit over a limit and a limit, in any order: the first limit below the union is tried for both,
and is not the first of them. -/
def limitsBelow : Pattern :=
  { Pattern.ofKind .setOp with
    policy := .unordered
    children := [{ Pattern.ofKind .limit with
        policy := .unordered, children := [(Pattern.ofKind .limit).withInputs [.any]] },
      .ofKind .limit] }

def unionPlanner : Planner := left (Planner.build .default ⟨[]⟩ [] limitedUnion)

theorem bind_iff_matches_limitedUnion :
    ∃ union b placed b', unionPlanner.graph.current? 3 = some union ∧
      limitsBelow.Matches unionPlanner.graph union ∧ b.rels.length = 1 ∧ placed.length = 5 ∧
      b.Gains unionPlanner.graph placed b' ∧
      unionPlanner.graph.matchInPlace limitsBelow union b = .ok (true, b') := by
  have hbuild := eq_ok_of_succeeded (x := Planner.build .default ⟨[]⟩ [] limitedUnion)
    (by decide +kernel)
  have hg : unionPlanner.graph.Consistent unionPlanner.settings.digestMode :=
    (Planner.reached_ready (.built hbuild)).1.consistent
  obtain ⟨union, hunion⟩ : ∃ n, unionPlanner.graph.current? 3 = some n :=
    Option.isSome_iff_exists.1 (by decide +kernel)
  have hrefers : unionPlanner.graph.Refers union :=
    fun id hid => hg.contains_of_reference (hg.currents 3 union hunion) hid
  let b : Binding := Binding.empty.push union
  have hbound : ((unionPlanner.graph.current? 3).any fun n =>
      (unionPlanner.graph.bind limitsBelow n (Binding.empty.push n)).toOption.join.isSome) = true := by
    decide +kernel
  have hmatches : limitsBelow.Matches unionPlanner.graph union := by
    by_contra h
    rw [hunion] at hbound
    have hnone := ((bind_iff_matches hg (by decide) hrefers b).2 h).1
    simp [b, hnone, Except.toOption] at hbound
  obtain ⟨placed, b', -, -, hlength, hgains, -, hplace⟩ :=
    (bind_iff_matches hg (by decide) hrefers b).1 hmatches
  exact ⟨union, b, placed, b', hunion, hmatches, rfl, hlength, hgains,
    (hplace (by simp [Binding.Closed, b, Binding.empty, Binding.push])).2⟩

end Graph

end QueryPlanner
