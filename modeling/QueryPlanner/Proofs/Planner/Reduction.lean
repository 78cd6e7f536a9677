import QueryPlanner.Proofs.Planner.Progress

/-!
# Rules that reduce trees

A rule that is no converter rule redirects all parents of what it replaces. So if it puts an
expression of a smaller tree in place of another one, the trees of everything above become smaller,
that of the root among them, and no circle is closed: a smaller tree does not contain a larger one.
Such rules make progress.
-/

namespace QueryPlanner

open QueryPlanner.Graph Planning Relation

/-- A relation between trees that makes a measure smaller and can be applied below other operators. -/
structure Node.Reduction (μ : Node → ℕ) (L : Node → Node → Prop) : Prop where
  lt : ∀ {t u}, L t u → μ u < μ t
  le_of_mem : ∀ {t u : Node}, u ∈ t.inputs → μ u ≤ μ t
  trans : ∀ {t u v}, L t u → L u v → L t v
  congruence : Node.Congruence fun t u => u = t ∨ L t u

variable {μ : Node → ℕ} {L R : Node → Node → Prop} {F : Operator → TraitSet → Prop}
  {P Q : Node → Prop}

namespace Graph

variable {mode : DigestMode} {g g₂ g' : Graph} {id result : VertexId} {t u v placeholder : Node}
  {parents : List VertexId}

/-- What is reached has a tree that is not larger. -/
theorem UnfoldsTo.le_of_reaches (hle : ∀ {t u : Node}, u ∈ t.inputs → μ u ≤ μ t)
    (hg : g.Linked mode) {a b : VertexId}
    (hab : ReflTransGen g.Edge a b) (ht : g.UnfoldsTo a t) : ∀ {u}, g.UnfoldsTo b u → μ u ≤ μ t := by
  induction hab using ReflTransGen.head_induction_on generalizing t with
  | refl =>
    intro u hu
    rw [hu.unique ht]
  | head hac _ ih =>
    obtain ⟨v, hv, hunfolds⟩ := ht.exists_input hg hac
    exact fun hu => (ih hunfolds hu).trans (hle hv)

/-- If a vertex is replaced by one of a smaller tree, then the trees of everything above it become
smaller. -/
theorem reduced_of_contracted (hred : Node.Reduction μ L) (hg : g.Consistent mode)
    (hext : g.Extends g₂) (hg₂ : g₂.Consistent mode)
    (hr : g₂.Redirectable result id placeholder parents) (hparents : ∀ a, g.Edge a id → a ∈ parents)
    (hc : Contracted mode result id placeholder parents g₂ g') (hg' : g'.Consistent mode)
    (ht : g.UnfoldsTo id t) (hv : g₂.UnfoldsTo result v) (hlt : L t v) :
    (∃ v', g'.UnfoldsTo result v' ∧ L t v') ∧
      ∀ a u, TransGen g.Edge a id → g.UnfoldsTo a u → ∃ u', g'.UnfoldsTo a u' ∧ L u u' := by
  have hrelated : ∀ {i u}, g₂.UnfoldsTo i u → ∃ u', g'.UnfoldsTo i u' ∧ (u' = u ∨ L u u') := by
    intro i u hu
    refine hu.contracted hred.congruence hg₂.toLinked hr hc hg'.acyclic (fun t' ht' => ?_)
      (hc.contains hu.contains)
    rw [ht'.unique (ht.extends hext)]
    exact ⟨v, hv, .inr hlt⟩
  obtain ⟨v', hv', hlt'⟩ : ∃ v', g'.UnfoldsTo result v' ∧ L t v' := by
    obtain ⟨v', hv', rfl | hvv'⟩ := hrelated hv
    · exact ⟨_, hv', hlt⟩
    · exact ⟨v', hv', hred.trans hlt hvv'⟩
  refine ⟨⟨v', hv', hlt'⟩, fun a u ha hu => ?_⟩
  obtain ⟨u', hu', rfl | huu'⟩ := hrelated (hu.extends hext)
  · -- the path from above changes
    refine absurd hu' (UnfoldsTo.contracted_ne hg₂ hr hc (fun b c hbc => ?_) hparents
      (fun t' ht' hv'' => ?_) ha (hu.extends hext))
    · exact (hext.edge b c (hg.edges_live _ hbc).1).2 hbc
    · rw [ht'.unique (ht.extends hext)] at hv''
      have hmeasure := hred.lt hlt'
      rw [hv''.unique hv'] at hmeasure
      exact Nat.lt_irrefl _ hmeasure
  · exact ⟨u', hu', huu'⟩

end Graph

namespace Planner

variable {p₀ p q : Planner} {rule : Rule} {id : VertexId} {node t u : Node}

/-- A run with the settings and the rules of `p₀`, in which all operators are of a family. The tree of
the root has the property. -/
structure Underway (p₀ : Planner) (F : Operator → TraitSet → Prop) (P : Node → Prop)
    (p : Planner) : Prop extends Tidy p where
  settings : p.settings = p₀.settings
  registry : p.registry = p₀.registry
  within : p.graph.Within F
  truthful : p.graph.Truthful
  tree : ∃ root t, p.graph.root = some root ∧ p.graph.UnfoldsTo root t ∧ P t

namespace Underway

theorem mono (h : p₀.Underway F P p) (hPQ : ∀ root t, p.graph.root = some root →
    p.graph.UnfoldsTo root t → P t → Q t) : p₀.Underway F Q p := by
  obtain ⟨root, t, hroot, ht, hP⟩ := h.tree
  exact { h with tree := ⟨root, t, hroot, ht, hPQ root t hroot ht hP⟩ }

theorem alike (h : p₀.Underway F P p) (hpq : p.Alike q) : p₀.Underway F P q where
  toTidy := h.toTidy.alike hpq
  settings := hpq.settings.trans h.settings
  registry := hpq.registry.trans h.registry
  within := h.within.congr hpq.graph.current?
  truthful := h.truthful.congr hpq.graph.current? hpq.graph.placeholder?
  tree := by
    obtain ⟨root, t, hroot, ht, hP⟩ := h.tree
    exact ⟨root, t, hpq.graph.root.trans hroot,
      ht.mono fun i n hn => (hpq.graph.current? i).trans hn, hP⟩

theorem executed (h : p₀.Underway F P p) (e : Execution) :
    Underway p₀ F P { p with execution := e } :=
  ⟨h.toTidy.executed e, h.settings, h.registry, h.within, h.truthful, h.tree⟩

/-- A sweep keeps the tree of the root. -/
theorem sweep (h : p₀.Underway F P p) (hpq : p.Swept q) : p₀.Underway F P q := by
  obtain ⟨htidy, -⟩ := h.toTidy.sweep hpq
  obtain ⟨root, t, hroot, ht, hP⟩ := h.tree
  obtain ⟨hwithin, htruthful, hroot', ht'⟩ : q.graph.Within F ∧ q.graph.Truthful ∧
      q.graph.root = some root ∧ q.graph.UnfoldsTo root t := by
    rcases hpq.graph with heq | hsweep
    · rw [heq]
      exact ⟨h.within, h.truthful, hroot, ht⟩
    · obtain ⟨_, -, -, hd⟩ := hsweep.discarded h.consistent.toLinked
      have hroot' := hd.root.trans hroot
      exact ⟨hd.within h.within, hd.truthful h.truthful, hroot',
        ht.sweep h.consistent hsweep (htidy.consistent.root root hroot')⟩
  exact ⟨htidy, hpq.settings.trans h.settings, hpq.registry.trans h.registry, hwithin, htruthful,
    root, t, hroot', ht', hP⟩

/-- Whatever is below the root is in the tree of the root. -/
theorem of_everywhere {T : Node → Prop} (h : p₀.Underway F P p) (hspanned : p.graph.Spanned)
    (hP : ∀ t, P t → t.Everywhere T) (hu : p.graph.UnfoldsTo id u) : T u := by
  obtain ⟨root, t, hroot, ht, hPt⟩ := h.tree
  exact (ht.everywhere_iff h.consistent).1 (hP t hPt) id u (hspanned root hroot id hu.contains) hu

/-- A run goes on after an expression was added and took the place of another one, with the new tree of
the root. -/
theorem substituted {p₂ : Planner} {g : Graph} {result : VertexId} {placeholder : Node}
    {parents : List VertexId} {events : Array Event} (hp : p₀.Underway F P p) (hnode : node.Within F)
    (hadd : add node p = .ok result p₂) (hcounted : p.Counted p₂) (hextended : p.Extended p₂)
    (hg : g.Consistent p₂.settings.digestMode)
    (hc : Contracted p₂.settings.digestMode result id placeholder parents p₂.graph g)
    (htree : ∃ root t, g.root = some root ∧ g.UnfoldsTo root t ∧ Q t) :
    p₀.Underway F Q
      { p₂ with graph := g, transformations := p₂.transformations + 1, events } := by
  have hwithin := within_add node p p₂ result hp.consistent hp.within hnode hadd
  have htruthful := Growth.truthful hp.consistent hp.truthful hextended.growth
  obtain ⟨hswept, hclean⟩ := hcounted.not_clean hp.toTidy g events
  have ⟨root, _, hroot, _⟩ := htree
  exact ⟨⟨hg, hswept, fun h => absurd h hclean, root, hroot⟩, hextended.settings.trans hp.settings,
    hextended.registry.trans hp.registry, hc.within hwithin, hc.truthful htruthful, htree⟩

end Underway

/-- Keys relate the trees of expressions of a family, where vertices are shared. -/
def KeysRelateIn (s : Settings) (F : Operator → TraitSet → Prop) (R : Node → Node → Prop) : Prop :=
  ∀ g : Graph, g.Linked s.digestMode → g.Within F → g.KeysRelate s F R

/-- An expression whose tree is smaller is put in place of the expression of a vertex, and the tree of
the root becomes smaller. -/
theorem Underway.exists_substitute (hred : Node.Reduction μ L) (hR : Node.Congruence R)
    (hkeys : KeysRelateIn p₀.settings F R) (hp : p₀.Underway F P p) (hspanned : p.graph.Spanned)
    (ht : p.graph.UnfoldsTo id t) (hnode : node.Within F) (hu : p.graph.Unfolds node u)
    (hL : ∀ v, R u v → L t v) (rule : Rule) :
    ∃ result q, substitute rule id (fun _ => true) node [] p = .ok (some result) q ∧
      result ≠ id ∧ q.graph.contains result = true ∧
        p₀.Underway F (fun t' => ∃ t, P t ∧ L t t') q := by
  obtain ⟨result, p₂, hadd, hcounted, hextended, hplaces⟩ := exists_add hp.consistent hu
  have hext := hextended.graph hp.consistent
  have hsettings : p₂.settings = p₀.settings := hextended.settings.trans hp.settings
  have hp₂ := hextended.consistent hp.consistent
  have hwithin := within_add node p p₂ result hp.consistent hp.within hnode hadd
  obtain ⟨v, hv, hLv⟩ : ∃ v, p₂.graph.UnfoldsTo result v ∧ L t v := by
    rw [hsettings] at hp₂
    rw [hp.settings] at hplaces
    obtain ⟨v, hv, huv⟩ := hplaces.related hR hp₂ (hkeys _ hp₂.toLinked hwithin) node result u hnode
      (hu.extends hext)
    exact ⟨v, hv, hL v huv⟩
  have hnot : ¬ ReflTransGen p₂.graph.Edge result id := fun hpath =>
    (hv.le_of_reaches hred.le_of_mem hp₂.toLinked hpath (ht.extends hext)).not_gt (hred.lt hLv)
  have hne : result ≠ id := by
    rintro rfl
    exact hnot .refl
  obtain ⟨g, placeholder, parents, events, hok, hg, hparents, hr, hc⟩ :=
    Planner.exists_substitute rule (fun _ => true) hp.consistent ht.contains hadd hne
      fun i _ hedge _ _ hpath => hnot
        (hpath.tail ((hext.edge i id (hp.consistent.edges_live _ hedge).1).2 hedge))
  have hall : ∀ a, p.graph.Edge a id → a ∈ parents := fun a ha => by
    obtain ⟨n, hn⟩ := contains_iff_current.1 (hp.consistent.edges_live _ ha).1
    exact (hparents a).2 ⟨ha, n, hn, rfl⟩
  have hconsistent : p.graph.Consistent p₂.settings.digestMode := by
    rw [hextended.settings]
    exact hp.consistent
  obtain ⟨⟨v', hv', hLv'⟩, habove⟩ :=
    reduced_of_contracted hred hconsistent hext hp₂ hr hall hc hg ht hv hLv
  refine ⟨result, _, hok, hne, hc.contains hplaces.contains,
    hp.substituted hnode hadd hcounted hextended hg hc ?_⟩
  obtain ⟨root, t₀, hroot, ht₀, hP⟩ := hp.tree
  have hgroot := hc.root
  rw [hext.root, hroot] at hgroot
  rcases reflTransGen_iff_eq_or_transGen.1 (hspanned root hroot id ht.contains) with rfl | hpath
  · rw [if_pos rfl] at hgroot
    exact ⟨result, v', hgroot, hv', t₀, hP, ht₀.unique ht ▸ hLv'⟩
  · have hne : root ≠ id := by
      rintro rfl
      exact hp.consistent.acyclic _ hpath
    rw [if_neg (by simpa using hne)] at hgroot
    obtain ⟨u₀, hu₀, hL₀⟩ := habove root t₀ hpath ht₀
    exact ⟨root, u₀, hgroot, hu₀, t₀, hP, hL₀⟩

/-! ## Tries -/

/-- What a rule without a conversion does with an expression: it has nothing to do, it proposes one
expression of a kind, or it fails. -/
def Acts (rule : Rule) (p : Planner) (node : Node) (Calm : Prop) (New : Node → Prop)
    (E : Fault → Prop) : Prop :=
  p.graph.bind rule.pattern node .empty = .ok none ∧ Calm ∨
    ∃ binding, p.graph.bind rule.pattern node .empty = .ok (some binding) ∧
      Ends (fire rule node ⟨binding.rels, binding.inputs, none⟩) p
        (fun proposed _ => proposed = [] ∧ Calm ∨ ∃ n, proposed = [n] ∧ New n) fun f _ => E f

theorem Acts.mono {Calm Calm' : Prop} {New New' : Node → Prop} {E E' : Fault → Prop}
    (h : Acts rule p node Calm New E) (hcalm : Calm → Calm') (hnew : ∀ n, New n → New' n)
    (hE : ∀ f, E f → E' f) : Acts rule p node Calm' New' E' := by
  rcases h with ⟨hbind, h⟩ | ⟨binding, hbind, hfire⟩
  · exact .inl ⟨hbind, hcalm h⟩
  · refine .inr ⟨binding, hbind, hfire.mono ?_ fun f _ => hE f⟩
    rintro proposed _ (⟨h, hcalm'⟩ | ⟨n, h, hn⟩)
    · exact .inl ⟨h, hcalm hcalm'⟩
    · exact .inr ⟨n, h, hnew n hn⟩

/-- A rule is idle at a vertex if it has nothing to do with its expression. -/
def IdleWhere (Calm : Rule → Planner → Node → Prop) (rule : Rule) (p : Planner) (id : VertexId) :
    Prop :=
  ∀ node, p.graph.current? id = some node → Calm rule p node

theorem occasion?_transformation (hrule : rule.kind = .transformation) (id : VertexId)
    (force : Bool) : occasion? rule id force = pure (some ⟨fun _ => true, none⟩) := by
  simp only [occasion?, hrule]

/-- What the pattern does not match is passed over. -/
theorem visit_of_unbound (hrule : rule.kind = .transformation)
    (hnode : p.graph.current? id = some node)
    (hbind : p.graph.bind rule.pattern node .empty = .ok none) (force : Bool) :
    visit [rule] force id p = .ok none p := by
  have hattempt : Ends (attempt rule id force) p (fun r q => r = none ∧ q = p) fun _ _ => False := by
    refine ends_attempt_of (fun _ => ⟨rfl, rfl⟩) fun node' hnode' => ?_
    obtain rfl := Option.some.inj (hnode.symm.trans hnode')
    rw [occasion?_transformation hrule]
    refine ends_pure.2 ⟨hnode, ?_⟩
    rw [hbind]
    exact ⟨rfl, rfl⟩
  obtain ⟨_, q, h, rfl, rfl⟩ := (ends_visit_singleton hattempt).exists_ok
  exact h

/-- A run in which the tree of the root has the property and a measure. -/
def Measured (p₀ : Planner) (F : Operator → TraitSet → Prop) (μ : Node → ℕ) (P : Node → Prop)
    (w : ℕ) (p : Planner) : Prop :=
  p₀.Underway F (fun t => P t ∧ μ t = w) p

theorem Underway.exists_measured (h : p₀.Underway F P p) (hPQ : ∀ t, P t → Q t) (μ : Node → ℕ) :
    ∃ w, Measured p₀ F μ Q w p := by
  obtain ⟨root, t, hroot, ht, hP⟩ := h.tree
  exact ⟨μ t, { h with tree := ⟨root, t, hroot, ht, hPQ t hP, rfl⟩ }⟩

end Planner

open Planner

/-- Rules that propose smaller trees make progress. -/
theorem Node.Reduction.progress {A : Rule → Prop} {force : Bool} {Calm : Rule → Planner → Node → Prop}
    {E : Fault → Prop} {p₀ : Planner} (hred : Node.Reduction μ L) (hR : Node.Congruence R)
    (hkeys : KeysRelateIn p₀.settings F R) (hP : ∀ {t u}, P t → L t u → P u)
    (hkind : ∀ {rule}, A rule → rule.kind = .transformation)
    (hcalm : ∀ {rule p q node}, Calm rule p node → p.Agrees q → Calm rule q node)
    (hacts : ∀ {rule w p id node t}, A rule → Measured p₀ F μ P w p → p.graph.Spanned →
      p.graph.current? id = some node → p.graph.Unfolds node t →
        Acts rule p node (Calm rule p node)
          (fun n => n.Within F ∧ ∃ u, p.graph.Unfolds n u ∧ ∀ v, R u v → L t v) E) :
    Progress A force (Measured p₀ F μ P) (IdleWhere Calm) E where
  tidy h := h.toTidy
  alike h hpq := Underway.alike h hpq
  sweep h hpq := Underway.sweep h hpq
  executed e h := Underway.executed h e
  idle := by
    intro rule p q id h hpq node hnode
    exact hcalm (h node ((hpq.graph.current? id).symm.trans hnode)) hpq
  attempt := by
    intro rule w p id hrule hp hspanned
    refine ends_attempt_of (fun hgone => ⟨.refl p, fun node hnode => ?_⟩) fun node hnode => ?_
    · rw [contains_of_current hnode] at hgone
      cases hgone
    obtain ⟨t, ht⟩ := hp.consistent.exists_unfolds (hp.consistent.currents id node hnode)
    have hidle : Calm rule p node → IdleWhere Calm rule p id := by
      intro h n hn
      obtain rfl := Option.some.inj (hnode.symm.trans hn)
      exact h
    rw [occasion?_transformation (hkind hrule)]
    refine ends_pure.2 ⟨hnode, ?_⟩
    rcases hacts hrule hp hspanned hnode ht with ⟨hbind, hcalm⟩ | ⟨binding, hbind, hfire⟩
    · rw [hbind]
      exact ⟨.refl p, hidle hcalm⟩
    · rw [hbind]
      refine (hfire.and (asks_fire rule node _).ends).mono ?_ fun _ _ h => h.1
      rintro _ q ⟨⟨rfl, hcalm⟩ | ⟨n, rfl, hwithin, u, hu, hL⟩, hq⟩
      · exact ⟨hq, hidle hcalm⟩
      · have hext := hq.graph.extends
        obtain ⟨result, r, hok, hne, hresult, hr⟩ := (Underway.alike hp hq.toAlike).exists_substitute
          hred hR hkeys (hspanned.congr hq.graph) (UnfoldsTo.extends hext ⟨node, hnode, ht⟩) hwithin
          (hu.extends hext) hL rule
        refine (ends_of_eq_ok hok).2 ⟨hne, hresult, ?_⟩
        obtain ⟨root, u₀, hroot, hu₀, t₀, ⟨hPt, rfl⟩, hL₀⟩ := hr.tree
        exact ⟨μ u₀, hred.lt hL₀, { hr with tree := ⟨root, u₀, hroot, hu₀, hP hPt hL₀, rfl⟩ }⟩

end QueryPlanner
