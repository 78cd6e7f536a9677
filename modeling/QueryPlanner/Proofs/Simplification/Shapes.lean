import QueryPlanner.Proofs.Simplification.Rewriting

/-!
# Shapes of plans

The shape of a tree is what the simplifications of a set leave of it whatever they do: what they may
move or take away is left out, limits, trivial filters and the bounds of scans, and so is what
digests do not show, above all the names of projected columns. Firings keep the shapes of the trees
of all vertices. Where vertices are shared, one of two expressions of one shape may be taken for the
other, as soon as they are over the same input. So plans stay well typed if their subtrees of one
shape have one row type. Where two projections over one input differ in the names of their columns
alone, only one of them is kept, and the expressions above the other refer to columns that are not
there.
-/

namespace QueryPlanner

open QueryPlanner.Graph Planning

/-- What is seen of a tree. -/
inductive Shape where
  /-- In place of an input that is not there. -/
  | missing
  | node (kind : OperatorKind) (terms : List Char) (traits : TraitSet) (types : List DataType)
      (inputs : List Shape)

namespace Shape

mutual

def decideEq : ∀ a b : Shape, Decidable (a = b)
  | .missing, .missing => .isTrue rfl
  | .missing, .node .. => .isFalse nofun
  | .node .., .missing => .isFalse nofun
  | .node kind terms traits types inputs, .node kind' terms' traits' types' inputs' =>
    have := decideEqAll inputs inputs'
    decidable_of_iff (kind = kind' ∧ terms = terms' ∧ traits = traits' ∧ types = types' ∧
      inputs = inputs') (by rw [Shape.node.injEq])

def decideEqAll : ∀ as bs : List Shape, Decidable (as = bs)
  | [], [] => .isTrue rfl
  | [], _ :: _ => .isFalse nofun
  | _ :: _, [] => .isFalse nofun
  | a :: as, b :: bs =>
    have := decideEq a b
    have := decideEqAll as bs
    decidable_of_iff (a = b ∧ as = bs) (by rw [List.cons.injEq])

end

instance : DecidableEq Shape := decideEq

/-- An operator over inputs. An operator that is left out has the shape of its first input, and a
projection is over its first input alone, for a limit that goes below it leaves the others out. -/
def above (outline : Option (OperatorKind × List Char)) (traits : TraitSet) (types : List DataType)
    (inputs : List Shape) : Shape :=
  match outline with
  | none => inputs.headD .missing
  | some (kind, terms) => .node kind terms traits types
      (if kind = .projection then [inputs.headD .missing] else inputs)

end Shape

/-- Whether simplifications of the set may move the operator or take it away. -/
def Operator.isMovable (S : Finset Simplification) : Operator → Bool
  | limit _ => decide (∃ s ∈ S, s ≠ .removeTrivialFilter)
  | filter e => decide (.removeTrivialFilter ∈ S) && e.isAlwaysTrue
  | _ => false

/-- What is seen of an operator: kind and terms, but not the bound of a scan that simplifications of
the set may change. -/
def Operator.outline (S : Finset Simplification) (mode : DigestMode) (op : Operator) :
    Option (OperatorKind × List Char) :=
  if op.isMovable S then none
  else some (op.kind, listing
    ((if .pushLimitToTableScan ∈ S then op.unbounded else op).termTexts mode))

namespace Node

mutual

def shape (S : Finset Simplification) (mode : DigestMode) : Node → Shape
  | ⟨op, inputs, traits, rowType⟩ =>
    .above (op.outline S mode) traits rowType.types (shapes S mode inputs)

def shapes (S : Finset Simplification) (mode : DigestMode) : List Node → List Shape
  | [] => []
  | n :: ns => n.shape S mode :: shapes S mode ns

end

variable {S : Finset Simplification} {mode : DigestMode} {inputs : List Node} {traits : TraitSet}
  {rowType : Schema}

theorem shape_limit {s : Simplification} (hS : s ∈ S) (hs : s ≠ .removeTrivialFilter) {n : Nat} :
    shape S mode ⟨.limit n, inputs, traits, rowType⟩ = (shapes S mode inputs).headD .missing := by
  have hmovable : (Operator.limit n).isMovable S = true := decide_eq_true ⟨s, hS, hs⟩
  rw [shape, Operator.outline, if_pos hmovable, Shape.above]

theorem shape_filter (hS : .removeTrivialFilter ∈ S) {e : Expr} (he : e.isAlwaysTrue = true) :
    shape S mode ⟨.filter e, inputs, traits, rowType⟩ = (shapes S mode inputs).headD .missing := by
  have hmovable : (Operator.filter e).isMovable S = true := by
    rw [Operator.isMovable, decide_eq_true hS, he, Bool.and_self]
  rw [shape, Operator.outline, if_pos hmovable, Shape.above]

/-- A projection shows its first input alone. -/
theorem shape_projection {exprs : List Expr} {names : List String} {inputs' : List Node}
    (h : (shapes S mode inputs).headD .missing = (shapes S mode inputs').headD .missing) :
    shape S mode ⟨.projection exprs names, inputs, traits, rowType⟩ =
      shape S mode ⟨.projection exprs names, inputs', traits, rowType⟩ := by
  simp only [shape, Operator.outline, Operator.isMovable, Bool.false_eq_true, if_false, Shape.above,
    Operator.kind, if_true, h]

theorem shape_scan (hS : .pushLimitToTableScan ∈ S) (scan : TableScan) (count : Nat) :
    shape S mode ⟨.tableScan (scan.cutAt count), inputs, traits, rowType⟩ =
      shape S mode ⟨.tableScan scan, inputs, traits, rowType⟩ := by
  have houtline : (Operator.tableScan (scan.cutAt count)).outline S mode =
      (Operator.tableScan scan).outline S mode := by
    simp only [Operator.outline, Operator.isMovable, if_pos hS]
    rfl
  rw [shape, shape, houtline]

/-- Trees of one shape. -/
def SharesShape (S : Finset Simplification) (mode : DigestMode) (t u : Node) : Prop :=
  t.shape S mode = u.shape S mode

theorem congruence_sharesShape (S : Finset Simplification) (mode : DigestMode) :
    Congruence (SharesShape S mode) where
  refl _ := rfl
  trans := Eq.trans
  inputs n ts us h := by
    have hinputs : shapes S mode ts = shapes S mode us := by
      induction h with
      | nil => rfl
      | cons htu _ ih => rw [shapes, shapes, ih, show _ = _ from htu]
    rw [SharesShape, shape, shape, hinputs]

end Node

namespace Simplification

variable {S : Finset Simplification} {mode : DigestMode} {t u : Node} {s : Simplification}

/-- A step of the set keeps the shape. -/
theorem Step.sharesShape (h : Step s t u) (hS : s ∈ S) : t.SharesShape S mode u := by
  cases h with
  | trivialFilter he => rw [Node.SharesShape, Node.shape_filter hS he, Node.shapes, List.headD_cons]
  | overProjection =>
    rw [Node.SharesShape, Node.shape_limit hS (by decide), Node.shapes, List.headD_cons]
    apply Node.shape_projection
    rw [Node.shapes, List.headD_cons, Node.shape_limit hS (by decide)]
  | limits =>
    rw [Node.SharesShape, Node.shape_limit hS (by decide), Node.shapes, List.headD_cons,
      Node.shape_limit hS (by decide), Node.shape_limit hS (by decide)]
  | intoScan =>
    rw [Node.SharesShape, Node.shape_limit hS (by decide), Node.shapes, List.headD_cons,
      Node.shape_scan hS]

end Simplification

/-! ## Shapes and keys -/

namespace Node

variable {S : Finset Simplification} {mode : DigestMode} {F : Operator → TraitSet → Prop}

/-- Expressions of the family over placeholders with equal keys look alike: they have the same traits
and the same inputs, and the same is seen of their operators. -/
def KeysTellOutlines (S : Finset Simplification) (F : Operator → TraitSet → Prop)
    (mode : DigestMode) : Prop :=
  ∀ n n' : Node, n.vertexId? = none → n'.vertexId? = none →
    (∀ i ∈ n.inputs, i.vertexId?.isSome = true) → (∀ i ∈ n'.inputs, i.vertexId?.isSome = true) →
      F n.operator n.traits → F n'.operator n'.traits → n.key mode = n'.key mode →
        n.operator.outline S mode = n'.operator.outline S mode ∧ n.traits = n'.traits ∧
          n.references = n'.references

end Node

namespace Operator

variable {S : Finset Simplification} {mode : DigestMode} {op op' : Operator}

/-- Whether the terms can be read as far as an outline needs it: the name of a table ends at the first
comma, and only a trivial filter is written like one. -/
def isPlain : Operator → Bool
  | tableScan scan => ',' ∉ scan.table.toList
  | filter e => e.text ≠ Expr.text (.literal (.boolean (some true))) || e.isAlwaysTrue
  | _ => true

theorem isPlain_unbounded (op : Operator) : op.unbounded.isPlain = op.isPlain := by
  cases op <;> rfl

theorem isAlwaysTrue_of_text_eq {e e' : Expr} (h' : (filter e').isPlain = true)
    (htext : e.text = e'.text) (he : e.isAlwaysTrue = true) : e'.isAlwaysTrue = true := by
  rw [Expr.eq_of_isAlwaysTrue he] at htext
  simpa [isPlain, htext] using h'

theorem outline_of_kind (h : op.kind ∉ [.limit, .filter, .tableScan]) :
    op.outline S mode = some (op.kind, listing (op.termTexts mode)) := by
  cases op with
  | limit n => simp [Operator.kind] at h
  | filter e => simp [Operator.kind] at h
  | tableScan scan => simp [Operator.kind] at h
  | _ => simp only [outline, isMovable, unbounded, ite_self, Bool.false_eq_true, if_false]

/-- Plain operators of one kind with the same terms look alike. -/
theorem outline_eq_of_terms (h : op.isPlain = true) (h' : op'.isPlain = true)
    (hkind : op.kind = op'.kind)
    (hterms : listing (op.termTexts mode) = listing (op'.termTexts mode)) :
    op.outline S mode = op'.outline S mode := by
  cases op with
  | filter e =>
    cases op' with
    | filter e' =>
      have htext : e.text = e'.text := read_last "condition" hterms
      have htrue : e.isAlwaysTrue = e'.isAlwaysTrue := Bool.eq_iff_iff.2
        ⟨isAlwaysTrue_of_text_eq h' htext, isAlwaysTrue_of_text_eq h htext.symm⟩
      simp only [outline, isMovable, htrue, unbounded, ite_self, hterms, hkind]
    | _ => cases hkind
  | limit n =>
    cases op' with
    | limit n' => rw [show n = n' from Nat.repr_injective (read_last "limit" hterms)]
    | _ => cases hkind
  | tableScan scan =>
    cases op' with
    | tableScan scan' =>
      have hterms' := hterms
      simp only [termTexts, terms, List.map_cons] at hterms'
      obtain ⟨htable, -⟩ := read_term "table" (readable_table (of_decide_eq_true h))
        (of_decide_eq_true h') hterms'
      have hunbounded : (tableScan scan).unbounded.termTexts mode =
          (tableScan scan').unbounded.termTexts mode := by
        simp only [unbounded, termTexts, terms, show scan.table = scan'.table from htable]
      simp only [outline, isMovable, hkind, Bool.false_eq_true, if_false]
      split_ifs
      · rw [hunbounded]
      · rw [hterms]
    | _ => cases hkind
  | _ =>
    rw [outline_of_kind (by simp [Operator.kind]), outline_of_kind (hkind ▸ by simp [Operator.kind]),
      hkind, hterms]

end Operator

namespace Node

variable {S : Finset Simplification} {mode : DigestMode} {F : Operator → TraitSet → Prop}

/-- Keys tell how expressions look if these are plain and of legible conventions. -/
theorem keysTellOutlines_of_isPlain (h : ∀ op t, F op t →
      op.isPlain = true ∧ t.isPlain = true ∧ t.convention.isLegible = true) :
    KeysTellOutlines S F mode := by
  intro n n' hn hn' hin hin' hF hF' hkey
  obtain ⟨hop, hplain, hlegible⟩ := h _ _ hF
  obtain ⟨hop', hplain', hlegible'⟩ := h _ _ hF'
  obtain ⟨hkind, htraits, hreferences⟩ :=
    traits_eq_of_key_eq hlegible hlegible' hn hn' hin hin' hkey
  obtain ⟨-, -, hterms, -⟩ := parts_eq_of_key_eq hplain hplain' hn hn' hin hin' hkey
  exact ⟨Operator.outline_eq_of_terms hop hop' hkind hterms, htraits, hreferences⟩

end Node

namespace Planner

variable {S : Finset Simplification} {F : Operator → TraitSet → Prop} {W : TypeCheck}
  {plan : Node}

theorem keysRelateIn_sharesShape {settings : Settings}
    (hkeys : settings.dag = true → Node.KeysTellOutlines S F settings.digestMode) :
    KeysRelateIn settings F (Node.SharesShape S settings.digestMode) := by
  refine fun g hg hF => keysRelate_of_references hg hF
    fun hdag n n' hn hn' hin hin' hFn hFn' hkey => ?_
  obtain ⟨houtline, htraits, hreferences⟩ := hkeys hdag n n' hn hn' hin hin' hFn hFn' hkey
  refine ⟨hreferences, fun ts => ?_⟩
  rw [Node.SharesShape, Node.shape, Node.shape, houtline, htraits,
    show n.rowType.types = n'.rowType.types from congrArg DigestKey.types hkey]

end Planner

/-! ## Row types of shapes -/

namespace Node

/-- Subtrees of one shape have one row type. -/
def ShapesTellTypes (S : Finset Simplification) (mode : DigestMode) (n : Node) : Prop :=
  ∀ m ∈ n.subtrees, ∀ m' ∈ n.subtrees, m.shape S mode = m'.shape S mode → m.rowType = m'.rowType

instance (S : Finset Simplification) (mode : DigestMode) (n : Node) :
    Decidable (n.ShapesTellTypes S mode) := by
  unfold ShapesTellTypes
  infer_instance

/-- The row types that trees of the shapes of a plan have in it. -/
def typesIn (S : Finset Simplification) (mode : DigestMode) (plan : Node) : Annotation :=
  fun t rowType => ∃ m ∈ plan.subtrees, m.SharesShape S mode t ∧ m.rowType = rowType

/-- The operators of a plan, bounds aside, with their traits. -/
def Uses (plan : Node) (op : Operator) (traits : TraitSet) : Prop :=
  ∃ m ∈ plan.subtrees, m.operator.unbounded = op.unbounded ∧ m.traits = traits

theorem Uses.unbounded {plan : Node} {op op' : Operator} {traits : TraitSet}
    (h : op.unbounded = op'.unbounded) : plan.Uses op traits → plan.Uses op' traits := by
  rintro ⟨m, hm, hop, htraits⟩
  exact ⟨m, hm, hop.trans h, htraits⟩

theorem within_uses (plan : Node) : plan.Within plan.Uses := by
  apply within_of_everywhere
  rw [everywhere_iff_subtrees]
  exact fun m hm => ⟨m, hm, rfl, rfl⟩

end Node

namespace Planner

variable {S : Finset Simplification} {W : TypeCheck} {plan : Node} {settings : Settings}

theorem tells_of_shapes
    (hkeys : settings.dag = true → Node.KeysTellOutlines S plan.Uses settings.digestMode)
    (hshapes : settings.dag = true → plan.ShapesTellTypes S settings.digestMode) :
    Tells settings plan.Uses (Node.SharesShape S settings.digestMode)
      (plan.typesIn S settings.digestMode) where
  congruence := Node.congruence_sharesShape S settings.digestMode
  related := by
    rintro t u rowType htu ⟨m, hm, hmt, rfl⟩
    exact ⟨m, hm, hmt.trans htu, rfl⟩
  keys := keysRelateIn_sharesShape hkeys
  unique := by
    rintro hdag t _ _ ⟨m, hm, hmt, rfl⟩ ⟨m', hm', hmt', rfl⟩
    exact hshapes hdag m hm m' hm' (hmt.trans hmt'.symm)

end Planner

namespace Simplification

variable {S : Finset Simplification} {mode : DigestMode} {W : TypeCheck} {T : Annotation}

/-- A limit that simplifications may move has the row type and the shape of the first of its inputs. -/
theorem annotates_limit {g : Graph} {mode' : DigestMode} {s : Simplification} (hS : s ∈ S)
    (hs : s ≠ .removeTrivialFilter)
    (hT : ∀ {t u rowType}, Node.SharesShape S mode t u → T t rowType → T u rowType)
    (hg : g.Consistent mode') (htyped : g.Typed W) (hannotated : g.Annotated T) {count : Nat}
    {inputs : List Node} {traits : TraitSet} {rowType : Schema}
    (hover : g.OverVertices ⟨.limit count, inputs, traits, rowType⟩)
    (hhead : (inputs.map Node.rowType).head? = some rowType) :
    g.Annotates T ⟨.limit count, inputs, traits, rowType⟩ := by
  obtain ⟨v, hv⟩ := hg.exists_unfolds hover
  refine hover.annotates hg.toLinked hv ?_
  obtain ⟨vs, hvs, rfl⟩ := (unfolds_operator rfl).1 hv
  cases hvs with
  | nil => cases hhead
  | @cons first w rest ws hw _ =>
    obtain rfl : first.rowType = rowType := Option.some.inj hhead
    obtain ⟨j, hj⟩ := hover.inputs first List.mem_cons_self
    have hfirst := hannotated.placeholder htyped hg.toLinked hj hw
    refine hT ?_ hfirst
    rw [Node.SharesShape, Node.shape_limit hS hs, Node.shapes, List.headD_cons]

/-- What a simplification of the set proposes has the shape of what it replaces, and whatever it is
made of has a row type that goes with its shape. -/
theorem keepsTrees (hW : W.Stable) {s : Simplification} (hS : s ∈ S)
    (hT : ∀ {t u rowType}, Node.SharesShape S mode t u → T t rowType → T u rowType) :
    s.rule.KeepsTrees (Node.SharesShape S mode) W T := by
  intro p id force node t proposed hp htyped hannotated h ht n hn
  have hrewrites := rewrites_of_proposes h n hn
  obtain ⟨u, hu, hstep⟩ := hrewrites.exists_step ht
  have hshape : t.SharesShape S mode u := hstep.sharesShape hS
  refine ⟨?_, u, hu, hshape⟩
  have hrow := (keepsTypes hW s p id force node proposed hp htyped h n hn).2
  have hTu : T u n.rowType := hrow ▸ hT hshape (hannotated id node t h.current ht)
  have hover := hp.currents id node h.current
  have hheld : ∀ {input inner : Node}, p.graph.held input = some inner →
      ∀ i ∈ inner.inputs, ∃ j, p.graph.placeholder? j = some i := by
    intro input inner hinner
    obtain ⟨i, -, hcurrent⟩ := Option.bind_eq_some_iff.1 hinner
    exact (hp.currents i inner hcurrent).inputs
  cases hrewrites with
  | trivialFilter he =>
    obtain ⟨j, hj⟩ := hover.inputs n List.mem_cons_self
    exact hp.annotates_placeholder hj
  | limits hinner =>
    have hinputs := hheld hinner
    exact OverVertices.annotates hp.toLinked ⟨rfl, hinputs⟩ hu hTu
  | intoScan hinner =>
    have hinputs := hheld hinner
    exact OverVertices.annotates hp.toLinked ⟨rfl, hinputs⟩ hu hTu
  | @overProjection count input below traits traits' rowType rowType' exprs names inputs hinner
      hbelow =>
    refine Node.everywhere_iff.2 ⟨fun _ => ⟨u, hu, hTu⟩, fun i hi => ?_⟩
    obtain rfl := List.mem_singleton.1 hi
    obtain ⟨type, htype, rfl⟩ := Node.make_eq_ok.1 hbelow
    have hinputs := hheld hinner
    exact annotates_limit (T := T) hS (by decide) hT hp htyped hannotated ⟨rfl, hinputs⟩
      (Operator.derives_limit.1 htype)

end Simplification

namespace Planner

variable {S : Finset Simplification} {settings : Settings} {program : Program} {rules : List Rule}
  {plan : Node} {p q : Planner} {fuel : Nat} {best : Plan}

/-- Simplifications turn a plan that passes a check throughout into one that does. -/
theorem throughout_of_findBestPlan {W : TypeCheck} (hW : W.Stable)
    (hkeys : settings.dag = true → Node.KeysTellOutlines S plan.Uses settings.digestMode)
    (hshapes : settings.dag = true → plan.ShapesTellTypes S settings.digestMode)
    (hcheck : plan.Throughout W) (hrules : ∀ rule ∈ rules ++ program.rules, ∃ s ∈ S, s.rule = rule)
    (hbuild : build settings program rules plan = .ok () p)
    (hbest : findBestPlan fuel p = .ok best q) : best.tree.Throughout W := by
  let A : Rule → Prop := fun rule => rule.StaysWithin plan.Uses ∧ rule.KeepsTypes W ∧
    rule.KeepsTrees (Node.SharesShape S settings.digestMode) W (plan.typesIn S settings.digestMode)
  have htells := tells_of_shapes hkeys hshapes
  have hclosed := closed_simplifications (A := A) (fun s hs =>
    ⟨s.staysWithin (F := plan.Uses) fun _ _ _ h => Node.Uses.unbounded h, s.keepsTypes hW,
      Simplification.keepsTrees hW hs htells.related⟩) hrules
  obtain ⟨hallows, hloaded⟩ := (ends_load plan hclosed (ready_initial settings program A)).ok hbuild
  have hwf := wellFormed_build hW.derives htells plan.within_uses hcheck
    ((plan.everywhere_iff_subtrees).2 fun m hm => ⟨m, hm, rfl, rfl⟩) hbuild
  refine (ends_findBestPlan_typed htells ⟨hwf.consistent_own, hallows⟩ (fun r hr => ?_) hwf fuel).ok
    hbest
  rw [hloaded.program] at hr
  exact (hclosed r (List.mem_append_right _ hr)).1

/-- Programs of simplifications turn well typed plans into well typed plans, and if every column that
the plan refers to exists, then so does every column that the best plan refers to. Where vertices are
shared, two things have to hold: subtrees of the plan have to have one row type if they are of one
shape, for they may come over the same input, and expressions over the operators of the plan have to
look alike if they have equal keys. -/
theorem wellTyped_of_findBestPlan
    (hkeys : settings.dag = true → Node.KeysTellOutlines S plan.Uses settings.digestMode)
    (hshapes : settings.dag = true → plan.ShapesTellTypes S settings.digestMode)
    (htyped : plan.WellTyped)
    (hrules : ∀ rule ∈ rules ++ program.rules, ∃ s ∈ S, s.rule = rule)
    (hbuild : build settings program rules plan = .ok () p)
    (hbest : findBestPlan fuel p = .ok best q) :
    best.tree.WellTyped ∧ (plan.ColumnsExist → best.tree.ColumnsExist) := by
  refine ⟨throughout_of_findBestPlan stable_derives hkeys hshapes htyped hrules hbuild hbest,
    fun hcolumns => ?_⟩
  exact (throughout_of_findBestPlan stable_findsColumns hkeys hshapes
    (Node.Everywhere.and plan htyped hcolumns) hrules hbuild hbest).mono (fun _ h => h.2) _

/-- The rows of a table whose column is zero, under the given name. -/
def renamedZeros (table name : String) : Node :=
  let scan : Node := ⟨.tableScan ⟨table, columnScan.rowType, none, none⟩, [], .default,
    columnScan.rowType⟩
  ⟨.filter (.binary .eq (.column none name) (.literal (.int64 (some 0)))),
    [⟨.projection [.column none "a"] [name], [scan], .default, ⟨[⟨name, .int64, false⟩]⟩⟩],
    .default, ⟨[⟨name, .int64, false⟩]⟩⟩

/-- A join of rows of two tables, whose column has two names. -/
def joinedZeros (table table' : String) : Node :=
  ⟨.join .inner (.literal (.boolean (some true))),
    [renamedZeros table "a", renamedZeros table' "b"], .default,
    ⟨[⟨"a", .int64, false⟩, ⟨"b", .int64, false⟩]⟩⟩

/-- Two limits of a join of two tables, of whose projections none is taken for the other. -/
def limitedZeros : Node :=
  ⟨.limit 1, [⟨.limit 2, [joinedZeros "t" "u"], .default, (joinedZeros "t" "u").rowType⟩], .default,
    (joinedZeros "t" "u").rowType⟩

theorem wellTyped_of_findBestPlan_limitedZeros : ∃ p best q,
    build .default ⟨[.rules Rule.simplifications]⟩ [] limitedZeros = .ok () p ∧
      findBestPlan 29 p = .ok best q ∧ best.tree.WellTyped ∧ best.tree.ColumnsExist := by
  let S : Finset Simplification :=
    {.removeTrivialFilter, .pushLimitOverProjection, .removeLimit, .pushLimitToTableScan}
  have hbuild := eq_ok_of_succeeded (x := build .default ⟨[.rules Rule.simplifications]⟩ []
    limitedZeros) (by decide +kernel)
  obtain ⟨best, hbest⟩ := exists_ok_of_succeeded (x := findBestPlan 29 (left (build .default
    ⟨[.rules Rule.simplifications]⟩ [] limitedZeros))) (by decide +kernel)
  have hplain : ∀ m ∈ limitedZeros.subtrees, m.operator.isPlain = true ∧
      m.traits.isPlain = true ∧ m.traits.convention.isLegible = true := by
    decide +kernel
  have hkeys : Node.KeysTellOutlines S limitedZeros.Uses .normalized := by
    apply Node.keysTellOutlines_of_isPlain
    rintro op _ ⟨m, hm, hop, rfl⟩
    rw [← op.isPlain_unbounded, ← hop, Operator.isPlain_unbounded]
    exact hplain m hm
  obtain ⟨htyped, hcolumns⟩ := wellTyped_of_findBestPlan (S := S) (fun _ => hkeys)
    (fun _ => by decide +kernel) (by decide +kernel)
    (by simp [Program.rules, Instruction.rulesOf, Instruction.ownRules, Rule.simplifications, S,
      Simplification.rule]) hbuild hbest
  exact ⟨_, best, _, hbuild, hbest, htyped, hcolumns (by decide +kernel)⟩

/-- A well typed plan without placeholders, all of whose columns exist, comes out of the empty program
with a filter on a column that does not exist: of two projections that name their column differently
only one is kept. -/
theorem not_wellTyped_joinedZeros : ¬ ∀ (program : Program) (rules : List Rule) (plan : Node)
    (p q : Planner) (fuel : Nat) (best : Plan),
    (∀ rule ∈ rules ++ program.rules, rule ∈ Rule.simplifications) → plan.WellTyped →
      plan.ColumnsExist → build .default program rules plan = .ok () p →
        findBestPlan fuel p = .ok best q → best.tree.WellTyped ∧ best.tree.ColumnsExist := by
  intro h
  obtain ⟨best, hbest, hbad⟩ := exists_ok_of_yields (P := fun best : Plan => ¬ best.tree.WellTyped)
    (x := findBestPlan 9 (left (build .default ⟨[]⟩ [] (joinedZeros "t" "t")))) (by decide +kernel)
  exact hbad (h ⟨[]⟩ [] (joinedZeros "t" "t") _ _ 9 best (by simp [Program.rules, Instruction.rulesOf])
    (by decide +kernel) (by decide +kernel) (eq_ok_of_succeeded (by decide +kernel)) hbest).1

/-- The two projections have one shape. -/
example : ¬ (joinedZeros "t" "t").ShapesTellTypes ∅ .normalized := by decide +kernel

end Planner

end QueryPlanner
