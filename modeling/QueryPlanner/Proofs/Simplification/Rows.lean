import QueryPlanner.Proofs.Meaning.Values
import QueryPlanner.Proofs.Simplification.Matching
import QueryPlanner.Proofs.Simplification.Typing

/-!
# Simplifications keep rows

Plans are read as lists of rows over a database: scans, filters, projections and limits in the usual
way, all other operators as any functions of the rows of their inputs. Where the matched filters,
limits and projections have one input each, a simplification that matches proposes exactly one
expression, of the same rows and of the same row type.
-/

namespace QueryPlanner

open QueryPlanner.Graph Planning Planner

variable {R : Type*}

/-- The rows that a scan reads of those that are stored. -/
def TableScan.read (scan : TableScan) (rows : List R) : List R :=
  match scan.limit with
  | some count => rows.take count
  | none => rows

/-- A database, and what conditions, projections and operators do to its rows. -/
structure RowSemantics (R : Type*) where
  table : String → List R
  passes : Expr → R → Bool
  passes_true : ∀ row, passes (.literal (.boolean (some true))) row = true
  project : List Expr → List String → R → R
  /-- Operators of other kinds, and those over a number of inputs that they are not meant for. -/
  other : Operator → List (List R) → List R

/-- The rows of every operator over the rows of its inputs. -/
def RowSemantics.rows (S : RowSemantics R) : Interpretation (List R)
  | .tableScan scan, _ => scan.read (S.table scan.table)
  | .filter condition, [rows] => rows.filter (S.passes condition)
  | .projection exprs names, [rows] => rows.map (S.project exprs names)
  | .limit count, [rows] => rows.take count
  | op, inputs => S.other op inputs

theorem TableScan.take_read (scan : TableScan) (count : Nat) (rows : List R) :
    (scan.read rows).take count = (scan.cutAt count).read rows := by
  obtain ⟨table, schema, limit, rowCount⟩ := scan
  cases limit with
  | none => rfl
  | some n => simp [read, cutAt, List.take_take, Nat.min_comm]

/-! ## Rows in a graph -/

namespace Graph

variable {V : Type*} {I : Interpretation V} {v : V} {S : RowSemantics R} {g : Graph}
  {traits traits' : TraitSet} {rowType rowType' : Schema} {input i inner : Node} {rows : List R}
  {count outer : Nat}

/-- An input is worth what it stands for. -/
theorem means_held (h : g.held input = some inner) : g.Means I input v ↔ g.Means I inner v := by
  obtain ⟨id, hid, hcurrent⟩ := Option.bind_eq_some_iff.1 h
  rw [means_of_vertexId? hid]
  constructor
  · rintro ⟨node, hnode, hv⟩
    rwa [Option.some.inj (hcurrent.symm.trans hnode)]
  · exact fun hv => ⟨inner, hcurrent, hv⟩

/-- Over one input, an operator is worth what it makes of that input. -/
theorem means_single {op : Operator} (hop : ∀ id, op ≠ .vertex id) :
    g.Means I ⟨op, [input], traits, rowType⟩ v ↔ ∃ w, g.Means I input w ∧ v = I op [w] := by
  rw [means_operator (Node.vertexId?_eq_none.2 hop)]
  constructor
  · rintro ⟨vs, hvs, rfl⟩
    obtain ⟨w, hw, rfl⟩ : ∃ w, g.Means I input w ∧ vs = [w] := by
      simpa [List.forall₂_cons_left_iff] using hvs
    exact ⟨w, hw, rfl⟩
  · rintro ⟨w, hw, rfl⟩
    exact ⟨[w], .cons hw .nil, rfl⟩

/-- A trivial filter keeps all rows. -/
theorem means_trivialFilter {e : Expr} (he : e.isAlwaysTrue = true) :
    g.Means S.rows ⟨.filter e, [input], traits, rowType⟩ rows ↔ g.Means S.rows input rows := by
  have hkeep : ∀ below, S.rows (.filter e) [below] = below := by
    intro below
    rw [Expr.eq_of_isAlwaysTrue he]
    exact List.filter_eq_self.2 fun row _ => S.passes_true row
  simp [means_single, hkeep]

/-- Cutting rows off and computing columns commute. -/
theorem means_limit_projection {exprs : List Expr} {names : List String}
    (h : g.held input = some ⟨.projection exprs names, [i], traits', rowType'⟩)
    {traits'' : TraitSet} {rowType'' : Schema} :
    g.Means S.rows ⟨.limit count, [input], traits, rowType⟩ rows ↔
      g.Means S.rows ⟨.projection exprs names, [⟨.limit count, [i], traits'', rowType''⟩],
        traits', rowType'⟩ rows := by
  have hcommute : ∀ below, S.rows (.limit count) [S.rows (.projection exprs names) [below]] =
      S.rows (.projection exprs names) [S.rows (.limit count) [below]] :=
    fun below => List.map_take.symm
  simp [means_single, means_held h, hcommute]

/-- Of two limits the smaller one cuts. -/
theorem means_limit_limit (h : g.held input = some ⟨.limit count, [i], traits', rowType'⟩) :
    g.Means S.rows ⟨.limit outer, [input], traits, rowType⟩ rows ↔
      g.Means S.rows ⟨.limit (min outer count), [i], traits', rowType'⟩ rows := by
  have hmin : ∀ below, S.rows (.limit outer) [S.rows (.limit count) [below]] =
      S.rows (.limit (min outer count)) [below] :=
    fun below => List.take_take
  simp [means_single, means_held h, hmin]

/-- A limit cuts what a scan reads. -/
theorem means_limit_scan {scan : TableScan} {inputs : List Node}
    (h : g.held input = some ⟨.tableScan scan, inputs, traits', rowType'⟩) :
    g.Means S.rows ⟨.limit count, [input], traits, rowType⟩ rows ↔
      g.Means S.rows ⟨.tableScan (scan.cutAt count), inputs, traits', rowType'⟩ rows := by
  have hcut : ∀ vs, S.rows (.limit count) [S.rows (.tableScan scan) vs] =
      S.rows (.tableScan (scan.cutAt count)) vs :=
    fun vs => scan.take_read count _
  rw [means_single (by simp), means_operator rfl]
  simp only [means_held h, means_operator (show Node.vertexId?
    ⟨.tableScan scan, inputs, traits', rowType'⟩ = none from rfl)]
  constructor
  · rintro ⟨_, ⟨vs, hvs, rfl⟩, rfl⟩
    exact ⟨vs, hvs, hcut vs⟩
  · rintro ⟨vs, hvs, rfl⟩
    exact ⟨_, ⟨vs, hvs, rfl⟩, (hcut vs).symm⟩

end Graph

/-! ## Matches -/

namespace Simplification

variable {S : RowSemantics R} {g : Graph} {mode : DigestMode} {id : VertexId} {node : Node}
  {binding : Binding}

/-- The matched filters, limits and projections have one input each. -/
def SingleInputs (binding : Binding) : Prop :=
  ∀ n ∈ binding.rels, n.kind = .filter ∨ n.kind = .limit ∨ n.kind = .projection →
    n.inputs.length = 1

/-- A simplification that matches an expression offers one other, whatever the parents, and has
rewritten the expression to it. The two have the same rows. -/
theorem offers_of_bind (hg : g.Linked mode) (hnode : g.current? id = some node) (s : Simplification)
    (hbind : g.bind s.rule.pattern node .empty = .ok (some binding))
    (hsingle : SingleInputs binding) :
    ∃ result, (∀ parents, s.rule.fire ⟨binding.rels, binding.inputs, parents⟩ = .offer result) ∧
      ∀ rows, g.Means S.rows node rows ↔ g.Means S.rows result rows := by
  cases s with
  | removeTrivialFilter =>
    obtain ⟨haccepts, rfl⟩ := bind_any hbind
    obtain ⟨e, he, htrue⟩ := Node.operator_of_isTrivialFilter (n := node)
      (Bool.and_eq_true_iff.1 haccepts).2
    obtain ⟨op, inputs, traits, rowType⟩ := node
    obtain rfl : op = .filter e := he
    obtain ⟨input, rfl⟩ : ∃ input, inputs = [input] :=
      List.length_eq_one_iff.1 (hsingle _ List.mem_cons_self (.inl rfl))
    exact ⟨input, fun _ => rfl, fun _ => means_trivialFilter htrue⟩
  | pushLimitOverProjection =>
    rcases bind_limitOver hg hnode .projection with
      ⟨count, input, inner, traits, rowType, rfl, hinner, hkind, h⟩ | ⟨-, h⟩
    · obtain rfl : (⟨[_, inner], []⟩ : Binding) = binding :=
        Option.some.inj (Except.ok.inj (h.symm.trans hbind))
      obtain ⟨exprs, names, hop⟩ := Node.operator_of_projection hkind
      obtain ⟨op, inputs, traits', rowType'⟩ := inner
      obtain rfl : op = .projection exprs names := hop
      obtain ⟨i, rfl⟩ : ∃ i, inputs = [i] :=
        List.length_eq_one_iff.1 (hsingle _ (List.mem_cons_of_mem _ List.mem_cons_self)
          (.inr (.inr rfl)))
      exact ⟨_, fun _ => rfl, fun _ => means_limit_projection hinner⟩
    · cases h.symm.trans hbind
  | removeLimit =>
    rcases bind_limitOver hg hnode .limit with
      ⟨outer, input, inner, traits, rowType, rfl, hinner, hkind, h⟩ | ⟨-, h⟩
    · obtain rfl : (⟨[_, inner], []⟩ : Binding) = binding :=
        Option.some.inj (Except.ok.inj (h.symm.trans hbind))
      obtain ⟨count, hop⟩ := Node.operator_of_limit hkind
      obtain ⟨op, inputs, traits', rowType'⟩ := inner
      obtain rfl : op = .limit count := hop
      obtain ⟨i, rfl⟩ : ∃ i, inputs = [i] :=
        List.length_eq_one_iff.1 (hsingle _ (List.mem_cons_of_mem _ List.mem_cons_self)
          (.inr (.inl rfl)))
      exact ⟨_, fun _ => rfl, fun _ => means_limit_limit hinner⟩
    · cases h.symm.trans hbind
  | pushLimitToTableScan =>
    rcases bind_limitOver hg hnode .tableScan with
      ⟨count, input, inner, traits, rowType, rfl, hinner, hkind, h⟩ | ⟨-, h⟩
    · obtain rfl : (⟨[_, inner], []⟩ : Binding) = binding :=
        Option.some.inj (Except.ok.inj (h.symm.trans hbind))
      obtain ⟨scan, hop⟩ := Node.operator_of_tableScan hkind
      obtain ⟨op, inputs, traits', rowType'⟩ := inner
      obtain rfl : op = .tableScan scan := hop
      exact ⟨_, fun _ => rfl, fun _ => means_limit_scan hinner⟩
    · cases h.symm.trans hbind

theorem applies_rule (s : Simplification) (call : Call) : s.rule.applies call = .done true := by
  cases s <;> rfl

theorem occasion?_rule (s : Simplification) (id : VertexId) (force : Bool) (p : Planner) :
    occasion? s.rule id force p = .ok (some ⟨fun _ => true, none⟩) p := by
  cases s <;> rfl

/-- A simplification that matches proposes exactly one expression. It has the row type of the matched
one, and in the graph the same rows. -/
theorem keeps_rows (S : RowSemantics R) {p : Planner} (hp : p.graph.Consistent p.settings.digestMode)
    (htyped : p.graph.Typed Operator.Derives) (hnode : p.graph.current? id = some node)
    (s : Simplification) (hbind : p.graph.bind s.rule.pattern node .empty = .ok (some binding))
    (hsingle : SingleInputs binding) (parents : Option (List Node)) :
    ∃ result q, fire s.rule node ⟨binding.rels, binding.inputs, parents⟩ p = .ok [result] q ∧
      result.rowType = node.rowType ∧ (∃ rows, p.graph.Means S.rows node rows) ∧
      ∀ rows, p.graph.Means S.rows node rows ↔ p.graph.Means S.rows result rows := by
  obtain ⟨result, hoffer, hrows⟩ := offers_of_bind (S := S) hp.toLinked hnode s hbind hsingle
  have hfire : ∀ parents, ∃ q,
      fire s.rule node ⟨binding.rels, binding.inputs, parents⟩ p = .ok [result] q := by
    intro parents
    obtain ⟨_, q, hq, rfl⟩ := (ends_fire_offer (fun _ _ => False) (s.applies_rule _)
      (hoffer parents) node p).exists_ok
    exact ⟨q, hq⟩
  obtain ⟨q, hq⟩ := hfire parents
  obtain ⟨r, hr⟩ := hfire none
  have hproposes : p.Proposes s.rule id true node [result] :=
    ⟨_, binding, p, r, s.occasion?_rule id true p, hnode, hbind, hr⟩
  obtain ⟨rows, m, hm, hmeans⟩ := hp.exists_value (I := S.rows) (contains_of_current hnode)
  obtain rfl := Option.some.inj (hnode.symm.trans hm)
  exact ⟨result, q, hq,
    (keepsTypes stable_derives s p id true node _ hp htyped hproposes result
      List.mem_cons_self).2, ⟨rows, hmeans⟩, hrows⟩

/-- Three numbers in every table, each projection adds one. -/
def numbers : RowSemantics ℕ where
  table _ := [7, 8, 9]
  passes _ _ := true
  passes_true _ := rfl
  project _ _ := Nat.succ
  other _ _ := []

/-- A limit on a column that is named anew. -/
def limitedName : Node :=
  ⟨.limit 2, [⟨.projection [.column none "a"] ["b"], [Planner.columnScan], .default,
    ⟨[⟨"b", .int64, false⟩]⟩⟩], .default, ⟨[⟨"b", .int64, false⟩]⟩⟩

theorem keeps_rows_limitedName : ∃ p node binding result q,
    p.graph.current? 2 = some node ∧
      p.graph.bind pushLimitOverProjection.rule.pattern node .empty = .ok (some binding) ∧
      fire pushLimitOverProjection.rule node ⟨binding.rels, binding.inputs, none⟩ p =
        .ok [result] q ∧ result.rowType = node.rowType ∧
      ∃ rows, p.graph.Means numbers.rows node rows ∧ p.graph.Means numbers.rows result rows := by
  let settings : Settings := { Settings.default with dag := false }
  let p := left (build settings ⟨[]⟩ [] limitedName)
  have hbuild := eq_ok_of_succeeded (x := build settings ⟨[]⟩ [] limitedName) (by decide +kernel)
  have hwf : p.WellFormed settings (fun _ _ => True) Operator.Derives fun _ _ => True :=
    wellFormed_build stable_derives.derives (tells_of_unshared rfl) (Node.within_true _)
      (show limitedName.WellTyped by decide +kernel)
      ((Node.everywhere_iff_subtrees _).2 fun _ _ => trivial) hbuild
  obtain ⟨node, hnode⟩ : ∃ node, p.graph.current? 2 = some node :=
    Option.isSome_iff_exists.1 (by decide +kernel)
  have hbound : ((p.graph.current? 2).any fun n =>
      (p.graph.bind pushLimitOverProjection.rule.pattern n .empty).toOption.join.any
        (·.rels.all (·.inputs.length == 1))) = true := by
    decide +kernel
  rw [hnode, Option.any_some] at hbound
  cases hbind : p.graph.bind pushLimitOverProjection.rule.pattern node .empty with
  | error f => simp [hbind, Except.toOption] at hbound
  | ok bound =>
    cases bound with
    | none => simp [hbind, Except.toOption] at hbound
    | some binding =>
      rw [hbind] at hbound
      have hsingle : SingleInputs binding := fun n hn _ => by
        simpa using List.all_eq_true.1 hbound n hn
      obtain ⟨result, q, hfire, htype, ⟨rows, hrows⟩, hsame⟩ := keeps_rows numbers hwf.consistent
        hwf.typed hnode pushLimitOverProjection hbind hsingle none
      exact ⟨p, node, binding, result, q, hnode, hbind, hfire, htype, rows, hrows,
        (hsame rows).1 hrows⟩

end Simplification

end QueryPlanner
