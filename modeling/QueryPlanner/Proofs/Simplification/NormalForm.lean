import QueryPlanner.Proofs.Graph.Unfolding
import QueryPlanner.Proofs.Simplification.Typing

/-!
# The normal form of a plan

A set of simplifications rewrites trees. Every step leaves a lighter tree, and every step leaves the
normal form as it is: inputs first, then a trivial filter is its input and a limit goes down as far
as it can. A tree in which no step is left is its own normal form. So whatever steps are taken, in
whatever order, the tree that is left at the end is the same up to the row types of its nodes.
-/

namespace QueryPlanner

/-- A limit counts twice what it is over, anything else once. -/
def Operator.factor : Operator → Nat
  | limit _ => 2
  | _ => 1

theorem Operator.factor_pos (op : Operator) : 0 < op.factor := by
  cases op <;> simp [factor]

mutual

/-- What a node is over by its factor, and one more. -/
def Node.weight : Node → Nat
  | ⟨op, inputs, _, _⟩ => op.factor * weights inputs + 1

def Node.weights : List Node → Nat
  | [] => 0
  | n :: ns => n.weight + weights ns

end

theorem Node.weight_le_weights {n : Node} {ns : List Node} (h : n ∈ ns) : n.weight ≤ weights ns := by
  induction ns with
  | nil => cases h
  | cons m ns ih =>
    rw [weights]
    rcases List.mem_cons.1 h with rfl | h
    · exact Nat.le_add_right _ _
    · exact (ih h).trans (Nat.le_add_left _ _)

/-- An input is lighter than the tree. -/
theorem Node.weight_lt_of_mem {t u : Node} (h : u ∈ t.inputs) : u.weight < t.weight := by
  obtain ⟨op, inputs, traits, rowType⟩ := t
  rw [weight]
  exact Nat.lt_succ_of_le ((weight_le_weights h).trans (Nat.le_mul_of_pos_left _ op.factor_pos))

/-- Every projection has an input. -/
def Node.Grounded (t : Node) : Prop :=
  t.Everywhere fun n => n.kind = .projection → n.inputs ≠ []

namespace Simplification

/-- A step at the root of a tree. The row type of a limit that is put over other inputs may be any. -/
inductive Step : Simplification → Node → Node → Prop
  | trivialFilter {e : Expr} {input : Node} {rest : List Node} {traits : TraitSet} {rowType : Schema}
      (he : e.isAlwaysTrue = true) :
      Step removeTrivialFilter ⟨.filter e, input :: rest, traits, rowType⟩ input
  | overProjection {count : Nat} {traits traits' : TraitSet} {exprs : List Expr}
      {names : List String} {inputs : List Node} {rowType rowType' rowType'' : Schema} :
      Step pushLimitOverProjection
        ⟨.limit count, [⟨.projection exprs names, inputs, traits', rowType'⟩], traits, rowType⟩
        ⟨.projection exprs names, [⟨.limit count, inputs, traits, rowType''⟩], traits', rowType'⟩
  | limits {outer count : Nat} {traits traits' : TraitSet} {inputs : List Node}
      {rowType rowType' : Schema} :
      Step removeLimit ⟨.limit outer, [⟨.limit count, inputs, traits', rowType'⟩], traits, rowType⟩
        ⟨.limit (min outer count), inputs, traits', rowType'⟩
  | intoScan {count : Nat} {traits traits' : TraitSet} {scan : TableScan} {inputs : List Node}
      {rowType rowType' : Schema} :
      Step pushLimitToTableScan
        ⟨.limit count, [⟨.tableScan scan, inputs, traits', rowType'⟩], traits, rowType⟩
        ⟨.tableScan (scan.cutAt count), inputs, traits', rowType'⟩

section NormalForm

variable (S : Finset Simplification)

mutual

/-- The limit put over an input in normal form. -/
def bound (count : Nat) (traits : TraitSet) : Node → Node
  | ⟨.limit n, inputs, traits', _⟩ =>
    if removeLimit ∈ S then ⟨.limit (min count n), inputs, traits', .empty⟩
    else ⟨.limit count, [⟨.limit n, inputs, traits', .empty⟩], traits, .empty⟩
  | ⟨.projection exprs names, inputs, traits', _⟩ =>
    if pushLimitOverProjection ∈ S then
      ⟨.projection exprs names, [boundOver count traits inputs], traits', .empty⟩
    else ⟨.limit count, [⟨.projection exprs names, inputs, traits', .empty⟩], traits, .empty⟩
  | ⟨.tableScan scan, inputs, traits', _⟩ =>
    if pushLimitToTableScan ∈ S then ⟨.tableScan (scan.cutAt count), inputs, traits', .empty⟩
    else ⟨.limit count, [⟨.tableScan scan, inputs, traits', .empty⟩], traits, .empty⟩
  | ⟨op, inputs, traits', _⟩ => ⟨.limit count, [⟨op, inputs, traits', .empty⟩], traits, .empty⟩

/-- The limit put over inputs in normal form. -/
def boundOver (count : Nat) (traits : TraitSet) : List Node → Node
  | [input] => bound count traits input
  | inputs => ⟨.limit count, inputs, traits, .empty⟩

end

/-- An operator put over inputs in normal form. -/
def reduce (op : Operator) (inputs : List Node) (traits : TraitSet) : Node :=
  match op, inputs with
  | .filter e, input :: rest =>
    if removeTrivialFilter ∈ S ∧ e.isAlwaysTrue = true then input
    else ⟨.filter e, input :: rest, traits, .empty⟩
  | .limit count, inputs => boundOver S count traits inputs
  | op, inputs => ⟨op, inputs, traits, .empty⟩

mutual

/-- The tree without row types that simplifications of the set lead to. -/
def normalForm : Node → Node
  | ⟨op, inputs, traits, _⟩ => reduce S op (normalForms inputs) traits

def normalForms : List Node → List Node
  | [] => []
  | n :: ns => normalForm n :: normalForms ns

end

end NormalForm

variable {S : Finset Simplification} {count outer : Nat} {traits traits' : TraitSet}
  {inputs : List Node} {rowType : Schema} {t u : Node} {s : Simplification}

theorem normalForm_limit : normalForm S ⟨.limit count, inputs, traits, rowType⟩ =
    boundOver S count traits (normalForms S inputs) := by
  rw [normalForm, reduce]

theorem normalForm_projection {exprs : List Expr} {names : List String} :
    normalForm S ⟨.projection exprs names, inputs, traits, rowType⟩ =
      ⟨.projection exprs names, normalForms S inputs, traits, .empty⟩ := by
  simp [normalForm, reduce]

theorem normalForm_tableScan {scan : TableScan} :
    normalForm S ⟨.tableScan scan, inputs, traits, rowType⟩ =
      ⟨.tableScan scan, normalForms S inputs, traits, .empty⟩ := by
  simp [normalForm, reduce]

/-! ## Steps keep the normal form -/

theorem cutAt_cutAt (scan : TableScan) (outer count : Nat) :
    (scan.cutAt count).cutAt outer = scan.cutAt (min outer count) := by
  obtain ⟨table, schema, limit, rowCount⟩ := scan
  cases limit with
  | none => simp [TableScan.cutAt, min_comm]
  | some n => simp [TableScan.cutAt, min_comm, min_left_comm]

mutual

/-- Where adjacent limits merge, a limit over a limit that has gone down is the smaller one of them,
for it goes down the same way. -/
theorem bound_bound (hS : removeLimit ∈ S) (outer count : Nat) (traits traits' : TraitSet) :
    ∀ n : Node, bound S outer traits (bound S count traits' n) = bound S (min outer count) traits' n
  | ⟨op, inputs, traits'', rowType⟩ => by
    cases op with
    | limit n => simp [bound, hS, min_assoc]
    | projection exprs names =>
      by_cases h : pushLimitOverProjection ∈ S
      · simp [bound, boundOver, h, bound_boundOver hS outer count traits traits' inputs]
      · simp [bound, h, hS]
    | tableScan scan =>
      by_cases h : pushLimitToTableScan ∈ S
      · simp [bound, h, cutAt_cutAt]
      · simp [bound, h, hS]
    | _ => simp [bound, hS]

theorem bound_boundOver (hS : removeLimit ∈ S) (outer count : Nat) (traits traits' : TraitSet) :
    ∀ ns : List Node, bound S outer traits (boundOver S count traits' ns) =
      boundOver S (min outer count) traits' ns
  | [] => by simp [boundOver, bound, hS]
  | [n] => by simp [boundOver, bound_bound hS outer count traits traits' n]
  | _ :: _ :: _ => by simp [boundOver, bound, hS]

end

/-- A step of the set leaves the normal form as it is. -/
theorem Step.normalForm_eq (h : Step s t u) (hS : s ∈ S) : normalForm S t = normalForm S u := by
  cases h with
  | trivialFilter he => simp [normalForm, normalForms, reduce, hS, he]
  | overProjection =>
    rw [normalForm_limit, normalForms, normalForms, normalForm_projection, normalForm_projection,
      normalForms, normalForms, normalForm_limit, boundOver, bound, if_pos hS]
  | limits =>
    rw [normalForm_limit, normalForms, normalForms, normalForm_limit, normalForm_limit, boundOver,
      bound_boundOver hS]
  | intoScan =>
    rw [normalForm_limit, normalForms, normalForms, normalForm_tableScan, normalForm_tableScan,
      boundOver, bound, if_pos hS]

/-! ## Steps leave less -/

theorem Step.weight_lt (h : Step s t u) : u.weight < t.weight := by
  cases h with
  | trivialFilter =>
    simp only [Node.weight, Node.weights, Operator.factor]
    omega
  | _ =>
    simp only [Node.weight, Node.weights, Operator.factor]
    omega

theorem grounded_iff : t.Grounded ↔
    (t.kind = .projection → t.inputs ≠ []) ∧ ∀ i ∈ t.inputs, i.Grounded := Node.everywhere_iff

theorem Step.grounded (h : Step s t u) (ht : t.Grounded) : u.Grounded := by
  obtain ⟨-, hinputs⟩ := grounded_iff.1 ht
  cases h with
  | trivialFilter => exact hinputs _ List.mem_cons_self
  | overProjection =>
    obtain ⟨-, hbelow⟩ := grounded_iff.1 (hinputs _ List.mem_cons_self)
    refine grounded_iff.2 ⟨fun _ => List.cons_ne_nil _ _, fun i hi => ?_⟩
    obtain rfl := List.mem_singleton.1 hi
    exact grounded_iff.2 ⟨fun h => (nomatch h), hbelow⟩
  | limits =>
    obtain ⟨-, hbelow⟩ := grounded_iff.1 (hinputs _ List.mem_cons_self)
    exact grounded_iff.2 ⟨fun h => (nomatch h), hbelow⟩
  | intoScan =>
    obtain ⟨-, hbelow⟩ := grounded_iff.1 (hinputs _ List.mem_cons_self)
    exact grounded_iff.2 ⟨fun h => (nomatch h), hbelow⟩

/-- A projection over nothing has no row type. -/
theorem grounded_of_wellTyped (h : t.WellTyped) : t.Grounded := by
  refine h.mono (fun n hn hkind hnil => ?_) t
  obtain ⟨exprs, names, hop⟩ := Node.operator_of_projection hkind
  rw [hop] at hn
  obtain ⟨s, rest, hinputs⟩ := Operator.head?_of_derives_projection hn
  rw [hnil] at hinputs
  cases hinputs

/-! ## Trees without a step -/

/-- No step of the set is left in the tree. -/
def Normal (S : Finset Simplification) (t : Node) : Prop :=
  t.Everywhere fun n => ∀ s ∈ S, ∀ u, ¬ Step s n u

theorem normal_iff : Normal S t ↔
    (∀ s ∈ S, ∀ u, ¬ Step s t u) ∧ ∀ i ∈ t.inputs, Normal S i := Node.everywhere_iff

/-- Where no step can be taken, the operator stays over its inputs. -/
theorem reduce_bares {op : Operator} (h : ∀ s ∈ S, ∀ u, ¬ Step s ⟨op, inputs, traits, rowType⟩ u) :
    reduce S op (Node.bares inputs) traits = ⟨op, Node.bares inputs, traits, .empty⟩ := by
  cases op with
  | filter e =>
    cases inputs with
    | nil => rfl
    | cons input rest =>
      rw [Node.bares, reduce, if_neg]
      exact fun ⟨hS, he⟩ => h removeTrivialFilter hS input (.trivialFilter he)
  | limit count =>
    rw [reduce]
    · match inputs, h with
      | [], _ => rfl
      | [⟨op', inputs', traits', rowType'⟩], h =>
        rw [Node.bares, Node.bares, Node.bare, boundOver]
        cases op' with
        | limit n =>
          rw [bound, if_neg]
          exact fun hS => h removeLimit hS _ .limits
        | projection exprs names =>
          rw [bound, if_neg]
          exact fun hS => h pushLimitOverProjection hS ⟨_, [⟨_, _, _, .empty⟩], _, _⟩ .overProjection
        | tableScan scan =>
          rw [bound, if_neg]
          exact fun hS => h pushLimitToTableScan hS _ .intoScan
        | _ => rfl
      | _ :: _ :: _, _ => rfl
  | _ => rfl

mutual

/-- A tree without a step is its own normal form, row types aside. -/
theorem Normal.normalForm_eq : ∀ t : Node, Normal S t → normalForm S t = t.bare
  | ⟨op, inputs, traits, rowType⟩, h => by
    obtain ⟨hhead, hinputs⟩ := normal_iff.1 h
    rw [normalForm, Normal.normalForms_eq inputs hinputs, reduce_bares hhead, Node.bare]

theorem Normal.normalForms_eq :
    ∀ ts : List Node, (∀ t ∈ ts, Normal S t) → normalForms S ts = Node.bares ts
  | [], _ => rfl
  | t :: ts, h => by
    rw [List.forall_mem_cons] at h
    rw [normalForms, Normal.normalForm_eq t h.1, Normal.normalForms_eq ts h.2, Node.bares]

end

/-! ## Row types aside -/

mutual

theorem normalForm_bare : ∀ t : Node, normalForm S t.bare = normalForm S t
  | ⟨op, inputs, traits, rowType⟩ => by
    rw [Node.bare, normalForm, normalForm, normalForms_bares inputs]

theorem normalForms_bares : ∀ ts : List Node, normalForms S (Node.bares ts) = normalForms S ts
  | [] => rfl
  | t :: ts => by rw [Node.bares, normalForms, normalForms, normalForm_bare t, normalForms_bares ts]

end

mutual

theorem weight_bare : ∀ t : Node, t.bare.weight = t.weight
  | ⟨op, inputs, traits, rowType⟩ => by
    rw [Node.bare, Node.weight, Node.weight, weights_bares inputs]

theorem weights_bares : ∀ ts : List Node, Node.weights (Node.bares ts) = Node.weights ts
  | [] => rfl
  | t :: ts => by rw [Node.bares, Node.weights, Node.weights, weight_bare t, weights_bares ts]

end

theorem grounded_bare (t : Node) : t.bare.Grounded ↔ t.Grounded :=
  Node.everywhere_bare (fun _ inputs _ _ => by cases inputs <;> simp [Node.bares, Node.kind]) t

/-! ## Congruence -/

/-- The normal form stays, and the tree becomes lighter. -/
structure Lightens (S : Finset Simplification) (t u : Node) : Prop where
  normalForm : normalForm S u = normalForm S t
  weight : u.weight < t.weight
  grounded : t.Grounded → u.Grounded

/-- A step lightens a tree, row types aside. -/
theorem Step.lightens {v : Node} (h : Step s t u) (hS : s ∈ S) (hv : v.bare = u.bare) :
    Lightens S t v where
  normalForm := by rw [← normalForm_bare v, hv, normalForm_bare, h.normalForm_eq hS]
  weight := by
    rw [← weight_bare v, hv, weight_bare]
    exact h.weight_lt
  grounded ht := by
    rw [← grounded_bare, hv, grounded_bare]
    exact h.grounded ht

/-- What a firing does to the trees: they are lightened or stay as they are. -/
def Simplifies (S : Finset Simplification) (t u : Node) : Prop := u = t ∨ Lightens S t u

theorem Lightens.trans {v : Node} (h : Lightens S t u) (h' : Lightens S u v) : Lightens S t v where
  normalForm := h'.normalForm.trans h.normalForm
  weight := h'.weight.trans h.weight
  grounded := h'.grounded ∘ h.grounded

theorem congruence_simplifies (S : Finset Simplification) : Node.Congruence (Simplifies S) where
  refl _ := .inl rfl
  trans := by
    rintro t u v (rfl | h) (rfl | h')
    · exact .inl rfl
    · exact .inr h'
    · exact .inr h
    · exact .inr (h.trans h')
  inputs n ts us h := by
    have hinputs : us = ts ∨ normalForms S us = normalForms S ts ∧
        Node.weights us < Node.weights ts ∧ ((∀ t ∈ ts, t.Grounded) → ∀ u ∈ us, u.Grounded) ∧
          us ≠ [] := by
      induction h with
      | nil => exact .inl rfl
      | @cons t u ts us htu _ ih =>
        rw [List.forall_mem_cons, List.forall_mem_cons, normalForms, normalForms, Node.weights,
          Node.weights]
        rcases htu with rfl | htu
        · rcases ih with rfl | ⟨hforms, hweights, hgrounded, -⟩
          · exact .inl rfl
          · exact .inr ⟨by rw [hforms], by omega, And.imp id hgrounded, List.cons_ne_nil _ _⟩
        · have hlight := htu.weight
          rcases ih with rfl | ⟨hforms, hweights, hgrounded, -⟩
          · exact .inr ⟨by rw [htu.normalForm], by omega, And.imp htu.grounded id,
              List.cons_ne_nil _ _⟩
          · exact .inr ⟨by rw [htu.normalForm, hforms], by omega, And.imp htu.grounded hgrounded,
              List.cons_ne_nil _ _⟩
    rcases hinputs with rfl | ⟨hforms, hweights, hgrounded, hne⟩
    · exact .inl rfl
    · refine .inr ⟨?_, ?_, fun ht => ?_⟩
      · rw [Simplification.normalForm, Simplification.normalForm, hforms]
      · rw [Node.weight, Node.weight]
        exact Nat.succ_lt_succ (Nat.mul_lt_mul_of_pos_left hweights n.operator.factor_pos)
      · exact grounded_iff.2 ⟨fun _ => hne, hgrounded (grounded_iff.1 ht).2⟩

end Simplification

end QueryPlanner
