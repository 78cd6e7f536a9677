import QueryPlanner.CostModel
import QueryPlanner.Proofs.Node.Key
import Mathlib.Algebra.Group.End

/-!
# Renaming vertices

An expression is renamed by a permutation of the ids of vertices. Its operators, traits and row types
stay, and so do its estimates; only placeholders stand for other vertices. Where the traits are plain,
whether two expressions have one key does not depend on the names of the vertices.
-/

namespace QueryPlanner

variable {π σ : Equiv.Perm VertexId}

def Operator.rename (π : Equiv.Perm VertexId) : Operator → Operator
  | .vertex id => .vertex (π id)
  | op => op

mutual

def Node.rename (π : Equiv.Perm VertexId) : Node → Node
  | ⟨op, inputs, traits, rowType⟩ => ⟨op.rename π, Node.renameAll π inputs, traits, rowType⟩

def Node.renameAll (π : Equiv.Perm VertexId) : List Node → List Node
  | [] => []
  | n :: ns => n.rename π :: Node.renameAll π ns

end

namespace Operator

theorem rename_of_ne {op : Operator} (h : ∀ id, op ≠ .vertex id) : op.rename π = op := by
  cases op with
  | vertex id => exact absurd rfl (h id)
  | _ => rfl

@[simp] theorem kind_rename (op : Operator) : (op.rename π).kind = op.kind := by
  cases op <;> rfl

@[simp] theorem isConverter_rename (op : Operator) : (op.rename π).isConverter = op.isConverter := by
  cases op <;> rfl

@[simp] theorem estimate_rename (op : Operator) : (op.rename π).estimate = op.estimate := by
  funext rows
  cases op <;> rfl

theorem rename_rename (op : Operator) : (op.rename π).rename σ = op.rename (σ * π) := by
  cases op <;> rfl

@[simp] theorem rename_one (op : Operator) : op.rename 1 = op := by
  cases op <;> rfl

end Operator

namespace Node

variable {n n' : Node} {id : VertexId} {mode : DigestMode}

theorem renameAll_eq_map (ns : List Node) : renameAll π ns = ns.map (rename π) := by
  induction ns with
  | nil => rw [renameAll, List.map_nil]
  | cons n ns ih => rw [renameAll, List.map_cons, ih]

theorem rename_mk (op : Operator) (inputs : List Node) (traits : TraitSet) (rowType : Schema) :
    rename π ⟨op, inputs, traits, rowType⟩ =
      ⟨op.rename π, inputs.map (rename π), traits, rowType⟩ := by
  rw [rename, renameAll_eq_map]

theorem rename_withInputs (n : Node) (inputs : List Node) :
    Node.rename π { n with inputs } = { n.rename π with inputs := inputs.map (rename π) } := by
  cases n
  rw [rename_mk, rename_mk]

@[simp] theorem operator_rename (n : Node) : (n.rename π).operator = n.operator.rename π := by
  cases n
  rw [rename]

@[simp] theorem inputs_rename (n : Node) : (n.rename π).inputs = n.inputs.map (rename π) := by
  cases n
  rw [rename_mk]

@[simp] theorem traits_rename (n : Node) : (n.rename π).traits = n.traits := by
  cases n
  rw [rename]

@[simp] theorem rowType_rename (n : Node) : (n.rename π).rowType = n.rowType := by
  cases n
  rw [rename]

@[simp] theorem kind_rename (n : Node) : (n.rename π).kind = n.kind := by
  simp [kind]

@[simp] theorem convention_rename (n : Node) : (n.rename π).convention = n.convention := by
  simp [convention]

@[simp] theorem isConverter_rename (n : Node) : (n.rename π).isConverter = n.isConverter := by
  simp [isConverter]

@[simp] theorem vertexId?_rename (n : Node) : (n.rename π).vertexId? = n.vertexId?.map π := by
  obtain ⟨op, inputs, traits, rowType⟩ := n
  rw [rename]
  cases op <;> rfl

theorem vertexId?_rename_eq_none (h : n.vertexId? = none) : (n.rename π).vertexId? = none := by
  rw [vertexId?_rename, h, Option.map_none]

@[simp] theorem rename_placeholder (traits : TraitSet) (rowType : Schema) :
    (placeholder id traits rowType).rename π = placeholder (π id) traits rowType := by
  rw [placeholder, rename_mk]
  rfl

@[simp] theorem references_rename (n : Node) :
    (n.rename π).references = n.references.map π := by
  rw [references, references, inputs_rename, List.filterMap_map, List.map_filterMap]
  congr 1
  funext input
  exact vertexId?_rename input

theorem operator_rename_of_operator (h : n.vertexId? = none) :
    (n.rename π).operator = n.operator := by
  rw [operator_rename, Operator.rename_of_ne fun id => ne_vertex_of_vertexId? h id]

mutual

theorem rename_rename : ∀ n : Node, (n.rename π).rename σ = n.rename (σ * π)
  | ⟨op, inputs, traits, rowType⟩ => by
    rw [rename, rename, rename, op.rename_rename, renameAll_renameAll inputs]

theorem renameAll_renameAll : ∀ ns : List Node, renameAll σ (renameAll π ns) = renameAll (σ * π) ns
  | [] => by rw [renameAll, renameAll, renameAll]
  | n :: ns => by rw [renameAll, renameAll, renameAll, rename_rename n, renameAll_renameAll ns]

end

mutual

@[simp] theorem rename_one : ∀ n : Node, n.rename 1 = n
  | ⟨op, inputs, traits, rowType⟩ => by rw [rename, op.rename_one, renameAll_one inputs]

theorem renameAll_one : ∀ ns : List Node, renameAll 1 ns = ns
  | [] => by rw [renameAll]
  | n :: ns => by rw [renameAll, rename_one n, renameAll_one ns]

end

theorem rename_redirect (n placeholder : Node) (id : VertexId) :
    (n.redirect id placeholder).rename π = (n.rename π).redirect (π id) (placeholder.rename π) := by
  obtain ⟨op, inputs, traits, rowType⟩ := n
  simp only [redirect, rename_mk, List.map_map, mk.injEq, true_and, and_true]
  refine List.map_congr_left fun input _ => ?_
  have hid : input.vertexId?.map π = some (π id) ↔ input.vertexId? = some id := by
    cases input.vertexId? <;> simp
  simp only [Function.comp_apply, vertexId?_rename, hid]
  split_ifs <;> rfl

/-! ## Keys -/

/-- Terms that are listed in the same way are separated in the same way. -/
theorem intercalate_eq_of_listing_eq {ts us : List String} (h : listing ts = listing us) :
    [',', ' '].intercalate (ts.map String.toList) = [',', ' '].intercalate (us.map String.toList) := by
  cases ts with
  | nil =>
    cases us with
    | nil => rfl
    | cons u us => simp at h
  | cons t ts =>
    cases us with
    | nil => simp at h
    | cons u us =>
      rw [List.map_cons, List.map_cons, Text.intercalate_cons, Text.intercalate_cons]
      rw [listing_cons, listing_cons] at h
      exact List.tail_eq_of_cons_eq (List.tail_eq_of_cons_eq h)

theorem isSome_vertexId?_rename (hin : ∀ i ∈ n.inputs, i.vertexId?.isSome = true) :
    ∀ i ∈ (n.rename π).inputs, i.vertexId?.isSome = true := by
  intro i hi
  rw [inputs_rename] at hi
  obtain ⟨j, hj, rfl⟩ := List.mem_map.1 hi
  rw [vertexId?_rename, Option.isSome_map]
  exact hin j hj

section Key

variable (hplain : n.traits.isPlain = true) (hplain' : n'.traits.isPlain = true)
  (hn : n.vertexId? = none) (hn' : n'.vertexId? = none)
  (hin : ∀ i ∈ n.inputs, i.vertexId?.isSome = true)
  (hin' : ∀ i ∈ n'.inputs, i.vertexId?.isSome = true)
include hplain hplain' hn hn' hin hin'

theorem key_rename_eq (hkey : n.key mode = n'.key mode) :
    (n.rename π).key mode = (n'.rename π).key mode := by
  obtain ⟨hkind, hreferences, hlisting, htext⟩ := parts_eq_of_key_eq hplain hplain' hn hn' hin hin' hkey
  have hdigest : ∀ {m : Node}, m.vertexId? = none → (∀ i ∈ m.inputs, i.vertexId?.isSome = true) →
      (m.rename π).digest mode = render m.operator m.traits
        (referenceTerms 0 (m.references.map π) ++ m.operator.termTexts mode) := by
    intro m hm hmin
    rw [digest_eq_render (vertexId?_rename_eq_none hm),
      inputTerms_eq 0 (isSome_vertexId?_rename hmin), operator_rename_of_operator hm, traits_rename]
    show render _ _ (referenceTerms 0 (m.rename π).references ++ _) = _
    rw [references_rename]
  have hlistings : listing (referenceTerms 0 (n.references.map π) ++ n.operator.termTexts mode) =
      listing (referenceTerms 0 (n'.references.map π) ++ n'.operator.termTexts mode) := by
    rw [listing, listing, List.map_append, List.map_append, Text.separated_append,
      Text.separated_append, hreferences]
    exact congrArg _ hlisting
  rw [key, key, hdigest hn hin, hdigest hn' hin', rowType_rename, rowType_rename, DigestKey.mk.injEq]
  refine ⟨String.toList_injective ?_, (DigestKey.mk.inj hkey).2⟩
  rw [toList_render, toList_render, hkind, htext, intercalate_eq_of_listing_eq hlistings]

/-- Whether expressions over placeholders have one key does not depend on what the vertices are
called. -/
theorem key_rename_eq_iff :
    (n.rename π).key mode = (n'.rename π).key mode ↔ n.key mode = n'.key mode := by
  refine ⟨fun h => ?_, key_rename_eq hplain hplain' hn hn' hin hin'⟩
  have hback := key_rename_eq (π := π⁻¹) (by rwa [traits_rename]) (by rwa [traits_rename])
    (vertexId?_rename_eq_none hn) (vertexId?_rename_eq_none hn') (isSome_vertexId?_rename hin)
    (isSome_vertexId?_rename hin') h
  simpa only [rename_rename, inv_mul_cancel, rename_one] using hback

end Key

end Node

/-- The prices of a cost model do not depend on the names of vertices. -/
def CostModel.Blind (model : CostModel) : Prop :=
  ∀ (π : Equiv.Perm VertexId) (n : Node) (rows : Float) (inputs : List Float),
    model.selfCost (n.rename π) rows inputs = model.selfCost n rows inputs

/-- Models that look at the operator alone. -/
theorem CostModel.blind_touchedRows : touchedRows.Blind := by
  intro π n rows inputs
  rw [touchedRows]
  simp only [Node.operator_rename]
  cases n.operator <;> rfl

end QueryPlanner
