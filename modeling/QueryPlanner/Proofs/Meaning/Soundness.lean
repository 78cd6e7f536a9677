import QueryPlanner.Proofs.Meaning.Values
import QueryPlanner.Proofs.Node.Key
import QueryPlanner.Proofs.Simplification.Proposals

/-!
# Sound rules

A rule is sound in an interpretation if what it proposes has the value of the matched expression. The
rule that merges adjacent limits is sound in every interpretation where a limit on a limit is the
smaller one of them.
-/

namespace QueryPlanner

open QueryPlanner.Graph Planning

variable {V : Type*} {I : Interpretation V}

/-- In every consistent graph, what the rule proposes in place of an expression has its value. -/
def Rule.Sound (I : Interpretation V) (rule : Rule) : Prop :=
  ∀ (p : Planner) (id : VertexId) (force : Bool) (node : Node) (proposed : List Node),
    p.graph.Consistent p.settings.digestMode → p.Proposes rule id force node proposed →
      ∀ n ∈ proposed, ∀ v, p.graph.Means I node v → p.graph.Means I n v

/-! ## Adjacent limits -/

/-- A limit on a limit is the smaller one of them. -/
def Interpretation.MergesLimits (I : Interpretation V) : Prop :=
  ∀ outer count vs, I (.limit outer) [I (.limit count) vs] = I (.limit (min outer count)) vs

/-- Merging limits is sound where a limit on a limit is the smaller one. -/
theorem Rule.sound_removeLimit (hI : I.MergesLimits) : removeLimit.Sound I := by
  intro p id force node proposed hp h n hn v hv
  obtain hrewrites := Simplification.rewrites_of_proposes (s := .removeLimit) h n hn
  cases hrewrites with
  | limits hheld =>
    obtain ⟨i, hi, hcurrent⟩ := Option.bind_eq_some_iff.1 hheld
    -- the value of the input is that of the limit below
    obtain ⟨vs, hvs, rfl⟩ := (means_operator rfl).1 hv
    obtain ⟨w, hw, rfl⟩ : ∃ w, p.graph.Means I _ w ∧ vs = [w] := by
      simpa [List.forall₂_cons_left_iff] using hvs
    obtain ⟨held, hheld, hw⟩ := (means_of_vertexId? hi).1 hw
    obtain rfl := Option.some.inj (hheld.symm.trans hcurrent)
    obtain ⟨ws, hws, rfl⟩ := (means_operator rfl).1 hw
    rw [hI]
    exact (means_operator rfl).2 ⟨ws, hws, rfl⟩

/-! ## Branches -/

/-- The number of branches that are united, limits aside. Any other operator is one branch, for its
terms may be any text, and then there are conventions under which keys do not tell its inputs. -/
def branches : Interpretation Nat
  | .limit _, counts => counts.sum
  | .setOp _ _, counts => counts.sum
  | _, _ => 1

theorem branches_eq_of_kind {op op' : Operator} (h : op.kind = op'.kind) :
    branches op = branches op' := by
  cases op with
  | limit n =>
    cases op' with
    | limit n' => rfl
    | _ => cases h
  | setOp operation all =>
    cases op' with
    | setOp operation' all' => rfl
    | _ => cases h
  | _ => cases op' <;> first | rfl | cases h

theorem branches_eq_one {op : Operator} (h : op.kind ∉ [.limit, .setOp]) (counts : List Nat) :
    branches op counts = 1 := by
  cases op with
  | limit n => simp [Operator.kind] at h
  | setOp operation all => simp [Operator.kind] at h
  | _ => rfl

/-- The terms of limits and set operations have no parenthesis. -/
theorem not_mem_termTexts {mode : DigestMode} {op : Operator} (h : op.kind ∈ [.limit, .setOp]) :
    ∀ t ∈ op.termTexts mode, '(' ∉ t.toList := by
  cases op with
  | limit n =>
    have hdigits : '(' ∉ (toString n).toList := Text.not_mem_nat (by decide)
    simp only [Operator.termTexts, Operator.terms, List.map_cons, List.map_nil,
      List.forall_mem_singleton, String.toList_append, List.mem_append, hdigits, or_false]
    decide
  | setOp operation all =>
    cases mode <;> cases operation <;> cases all <;> decide
  | _ => simp [Operator.kind] at h

/-- Keys determine numbers of branches: those of limits and set operations tell the inputs. -/
theorem keysDetermine_branches (mode : DigestMode) : KeysDetermine branches mode := by
  intro g n n' hg hn hn' hkey v hv
  have hin := hg.isSome_vertexId? hn
  have hin' := hg.isSome_vertexId? hn'
  obtain ⟨hkind, -⟩ := Node.written_eq_of_key_eq hn.isOperator hn'.isOperator hin hin' hkey
  obtain ⟨counts, hcounts, rfl⟩ := (means_operator hn.isOperator).1 hv
  rw [branches_eq_of_kind hkind]
  by_cases hopen : n.operator.kind ∈ [.limit, .setOp]
  · have hreferences := Node.references_eq_of_key_eq (not_mem_termTexts hopen)
      (not_mem_termTexts (hkind ▸ hopen)) hn.isOperator hn'.isOperator hin hin' hkey
    refine (means_operator hn'.isOperator).2 ⟨counts, ?_, rfl⟩
    rw [forall₂_means_references hin', ← Node.references, ← hreferences]
    exact (forall₂_means_references hin).1 hcounts
  · obtain ⟨t, ht⟩ := hg.exists_unfolds hn'
    obtain ⟨counts', hcounts', -⟩ :=
      (means_operator (I := branches) hn'.isOperator).1 (means_iff.2 ⟨t, ht, rfl⟩)
    refine (means_operator hn'.isOperator).2 ⟨counts', hcounts', ?_⟩
    rw [branches_eq_one (hkind ▸ hopen), branches_eq_one (hkind ▸ hopen)]

end QueryPlanner
