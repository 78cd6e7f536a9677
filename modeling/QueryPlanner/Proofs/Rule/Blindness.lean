import QueryPlanner.Proofs.Graph.Matching
import QueryPlanner.Proofs.Graph.Renaming
import QueryPlanner.Rule.Simplification

/-!
# Rules that do not look at vertex ids

A rule is blind if it does the same whatever the vertices are called and in whatever order the parents
of an expression are shown to it: asked about renamed expressions, it asks about renamed expressions,
and if it gets renamed answers it proposes renamed expressions. Faults may differ in the ids that they
tell and in expressions and graphs that are written with ids.
-/

namespace QueryPlanner

variable {π : Equiv.Perm VertexId} {phase : Phase} {α β γ δ : Type}

/-! ## Faults -/

/-- The defect without the ids that it tells. -/
def GraphDefect.blurred : GraphDefect → GraphDefect
  | .cycleAt _ => .cycleAt 0
  | .removedReference _ => .removedReference 0
  | .missing _ => .missing 0
  | .updateOfMissing _ => .updateOfMissing 0
  | .removedInput _ _ => .removedInput "" ""
  | defect => defect

/-- The fault without the ids that it tells, and without expressions and graphs. -/
def Fault.blurred : Fault → Fault
  | .structural rule defect _ => .structural rule defect.blurred ""
  | .unimplemented _ => .unimplemented ""
  | .fixedRowType _ => .fixedRowType 0
  | .firing rule cause => .firing rule cause.blurred
  | fault => fault

/-- Both end with a result or both with a fault, the results are related, and the faults are the same
up to ids. -/
def SameOutcome (R : α → β → Prop) : Except Fault α → Except Fault β → Prop
  | .ok a, .ok b => R a b
  | .error f, .error f' => f'.blurred = f.blurred
  | _, _ => False

namespace SameOutcome

variable {R : α → β → Prop} {x : Except Fault α} {y : Except Fault β}

theorem cases_on (h : SameOutcome R x y) : (∃ a b, x = .ok a ∧ y = .ok b ∧ R a b) ∨
    ∃ f f', x = .error f ∧ y = .error f' ∧ f'.blurred = f.blurred := by
  cases x <;> cases y
  · exact .inr ⟨_, _, rfl, rfl, h⟩
  · exact h.elim
  · exact h.elim
  · exact .inl ⟨_, _, rfl, rfl, h⟩

theorem refl (x : Except Fault α) : SameOutcome Eq x x := by
  cases x <;> exact rfl

theorem bind {S : γ → δ → Prop} {f : α → Except Fault γ} {f' : β → Except Fault δ}
    (h : SameOutcome R x y) (hf : ∀ a b, R a b → SameOutcome S (f a) (f' b)) :
    SameOutcome S (x >>= f) (y >>= f') := by
  obtain ⟨a, b, rfl, rfl, hab⟩ | ⟨e, e', rfl, rfl, he⟩ := h.cases_on
  · exact hf a b hab
  · exact he

end SameOutcome

theorem sameOutcome_mapM {ns : List Node} {f f' : Node → Except Fault Node}
    (h : ∀ n, SameOutcome (fun m m' => m' = m.rename π) (f n) (f' (n.rename π))) :
    SameOutcome (fun ms ms' => ms' = ms.map (Node.rename π)) (ns.mapM f)
      ((ns.map (Node.rename π)).mapM f') := by
  induction ns with
  | nil => exact rfl
  | cons n ns ih =>
    rw [List.map_cons, List.mapM_cons, List.mapM_cons]
    refine (h n).bind ?_
    rintro m _ rfl
    refine ih.bind ?_
    rintro ms _ rfl
    exact rfl

/-- Making a node from renamed inputs. -/
theorem Node.sameOutcome_make (op : Operator) (inputs : List Node) (traits : TraitSet) :
    SameOutcome (fun n n' => n' = n.rename π) (make op inputs traits)
      (make (op.rename π) (inputs.map (rename π)) traits) := by
  have htypes : (inputs.map (rename π)).map rowType = inputs.map rowType := by
    simp [Function.comp_def]
  have hrowType : SameOutcome Eq (op.rowType (inputs.map rowType))
      ((op.rename π).rowType (inputs.map rowType)) := by
    cases op with
    | vertex => rfl
    | _ => exact .refl _
  rw [make, make, htypes]
  refine hrowType.bind ?_
  rintro rowType _ rfl
  exact (rename_mk op inputs traits rowType).symm

/-! ## Inquiries -/

/-- Results of a conversion that differ in the names of vertices. -/
def Node.RenamedTo (π : Equiv.Perm VertexId) (n n' : Option Node) : Prop := n' = n.map (Node.rename π)

def Question.rename (π : Equiv.Perm VertexId) : Question → Question
  | .resolve n => .resolve (n.rename π)
  | .rowCount n => .rowCount (n.rename π)
  | .cumulativeCost n => .cumulativeCost (n.rename π)
  | .cheaper a b => .cheaper a b
  | .cancelled => .cancelled

/-- The answer to a question about renamed expressions. -/
def Question.renameAnswer (π : Equiv.Perm VertexId) : (q : Question) → q.Answer → (q.rename π).Answer
  | .resolve _, n => Node.rename π n
  | .rowCount _, rows => rows
  | .cumulativeCost _, cost => cost
  | .cheaper _ _, b => b
  | .cancelled, b => b

namespace Inquiry

/-- The second inquiry asks and proposes what the first one does about renamed expressions, as long as
it gets renamed answers. -/
inductive Renamed (π : Equiv.Perm VertexId) {α β : Type} (R : α → β → Prop) :
    Inquiry phase α → Inquiry phase β → Prop
  | done {a : α} {b : β} (h : R a b) : Renamed π R (done a) (done b)
  | fail {f f' : Fault} (h : f'.blurred = f.blurred) : Renamed π R (fail f) (fail f')
  | ask {q : Question} {next : q.Answer → Inquiry phase α}
      {next' : (q.rename π).Answer → Inquiry phase β}
      (h : ∀ a, Renamed π R (next a) (next' (q.renameAnswer π a))) :
      Renamed π R (ask q next) (ask (q.rename π) next')
  | convert {allowed : phase ≠ .converting} {node : Node} {traits : TraitSet}
      {next : Except Fault (Option Node) → Inquiry phase α}
      {next' : Except Fault (Option Node) → Inquiry phase β}
      (h : ∀ r r', SameOutcome (Node.RenamedTo π) r r' → Renamed π R (next r) (next' r')) :
      Renamed π R (convert allowed node traits next) (convert allowed (node.rename π) traits next')
  | propose {allowed : phase = .firing} {node : Node} {next : Inquiry phase α}
      {next' : Inquiry phase β} (h : Renamed π R next next') :
      Renamed π R (propose allowed node next) (propose allowed (node.rename π) next')

variable {R : α → β → Prop} {S : γ → δ → Prop} {i : Inquiry phase α} {i' : Inquiry phase β}

theorem Renamed.bind {f : α → Inquiry phase γ} {f' : β → Inquiry phase δ} (h : i.Renamed π R i')
    (hf : ∀ a b, R a b → (f a).Renamed π S (f' b)) : (i >>= f).Renamed π S (i' >>= f') := by
  induction h with
  | done h => exact hf _ _ h
  | fail h => exact .fail h
  | ask _ ih => exact .ask ih
  | convert _ ih => exact .convert ih
  | propose _ ih => exact .propose ih

theorem Renamed.widen {i : Inquiry .converting α} {i' : Inquiry .converting β}
    (h : i.Renamed π R i') : (i.widen : Inquiry phase α).Renamed π R i'.widen := by
  induction h with
  | done h => exact .done h
  | fail h => exact .fail h
  | ask _ ih => exact .ask ih
  | @convert allowed => exact absurd rfl allowed
  | @propose allowed => exact nomatch allowed

theorem renamed_ofExcept {x : Except Fault α} {y : Except Fault β} (h : SameOutcome R x y) :
    (ofExcept x : Inquiry phase α).Renamed π R (ofExcept y) := by
  obtain ⟨a, b, rfl, rfl, hab⟩ | ⟨f, f', rfl, rfl, hf⟩ := h.cases_on
  · exact .done hab
  · exact .fail hf

theorem renamed_offer (n : Node) : (offer n).Renamed π Eq (offer (n.rename π)) :=
  .propose (.done rfl)

end Inquiry

/-! ## Blind rules -/

/-- Two calls show renamed expressions, and renamed parents in any order. -/
structure Call.Renamed (π : Equiv.Perm VertexId) (call call' : Call) : Prop where
  rels : call'.rels = call.rels.map (Node.rename π)
  inputs : call'.inputs = call.inputs.map fun e => (e.1, e.2.map (Node.rename π))
  parents : Option.Rel (fun ns ns' => ns'.Perm (ns.map (Node.rename π))) call.parents call'.parents

theorem Call.Renamed.rel? {call call' : Call} (h : call.Renamed π call') (idx : Nat) :
    call'.rel? idx = (call.rel? idx).map (Node.rename π) := by
  rw [Call.rel?, Call.rel?, h.rels, List.getElem?_map]

/-- The test of the pattern's root does not look at vertex ids. -/
def Pattern.TestBlind (p : Pattern) : Prop :=
  ∀ (π : Equiv.Perm VertexId) (n : Node), p.test (n.rename π) = p.test n

/-- No test of the pattern looks at vertex ids. -/
def Pattern.Blind (p : Pattern) : Prop := ∀ q ∈ p.preorder, q.TestBlind

def Conversion.Blind (c : Conversion) : Prop :=
  ∀ (π : Equiv.Perm VertexId) (n : Node) (target : Convention),
    (c.convert n target).Renamed π (Node.RenamedTo π) (c.convert (n.rename π) target)

structure Rule.Blind (rule : Rule) : Prop where
  pattern : rule.pattern.Blind
  applies : ∀ (π : Equiv.Perm VertexId) (call call' : Call), call.Renamed π call' →
    (rule.applies call).Renamed π Eq (rule.applies call')
  fire : ∀ (π : Equiv.Perm VertexId) (call call' : Call), call.Renamed π call' →
    (rule.fire call).Renamed π Eq (rule.fire call')
  conversion : ∀ c, rule.conversion = some c → c.Blind

theorem Pattern.accepts_rename {p : Pattern} (hp : p.Blind) (n : Node) :
    p.accepts (n.rename π) = p.accepts n := by
  have htest := hp p (by simp) π n
  simp only [Pattern.accepts, Node.kind_rename, Node.convention_rename, htest]

theorem Conversion.wantedBy_rename (c : Conversion) (n : Node) :
    c.wantedBy (n.rename π) = c.wantedBy n := by
  simp only [Conversion.wantedBy, Node.isConverter_rename, Node.convention_rename]

/-- The companion of a blind rule is blind. -/
theorem Rule.Blind.companion {rule companion : Rule} (h : rule.Blind)
    (hcompanion : rule.companion = .ok companion) : companion.Blind := by
  unfold Rule.companion at hcompanion
  cases hc : rule.conversion with
  | none =>
    rw [hc] at hcompanion
    cases hcompanion
  | some c =>
    rw [hc] at hcompanion
    cases hcompanion
    refine ⟨fun q hq π n => ?_, fun _ _ _ _ => .done rfl, fun π call call' hcall => ?_, fun c h => ?_⟩
    · have hq : q = Pattern.any.withInputs [rule.pattern] ∨ q ∈ rule.pattern.preorder := by
        simpa [Pattern.preorders, Pattern.withInputs] using hq
      rcases hq with rfl | hq
      · rfl
      · exact h.pattern q hq π n
    · simp only [hcall.rel?]
      cases hrel : call.rel? 0 with
      | none => exact .done rfl
      | some parent =>
        simp only [Option.map_some, Conversion.wantedBy_rename]
        split_ifs
        · rw [Node.inputs_rename]
          cases parent.inputs with
          | nil => exact .done rfl
          | cons input rest =>
            refine (h.conversion c hc π input c.target).widen.bind ?_
            rintro (_ | converted) _ rfl
            · exact .done rfl
            · have hoffer := Inquiry.renamed_offer (π := π) { parent with inputs := [converted] }
              rwa [Node.rename_withInputs] at hoffer
        · exact .done rfl
    · cases h

/-! ## Rules of the library -/

theorem Pattern.blind_ofKind (kind : OperatorKind) : (Pattern.ofKind kind).Blind := by
  intro q hq
  obtain rfl : q = Pattern.ofKind kind := by simpa [Pattern.ofKind, Pattern.any, preorders] using hq
  exact fun _ _ => rfl

theorem Pattern.mem_preorders {q : Pattern} {ps : List Pattern} :
    q ∈ preorders ps ↔ ∃ p ∈ ps, q ∈ p.preorder := by
  induction ps with
  | nil => simp [preorders]
  | cons p ps ih => simp only [preorders, List.mem_append, ih, List.exists_mem_cons_iff]

theorem Pattern.blind_withInputs {p : Pattern} {children : List Pattern} (hp : p.TestBlind)
    (hchildren : ∀ c ∈ children, c.Blind) : (p.withInputs children).Blind := by
  intro q hq
  rw [preorder_eq, List.mem_cons, mem_preorders] at hq
  obtain rfl | ⟨c, hc, hq⟩ := hq
  · exact hp
  · exact hchildren c hc q hq

theorem Rule.blind_transformation {description : String} {pattern : Pattern}
    {fire : Call → Inquiry .firing Unit} (hpattern : pattern.Blind)
    (hfire : ∀ (π : Equiv.Perm VertexId) (call call' : Call), call.Renamed π call' →
      (fire call).Renamed π Eq (fire call')) :
    (Rule.transformation description pattern fire).Blind :=
  ⟨hpattern, fun _ _ _ _ => .done rfl, hfire, fun _ h => nomatch h⟩

theorem Rule.blind_removeTrivialFilter : Rule.removeTrivialFilter.Blind := by
  refine blind_transformation ?_ fun π call call' hcall => ?_
  · intro q hq
    obtain rfl : q = { Pattern.ofKind .filter with test := Node.isTrivialFilter } := by
      simpa [Pattern.ofKind, Pattern.any, Pattern.preorders] using hq
    intro π n
    simp only [Node.isTrivialFilter, Node.operator_rename]
    cases n.operator <;> rfl
  · rw [hcall.rel?]
    cases call.rel? 0 with
    | none => exact .done rfl
    | some filter =>
      simp only [Option.map_some, Node.inputs_rename]
      cases filter.inputs with
      | nil => exact .done rfl
      | cons input rest => exact Inquiry.renamed_offer input

theorem Rule.blind_pushLimitOverProjection : Rule.pushLimitOverProjection.Blind := by
  refine blind_transformation (Pattern.blind_withInputs (fun _ _ => rfl) ?_) fun π call call' hcall => ?_
  · simp [Pattern.blind_ofKind]
  · rw [hcall.rel?, hcall.rel?]
    cases call.rel? 0 with
    | none => exact .done rfl
    | some limit =>
      cases call.rel? 1 with
      | none => exact .done rfl
      | some projection =>
        simp only [Option.map_some, Node.operator_rename, Node.inputs_rename, Node.traits_rename]
        refine (Inquiry.renamed_ofExcept (Node.sameOutcome_make _ _ _)).bind ?_
        rintro below _ rfl
        have hoffer := Inquiry.renamed_offer (π := π) { projection with inputs := [below] }
        rw [Node.rename_withInputs] at hoffer
        simpa using hoffer

theorem Rule.blind_pushLimitToTableScan : Rule.pushLimitToTableScan.Blind := by
  refine blind_transformation (Pattern.blind_withInputs (fun _ _ => rfl) ?_) fun π call call' hcall => ?_
  · simp [Pattern.blind_ofKind]
  · rw [hcall.rel?, hcall.rel?]
    rcases call.rel? 0 with _ | ⟨op, inputs, traits, rowType⟩
    · exact .fail rfl
    · rw [Option.map_some, Node.rename_mk]
      cases op with
      | limit count =>
        rcases call.rel? 1 with _ | ⟨op, inputs', traits', rowType'⟩
        · exact .fail rfl
        · rw [Option.map_some, Node.rename_mk]
          cases op with
          | tableScan scan =>
            have hoffer := fun scan => Inquiry.renamed_offer (π := π)
              ⟨.tableScan scan, inputs', traits', rowType'⟩
            simp only [Node.rename_mk] at hoffer
            exact hoffer _
          | _ => exact .fail rfl
      | _ => exact .fail rfl

theorem Rule.blind_removeLimit : Rule.removeLimit.Blind := by
  refine blind_transformation (Pattern.blind_withInputs (fun _ _ => rfl) ?_) fun π call call' hcall => ?_
  · simp [Pattern.blind_ofKind]
  · rw [hcall.rel?, hcall.rel?]
    rcases call.rel? 0 with _ | ⟨op, inputs, traits, rowType⟩
    · exact .fail rfl
    · rw [Option.map_some, Node.rename_mk]
      cases op with
      | limit outer =>
        rcases call.rel? 1 with _ | ⟨op, inputs', traits', rowType'⟩
        · exact .fail rfl
        · rw [Option.map_some, Node.rename_mk]
          cases op with
          | limit count =>
            have hoffer := Inquiry.renamed_offer (π := π)
              ⟨.limit (min outer count), inputs', traits', rowType'⟩
            rwa [Node.rename_mk] at hoffer
          | _ => exact .fail rfl
      | _ => exact .fail rfl

/-- No simplification rule looks at vertex ids. -/
theorem Rule.blind_of_mem_simplifications {rule : Rule} (h : rule ∈ simplifications) : rule.Blind := by
  simp only [simplifications, List.mem_cons, List.not_mem_nil, or_false] at h
  obtain rfl | rfl | rfl | rfl := h
  · exact blind_removeTrivialFilter
  · exact blind_pushLimitOverProjection
  · exact blind_removeLimit
  · exact blind_pushLimitToTableScan

/-! ## Binding patterns -/

def Binding.rename (π : Equiv.Perm VertexId) (b : Binding) : Binding :=
  ⟨b.rels.map (Node.rename π), b.inputs.map fun e => (e.1, e.2.map (Node.rename π))⟩

@[simp] theorem Binding.rename_push (b : Binding) (n : Node) :
    (b.push n).rename π = (b.rename π).push (n.rename π) := by
  simp [Binding.rename, Binding.push]

/-- Bindings that differ in the names of vertices. -/
def Binding.RenamedTo (π : Equiv.Perm VertexId) (b b' : Option Binding) : Prop :=
  b' = b.map (Binding.rename π)

namespace Graph.Renamed

variable {g g' : Graph}

theorem inputExpressions (hr : g.Renamed π g') (n : Node) :
    SameOutcome (fun ns ns' => ns' = ns.map (Node.rename π)) (g.inputExpressions n)
      (g'.inputExpressions (n.rename π)) := by
  rw [Graph.inputExpressions, Graph.inputExpressions, Node.inputs_rename]
  refine sameOutcome_mapM fun input => ?_
  rw [Node.vertexId?_rename]
  cases input.vertexId? with
  | none => rfl
  | some id =>
    simp only [Option.map_some, Option.bind_some, hr.current]
    cases g.current? id <;> rfl

theorem bindSome {bind bind' : Node → Binding → Except Fault (Option Binding)}
    (h : ∀ n b, SameOutcome (Binding.RenamedTo π) (bind n b) (bind' (n.rename π) (b.rename π)))
    (nodes : List Node) (b : Binding) :
    SameOutcome (Binding.RenamedTo π) (Graph.bindSome bind nodes b)
      (Graph.bindSome bind' (nodes.map (Node.rename π)) (b.rename π)) := by
  induction nodes with
  | nil => exact rfl
  | cons n ns ih =>
    refine (h n b).bind ?_
    rintro (_ | b') _ rfl
    · exact ih
    · exact rfl

mutual

/-- A blind pattern matches the same expressions. -/
theorem bind (hr : g.Renamed π g') : ∀ (p : Pattern), p.Blind → ∀ (n : Node) (b : Binding),
    SameOutcome (Binding.RenamedTo π) (g.bind p n b) (g'.bind p (n.rename π) (b.rename π))
  | ⟨kind, convention, test, policy, children⟩, hp, n, b => by
    have htest : (⟨kind, convention, test, policy, []⟩ : Pattern).accepts (n.rename π) =
        (⟨kind, convention, test, policy, []⟩ : Pattern).accepts n :=
      Pattern.accepts_rename (fun q hq => by
        obtain rfl : q = ⟨kind, convention, test, policy, []⟩ := by
          simpa [Pattern.preorders] using hq
        exact hp ⟨kind, convention, test, policy, children⟩ (by simp)) n
    have hchildren : ∀ q ∈ Pattern.preorders children, q.TestBlind := fun q hq => hp q (by simp [hq])
    have hany : (n.inputs.map (Node.rename π)).any (·.vertexId?.isNone) =
        n.inputs.any (·.vertexId?.isNone) := by
      simp [List.any_map, Function.comp_def]
    rw [Graph.bind, Graph.bind, htest, Node.inputs_rename, hany, List.length_map,
      ← Binding.rename_push]
    cases policy with
    | any => split_ifs <;> exact rfl
    | unordered =>
      simp only
      split_ifs
      · exact rfl
      · exact rfl
      refine (hr.inputExpressions n).bind ?_
      rintro inputs _ rfl
      refine (bindEach hr children hchildren inputs (b.push n)).bind ?_
      rintro (_ | b') _ rfl
      · exact rfl
      · simp [SameOutcome, Binding.RenamedTo, Binding.rename, pure, Except.pure]
    | exact =>
      simp only
      split_ifs
      · exact rfl
      · exact rfl
      · exact rfl
      · refine (hr.inputExpressions n).bind ?_
        rintro inputs _ rfl
        exact bindPairwise hr children hchildren inputs (b.push n)

theorem bindPairwise (hr : g.Renamed π g') : ∀ (ps : List Pattern),
    (∀ q ∈ Pattern.preorders ps, q.TestBlind) →
    ∀ (ns : List Node) (b : Binding), SameOutcome (Binding.RenamedTo π) (g.bindPairwise ps ns b)
      (g'.bindPairwise ps (ns.map (Node.rename π)) (b.rename π))
  | [], _, ns, b => by
    simp only [Graph.bindPairwise]
    exact rfl
  | _ :: _, _, [], b => by
    simp only [Graph.bindPairwise, List.map_nil]
    exact rfl
  | p :: ps, hps, n :: ns, b => by
    rw [Pattern.preorders, List.forall_mem_append] at hps
    rw [List.map_cons, Graph.bindPairwise, Graph.bindPairwise]
    refine (bind hr p hps.1 n b).bind ?_
    rintro (_ | b') _ rfl
    · exact rfl
    · exact bindPairwise hr ps hps.2 ns b'

theorem bindEach (hr : g.Renamed π g') : ∀ (ps : List Pattern),
    (∀ q ∈ Pattern.preorders ps, q.TestBlind) →
    ∀ (inputs : List Node) (b : Binding), SameOutcome (Binding.RenamedTo π) (g.bindEach ps inputs b)
      (g'.bindEach ps (inputs.map (Node.rename π)) (b.rename π))
  | [], _, inputs, b => by
    rw [Graph.bindEach, Graph.bindEach]
    exact rfl
  | p :: ps, hps, inputs, b => by
    rw [Pattern.preorders, List.forall_mem_append] at hps
    rw [Graph.bindEach, Graph.bindEach]
    refine (bindSome (bind hr p hps.1) inputs b).bind ?_
    rintro (_ | b') _ rfl
    · exact rfl
    · exact bindEach hr ps hps.2 inputs b'

end

end Graph.Renamed

end QueryPlanner
