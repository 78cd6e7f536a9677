import QueryPlanner.Planner.Extraction
import QueryPlanner.Proofs.Planner.Asking

/-!
# Two operations side by side

Two operations, each started in a state of its own, are paired if both end with a result or both end
with a fault, and what they end with and what they leave is related. Paired operations are put together
like single ones.

Graphs are mirrored on some of their vertices if related vertices hold the same operators, traits and
row types over inputs that are related again. Extracting related vertices of mirrored graphs is paired,
so the same plan comes out of both.
-/

namespace QueryPlanner

namespace Planning

variable {α β γ δ : Type} {x : Planning α} {y : Planning β} {p q : Planner}
  {Q Q' : α → β → Planner → Planner → Prop} {E E' : Fault → Fault → Planner → Planner → Prop}

/-- The operations end in the same way, with related results or faults, and leave related states. -/
def Paired (x : Planning α) (y : Planning β) (p q : Planner)
    (Q : α → β → Planner → Planner → Prop) (E : Fault → Fault → Planner → Planner → Prop) : Prop :=
  match x p, y q with
  | .ok a p, .ok b q => Q a b p q
  | .error f p, .error g q => E f g p q
  | _, _ => False

theorem paired_of_eq_ok {a : α} {b : β} {p' q' : Planner} (hx : x p = .ok a p') (hy : y q = .ok b q')
    (h : Q a b p' q') : Paired x y p q Q E := by
  rw [Paired, hx, hy]
  exact h

theorem Paired.cases_on (h : Paired x y p q Q E) :
    (∃ a b p' q', x p = .ok a p' ∧ y q = .ok b q' ∧ Q a b p' q') ∨
      ∃ f g p' q', x p = .error f p' ∧ y q = .error g q' ∧ E f g p' q' := by
  unfold Paired at h
  cases hx : x p <;> cases hy : y q <;> rw [hx, hy] at h
  · exact .inl ⟨_, _, _, _, rfl, rfl, h⟩
  · exact h.elim
  · exact h.elim
  · exact .inr ⟨_, _, _, _, rfl, rfl, h⟩

theorem paired_pure {a : α} {b : β} (h : Q a b p q) :
    Paired (pure a : Planning α) (pure b : Planning β) p q Q E := h

theorem paired_throw {f g : Fault} (h : E f g p q) :
    Paired (throw f : Planning α) (throw g : Planning β) p q Q E := h

theorem paired_get {k : Planner → Planning α} {l : Planner → Planning β}
    (h : Paired (k p) (l q) p q Q E) : Paired (get >>= k) (get >>= l) p q Q E := h

theorem paired_modify {f g : Planner → Planner} {k : Unit → Planning α} {l : Unit → Planning β}
    (h : Paired (k ()) (l ()) (f p) (g q) Q E) : Paired (modify f >>= k) (modify g >>= l) p q Q E := h

theorem Paired.mono (h : Paired x y p q Q E) (hQ : ∀ a b p q, Q a b p q → Q' a b p q)
    (hE : ∀ f g p q, E f g p q → E' f g p q) : Paired x y p q Q' E' := by
  unfold Paired at h ⊢
  split at h
  · exact hQ _ _ _ _ h
  · exact hE _ _ _ _ h
  · exact h.elim

theorem Paired.bind {f : α → Planning γ} {g : β → Planning δ}
    {R : γ → δ → Planner → Planner → Prop} (h : Paired x y p q Q E)
    (hf : ∀ a b p q, Q a b p q → Paired (f a) (g b) p q R E) :
    Paired (x >>= f) (y >>= g) p q R E := by
  show (match EStateM.bind x f p, EStateM.bind y g q with
    | .ok a p, .ok b q => R a b p q
    | .error f p, .error g q => E f g p q
    | _, _ => False)
  unfold EStateM.bind
  obtain ⟨a, b, p', q', hx, hy, h⟩ | ⟨f, g, p', q', hx, hy, h⟩ := h.cases_on
  · rw [hx, hy]
    exact hf a b p' q' h
  · rw [hx, hy]
    exact h

/-- What is known of each of the outcomes. -/
theorem Paired.and {P : α → Planner → Prop} {P' : β → Planner → Prop} {F F' : Fault → Planner → Prop}
    (h : Paired x y p q Q E) (hx : Ends x p P F) (hy : Ends y q P' F') :
    Paired x y p q (fun a b p q => Q a b p q ∧ P a p ∧ P' b q) E := by
  obtain ⟨a, b, p', q', hendx, hendy, h⟩ | ⟨f, g, p', q', hendx, hendy, h⟩ := h.cases_on
  · exact paired_of_eq_ok hendx hendy ⟨h, hx.ok hendx, hy.ok hendy⟩
  · rw [Paired, hendx, hendy]
    exact h

theorem Concur.paired {Q : α → Planner → Planner → Prop} {E : Planner → Planner → Prop}
    (h : Concur x p q Q E) :
    Paired x x p q (fun a b p q => b = a ∧ Q a p q) fun f g p q => g = f ∧ E p q := by
  unfold Paired
  obtain ⟨a, p', q', hp, hq, h⟩ | ⟨f, p', q', hp, hq, h⟩ := h.cases_on
  · rw [hp, hq]
    exact ⟨rfl, h⟩
  · rw [hp, hq]
    exact ⟨rfl, h⟩

theorem Paired.concur {Q : α → Planner → Planner → Prop} {E : Planner → Planner → Prop}
    (h : Paired x x p q (fun a b p q => b = a ∧ Q a p q) fun f g p q => g = f ∧ E p q) :
    Concur x p q Q E := by
  obtain ⟨a, _, p', q', hp, hq, rfl, h⟩ | ⟨f, _, p', q', hp, hq, rfl, h⟩ := h.cases_on
  · exact concur_of_eq_ok hp hq h
  · exact concur_of_eq_error hp hq h

end Planning

open Planning

namespace Graph

/-- Vertices that are related hold the same operators over related inputs, and no vertex is related to
two others. -/
structure Mirrored (ρ : VertexId → VertexId → Prop) (g g' : Graph) : Prop where
  current : ∀ i j, ρ i j → ∃ n n', g.current? i = some n ∧ g'.current? j = some n' ∧
    n'.operator = n.operator ∧ n'.traits = n.traits ∧ n'.rowType = n.rowType ∧
      List.Forall₂ (fun a b => ∃ k l, a.vertexId? = some k ∧ b.vertexId? = some l ∧ ρ k l)
        n.inputs n'.inputs
  iff : ∀ i j k l, ρ i j → ρ k l → (i = k ↔ j = l)

end Graph

namespace Planner

variable {ρ : VertexId → VertexId → Prop} {g g' : Graph} {a b : Assembly}

/-- The assemblies have the same entries, and related vertices are built at the same positions. -/
structure Assembly.Mirrored (ρ : VertexId → VertexId → Prop) (a b : Assembly) : Prop where
  entries : b.entries = a.entries
  built : List.Forall₂ (fun x y => ρ x.1 y.1 ∧ y.2 = x.2) a.built b.built

theorem Assembly.Mirrored.lookup (hg : g.Mirrored ρ g') (h : a.Mirrored ρ b) {i j : VertexId}
    (hij : ρ i j) : b.built.lookup j = a.built.lookup i := by
  obtain ⟨-, h⟩ := h
  generalize a.built = built at h
  generalize b.built = built' at h
  induction h with
  | nil => rfl
  | @cons x y _ _ hxy _ ih =>
    obtain ⟨hrel, hposition⟩ := hxy
    have hiff := hg.iff i j x.1 y.1 hij hrel
    obtain ⟨k, position⟩ := x
    obtain ⟨l, position'⟩ := y
    simp only at hposition hiff
    by_cases hik : i = k
    · simp [hik, hiff.1 hik, hposition]
    · have hjl : j ≠ l := fun hjl => hik (hiff.2 hjl)
      simp only [List.lookup_cons, beq_false_of_ne hik, beq_false_of_ne hjl, ih]

/-- What becomes of extracting from both graphs. Only requests that were not met are faults. -/
def Unmet (ρ : VertexId → VertexId → Prop) (g g' : Graph) (f f' : Fault) : Prop :=
  f' = f ∨ ∃ i j n n', ρ i j ∧ g.current? i = some n ∧ g'.current? j = some n' ∧
    f = .unimplemented (n.digest .full) ∧ f' = .unimplemented (n'.digest .full)

/-- Related vertices are extracted to the same positions. -/
def ExtractsBoth (ρ : VertexId → VertexId → Prop) (g g' : Graph)
    (x y : VertexId → Assembly → Planning (Nat × Assembly)) : Prop :=
  ∀ i j a b p q, ρ i j → a.Mirrored ρ b → p.graph = g → q.graph = g' →
    Paired (x i a) (y j b) p q
      (fun r s p q => s.1 = r.1 ∧ r.2.Mirrored ρ s.2 ∧ p.graph = g ∧ q.graph = g')
      fun f f' _ _ => Unmet ρ g g' f f'

theorem paired_observe (e e' : Event) {p q : Planner} {E : Fault → Fault → Planner → Planner → Prop}
    (hp : p.graph = g) (hq : q.graph = g') :
    Paired (observe e) (observe e') p q (fun _ _ p q => p.graph = g ∧ q.graph = g') E := by
  obtain ⟨_, p', hp', ⟨events, rfl⟩⟩ := (ends_observe e p fun _ _ => False).exists_ok
  obtain ⟨_, q', hq', ⟨events', rfl⟩⟩ := (ends_observe e' q fun _ _ => False).exists_ok
  exact paired_of_eq_ok hp' hq' ⟨hp, hq⟩

theorem paired_extractInputs {x y : VertexId → Assembly → Planning (Nat × Assembly)}
    (hextract : ExtractsBoth ρ g g' x y) {inputs inputs' : List Node}
    (hinputs : List.Forall₂ (fun a b => ∃ k l, a.vertexId? = some k ∧ b.vertexId? = some l ∧ ρ k l)
      inputs inputs') : ∀ a b p q, a.Mirrored ρ b → p.graph = g → q.graph = g' →
    Paired (extractInputs x inputs a) (extractInputs y inputs' b) p q
      (fun r s p q => s.1 = r.1 ∧ r.2.Mirrored ρ s.2 ∧ p.graph = g ∧ q.graph = g')
      fun f f' _ _ => Unmet ρ g g' f f' := by
  induction hinputs with
  | nil => exact fun _ _ _ _ h hp hq => paired_pure ⟨rfl, h, hp, hq⟩
  | @cons m n ms ns hmn _ ih =>
    intro a b p q h hp hq
    obtain ⟨k, l, hk, hl, hkl⟩ := hmn
    rw [extractInputs, extractInputs]
    simp only [hk, hl]
    apply (hextract k l a b p q hkl h hp hq).bind
    rintro ⟨position, a⟩ ⟨position', b⟩ p q ⟨hposition, h, hp, hq⟩
    apply (ih a b p q h hp hq).bind
    rintro ⟨positions, a⟩ ⟨positions', b⟩ p q ⟨hpositions, h, hp, hq⟩
    exact paired_pure ⟨congrArg₂ _ hposition hpositions, h, hp, hq⟩

/-- By induction on the depth: the vertices below related vertices are related. -/
theorem extractsBoth_extract (hg : g.Mirrored ρ g') (n : Nat) :
    ExtractsBoth ρ g g' (extract n) (extract n) := by
  induction n with
  | zero => exact fun _ _ _ _ _ _ _ _ _ _ => paired_throw (.inl rfl)
  | succ n ih =>
    intro i j a b p q hij h hp hq
    rw [extract, extract, h.lookup hg hij]
    cases a.built.lookup i with
    | some position => exact paired_pure ⟨rfl, h, hp, hq⟩
    | none =>
      obtain ⟨node, node', hnode, hnode', hop, htraits, htype, hinputs⟩ := hg.current i j hij
      have hcurrent : Paired (current i) (current j) p q
          (fun m m' p' q' => node = m ∧ node' = m' ∧ p = p' ∧ q = q')
          fun f f' _ _ => Unmet ρ g g' f f' := by
        refine paired_get ?_
        rw [hp, hq, hnode, hnode']
        exact paired_pure ⟨rfl, rfl, rfl, rfl⟩
      apply hcurrent.bind
      rintro _ _ _ _ ⟨rfl, rfl, rfl, rfl⟩
      by_cases hkind : node.operator.kind = .abstractConverter
      · simp only [Node.kind, hop, hkind, if_true]
        exact (.inr ⟨i, j, node, node', hij, hnode, hnode', rfl, rfl⟩ : Unmet ρ g g' _ _)
      simp only [Node.kind, hop, hkind, if_false]
      apply (paired_observe _ _ hp hq).bind
      rintro _ _ p q ⟨hp, hq⟩
      apply (paired_extractInputs ih hinputs a b p q h hp hq).bind
      rintro ⟨positions, a⟩ ⟨positions', b⟩ p q ⟨rfl, h, hp, hq⟩
      have hentries : b.entries = a.entries := h.entries
      refine paired_pure ⟨congrArg Array.size h.entries, ⟨?_, ?_⟩, hp, hq⟩
      · simp only [Assembly.push, hentries, hop, htraits, htype]
      · exact .cons ⟨hij, congrArg Array.size h.entries⟩ h.built

/-- The same plan comes out of mirrored graphs of one size. -/
theorem paired_finalPlan {p q : Planner} (hg : p.graph.Mirrored ρ q.graph)
    (hsize : q.graph.slots.size = p.graph.slots.size) {i j : VertexId} (hij : ρ i j) :
    Paired (finalPlan i) (finalPlan j) p q
      (fun plan plan' p' q' => plan' = plan ∧ p'.graph = p.graph ∧ q'.graph = q.graph)
      fun f f' _ _ => Unmet ρ p.graph q.graph f f' ∨ ∃ rule defect dump dump',
        f = .structural rule defect dump ∧ f' = .structural rule defect dump' := by
  refine paired_get ?_
  rw [Graph.depthBound, Graph.depthBound, hsize]
  apply ((extractsBoth_extract hg _ i j .empty .empty p q hij ⟨rfl, .nil⟩ rfl rfl).mono
    (fun _ _ _ _ h => h) fun _ _ _ _ h => .inl h).bind
  rintro ⟨position, a⟩ ⟨position', b⟩ p q ⟨rfl, h, hp, hq⟩
  have hentries := h.entries
  obtain ⟨entries, built⟩ := a
  obtain ⟨entries', built'⟩ := b
  obtain rfl : entries' = entries := hentries
  simp only
  split_ifs
  · exact paired_pure ⟨rfl, hp, hq⟩
  · exact .inr ⟨_, _, _, _, rfl, rfl⟩

end Planner

end QueryPlanner
