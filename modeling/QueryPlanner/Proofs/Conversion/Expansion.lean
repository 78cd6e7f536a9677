import QueryPlanner.Proofs.Planner.Extraction
import QueryPlanner.Proofs.Planner.Reduction

/-!
# Expanding requests in trees

A request for traits is expanded into a chain of converters and sorts over its input. Expanding some
of the requests of a plan leaves everything else as it is, and does not decide on the others: every
expression keeps its convention, and what it promises of its order is still kept.
-/

namespace QueryPlanner

open Relation

/-- What is in order by more fields is in order by fewer. -/
theorem Collation.satisfies_trans {a b c : Collation} (h : a.satisfies b = true)
    (h' : b.satisfies c = true) : a.satisfies c = true := by
  simp only [satisfies, List.isPrefixOf_iff_prefix] at *
  exact h'.trans h

namespace TraitSet

theorem satisfies_iff {a b : TraitSet} : a.satisfies b = true ↔
    a.convention = b.convention ∧ a.collation.satisfies b.collation = true := by
  simp [satisfies, Convention.satisfies]

theorem satisfies_refl (t : TraitSet) : t.satisfies t = true := by
  simp [satisfies_iff, Collation.satisfies]

theorem satisfies_trans {a b c : TraitSet} (h : a.satisfies b = true) (h' : b.satisfies c = true) :
    a.satisfies c = true := by
  rw [satisfies_iff] at *
  exact ⟨h.1.trans h'.1, Collation.satisfies_trans h.2 h'.2⟩

end TraitSet

theorem forall₂_singleton_iff {α β : Type*} {R : α → β → Prop} {a : α} {bs : List β} :
    List.Forall₂ R [a] bs ↔ ∃ b, R a b ∧ bs = [b] := by
  simp [List.forall₂_cons_left_iff]

namespace Node

variable {shared : Bool} {typed typed' : Prop} {arc : Convention → Convention → Prop}
  {a b t u v : Node} {ts us vs : List Node}

/-! ## Chains -/

/-- A chain of converters and sorts over an expression, empty maybe. A converter follows an arc from the
convention of its input and promises no other order than that of its input. Where row types are told,
all have that of their input. -/
inductive Converted (typed : Prop) (arc : Convention → Convention → Prop) (base : Node) : Node → Prop
  | here : Converted typed arc base base
  | converter {n : Node} {traits : TraitSet} {rowType : Schema} (h : Converted typed arc base n)
      (harc : arc n.convention traits.convention)
      (hcollation : n.traits.collation.satisfies traits.collation = true)
      (hrowType : typed → rowType = n.rowType) :
      Converted typed arc base ⟨.converter n.convention traits.convention, [n], traits, rowType⟩
  | sort {n : Node} {traits : TraitSet} {rowType : Schema} (h : Converted typed arc base n)
      (hconvention : n.convention = traits.convention) (hrowType : typed → rowType = n.rowType) :
      Converted typed arc base ⟨.sort traits.collation none, [n], traits, rowType⟩

/-- A chain leads along arcs. -/
theorem Converted.reaches (h : Converted typed arc a t) :
    ReflTransGen arc a.convention t.convention := by
  induction h with
  | here => exact .refl
  | converter _ harc _ _ ih => exact ih.tail harc
  | @sort n traits _ _ hconvention _ ih =>
    show ReflTransGen arc a.convention traits.convention
    rwa [← hconvention]

theorem Converted.mono (h : Converted typed arc a t) (himp : typed' → typed) :
    Converted typed' arc a t := by
  induction h with
  | here => exact .here
  | converter _ harc hcollation hrowType ih => exact .converter ih harc hcollation (hrowType ∘ himp)
  | sort _ hconvention hrowType ih => exact .sort ih hconvention (hrowType ∘ himp)

theorem Converted.rowType_eq (h : Converted typed arc a t) (ht : typed) : t.rowType = a.rowType := by
  induction h with
  | here => rfl
  | converter _ _ _ hrowType ih => exact (hrowType ht).trans ih
  | sort _ _ hrowType ih => exact (hrowType ht).trans ih

/-! ## Expansions -/

mutual

/-- Requests for traits have been expanded, some or all, and everything else is as it was. What takes
the place of a request is a chain over the expansion of its input and satisfies the request. Row types
are left out where vertices are shared, for they are no part of what makes expressions equal: the chain
may be found to be there already, over an input of another row type. Elsewhere they are what they were,
and those of chains are those of the requests if `typed` holds. -/
def Expands (shared : Bool) (typed : Prop) (arc : Convention → Convention → Prop) :
    Node → Node → Prop
  | ⟨op, inputs, traits, rowType⟩, u =>
    (∃ us type, u = ⟨op, us, traits, type⟩ ∧ (shared = false → type = rowType) ∧
      AllExpand shared typed arc inputs us) ∨
    op = .abstractConverter ∧ ∃ a, AllExpand shared typed arc inputs [a] ∧
      Converted (shared = false ∧ typed) arc a u ∧ u.traits.satisfies traits = true ∧
      (shared = false ∧ typed → u.rowType = rowType)

def AllExpand (shared : Bool) (typed : Prop) (arc : Convention → Convention → Prop) :
    List Node → List Node → Prop
  | [], us => us = []
  | t :: ts, us => ∃ u rest, us = u :: rest ∧ t.Expands shared typed arc u ∧
      AllExpand shared typed arc ts rest

end

theorem allExpand_iff :
    AllExpand shared typed arc ts us ↔ List.Forall₂ (Expands shared typed arc) ts us := by
  induction ts generalizing us with
  | nil => rw [AllExpand, List.forall₂_nil_left_iff]
  | cons t ts ih =>
    rw [AllExpand, List.forall₂_cons_left_iff]
    simp only [ih]
    constructor
    · rintro ⟨u, rest, rfl, htu, hrest⟩
      exact ⟨u, rest, htu, hrest, rfl⟩
    · rintro ⟨u, rest, htu, hrest, rfl⟩
      exact ⟨u, rest, rfl, htu, hrest⟩

theorem expands_iff : t.Expands shared typed arc u ↔
    (∃ us type, u = ⟨t.operator, us, t.traits, type⟩ ∧ (shared = false → type = t.rowType) ∧
      List.Forall₂ (Expands shared typed arc) t.inputs us) ∨
    t.operator = .abstractConverter ∧ ∃ a, List.Forall₂ (Expands shared typed arc) t.inputs [a] ∧
      Converted (shared = false ∧ typed) arc a u ∧ u.traits.satisfies t.traits = true ∧
      (shared = false ∧ typed → u.rowType = t.rowType) := by
  obtain ⟨op, inputs, traits, rowType⟩ := t
  simp only [Expands, allExpand_iff]

/-- Only requests are replaced. -/
theorem expands_iff_of_ne (hop : t.operator ≠ .abstractConverter) : t.Expands shared typed arc u ↔
    ∃ us type, u = ⟨t.operator, us, t.traits, type⟩ ∧ (shared = false → type = t.rowType) ∧
      List.Forall₂ (Expands shared typed arc) t.inputs us := by
  simp [expands_iff, hop]

theorem Expands.satisfies (h : t.Expands shared typed arc u) : u.traits.satisfies t.traits = true := by
  rcases expands_iff.1 h with ⟨us, type, rfl, -⟩ | ⟨-, _, -, -, hsatisfies, -⟩
  · exact t.traits.satisfies_refl
  · exact hsatisfies

theorem Expands.rowType_eq (h : t.Expands shared typed arc u) (ht : shared = false ∧ typed) :
    u.rowType = t.rowType := by
  rcases expands_iff.1 h with ⟨us, type, rfl, htype, -⟩ | ⟨-, _, -, -, -, hrowType⟩
  · exact htype ht.1
  · exact hrowType ht

/-- Expressions keep their convention. -/
theorem Expands.convention_eq (h : t.Expands shared typed arc u) : u.convention = t.convention :=
  (TraitSet.satisfies_iff.1 h.satisfies).1

/-- A chain stays one while requests below it are expanded. -/
theorem Converted.expand (h : Converted (shared = false ∧ typed) arc a t)
    (htu : t.Expands shared typed arc u) :
    ∃ b, a.Expands shared typed arc b ∧ Converted (shared = false ∧ typed) arc b u := by
  induction h generalizing u with
  | here => exact ⟨u, htu, .here⟩
  | @converter n traits rowType _ harc hcollation hrowType ih =>
    obtain ⟨us, type, rfl, htype, hus⟩ := (expands_iff_of_ne (by simp)).1 htu
    obtain ⟨m, hnm, rfl⟩ := forall₂_singleton_iff.1 hus
    obtain ⟨b, hab, hbm⟩ := ih hnm
    refine ⟨b, hab, ?_⟩
    have hconvention := hnm.convention_eq
    rw [← hconvention] at harc
    simp only [← hconvention]
    refine .converter hbm harc
      (Collation.satisfies_trans (TraitSet.satisfies_iff.1 hnm.satisfies).2 hcollation) fun h => ?_
    exact (htype h.1).trans ((hrowType h).trans (hnm.rowType_eq h).symm)
  | @sort n traits rowType _ hconvention hrowType ih =>
    obtain ⟨us, type, rfl, htype, hus⟩ := (expands_iff_of_ne (by simp)).1 htu
    obtain ⟨m, hnm, rfl⟩ := forall₂_singleton_iff.1 hus
    obtain ⟨b, hab, hbm⟩ := ih hnm
    refine ⟨b, hab, .sort hbm (hnm.convention_eq.trans hconvention) fun h => ?_⟩
    exact (htype h.1).trans ((hrowType h).trans (hnm.rowType_eq h).symm)

mutual

theorem Expands.refl (shared : Bool) (typed : Prop) (arc : Convention → Convention → Prop) :
    ∀ t : Node, t.Expands shared typed arc t
  | ⟨_, inputs, _, rowType⟩ => expands_iff.2 <| .inl
    ⟨inputs, rowType, rfl, fun _ => rfl, forall₂_expands_refl shared typed arc inputs⟩

theorem forall₂_expands_refl (shared : Bool) (typed : Prop) (arc : Convention → Convention → Prop) :
    ∀ ts : List Node, List.Forall₂ (Expands shared typed arc) ts ts
  | [] => .nil
  | t :: ts => .cons (Expands.refl shared typed arc t) (forall₂_expands_refl shared typed arc ts)

end

mutual

theorem Expands.trans : ∀ (t : Node) {u v : Node}, t.Expands shared typed arc u →
    u.Expands shared typed arc v → t.Expands shared typed arc v
  | ⟨_, inputs, _, _⟩, u, v, htu, huv => by
    rcases expands_iff.1 htu with ⟨us, type, rfl, htype, hus⟩ | ⟨hop, a, ha, hau, hsatisfies, hrowType⟩
    · rcases expands_iff.1 huv with
        ⟨vs, type', rfl, htype', hvs⟩ | ⟨hop, b, hb, hbv, hsatisfies, hrowType⟩
      · exact expands_iff.2 (.inl ⟨vs, type', rfl, fun h => (htype' h).trans (htype h),
          forall₂_expands_trans inputs hus hvs⟩)
      · exact expands_iff.2 (.inr ⟨hop, b, forall₂_expands_trans inputs hus hb, hbv, hsatisfies,
          fun h => (hrowType h).trans (htype h.1)⟩)
    · obtain ⟨b, hab, hbv⟩ := hau.expand huv
      exact expands_iff.2 (.inr ⟨hop, b, forall₂_expands_trans inputs ha (.cons hab .nil), hbv,
        TraitSet.satisfies_trans huv.satisfies hsatisfies,
        fun h => (huv.rowType_eq h).trans (hrowType h)⟩)

theorem forall₂_expands_trans : ∀ (ts : List Node) {us vs : List Node},
    List.Forall₂ (Expands shared typed arc) ts us →
      List.Forall₂ (Expands shared typed arc) us vs → List.Forall₂ (Expands shared typed arc) ts vs
  | [], _, _, .nil, .nil => .nil
  | t :: ts, _, _, .cons htu htus, .cons huv huvs =>
    .cons (Expands.trans t htu huv) (forall₂_expands_trans ts htus huvs)

end

mutual

/-- Trees of other row types are expansions of each other where these are left out. -/
theorem expands_of_bare_eq : ∀ (t u : Node), u.bare = t.bare → t.Expands true typed arc u
  | ⟨_, inputs, _, _⟩, ⟨_, inputs', _, rowType'⟩, h => by
    rw [bare, bare, mk.injEq] at h
    obtain ⟨rfl, hinputs, rfl, -⟩ := h
    exact expands_iff.2 (.inl ⟨inputs', rowType', rfl, nofun,
      forall₂_expands_of_bares_eq inputs inputs' hinputs⟩)

theorem forall₂_expands_of_bares_eq : ∀ (ts us : List Node), bares us = bares ts →
    List.Forall₂ (Expands true typed arc) ts us
  | [], [], _ => .nil
  | [], _ :: _, h => by cases h
  | _ :: _, [], h => by cases h
  | t :: ts, u :: us, h => by
    rw [bares, bares, List.cons.injEq] at h
    exact .cons (expands_of_bare_eq t u h.1) (forall₂_expands_of_bares_eq ts us h.2)

end

/-- Trees that are the same, row types aside where vertices are shared. -/
structure Same (shared : Bool) (t u : Node) : Prop where
  bare : u.bare = t.bare
  eq : shared = false → u = t

theorem congruence_same (shared : Bool) : Node.Congruence (Same shared) where
  refl _ := ⟨rfl, fun _ => rfl⟩
  trans h h' := ⟨h'.bare.trans h.bare, fun hs => (h'.eq hs).trans (h.eq hs)⟩
  inputs n _ _ h := ⟨congruence_bare.inputs n (h.imp fun _ _ h => h.bare), fun hs =>
    (congruence_eq.inputs n (h.imp fun _ _ h => (h.eq hs).symm)).symm⟩

theorem Same.expands (h : Same shared t u) : t.Expands shared typed arc u := by
  cases shared with
  | false =>
    rw [h.eq rfl]
    exact .refl false typed arc t
  | true => exact expands_of_bare_eq t u h.bare

/-! ## Requests -/

mutual

/-- The number of requests in a tree. -/
def requests : Node → Nat
  | ⟨op, inputs, _, _⟩ => (if op = .abstractConverter then 1 else 0) + requestsIn inputs

def requestsIn : List Node → Nat
  | [] => 0
  | t :: ts => t.requests + requestsIn ts

end

theorem requests_eq (t : Node) : t.requests =
    (if t.operator = .abstractConverter then 1 else 0) + requestsIn t.inputs := by
  obtain ⟨op, inputs, traits, rowType⟩ := t
  rw [requests]

theorem requests_le_of_mem (h : u ∈ t.inputs) : u.requests ≤ t.requests := by
  have hle : ∀ {ts : List Node}, u ∈ ts → u.requests ≤ requestsIn ts := by
    intro ts
    induction ts with
    | nil => simp
    | cons t ts ih =>
      rw [requestsIn, List.mem_cons]
      rintro (rfl | hmem)
      · exact Nat.le_add_right _ _
      · exact (ih hmem).trans (Nat.le_add_left _ _)
  rw [requests_eq t]
  exact (hle h).trans (Nat.le_add_left _ _)

mutual

theorem requests_bare : ∀ t : Node, t.bare.requests = t.requests
  | ⟨op, inputs, traits, rowType⟩ => by rw [bare, requests, requests, requestsIn_bares inputs]

theorem requestsIn_bares : ∀ ts : List Node, requestsIn (bares ts) = requestsIn ts
  | [] => rfl
  | t :: ts => by rw [bares, requestsIn, requestsIn, requests_bare t, requestsIn_bares ts]

end

/-- A chain adds no requests. -/
theorem Converted.requests_eq (h : Converted typed arc a t) : t.requests = a.requests := by
  induction h with
  | here => rfl
  | converter _ _ _ _ ih => simp [requests, requestsIn, ih]
  | sort _ _ _ ih => simp [requests, requestsIn, ih]

/-- Some requests were expanded. -/
structure Resolves (shared : Bool) (typed : Prop) (arc : Convention → Convention → Prop)
    (t u : Node) : Prop where
  expands : t.Expands shared typed arc u
  requests_lt : u.requests < t.requests

/-- Trees over inputs of which some are equal and the others have fewer requests. -/
theorem resolves_inputs (n : Node)
    (h : List.Forall₂ (fun t u => u = t ∨ Resolves shared typed arc t u) ts us) :
    ({ n with inputs := us } : Node) = { n with inputs := ts } ∨
      Resolves shared typed arc { n with inputs := ts } { n with inputs := us } := by
  have hcases : us = ts ∨
      List.Forall₂ (Expands shared typed arc) ts us ∧ requestsIn us < requestsIn ts := by
    induction h with
    | nil => exact .inl rfl
    | @cons t u ts us htu h ih =>
      have hall : List.Forall₂ (Expands shared typed arc) ts us := h.imp fun t u htu => by
        rcases htu with rfl | htu
        · exact .refl shared typed arc u
        · exact htu.expands
      rw [requestsIn, requestsIn]
      rcases htu with rfl | htu
      · rcases ih with rfl | ⟨-, hlt⟩
        · exact .inl rfl
        · exact .inr ⟨.cons (.refl shared typed arc u) hall, by omega⟩
      · refine .inr ⟨.cons htu.expands hall, ?_⟩
        have hlt := htu.requests_lt
        rcases ih with rfl | ⟨-, hlt'⟩ <;> omega
  rcases hcases with rfl | ⟨hall, hlt⟩
  · exact .inl rfl
  · refine .inr ⟨expands_iff.2 (.inl ⟨us, n.rowType, rfl, fun _ => rfl, hall⟩), ?_⟩
    rw [requests_eq, requests_eq]
    exact Nat.add_lt_add_left hlt _

theorem reduction_resolves (shared : Bool) (typed : Prop) (arc : Convention → Convention → Prop) :
    Node.Reduction requests (Resolves shared typed arc) where
  lt h := h.requests_lt
  le_of_mem := requests_le_of_mem
  trans {t _ _} h h' := ⟨.trans t h.expands h'.expands, h'.requests_lt.trans h.requests_lt⟩
  congruence := {
    refl := fun _ => .inl rfl
    trans := by
      rintro t u v (rfl | htu) (rfl | huv)
      · exact .inl rfl
      · exact .inr huv
      · exact .inr htu
      · exact .inr ⟨.trans t htu.expands huv.expands, huv.requests_lt.trans htu.requests_lt⟩
    inputs := fun n _ _ h => resolves_inputs n h }

/-- A chain over the input of a request takes its place. -/
theorem resolves_request {traits : TraitSet} {rowType : Schema}
    (h : Converted (shared = false ∧ typed) arc a u) (hsatisfies : u.traits.satisfies traits = true)
    (hrowType : shared = false ∧ typed → rowType = a.rowType) (hv : Same shared u v) :
    Resolves shared typed arc ⟨.abstractConverter, [a], traits, rowType⟩ v where
  expands := by
    refine .trans _ (expands_iff.2 (.inr ⟨rfl, a, ?_, h, hsatisfies, fun ht => ?_⟩)) hv.expands
    · exact forall₂_expands_refl shared typed arc [a]
    · exact (h.rowType_eq ht).trans (hrowType ht).symm
  requests_lt := by
    rw [← requests_bare v, hv.bare, requests_bare u, h.requests_eq]
    simp [requests, requestsIn]

/-! ## What is said of requests -/

section Everywhere

variable {P : Node → Prop}

/-- A chain adds no requests, so what is said of requests is said of those of its base. -/
theorem Converted.everywhere_iff (h : Converted typed arc a t) :
    (t.Everywhere fun n => n.operator = .abstractConverter → P n) ↔
      a.Everywhere fun n => n.operator = .abstractConverter → P n := by
  induction h with
  | here => rfl
  | converter _ _ _ _ ih => rw [Node.everywhere_iff]; simp [ih]
  | sort _ _ _ ih => rw [Node.everywhere_iff]; simp [ih]

/-- What holds of every request that can be replaced, and does not depend on what is below a request
but for expansions. -/
structure Invariant (shared : Bool) (typed : Prop) (arc : Convention → Convention → Prop)
    (P : Node → Prop) : Prop where
  kept : ∀ {t : Node} {us : List Node} {rowType : Schema}, (shared = false → rowType = t.rowType) →
    List.Forall₂ (Expands shared typed arc) t.inputs us →
      (P ⟨t.operator, us, t.traits, rowType⟩ ↔ P t)
  replaced : ∀ {t a u : Node}, List.Forall₂ (Expands shared typed arc) t.inputs [a] →
    Converted (shared = false ∧ typed) arc a u → u.traits.satisfies t.traits = true →
      (shared = false ∧ typed → u.rowType = t.rowType) → P t

mutual

/-- An expansion does not decide what holds of the requests. -/
theorem Expands.everywhere_iff (hP : Invariant shared typed arc P) :
    ∀ (t : Node) {u : Node}, t.Expands shared typed arc u →
      ((u.Everywhere fun n => n.operator = .abstractConverter → P n) ↔
        t.Everywhere fun n => n.operator = .abstractConverter → P n)
  | ⟨op, inputs, traits, rowType⟩, u, h => by
    rcases expands_iff.1 h with ⟨us, type, rfl, htype, hus⟩ | ⟨hop, a, ha, hau, hsatisfies, hrowType⟩
    · rw [Node.everywhere_iff, Node.everywhere_iff]
      refine and_congr (imp_congr_right fun _ => ?_) (forall₂_everywhere_iff hP inputs hus)
      exact hP.kept (t := ⟨op, inputs, traits, rowType⟩) htype hus
    · rw [hau.everywhere_iff, Node.everywhere_iff (n := ⟨op, inputs, traits, rowType⟩),
        ← forall₂_everywhere_iff hP inputs ha, List.forall_mem_singleton, and_iff_right]
      exact fun _ => hP.replaced ha hau hsatisfies hrowType

theorem forall₂_everywhere_iff (hP : Invariant shared typed arc P) :
    ∀ (ts : List Node) {us : List Node}, List.Forall₂ (Expands shared typed arc) ts us →
      ((∀ u ∈ us, u.Everywhere fun n => n.operator = .abstractConverter → P n) ↔
        ∀ t ∈ ts, t.Everywhere fun n => n.operator = .abstractConverter → P n)
  | [], _, .nil => by simp
  | t :: ts, _, .cons htu htus => by
    rw [List.forall_mem_cons, List.forall_mem_cons, Expands.everywhere_iff hP t htu,
      forall₂_everywhere_iff hP ts htus]

end

end Everywhere

/-- Every request has one input. -/
def RequestsUnary (t : Node) : Prop :=
  t.Everywhere fun n => n.operator = .abstractConverter → n.inputs.length = 1

/-- The convention of every request can be reached from that of its input. -/
def Resolvable (arc : Convention → Convention → Prop) (t : Node) : Prop :=
  t.Everywhere fun n => n.operator = .abstractConverter →
    ∀ a ∈ n.inputs, ReflTransGen arc a.convention n.convention

/-- Every request has the row type of its input. -/
def RequestsTyped (t : Node) : Prop :=
  t.Everywhere fun n => n.operator = .abstractConverter → ∀ a ∈ n.inputs, n.rowType = a.rowType

theorem Expands.requestsUnary_iff (h : t.Expands shared typed arc u) :
    u.RequestsUnary ↔ t.RequestsUnary :=
  Expands.everywhere_iff
    ⟨fun _ h => by rw [h.length_eq], fun h _ _ _ => by rw [h.length_eq, List.length_singleton]⟩ t h

theorem Expands.requestsTyped_iff (h : t.Expands false typed arc u) (ht : typed) :
    u.RequestsTyped ↔ t.RequestsTyped := by
  have htold : false = false ∧ typed := ⟨rfl, ht⟩
  refine Expands.everywhere_iff
    ⟨fun {t us rowType} htype h => ?_, fun {t a u} h hau _ hrowType => ?_⟩ t h
  · show (∀ u ∈ us, rowType = u.rowType) ↔ ∀ a ∈ t.inputs, t.rowType = a.rowType
    rw [htype rfl]
    generalize t.inputs = ts at h
    induction h with
    | nil => simp
    | cons htu _ ih => rw [List.forall_mem_cons, List.forall_mem_cons, ih, htu.rowType_eq htold]
  · obtain ⟨b, bs, hba, hnil, hinputs⟩ := List.forall₂_cons_right_iff.1 h
    obtain rfl := List.forall₂_nil_right_iff.1 hnil
    rw [hinputs, List.forall_mem_singleton, ← hba.rowType_eq htold, ← hau.rowType_eq htold,
      hrowType htold]

/-- An expansion does not decide whether the remaining requests can be met. -/
theorem Expands.resolvable_iff (h : t.Expands shared typed arc u) :
    u.Resolvable arc ↔ t.Resolvable arc := by
  refine Expands.everywhere_iff ⟨fun {t us _} _ h => ?_, fun {t a u} h hau hsatisfies _ => ?_⟩ t h
  · show (∀ u ∈ us, ReflTransGen arc u.convention t.convention) ↔
      ∀ a ∈ t.inputs, ReflTransGen arc a.convention t.convention
    generalize t.inputs = ts at h
    induction h with
    | nil => simp
    | cons htu _ ih => rw [List.forall_mem_cons, List.forall_mem_cons, ih, htu.convention_eq]
  · obtain ⟨b, bs, hba, hnil, hinputs⟩ := List.forall₂_cons_right_iff.1 h
    obtain rfl := List.forall₂_nil_right_iff.1 hnil
    rw [hinputs, List.forall_mem_singleton, ← hba.convention_eq]
    rw [← show u.convention = t.convention from (TraitSet.satisfies_iff.1 hsatisfies).1]
    exact hau.reaches

end Node

end QueryPlanner
