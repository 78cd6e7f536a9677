import QueryPlanner.Proofs.Graph.Unfolding

/-!
# The demand for conversions

An expression that is no converter wants its inputs in its own convention. Every input in another one
counts with its bulk, the number of expressions in it that are no converters: converting the input may
pass the demand on to all of these. Converting an input does not change its bulk, so this demand
decreases although conversions create new demand below.
-/

namespace QueryPlanner

theorem Operator.isConverter_eq_kind (op : Operator) : op.isConverter =
    (op.kind = .converter || op.kind = .abstractConverter) := by
  cases op <;> rfl

namespace Node

variable {t u v : Node} {op : Operator} {traits traits' : TraitSet} {ts us : List Node}
  {target : Convention}

/-! ## Bulk -/

mutual

/-- The number of expressions in a tree that are no converters, one at least. -/
def bulk : Node → Nat
  | ⟨op, inputs, _, _⟩ => if op.isConverter = true then max 1 (bulks inputs) else bulks inputs + 1

def bulks : List Node → Nat
  | [] => 0
  | t :: ts => t.bulk + bulks ts

end

theorem bulk_eq (t : Node) :
    t.bulk = if t.isConverter = true then max 1 (bulks t.inputs) else bulks t.inputs + 1 := by
  obtain ⟨op, inputs, traits, rowType⟩ := t
  rw [bulk, isConverter]

theorem bulk_pos (t : Node) : 0 < t.bulk := by
  rw [bulk_eq]
  split_ifs <;> omega

theorem bulk_le_bulks (h : u ∈ ts) : u.bulk ≤ bulks ts := by
  induction ts with
  | nil => cases h
  | cons t ts ih =>
    rw [bulks]
    rcases List.mem_cons.1 h with rfl | h
    · exact Nat.le_add_right _ _
    · exact (ih h).trans (Nat.le_add_left _ _)

theorem bulk_le_of_mem (h : u ∈ t.inputs) : u.bulk ≤ t.bulk := by
  have hle := bulk_le_bulks h
  rw [bulk_eq t]
  split_ifs <;> omega

/-- Every expression that is no converter adds to the bulk. -/
theorem bulk_lt_of_mem (h : u ∈ t.inputs) (ht : t.isConverter = false) : u.bulk < t.bulk := by
  have hle := bulk_le_bulks h
  rw [bulk_eq t, ht]
  simp only [Bool.false_eq_true, if_false]
  omega

/-! ## Demand -/

/-- What an operator with traits wants of an input: nothing if the input is in its convention. -/
def want (op : Operator) (traits : TraitSet) (t : Node) : Nat :=
  if op.isConverter = true ∨ t.convention = traits.convention then 0 else t.bulk

mutual

/-- What all expressions in a tree want of their inputs. -/
def demand : Node → Nat
  | ⟨op, inputs, traits, _⟩ => demands op traits inputs

/-- What an operator with traits wants of its inputs, and what is wanted below. -/
def demands (op : Operator) (traits : TraitSet) : List Node → Nat
  | [] => 0
  | t :: ts => want op traits t + t.demand + demands op traits ts

end

theorem demand_eq (t : Node) : t.demand = demands t.operator t.traits t.inputs := by
  obtain ⟨op, inputs, traits, rowType⟩ := t
  rw [demand]

theorem want_le (op : Operator) (traits : TraitSet) (t : Node) : want op traits t ≤ t.bulk := by
  rw [want]
  split_ifs <;> omega

theorem want_of_isConverter (h : op.isConverter = true) : want op traits t = 0 := if_pos (.inl h)

theorem want_of_ne (h : op.isConverter = false) (hne : t.convention ≠ traits.convention) :
    want op traits t = t.bulk :=
  if_neg (by simp [h, hne])

theorem want_congr (hconvention : u.convention = t.convention) (hbulk : u.bulk = t.bulk) :
    want op traits u = want op traits t := by
  rw [want, want, hconvention, hbulk]

/-- Converters want nothing of their inputs. -/
theorem demands_of_isConverter (h : op.isConverter = true) (traits traits' : TraitSet) :
    demands op traits' ts = demands op traits ts := by
  induction ts with
  | nil => rw [demands, demands]
  | cons t ts ih => rw [demands, demands, want_of_isConverter h, want_of_isConverter h, ih]

/-- In another convention an operator wants no more than the bulk of its inputs. -/
theorem demands_le (op : Operator) (traits traits' : TraitSet) (ts : List Node) :
    demands op traits' ts ≤ demands op traits ts + bulks ts := by
  induction ts with
  | nil => rw [demands, demands, bulks]
  | cons t ts ih =>
    have hle := want_le op traits' t
    rw [demands, demands, bulks]
    omega

/-- What is wanted of a plan: what its expressions want of each other, and what is requested of the plan
itself. -/
def outstanding (requested : Option TraitSet) (t : Node) : Nat :=
  t.demand + if ∃ traits ∈ requested, traits.convention ≠ t.convention then t.bulk else 0

/-! ## Conversions -/

/-- The second tree is the first one in another convention: what it wants in addition is less than
what is no longer wanted of it. -/
structure Supplies (target : Convention) (t u : Node) : Prop where
  convention_eq : u.convention = target
  bulk_eq : u.bulk = t.bulk
  demand_lt : u.demand < t.demand + t.bulk

theorem supplies_wrapped (source target : Convention) (t : Node) (rowType : Schema) :
    Supplies target t
      ⟨.converter source target, [t], t.traits.replace (.convention target), rowType⟩ where
  convention_eq := rfl
  bulk_eq := by
    have hpos := t.bulk_pos
    show max 1 (t.bulk + 0) = t.bulk
    omega
  demand_lt := by
    have hpos := t.bulk_pos
    rw [demand, demands, demands, want_of_isConverter rfl]
    omega

theorem supplies_retagged (target : Convention) (t : Node) :
    Supplies target t { t with traits := t.traits.replace (.convention target) } where
  convention_eq := rfl
  bulk_eq := by rw [Node.bulk_eq, Node.bulk_eq t, isConverter, isConverter]
  demand_lt := by
    have hpos := t.bulk_pos
    rw [demand_eq t]
    show demands t.operator (t.traits.replace (.convention target)) t.inputs < _
    cases hconverter : t.operator.isConverter with
    | true =>
      rw [demands_of_isConverter hconverter t.traits]
      omega
    | false =>
      have hle := demands_le t.operator t.traits (t.traits.replace (.convention target)) t.inputs
      have hbulk := Node.bulk_eq t
      rw [isConverter, hconverter] at hbulk
      simp only [Bool.false_eq_true, if_false] at hbulk
      omega

/-- Trees of which the same is wanted, and that want the same. -/
structure SameNeeds (t u : Node) : Prop where
  convention_eq : u.convention = t.convention
  bulk_eq : u.bulk = t.bulk
  demand_eq : u.demand = t.demand

theorem SameNeeds.supplies (h : SameNeeds u v) (hu : Supplies target t u) : Supplies target t v where
  convention_eq := h.convention_eq.trans hu.convention_eq
  bulk_eq := h.bulk_eq.trans hu.bulk_eq
  demand_lt := h.demand_eq ▸ hu.demand_lt

theorem congruence_sameNeeds : Node.Congruence SameNeeds where
  refl _ := ⟨rfl, rfl, rfl⟩
  trans h h' := ⟨h'.convention_eq.trans h.convention_eq, h'.bulk_eq.trans h.bulk_eq,
    h'.demand_eq.trans h.demand_eq⟩
  inputs n ts us h := by
    have hinputs : bulks us = bulks ts ∧
        demands n.operator n.traits us = demands n.operator n.traits ts := by
      induction h with
      | nil => exact ⟨rfl, rfl⟩
      | cons htu _ ih =>
        rw [bulks, bulks, demands, demands, want_congr htu.convention_eq htu.bulk_eq, htu.bulk_eq,
          htu.demand_eq, ih.1, ih.2]
        exact ⟨rfl, rfl⟩
    refine ⟨rfl, ?_, ?_⟩
    · rw [Node.bulk_eq, Node.bulk_eq { n with inputs := ts }, isConverter, isConverter, hinputs.1]
    · rw [Node.demand_eq, Node.demand_eq { n with inputs := ts }, hinputs.2]

/-- Expressions of one kind and convention want the same of the same inputs. -/
theorem sameNeeds_of_kind {n n' : Node} (hkind : n.operator.kind = n'.operator.kind)
    (htraits : n.traits = n'.traits) (ts : List Node) :
    SameNeeds { n with inputs := ts } { n' with inputs := ts } := by
  have hconverter : n'.operator.isConverter = n.operator.isConverter := by
    rw [Operator.isConverter_eq_kind, Operator.isConverter_eq_kind, hkind]
  have hwant : ∀ t, want n'.operator n'.traits t = want n.operator n.traits t := by
    intro t
    rw [want, want, hconverter, htraits]
  have hdemands : ∀ us, demands n'.operator n'.traits us = demands n.operator n.traits us := by
    intro us
    induction us with
    | nil => rfl
    | cons u us ih => rw [demands, demands, hwant, ih]
  refine ⟨congrArg TraitSet.convention htraits.symm, ?_, ?_⟩
  · rw [bulk_eq, bulk_eq { n with inputs := ts }, isConverter, isConverter, hconverter]
  · rw [demand_eq, demand_eq { n with inputs := ts }, hdemands]

/-- The second tree stands where the first one stood and wants no more. -/
structure Eases (t u : Node) : Prop where
  convention_eq : u.convention = t.convention
  bulk_eq : u.bulk = t.bulk
  demand_le : u.demand ≤ t.demand

theorem Eases.outstanding_lt (h : Eases t u) (hlt : u.demand < t.demand)
    (requested : Option TraitSet) : outstanding requested u < outstanding requested t := by
  rw [outstanding, outstanding, h.convention_eq, h.bulk_eq]
  exact Nat.add_lt_add_right hlt _

/-- A conversion to what is requested. -/
theorem Supplies.outstanding_lt (h : Supplies target t u) (huv : Eases u v)
    (hne : t.convention ≠ target) {requested : Option TraitSet}
    (hrequested : ∃ traits ∈ requested, traits.convention = target) :
    outstanding requested v < outstanding requested t := by
  obtain ⟨traits, rfl, rfl⟩ := hrequested
  have hv : v.convention = traits.convention := huv.convention_eq.trans h.convention_eq
  have hle := huv.demand_le
  have hlt := h.demand_lt
  rw [outstanding, outstanding, if_neg (by simp [hv]), if_pos ⟨traits, rfl, hne.symm⟩]
  omega

end Node

end QueryPlanner
