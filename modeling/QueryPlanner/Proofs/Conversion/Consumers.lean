import QueryPlanner.Proofs.Conversion.Supply

/-!
# Consumers of conversions

Whether a conversion of an expression is wanted depends on its parents, and at the root on the requested
traits. A conversion that is wanted takes the place of the expression for those who want it. Then less
is outstanding in the plan, and everybody else keeps the inputs that they had.
-/

namespace QueryPlanner

open QueryPlanner.Graph Planning Relation

theorem Conversion.wantedBy_iff {c : Conversion} {n : Node} :
    c.wantedBy n = true ↔ n.isConverter = false ∧ n.convention = c.target := by
  simp [Conversion.wantedBy]

namespace Planner

variable {p q r p₀ : Planner} {c : Conversion} {rule : Rule} {id : VertexId} {force : Bool}

/-- A parent that is no converter has the convention that the conversion produces, or the expression is
at the root and this convention is requested. -/
def Wants (p : Planner) (c : Conversion) (id : VertexId) : Prop :=
  (∃ i n, p.graph.Edge i id ∧ p.graph.current? i = some n ∧ n.isConverter = false ∧
    n.convention = c.target) ∨
  p.graph.root = some id ∧ ∃ traits ∈ p.settings.rootTraits, traits.convention = c.target

theorem Wants.congr (h : p.Agrees q) : q.Wants c id ↔ p.Wants c id := by
  rw [Wants, Wants, h.settings, h.graph.root]
  simp only [Graph.Edge, h.graph.edges, h.graph.current?]

theorem ends_isWanted (E : Fault → Planner → Prop) :
    Ends (isWanted c id) p (fun b q => q = p ∧ (b = true ↔ p.Wants c id)) E := by
  refine ends_bind.2 (ends_get.2 (ends_pure.2 ⟨rfl, ?_⟩))
  simp only [Wants, Bool.or_eq_true, Bool.and_eq_true, List.any_eq_true, List.mem_filterMap,
    mem_parents, Conversion.wantedBy_iff, decide_eq_true_eq, Option.any_eq_true]
  refine or_congr ⟨?_, ?_⟩ Iff.rfl
  · rintro ⟨n, ⟨i, hi, hn⟩, h⟩
    exact ⟨i, n, hi, hn, h⟩
  · rintro ⟨i, n, hi, hn, h⟩
    exact ⟨n, ⟨i, hi, hn⟩, h⟩

/-- A guaranteed converter rule has an occasion where it is wanted, for those who want it. -/
theorem ends_occasion?_converter (hkind : rule.kind = .converter) (hc : rule.conversion = some c)
    (hguaranteed : c.guaranteed = true) (E : Fault → Planner → Prop) :
    Ends (occasion? rule id force) p (fun occasion q => q = p ∧
      (occasion = none ∧ ¬ p.Wants c id ∨ occasion = some ⟨c.wantedBy, none⟩ ∧ p.Wants c id)) E := by
  simp only [occasion?, hkind, hc, hguaranteed, Bool.true_or, if_true]
  refine ends_bind.2 ((ends_isWanted _).mono ?_ fun _ _ h => h)
  rintro wanted _ ⟨rfl, hwanted⟩
  cases wanted with
  | false => exact ends_pure.2 ⟨rfl, .inl ⟨rfl, fun h => by cases hwanted.2 h⟩⟩
  | true => exact ends_pure.2 ⟨rfl, .inr ⟨rfl, hwanted.1 rfl⟩⟩

/-! ## Everybody else -/

/-- Expressions that do not accept a replacement keep their inputs. -/
def Spares (accepts : Node → Bool) (p q : Planner) : Prop :=
  ∀ i n, p.graph.current? i = some n → accepts n = false → q.graph.current? i = some n

variable {accepts : Node → Bool}

theorem Spares.trans (h : p.Spares accepts q) (h' : q.Spares accepts r) : p.Spares accepts r :=
  fun i n hn haccepts => h' i n (h i n hn haccepts) haccepts

theorem Extended.spares (h : p.Extended q) (hp : p.graph.Consistent p.settings.digestMode) :
    p.Spares accepts q := fun _ _ hn _ => (h.graph hp).current?_of_some hn

/-- Only parents that accept it are made to refer to the replacement, also if that fails. -/
theorem ends_substitute_spares (hp : p.graph.Consistent p.settings.digestMode)
    (hid : p.graph.contains id = true) (first : Node) (others : List Node) :
    Ends (substitute rule id accepts first others) p (fun _ q => p.Spares accepts q)
      fun _ q => p.Spares accepts q := by
  refine ends_substitute_of hp hid accepts first others (fun _ _ h => h.spares hp) ?_
  intro best p₁ result p₂ _ h₁ _ hall parents
  have hspares : p.Spares accepts p₂ := hall.spares hp
  refine ⟨fun _ => hspares, ?_, ?_⟩
  · rintro - _ ⟨events, rfl⟩
    exact hspares
  · intro node placeholder events hne hnode hr g q
    have hc := contracted_merge (hall.consistent hp).toLinked hnode hr
    have hq : p.Spares accepts q := by
      intro i n hn haccepts
      have hn₁ := h₁.extended.spares hp i n hn haccepts
      show Graph.current? _ i = _
      rw [hc.current, if_neg]
      · exact hspares i n hn haccepts
      · intro hi
        have hany := (List.mem_filter.1 hi).2
        rw [hn₁, Option.any_some, haccepts] at hany
        cases hany
    exact ⟨fun _ => hq, fun _ _ _ => hq⟩

/-- A try of a guaranteed converter rule changes the inputs of those alone who want its conversion. -/
theorem ends_attempt_spares (hp : p.graph.Consistent p.settings.digestMode)
    (hkind : rule.kind = .converter) (hc : rule.conversion = some c)
    (hguaranteed : c.guaranteed = true) (id : VertexId) (force : Bool) :
    Ends (attempt rule id force) p (fun _ q => p.Spares c.wantedBy q)
      fun _ q => p.Spares c.wantedBy q := by
  have hself : p.Spares c.wantedBy p := fun _ _ hn _ => hn
  refine ends_attempt_of (fun _ => hself) fun node hnode => ?_
  refine (ends_occasion?_converter hkind hc hguaranteed _).mono ?_ fun _ _ h => h
  rintro _ p ⟨rfl, ⟨rfl, -⟩ | ⟨rfl, -⟩⟩
  · exact hself
  refine ⟨hnode, ?_⟩
  split
  · exact hself
  · exact hself
  · refine (asks_fire rule node _).ends.mono ?_ fun _ _ h => h.extended.spares hp
    rintro (_ | ⟨first, others⟩) q hq
    · exact hq.extended.spares hp
    · have hspares : p.Spares c.wantedBy q := hq.extended.spares hp
      exact (ends_substitute_spares (hq.extended.consistent hp)
        (by rw [hq.graph.contains, contains_of_current hnode]) first others).mono
        (fun _ _ h => hspares.trans h) fun _ _ h => hspares.trans h

/-! ## Those who want it -/

variable {F : Operator → TraitSet → Prop} {P : Node → Prop} {node t u : Node}

/-- Who wants a conversion has more bulk than it, and is not reached from it. -/
theorem not_reaches_of_wantedBy {mode : DigestMode} {g : Graph} {result i : VertexId} {n v : Node}
    (hg : g.Consistent mode) (ht : g.UnfoldsTo id t) (hv : g.UnfoldsTo result v)
    (hbulk : v.bulk = t.bulk) (hedge : g.Edge i id) (hn : g.current? i = some n)
    (hwanted : c.wantedBy n = true) : ¬ ReflTransGen g.Edge result i := by
  intro hpath
  obtain ⟨w, hw⟩ := hg.exists_tree (contains_of_current hn)
  have hle := hv.le_of_reaches Node.bulk_le_of_mem hg.toLinked hpath hw
  have hmem : t ∈ w.inputs := by
    obtain ⟨t', ht', hid⟩ := hw.exists_input hg.toLinked hedge
    rwa [hid.unique ht] at ht'
  have hconverter : w.isConverter = false := by
    obtain ⟨n', hn', hw⟩ := hw
    obtain rfl := Option.some.inj (hn.symm.trans hn')
    obtain ⟨ts, -, rfl⟩ := (unfolds_operator (hg.currents i _ hn').isOperator).1 hw
    exact (Conversion.wantedBy_iff.1 hwanted).1
  have hlt := Node.bulk_lt_of_mem hmem hconverter
  omega

/-- A conversion that is wanted takes the place of an expression, and less is outstanding. -/
theorem Underway.exists_supply (hkeys : KeysRelateIn p₀.settings F Node.SameNeeds)
    (hp : p₀.Underway F P p) (hspanned : p.graph.Spanned) (ht : p.graph.UnfoldsTo id t)
    (hnode : node.Within F) (hu : p.graph.Unfolds node u) (hsupplies : Node.Supplies c.target t u)
    (hne : t.convention ≠ c.target) (hwants : p.Wants c id) (rule : Rule) :
    ∃ result q, substitute rule id c.wantedBy node [] p = .ok (some result) q ∧
      result ≠ id ∧ q.graph.contains result = true ∧
        p₀.Underway F (fun t' => ∃ t, P t ∧ Node.outstanding p₀.settings.rootTraits t' <
          Node.outstanding p₀.settings.rootTraits t) q := by
  obtain ⟨result, p₂, hadd, hcounted, hextended, hplaces⟩ := exists_add hp.consistent hu
  have hext := hextended.graph hp.consistent
  have hp₂ := hextended.consistent hp.consistent
  have hedges : ∀ i j, p.graph.Edge i j → p₂.graph.Edge i j := fun i j hedge =>
    (hext.edge i j (hp.consistent.edges_live _ hedge).1).2 hedge
  have ht₂ := ht.extends hext
  obtain ⟨v, hv, hsupplies⟩ : ∃ v, p₂.graph.UnfoldsTo result v ∧ Node.Supplies c.target t v := by
    have hsettings : p₂.settings = p₀.settings := hextended.settings.trans hp.settings
    have hwithin := within_add node p p₂ result hp.consistent hp.within hnode hadd
    rw [hsettings] at hp₂
    rw [hp.settings] at hplaces
    obtain ⟨v, hv, huv⟩ := hplaces.related Node.congruence_sameNeeds hp₂ (hkeys _ hp₂.toLinked hwithin)
      node result u hnode (hu.extends hext)
    exact ⟨v, hv, huv.supplies hsupplies⟩
  have hne' : result ≠ id := by
    rintro rfl
    rw [hv.unique ht₂] at hsupplies
    exact hne hsupplies.convention_eq
  obtain ⟨g, placeholder, parents, events, hok, hg, hparents, hr, hc⟩ :=
    Planner.exists_substitute rule c.wantedBy hp.consistent ht.contains hadd hne'
      fun i n hedge hn hwanted => not_reaches_of_wantedBy hp₂ ht₂ hv hsupplies.bulk_eq
        (hedges i id hedge) (hext.current?_of_some hn) hwanted
  have hsupplied : Supplied p₂.settings.digestMode c.target result id placeholder parents p₂.graph g := by
    refine ⟨hp₂.toLinked, hr, hc, hg.acyclic, ⟨t, v, ht₂, hv, hsupplies, hne⟩, fun i hi n hn => ?_⟩
    obtain ⟨-, n', hn', hwanted⟩ := (hparents i).1 hi
    obtain rfl := Option.some.inj (hn.symm.trans (hext.current?_of_some hn'))
    exact Conversion.wantedBy_iff.1 hwanted
  refine ⟨result, _, hok, hne', hc.contains hplaces.contains,
    hp.substituted hnode hadd hcounted hextended hg hc ?_⟩
  obtain ⟨root, t₀, hroot, ht₀, hP⟩ := hp.tree
  have hgroot := hc.root
  rw [hext.root, hroot] at hgroot
  rw [← hp.settings]
  rcases hwants with ⟨i, n, hedge, hn, hwanted⟩ | ⟨hid, hrequested⟩
  · have hi : i ∈ parents := (hparents i).2 ⟨hedge, n, hn, Conversion.wantedBy_iff.2 hwanted⟩
    have hpath := hspanned root hroot i (contains_of_current hn)
    have hrootid : root ≠ id := by
      rintro rfl
      exact hp.consistent.acyclic root (.tail' hpath hedge)
    rw [if_neg (by simpa using hrootid)] at hgroot
    obtain ⟨u₀, hu₀, heases, hlt⟩ := hsupplied.easedAt (hc.contains (ht₀.extends hext).contains) t₀
      (ht₀.extends hext)
    exact ⟨root, u₀, hgroot, hu₀, t₀, hP, heases.outstanding_lt
      (hlt ⟨i, hi, hpath.lift _ hedges⟩) _⟩
  · obtain rfl : root = id := Option.some.inj (hroot.symm.trans hid)
    rw [if_pos rfl] at hgroot
    obtain ⟨u₀, hu₀, heases, -⟩ := hsupplied.easedAt (hc.contains hplaces.contains) v hv
    rw [ht₀.unique ht] at hP
    exact ⟨result, u₀, hgroot, hu₀, t, hP, hsupplies.outstanding_lt heases hne hrequested⟩

end Planner

end QueryPlanner
