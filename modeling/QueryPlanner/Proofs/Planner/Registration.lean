import QueryPlanner.Proofs.Conversion.Chains

/-!
# The tables of registered rules

Whatever rules a planner is asked to register, its tables agree: descriptions are found in one table
as in the other, arcs are those of the guaranteed converter rules, and companions those of the other
converter rules. A call that answers false or fails leaves all tables as they are.
-/

namespace QueryPlanner

open Planning Planner

variable {rule : Rule} {c : Conversion} {source target : Convention}

namespace Rule

/-- A converter rule that promises to take every expression of one convention to the other. -/
def guarantees (rule : Rule) (source target : Convention) : Bool :=
  rule.conversion.any fun c => c.guaranteed && c.source = source && c.target = target

/-- A converter rule that may leave an expression as it is. -/
def LacksGuarantee (rule : Rule) : Prop := ∃ c, rule.conversion = some c ∧ c.guaranteed = false

theorem guarantees_iff (hc : rule.conversion = some c) (hg : c.guaranteed = true) :
    rule.guarantees source target = true ↔ source = c.source ∧ target = c.target := by
  simp [guarantees, hc, hg, eq_comm (a := source), eq_comm (a := target)]

theorem guarantees_eq_false (h : ∀ c, rule.conversion = some c → c.guaranteed = false) :
    rule.guarantees source target = false := by
  unfold guarantees
  cases hc : rule.conversion with
  | none => rfl
  | some c => simp [h c hc]

theorem exists_companion (h : rule.conversion = some c) :
    ∃ companion, rule.companion = .ok companion := by
  simp [companion, h]

end Rule

namespace Registry

variable {r r' : Registry} {d : String} {s t : Convention}

/-! ## One call -/

/-- A rule is entered in the tables that it belongs to. -/
inductive Enters (r : Registry) (rule : Rule) : Registry → Prop
  | alone (hc : rule.conversion = none) : Enters r rule (r.enter rule)
  | guaranteed {c : Conversion} (hc : rule.conversion = some c) (hg : c.guaranteed = true) :
      Enters r rule { r.enter rule with
        conversions := r.conversions.addArc c.source c.target
        converters := addTo (c.source, c.target) rule r.converters }
  | withCompanion {c : Conversion} {companion : Rule} (hc : rule.conversion = some c)
      (hg : c.guaranteed = false) (hcompanion : rule.companion = .ok companion) :
      Enters r rule { r.enter rule with
        companions := (rule.description, companion) :: r.companions }

/-- Registering a rule: there is a rule of the same description, or the pattern has a defect, or the
rule is entered. -/
theorem add_cases (r : Registry) (rule : Rule) :
    ((r.find? rule.description).isSome ∧ r.add rule = .ok none) ∨
    (r.find? rule.description = none ∧ ∃ defect, rule.pattern.defect? = some defect ∧
      r.add rule = .error (.invalidPattern rule.description defect)) ∨
    (r.find? rule.description = none ∧ rule.pattern.defect? = none ∧
      ∃ r', r.add rule = .ok (some r') ∧ r.Enters rule r') := by
  unfold add
  cases r.find? rule.description with
  | some x => exact .inl ⟨rfl, rfl⟩
  | none =>
    refine .inr ?_
    cases rule.pattern.defect? with
    | some defect => exact .inl ⟨rfl, defect, rfl, rfl⟩
    | none =>
      refine .inr ⟨rfl, rfl, ?_⟩
      cases hc : rule.conversion with
      | none => exact ⟨_, rfl, .alone hc⟩
      | some c =>
        obtain ⟨companion, hcompanion⟩ := Rule.exists_companion hc
        simp only [hcompanion]
        cases hg : c.guaranteed with
        | true => exact ⟨_, rfl, .guaranteed hc hg⟩
        | false => exact ⟨_, rfl, .withCompanion hc hg hcompanion⟩

namespace Enters

variable (h : r.Enters rule r')

include h

theorem rules_eq : r'.rules = r.rules ++ [rule] := by cases h <;> rfl

theorem byDescription_eq : r'.byDescription = (rule.description, rule) :: r.byDescription := by
  cases h <;> rfl

/-- The tables of conversions change for the guaranteed converter rules. -/
theorem conversions_cases :
    (∃ c, rule.conversion = some c ∧ c.guaranteed = true ∧
      r'.conversions = r.conversions.addArc c.source c.target ∧
      r'.converters = addTo (c.source, c.target) rule r.converters) ∨
    ((∀ s t, rule.guarantees s t = false) ∧ r'.conversions = r.conversions ∧
      r'.converters = r.converters) := by
  cases h with
  | alone hc => exact .inr ⟨fun _ _ => Rule.guarantees_eq_false (by simp [hc]), rfl, rfl⟩
  | guaranteed hc hg => exact .inl ⟨_, hc, hg, rfl, rfl⟩
  | withCompanion hc hg =>
    exact .inr ⟨fun _ _ => Rule.guarantees_eq_false (by simp [hc, hg]), rfl, rfl⟩

theorem arc_iff : r'.conversions.Arc s t ↔ r.conversions.Arc s t ∨ rule.guarantees s t = true := by
  rcases h.conversions_cases with ⟨c, hc, hg, harcs, -⟩ | ⟨hnone, harcs, -⟩
  · rw [harcs, ConversionGraph.arc_addArc, Rule.guarantees_iff hc hg]
  · rw [harcs, hnone]
    exact (or_iff_left Bool.false_ne_true).symm

theorem convertersOf_eq :
    r'.convertersOf s t = r.convertersOf s t ++ if rule.guarantees s t then [rule] else [] := by
  rcases h.conversions_cases with ⟨c, hc, hg, -, hconverters⟩ | ⟨hnone, -, hconverters⟩
  · simp only [convertersOf, hconverters, lookup_addTo, Rule.guarantees_iff hc hg, Prod.mk.injEq]
  · rw [convertersOf, hconverters, hnone]
    exact (List.append_nil _).symm

theorem companion?_eq_some_iff {companion : Rule} (hnew : r.companion? rule.description = none) :
    r'.companion? d = some companion ↔ r.companion? d = some companion ∨
      rule.description = d ∧ rule.LacksGuarantee ∧ rule.companion = .ok companion := by
  cases h with
  | alone hc =>
    refine (or_iff_left ?_).symm
    rintro ⟨-, ⟨c, hc', -⟩, -⟩
    cases hc.symm.trans hc'
  | guaranteed hc hg =>
    refine (or_iff_left ?_).symm
    rintro ⟨-, ⟨c, hc', hg'⟩, -⟩
    cases hc.symm.trans hc'
    cases hg.symm.trans hg'
  | @withCompanion c x hc hg hcompanion =>
    show List.lookup d ((rule.description, x) :: r.companions) = _ ↔ _
    rw [List.lookup_cons]
    by_cases hd : d = rule.description
    · subst hd
      simp [hnew, Rule.LacksGuarantee, hc, hg, hcompanion]
    · have hd' : rule.description ≠ d := fun h => hd h.symm
      simp [beq_false_of_ne hd, hd', companion?]

end Enters

/-! ## Agreement -/

/-- The tables say the same of the rules. -/
structure Agrees (r : Registry) : Prop where
  descriptions : (r.rules.map Rule.description).Nodup
  keys : ∀ d, d ∈ r.byDescription.map Prod.fst ↔ d ∈ r.rules.map Rule.description
  found : ∀ d, r.find? d = r.rules.find? (·.description = d)
  arcs : ∀ s t, r.conversions.Arc s t ↔ r.convertersOf s t ≠ []
  converters : ∀ s t, r.convertersOf s t = r.rules.filter (·.guarantees s t)
  companions : ∀ d companion, r.companion? d = some companion ↔
    ∃ rule ∈ r.rules, rule.description = d ∧ rule.LacksGuarantee ∧ rule.companion = .ok companion

theorem agrees_empty : empty.Agrees where
  descriptions := List.nodup_nil
  keys _ := .rfl
  found _ := rfl
  arcs _ _ := by simp [empty, ConversionGraph.empty, ConversionGraph.Arc, convertersOf]
  converters _ _ := rfl
  companions _ _ := by simp [empty, companion?]

theorem Agrees.find?_eq_none_iff (h : r.Agrees) :
    r.find? d = none ↔ d ∉ r.rules.map Rule.description := by
  rw [h.found, List.find?_eq_none, List.mem_map]
  simp

/-- A rule of a new description keeps the tables in agreement. -/
theorem Agrees.enters (h : r.Agrees) (hnew : r.find? rule.description = none)
    (hr : r.Enters rule r') : r'.Agrees where
  descriptions := by
    rw [hr.rules_eq, List.map_append, List.map_singleton]
    exact h.descriptions.append (List.nodup_singleton _)
      (List.disjoint_singleton.2 (h.find?_eq_none_iff.1 hnew))
  keys d := by
    rw [hr.rules_eq, hr.byDescription_eq, List.map_cons, List.mem_cons, h.keys, List.map_append,
      List.mem_append, List.map_singleton, List.mem_singleton]
    exact or_comm
  found d := by
    rw [find?, hr.byDescription_eq, hr.rules_eq, List.lookup_cons, List.find?_append, ← h.found]
    by_cases hd : d = rule.description
    · subst hd
      simp [hnew]
    · have hd' : rule.description ≠ d := fun h => hd h.symm
      simp [find?, beq_false_of_ne hd, hd']
  arcs s t := by
    rw [hr.arc_iff, hr.convertersOf_eq, h.arcs]
    split_ifs with hg <;> simp [hg]
  converters s t := by
    rw [hr.convertersOf_eq, hr.rules_eq, List.filter_append, h.converters]
    split_ifs with hg <;> simp [hg]
  companions d companion := by
    have hnone : r.companion? rule.description = none := by
      refine Option.eq_none_iff_forall_ne_some.2 fun x hx => ?_
      obtain ⟨y, hy, hdescription, -⟩ := (h.companions _ _).1 hx
      exact h.find?_eq_none_iff.1 hnew (hdescription ▸ List.mem_map_of_mem hy)
    rw [hr.companion?_eq_some_iff hnone, h.companions, hr.rules_eq]
    simp [or_and_right, exists_or]

end Registry

namespace Planner

variable {p q : Planner} {rules : List Rule}

/-! ## Sequences of calls -/

/-- A call answers true and enters the rule, or it answers false or fails and leaves the tables
alone. -/
theorem ends_addRule_cases (rule : Rule) (p : Planner) :
    Ends (addRule rule) p
      (fun isNew q =>
        (isNew = true ∧ p.registry.find? rule.description = none ∧ rule.pattern.defect? = none ∧
          p.registry.Enters rule q.registry) ∨
        (isNew = false ∧ (p.registry.find? rule.description).isSome ∧ q.registry = p.registry))
      fun _ q => p.registry.find? rule.description = none ∧ rule.pattern.defect? ≠ none ∧
        q.registry = p.registry := by
  rw [addRule_eq]
  refine ends_bind.2 (ends_get.2 ?_)
  rcases p.registry.add_cases rule with ⟨hfound, hadd⟩ | ⟨hnew, defect, hdefect, hadd⟩ |
    ⟨hnew, hdefect, registry, hadd, henters⟩
  · rw [hadd]
    exact ends_pure.2 (.inr ⟨rfl, hfound, rfl⟩)
  · rw [hadd]
    exact ends_throw.2 ⟨hnew, by simp [hdefect], rfl⟩
  · rw [hadd]
    apply (ends_log _ p _).bind
    rintro _ _ ⟨events, rfl⟩
    exact ends_bind.2 (ends_modify.2 (ends_pure.2 (.inl ⟨rfl, hnew, hdefect, henters⟩)))

/-- A call answers true if the description is new and the pattern has no defect. -/
theorem exists_addRule_eq_true_iff : (∃ q, addRule rule p = .ok true q) ↔
    p.registry.find? rule.description = none ∧ rule.pattern.defect? = none := by
  constructor
  · rintro ⟨q, hq⟩
    rcases (ends_addRule_cases rule p).ok hq with ⟨-, hnew, hdefect, -⟩ | ⟨h, -⟩
    · exact ⟨hnew, hdefect⟩
    · cases h
  · rintro ⟨hnew, hdefect⟩
    have hends : Ends (addRule rule) p (fun isNew _ => isNew = true)
        fun _ _ => False := by
      refine (ends_addRule_cases rule p).mono ?_ fun _ _ h => h.2.1 hdefect
      rintro _ _ (⟨h, -⟩ | ⟨-, hfound, -⟩)
      · exact h
      · simp [hnew] at hfound
    obtain ⟨_, q, hq, rfl⟩ := hends.exists_ok
    exact ⟨q, hq⟩

/-- A call answers false if a rule of the same description is registered. -/
theorem exists_addRule_eq_false_iff : (∃ q, addRule rule p = .ok false q) ↔
    (p.registry.find? rule.description).isSome := by
  constructor
  · rintro ⟨q, hq⟩
    rcases (ends_addRule_cases rule p).ok hq with ⟨h, -⟩ | ⟨-, hfound, -⟩
    · cases h
    · exact hfound
  · intro hfound
    have hends : Ends (addRule rule) p (fun isNew _ => isNew = false) fun _ _ => False := by
      refine (ends_addRule_cases rule p).mono ?_ fun _ _ h => by simp [h.1] at hfound
      rintro _ _ (⟨-, hnew, -⟩ | ⟨h, -⟩)
      · simp [hnew] at hfound
      · exact h
    obtain ⟨_, q, hq, rfl⟩ := hends.exists_ok
    exact ⟨q, hq⟩

/-- Planners that were asked to register rules, of which they have accepted these, in this order.
Between the calls anything may happen that leaves the tables alone. -/
inductive Accepted : List Rule → Planner → Prop
  | start {p : Planner} (h : p.registry = .empty) : Accepted [] p
  | accepted {rules : List Rule} {rule : Rule} {p q : Planner} (hp : Accepted rules p)
      (h : addRule rule p = .ok true q) : Accepted (rules ++ [rule]) q
  | duplicate {rules : List Rule} {rule : Rule} {p q : Planner} (hp : Accepted rules p)
      (h : addRule rule p = .ok false q) : Accepted rules q
  | rejected {rules : List Rule} {rule : Rule} {f : Fault} {p q : Planner} (hp : Accepted rules p)
      (h : addRule rule p = .error f q) : Accepted rules q
  | between {rules : List Rule} {p q : Planner} (hp : Accepted rules p)
      (h : q.registry = p.registry) : Accepted rules q

/-- The accepted rules after one more call. -/
def accept (rules : List Rule) (rule : Rule) : List Rule :=
  if rule.description ∈ rules.map Rule.description ∨ rule.pattern.defect? ≠ none then rules
  else rules ++ [rule]

theorem Accepted.agrees (h : Accepted rules p) : p.registry.rules = rules ∧ p.registry.Agrees := by
  induction h with
  | start h => exact h ▸ ⟨rfl, Registry.agrees_empty⟩
  | @accepted rules rule p q hp h ih =>
    rcases (ends_addRule_cases rule p).ok h with ⟨-, hnew, -, henters⟩ | ⟨h, -⟩
    · exact ⟨henters.rules_eq.trans (by rw [ih.1]), ih.2.enters hnew henters⟩
    · cases h
  | @duplicate rules rule p q hp h ih =>
    rcases (ends_addRule_cases rule p).ok h with ⟨h, -⟩ | ⟨-, -, h⟩
    · cases h
    · rwa [h]
  | @rejected rules rule f p q hp h ih =>
    rw [((ends_addRule_cases rule p).error h).2.2]
    exact ih
  | between hp h ih => rwa [h]

/-- Whatever is registered next, the rules that have been accepted are known. -/
theorem Accepted.call (hp : Accepted rules p) (rule : Rule) :
    Accepted (accept rules rule) (left (addRule rule p)) := by
  obtain ⟨rfl, hr⟩ := hp.agrees
  have hcases := ends_addRule_cases rule p
  rw [hr.find?_eq_none_iff, Option.isSome_iff_ne_none, Ne, hr.find?_eq_none_iff, not_not] at hcases
  unfold accept
  cases h : addRule rule p with
  | ok isNew q =>
    rcases hcases.ok h with ⟨rfl, hnew, hdefect, -⟩ | ⟨rfl, hfound, -⟩
    · rw [if_neg (by simp [hnew, hdefect])]
      exact hp.accepted h
    · rw [if_pos (.inl hfound)]
      exact hp.duplicate h
  | error f q =>
    rw [if_pos (.inr (hcases.error h).2.1)]
    exact hp.rejected h

/-- After several calls, with whatever they answer, the accepted rules are those that `accept`
keeps. -/
theorem Accepted.calls (hp : Accepted rules p) (calls : List Rule) :
    Accepted (calls.foldl accept rules) (calls.foldl (fun p rule => left (addRule rule p)) p) := by
  induction calls generalizing rules p with
  | nil => exact hp
  | cons rule calls ih => exact ih (hp.call rule)

/-- After any calls the accepted rules are registered, their descriptions are distinct, and by its
description the first of them is found. There is an arc, and there are rules in its table, if some
accepted rule guarantees the conversion, and these rules are the table, in order. Companions are
those of the converter rules without guarantee. A further call is answered with true if the pattern
has no defect and the description is new, and with false if it is not new; answered with false or
failing, it leaves the tables alone. -/
theorem tables_of_accepted (h : Accepted rules p) :
    p.registry.rules = rules ∧ (rules.map Rule.description).Nodup ∧
    (∀ d, (d ∈ p.registry.byDescription.map Prod.fst ↔ d ∈ rules.map Rule.description) ∧
      p.registry.find? d = rules.find? (·.description = d)) ∧
    (∀ s t, [p.registry.conversions.Arc s t, p.registry.convertersOf s t ≠ [],
        ∃ rule ∈ rules, rule.guarantees s t = true].TFAE ∧
      p.registry.convertersOf s t = rules.filter (·.guarantees s t)) ∧
    (∀ d companion, p.registry.companion? d = some companion ↔
      ∃ rule ∈ rules, rule.description = d ∧ rule.LacksGuarantee ∧
        rule.companion = .ok companion) ∧
    ∀ rule,
      ((∃ q, addRule rule p = .ok true q) ↔
        rule.pattern.defect? = none ∧ rule.description ∉ rules.map Rule.description) ∧
      ((∃ q, addRule rule p = .ok false q) ↔ rule.description ∈ rules.map Rule.description) ∧
      (∀ q, addRule rule p = .ok false q → q.registry = p.registry) ∧
      ∀ f q, addRule rule p = .error f q → q.registry = p.registry := by
  obtain ⟨rfl, hr⟩ := h.agrees
  refine ⟨rfl, hr.descriptions, fun d => ⟨hr.keys d, hr.found d⟩,
    fun s t => ⟨?_, hr.converters s t⟩, hr.companions, fun rule => ⟨?_, ?_, ?_, ?_⟩⟩
  · have hsome : p.registry.convertersOf s t ≠ [] ↔
        ∃ rule ∈ p.registry.rules, rule.guarantees s t = true := by
      rw [hr.converters, Ne, List.filter_eq_nil_iff]
      push Not
      rfl
    tfae_have 1 ↔ 2 := hr.arcs s t
    tfae_have 2 ↔ 3 := hsome
    tfae_finish
  · rw [exists_addRule_eq_true_iff, hr.find?_eq_none_iff, and_comm]
  · rw [exists_addRule_eq_false_iff, Option.isSome_iff_ne_none, Ne, hr.find?_eq_none_iff, not_not]
  · intro q hq
    rcases (ends_addRule_cases rule p).ok hq with ⟨h, -⟩ | ⟨-, -, h⟩
    · cases h
    · exact h
  · exact fun f q hq => ((ends_addRule_cases rule p).error hq).2.2

/-- A guaranteed converter rule. -/
def wrapRemote : Rule := .wrapping .none ⟨"REMOTE"⟩ true

/-- Another one for the same conversion. -/
def retagLimit : Rule :=
  { Rule.retagging .limit .none ⟨"REMOTE"⟩ true with description := "RetagLimit" }

/-- A converter rule without guarantee. -/
def wrapLocal : Rule := .wrapping .none ⟨"LOCAL"⟩ false

/-- A rule that is rejected, since its pattern has no children to match in any order. -/
def unorderedAny : Rule :=
  { wrapRemote with
    description := "UnorderedAny"
    pattern := { Pattern.any with policy := .unordered } }

theorem tables_of_accepted_remoteConverters :
    ∃ p, Accepted [wrapRemote, retagLimit, wrapLocal] p ∧
      p.registry.convertersOf .none ⟨"REMOTE"⟩ = [wrapRemote, retagLimit] ∧
      (∃ companion, p.registry.companion? wrapLocal.description = some companion) ∧
      ∃ q, addRule retagLimit p = .ok false q ∧ q.registry = p.registry := by
  have hstart : Accepted [] (initial .default ⟨[]⟩) := .start rfl
  have hp : Accepted [wrapRemote, retagLimit, wrapLocal] _ :=
    hstart.calls [wrapRemote, wrapRemote, unorderedAny, retagLimit, wrapLocal]
  obtain ⟨-, -, -, htables, hcompanions, hcalls⟩ := tables_of_accepted hp
  obtain ⟨-, hfalse, hunchanged, -⟩ := hcalls retagLimit
  obtain ⟨q, hq⟩ := hfalse.2 (by simp)
  have hconversion : wrapLocal.conversion = some _ := rfl
  obtain ⟨companion, hcompanion⟩ := Rule.exists_companion hconversion
  refine ⟨_, hp, (htables _ _).2.trans rfl, ⟨companion, ?_⟩, q, hq, hunchanged q hq⟩
  exact (hcompanions _ _).2 ⟨wrapLocal, by simp, rfl, ⟨_, hconversion, rfl⟩, hcompanion⟩

end Planner

end QueryPlanner
