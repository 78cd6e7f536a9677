import QueryPlanner.Proofs.Conversion.Expansion
import QueryPlanner.Proofs.Conversion.Routes
import QueryPlanner.Proofs.Planner.Startup
import QueryPlanner.Proofs.Simplification.Proposals

/-!
# Chains of converters

Where all registered converter rules are guaranteed and put converters on top, an expression is
converted to requested traits if and only if the requested convention can be reached along the
registered arcs. What it is converted to is the expression under as few converters as there are arcs on
a shortest path, and under a sort if it is not in the requested order. Nothing fails.
-/

namespace QueryPlanner

open Planning Planner Relation

/-- A guaranteed converter rule that puts a converter on top. -/
def Rule.Wraps (rule : Rule) (source target : Convention) : Prop :=
  rule.conversion = some ⟨source, target, true, Conversion.wrap⟩

theorem Rule.Wraps.unique {rule : Rule} {s t s' t' : Convention} (h : rule.Wraps s t)
    (h' : rule.Wraps s' t') : s' = s ∧ t' = t := by
  have heq := Option.some.inj (h'.symm.trans h)
  exact ⟨congrArg Conversion.source heq, congrArg Conversion.target heq⟩

namespace Registry

variable {r : Registry} {rule : Rule} {a b : Convention}

/-- A registered rule puts converters from one convention to another on top. -/
def Arc (r : Registry) (source target : Convention) : Prop :=
  ∃ rule ∈ r.rules, rule.Wraps source target

/-- The table of converter rules and the conversion graph tell of the same rules, all of which put
converters on top. -/
structure WrapsOnly (r : Registry) : Prop where
  converters : ∀ s t, ∀ rule ∈ r.convertersOf s t, rule.Wraps s t
  nonempty : ∀ s t, r.conversions.Arc s t → r.convertersOf s t ≠ []
  arc : ∀ s t, r.conversions.Arc s t ↔ r.Arc s t

/-- A path of so many registered arcs leads from one convention to the other. -/
def Reaches (r : Registry) : ℕ → Convention → Convention → Prop
  | 0, source, target => source = target
  | n + 1, source, target => ∃ next, r.Arc source next ∧ r.Reaches n next target

theorem exists_reaches (h : ReflTransGen r.Arc a b) : ∃ n, r.Reaches n a b := by
  induction h using ReflTransGen.head_induction_on with
  | refl => exact ⟨0, rfl⟩
  | @head a c hac _ ih =>
    obtain ⟨n, hn⟩ := ih
    exact ⟨n + 1, c, hac, hn⟩

theorem WrapsOnly.reaches_iff (hr : r.WrapsOnly) {n : ℕ} :
    r.Reaches n a b ↔ ∃ path, r.conversions.Route a b path ∧ path.length = n + 1 := by
  induction n generalizing a with
  | zero =>
    constructor
    · intro h
      obtain rfl : a = b := h
      exact ⟨[a], .here a, rfl⟩
    · rintro ⟨_, ⟨⟩ | ⟨_, h⟩, hlength⟩
      · rfl
      · have hpos := List.length_pos_of_mem h.mem_last
        simp only [List.length_cons] at hlength
        omega
  | succ n ih =>
    constructor
    · rintro ⟨next, harc, h⟩
      obtain ⟨path, hpath, hlength⟩ := ih.1 h
      exact ⟨a :: path, .along ((hr.arc a next).2 harc) hpath, by simp [hlength]⟩
    · rintro ⟨_, ⟨⟩ | ⟨harc, h⟩, hlength⟩
      · simp at hlength
      · exact ⟨_, (hr.arc a _).1 harc, ih.2 ⟨_, h, by simpa using hlength⟩⟩

theorem lookup_addTo {α β : Type} [DecidableEq α] [BEq α] [LawfulBEq α] (key k : α) (x : β) (table : List (α × List β)) :
    ((addTo key x table).lookup k).getD [] =
      (table.lookup k).getD [] ++ if k = key then [x] else [] := by
  induction table with
  | nil =>
    rw [addTo, List.lookup_cons, List.lookup_nil]
    by_cases h : k = key
    · simp [h]
    · simp [h, beq_false_of_ne h]
  | cons entry rest ih =>
    obtain ⟨k', xs⟩ := entry
    rw [addTo]
    by_cases hkey : k' = key
    · subst hkey
      rw [if_pos rfl, List.lookup_cons, List.lookup_cons]
      by_cases h : k = k'
      · simp [h]
      · simp [h, beq_false_of_ne h]
    · rw [if_neg hkey, List.lookup_cons, List.lookup_cons]
      by_cases h : k = k'
      · subst h
        simp [hkey]
      · simp [beq_false_of_ne h, ih]

/-- Registering a rule that puts converters on top, or is no converter rule at all. -/
theorem extend_cases (h : rule.conversion = none ∨ ∃ s t, rule.Wraps s t) :
    r.extend rule = r ∨
      rule.conversion = none ∧ r.extend rule = r.enter rule ∨
        ∃ s t, rule.Wraps s t ∧ r.extend rule = { r.enter rule with
          conversions := r.conversions.addArc s t
          converters := addTo (s, t) rule r.converters } := by
  unfold extend add
  split_ifs
  · exact .inl rfl
  cases rule.pattern.defect? with
  | some defect => exact .inl rfl
  | none =>
    rcases h with h | ⟨s, t, h⟩
    · exact .inr (.inl ⟨h, by simp only [h]; rfl⟩)
    · refine .inr (.inr ⟨s, t, h, ?_⟩)
      simp only [show rule.conversion = _ from h]
      rfl

theorem WrapsOnly.extend (hr : r.WrapsOnly) (h : rule.conversion = none ∨ ∃ s t, rule.Wraps s t) :
    (r.extend rule).WrapsOnly := by
  have harc : ∀ s t, (r.enter rule).Arc s t ↔ r.Arc s t ∨ rule.Wraps s t := by
    intro s t
    simp [Registry.Arc, enter, or_and_right, exists_or]
  rcases extend_cases (r := r) h with heq | ⟨hnone, heq⟩ | ⟨s, t, hwraps, heq⟩
  · rwa [heq]
  · rw [heq]
    refine ⟨hr.converters, hr.nonempty, fun s t => (hr.arc s t).trans ?_⟩
    rw [harc, or_iff_left]
    intro h
    cases hnone.symm.trans h
  · rw [heq]
    refine ⟨fun s' t' x hx => ?_, fun s' t' h => ?_, fun s' t' => ?_⟩
    · change x ∈ ((addTo (s, t) rule r.converters).lookup (s', t')).getD [] at hx
      rw [lookup_addTo, List.mem_append] at hx
      rcases hx with hx | hx
      · exact hr.converters s' t' x hx
      · split_ifs at hx with heq
        · cases heq
          obtain rfl := List.mem_singleton.1 hx
          exact hwraps
        · cases hx
    · rw [ConversionGraph.arc_addArc] at h
      change ((addTo (s, t) rule r.converters).lookup (s', t')).getD [] ≠ []
      rw [lookup_addTo]
      rcases h with h | ⟨rfl, rfl⟩
      · exact List.append_ne_nil_of_left_ne_nil (hr.nonempty s' t' h) _
      · simp
    · rw [ConversionGraph.arc_addArc, hr.arc]
      refine (or_congr_right ⟨?_, hwraps.unique⟩).trans (harc s' t').symm
      rintro ⟨rfl, rfl⟩
      exact hwraps

theorem wrapsOnly_empty : empty.WrapsOnly where
  converters := by simp [convertersOf, empty]
  nonempty := by simp [empty, ConversionGraph.empty, ConversionGraph.Arc]
  arc := by simp [empty, ConversionGraph.empty, ConversionGraph.Arc, Registry.Arc]

theorem WrapsOnly.extendAll {rules : List Rule}
    (h : ∀ rule ∈ rules, rule.conversion = none ∨ ∃ s t, rule.Wraps s t) :
    ∀ {r : Registry}, r.WrapsOnly → (r.extendAll rules).WrapsOnly := by
  induction rules with
  | nil => exact fun hr => hr
  | cons rule rest ih =>
    rw [List.forall_mem_cons] at h
    exact fun hr => ih h.2 (hr.extend h.1)

end Registry

/-- The rules put nothing but expressions of the family on top of what is of the family. -/
def HasConverters (F : Operator → TraitSet → Prop) (rules : List Rule) : Prop :=
  ∀ rule ∈ rules, ∀ op traits target, F op traits → rule.Wraps traits.convention target →
    F (.converter traits.convention target) (traits.replace (.convention target))

/-- The expression is of the family, and if it is a placeholder, what it stands for may be. -/
structure Node.Belongs (F : Operator → TraitSet → Prop) (n : Node) : Prop where
  within : n.Within F
  traits : ∃ op, F op n.traits

/-- An operator over what belongs to the family. -/
theorem Node.Belongs.over {F : Operator → TraitSet → Prop} {n m : Node} (hm : m.vertexId? = none)
    (hinputs : m.inputs = [n]) (hn : n.Belongs F) (h : F m.operator m.traits) : m.Belongs F where
  within := (within_operator hm).2 ⟨h, by simpa [hinputs] using hn.within⟩
  traits := ⟨_, h⟩

namespace Node

variable {arc : Convention → Convention → Prop} {a b t : Node} {m n : ℕ}
  {F : Operator → TraitSet → Prop}

/-- An expression under so many converters, each from the convention of its input along an arc. -/
inductive Wrapped (arc : Convention → Convention → Prop) (base : Node) : ℕ → Node → Prop
  | here : Wrapped arc base 0 base
  | converter {n : ℕ} {t : Node} {target : Convention} (h : Wrapped arc base n t)
      (harc : arc t.convention target) :
      Wrapped arc base (n + 1) ⟨.converter t.convention target, [t],
        t.traits.replace (.convention target), t.rowType⟩

theorem Wrapped.trans (h : Wrapped arc a m b) (h' : Wrapped arc b n t) : Wrapped arc a (m + n) t := by
  induction h' with
  | here => exact h
  | converter _ harc ih => exact .converter ih harc

/-- Converters leave the order as it is. -/
theorem Wrapped.collation_eq (h : Wrapped arc a n t) : t.traits.collation = a.traits.collation := by
  induction h with
  | here => rfl
  | converter _ _ ih => exact ih

theorem Wrapped.converted (h : Wrapped arc a n t) : Converted True arc a t := by
  induction h with
  | here => exact .here
  | @converter n t target _ harc ih =>
    show Converted True arc a
      ⟨.converter t.convention (t.traits.replace (.convention target)).convention, [t], _, t.rowType⟩
    exact .converter ih harc (TraitSet.satisfies_iff.1 t.traits.satisfies_refl).2 fun _ => rfl

theorem Wrapped.belongs {r : Registry} (hF : HasConverters F r.rules) (ha : a.Belongs F)
    (h : Wrapped r.Arc a n t) : t.Belongs F := by
  induction h with
  | here => exact ha
  | converter _ harc ih =>
    obtain ⟨op, hop⟩ := ih.traits
    obtain ⟨rule, hrule, hwraps⟩ := harc
    exact .over rfl rfl ih (hF rule hrule op _ _ hop hwraps)

/-- The expression under a sort. -/
def sorted (t : Node) (c : Collation) : Node :=
  ⟨.sort c none, [t], t.traits.replace (.collation c), t.rowType⟩

end Node

namespace Planner

variable {p : Planner} {node t u : Node} {traits : TraitSet} {source target : Convention}
  {path : List Convention} {rules : List Rule} {F : Operator → TraitSet → Prop}

/-! ## One dimension -/

/-- The first rule does it. -/
theorem convertByFirst_eq (hrules : ∀ rule ∈ rules, rule.Wraps source target) (hne : rules ≠ []) :
    convertByFirst node rules p = .ok (some ⟨.converter node.convention target, [node],
      node.traits.replace (.convention target), node.rowType⟩) p := by
  cases rules with
  | nil => exact absurd rfl hne
  | cons rule rest =>
    rw [List.forall_mem_cons] at hrules
    rw [convertByFirst]
    simp only [show rule.conversion = _ from hrules.1]
    rfl

/-- Along a route every rule finds what it converts. -/
theorem exists_convertAlong (hr : p.registry.WrapsOnly)
    (hroute : p.registry.conversions.Route source target path) :
    ∀ {node : Node}, node.convention = source → ∃ n t, convertAlong node path p = .ok t p ∧
      node.Wrapped p.registry.Arc n t ∧ t.convention = target ∧ path.length = n + 1 := by
  induction hroute with
  | here c =>
    intro node hnode
    exact ⟨0, node, rfl, .here, hnode, rfl⟩
  | @along a b c path hab h ih =>
    intro node hnode
    subst hnode
    let next : Node := ⟨.converter node.convention b, [node], node.traits.replace (.convention b),
      node.rowType⟩
    have hnext : node.Wrapped p.registry.Arc 1 next := .converter .here ((hr.arc _ _).1 hab)
    obtain ⟨n, t, hok, ht, hconvention, hlength⟩ := ih (rfl : next.convention = b)
    refine ⟨1 + n, t, ?_, hnext.trans ht, hconvention, by simp only [List.length_cons]; omega⟩
    obtain ⟨rest, rfl⟩ : ∃ rest, path = b :: rest := by
      cases h <;> exact ⟨_, rfl⟩
    show (convertByFirst node (p.registry.convertersOf node.convention b) >>= _) p = _
    apply bind_eq_ok.2
    exact ⟨_, p, convertByFirst_eq (hr.converters _ _) (hr.nonempty _ _ hab), hok⟩

/-- An expression is converted to a convention that can be reached, by as few converters as possible. -/
theorem convertConvention_cases (hr : p.registry.WrapsOnly) (node : Node) (target : Convention) :
    (∀ n, ¬ p.registry.Reaches n node.convention target) ∧
        convertConvention node target p = .ok none p ∨
      ∃ n t, convertConvention node target p = .ok (some t) p ∧
        node.Wrapped p.registry.Arc n t ∧ t.convention = target ∧
        IsLeast {n | p.registry.Reaches n node.convention target} n := by
  cases hpaths : p.registry.conversions.paths node.convention target with
  | nil =>
    left
    constructor
    · intro n hn
      obtain ⟨path, hpath, -⟩ := hr.reaches_iff.1 hn
      exact ConversionGraph.paths_eq_nil_iff.1 hpaths hpath.reaches
    · apply bind_eq_ok.2
      refine ⟨p, p, rfl, ?_⟩
      rw [hpaths]
      rfl
  | cons path rest =>
    right
    have hroute : p.registry.conversions.Route node.convention target path :=
      ConversionGraph.route_of_mem_paths (hpaths ▸ List.mem_cons_self)
    obtain ⟨n, t, hok, ht, hconvention, hlength⟩ := exists_convertAlong hr hroute rfl
    refine ⟨n, t, ?_, ht, hconvention, hr.reaches_iff.2 ⟨path, hroute, hlength⟩, ?_⟩
    · apply bind_eq_ok.2
      refine ⟨p, p, rfl, ?_⟩
      rw [hpaths]
      exact bind_eq_ok.2 ⟨t, p, hok, rfl⟩
    · intro m hm
      obtain ⟨path', hpath', hlength'⟩ := hr.reaches_iff.1 hm
      have hle := ConversionGraph.length_le_of_paths_eq_cons hpaths hpath'
      omega

/-! ## All dimensions -/

/-- The dimensions are converted one after the other. -/
theorem convertDimensions_append (traits : TraitSet) (ds ds' : List Dimension) :
    ∀ node : Node, convertDimensions traits (ds ++ ds') node = (do
      match ← convertDimensions traits ds node with
      | some t => convertDimensions traits ds' t
      | none => return none) := by
  induction ds with
  | nil => exact fun _ => rfl
  | cons d ds ih =>
    intro node
    rw [List.cons_append, convertDimensions, convertDimensions]
    split_ifs with hsatisfies
    · exact ih node
    · simp only [bind_assoc]
      congr 1
      funext t
      cases t with
      | none => simp
      | some t => exact ih t

/-- What is enabled, in the order in which it is converted. -/
theorem filter_dimensions (enabled : List Dimension) :
    Dimension.all.filter (enabled.contains ·) =
      (if .convention ∈ enabled then [.convention] else []) ++
        if .collation ∈ enabled then [.collation] else [] := by
  by_cases hconvention : Dimension.convention ∈ enabled <;>
    by_cases hcollation : Dimension.collation ∈ enabled <;>
      simp [Dimension.all, hconvention, hcollation]

theorem satisfies_get_convention {t t' : TraitSet} :
    (t.get .convention).satisfies (t'.get .convention) = true ↔ t.convention = t'.convention := by
  simp [TraitSet.get, Trait.satisfies, Convention.satisfies]

/-- Where conventions are converted, the convention is reached or cannot be reached. -/
theorem convertEnabledConvention_cases (hr : p.registry.WrapsOnly) (enabled : List Dimension)
    (node : Node) (traits : TraitSet) :
    (.convention ∈ enabled ∧ ∀ n, ¬ p.registry.Reaches n node.convention traits.convention) ∧
        convertDimensions traits (if .convention ∈ enabled then [.convention] else []) node p =
          .ok none p ∨
      ∃ n t, convertDimensions traits (if .convention ∈ enabled then [.convention] else []) node p =
          .ok (some t) p ∧ node.Wrapped p.registry.Arc n t ∧
        (.convention ∈ enabled → t.convention = traits.convention ∧
          IsLeast {n | p.registry.Reaches n node.convention traits.convention} n) ∧
        (.convention ∉ enabled → n = 0) := by
  by_cases henabled : Dimension.convention ∈ enabled
  · rw [if_pos henabled, convertDimensions]
    by_cases hconvention : node.convention = traits.convention
    · rw [if_pos (satisfies_get_convention.2 hconvention)]
      exact .inr ⟨0, node, rfl, .here, fun _ => ⟨hconvention, hconvention, fun _ _ => Nat.zero_le _⟩,
        fun h => absurd henabled h⟩
    · rw [if_neg (satisfies_get_convention.not.2 hconvention)]
      rcases convertConvention_cases hr node traits.convention with
        ⟨hnot, hok⟩ | ⟨n, t, hok, ht, hreached, hleast⟩
      · exact .inl ⟨⟨henabled, hnot⟩, bind_eq_ok.2 ⟨none, p, hok, rfl⟩⟩
      · exact .inr ⟨n, t, bind_eq_ok.2 ⟨some t, p, hok, rfl⟩, ht, fun _ => ⟨hreached, hleast⟩,
          fun h => absurd henabled h⟩
  · rw [if_neg henabled]
    exact .inr ⟨0, node, rfl, .here, fun h => absurd h henabled, fun _ => rfl⟩

/-- Where orders are converted, an expression that is not in the requested order is sorted. -/
theorem convertEnabledCollation_eq (enabled : List Dimension) (t : Node) (traits : TraitSet)
    (p : Planner) :
    convertDimensions traits (if .collation ∈ enabled then [.collation] else []) t p =
      .ok (some (if .collation ∈ enabled ∧ t.traits.collation.satisfies traits.collation = false then
        t.sorted traits.collation else t)) p := by
  by_cases henabled : Dimension.collation ∈ enabled
  · rw [if_pos henabled, convertDimensions]
    cases hsatisfies : t.traits.collation.satisfies traits.collation with
    | true =>
      have hget : (t.traits.get .collation).satisfies (traits.get .collation) = true := hsatisfies
      rw [if_pos hget, if_neg (by simp)]
      rfl
    | false =>
      rw [if_neg (by simp [TraitSet.get, Trait.satisfies, hsatisfies]), if_pos ⟨henabled, rfl⟩]
      rfl
  · rw [if_neg henabled, if_neg fun h => henabled h.1]
    rfl

/-- What an expression is converted to where some traits are requested. -/
structure Delivers (p : Planner) (node : Node) (traits : TraitSet) (u : Node) : Prop where
  enabled : ∀ d ∈ p.settings.dimensions, (u.traits.get d).satisfies (traits.get d) = true
  disabled : ∀ d ∉ p.settings.dimensions, u.traits.get d = node.traits.get d
  /-- As many converters on top as a shortest path has arcs, and at most one sort on top of them. -/
  chain : ∃ n t, node.Wrapped p.registry.Arc n t ∧
    (.convention ∈ p.settings.dimensions →
      IsLeast {n | p.registry.Reaches n node.convention traits.convention} n) ∧
    (.convention ∉ p.settings.dimensions → n = 0) ∧
    u = if .collation ∈ p.settings.dimensions ∧
        node.traits.collation.satisfies traits.collation = false then t.sorted traits.collation else t

theorem delivers_of_wrapped {n : ℕ} (ht : node.Wrapped p.registry.Arc n t)
    (henabled : .convention ∈ p.settings.dimensions → t.convention = traits.convention ∧
      IsLeast {n | p.registry.Reaches n node.convention traits.convention} n)
    (hdisabled : .convention ∉ p.settings.dimensions → n = 0) :
    p.Delivers node traits (if .collation ∈ p.settings.dimensions ∧
      node.traits.collation.satisfies traits.collation = false then t.sorted traits.collation
        else t) where
  enabled d hd := by
    cases d with
    | convention =>
      rw [satisfies_get_convention]
      split_ifs <;> exact (henabled hd).1
    | collation =>
      split_ifs with hsort
      · exact (TraitSet.satisfies_iff.1 traits.satisfies_refl).2
      · have hcollation := ht.collation_eq
        rw [not_and, Bool.not_eq_false] at hsort
        show t.traits.collation.satisfies traits.collation = true
        rw [hcollation]
        exact hsort hd
  disabled d hd := by
    cases d with
    | convention =>
      obtain rfl := hdisabled hd
      cases ht
      split_ifs <;> rfl
    | collation =>
      rw [if_neg fun h => hd h.1]
      exact congrArg Trait.collation ht.collation_eq
  chain := ⟨n, t, ht, fun h => (henabled h).2, hdisabled, rfl⟩

/-- An expression is converted to traits unless their convention is asked for and cannot be reached. -/
theorem convertTraits_delivers (hr : p.registry.WrapsOnly) (node : Node) (traits : TraitSet) :
    (.convention ∈ p.settings.dimensions ∧
          ∀ n, ¬ p.registry.Reaches n node.convention traits.convention) ∧
        convertTraits node traits p = .ok none p ∨
      ∃ u, convertTraits node traits p = .ok (some u) p ∧ p.Delivers node traits u := by
  have heq : convertTraits node traits p =
      convertDimensions traits (Dimension.all.filter (p.settings.dimensions.contains ·)) node p := rfl
  rw [heq, filter_dimensions, convertDimensions_append]
  rcases convertEnabledConvention_cases hr p.settings.dimensions node traits with
    ⟨hnot, hok⟩ | ⟨n, t, hok, ht, henabled, hdisabled⟩
  · exact .inl ⟨hnot, bind_eq_ok.2 ⟨none, p, hok, rfl⟩⟩
  · right
    refine ⟨_, bind_eq_ok.2 ⟨some t, p, hok, ?_⟩, delivers_of_wrapped ht henabled hdisabled⟩
    rw [← ht.collation_eq]
    exact convertEnabledCollation_eq p.settings.dimensions t traits p

/-- What takes the place of a request: a chain over the input that satisfies it, of the family if the
input and the requested sort are. -/
structure Meets (F : Operator → TraitSet → Prop) (p : Planner) (node : Node) (traits : TraitSet)
    (u : Node) : Prop where
  converted : Node.Converted True p.registry.Arc node u
  satisfies : u.traits.satisfies traits = true
  belongs : HasConverters F p.registry.rules → F (.sort traits.collation none) traits → node.Belongs F →
    u.Belongs F

theorem Delivers.meets (h : p.Delivers node traits u) (hdimensions : ∀ d, d ∈ p.settings.dimensions) :
    p.Meets F node traits u := by
  have hconvention : u.traits.convention = traits.convention :=
    satisfies_get_convention.1 (h.enabled .convention (hdimensions _))
  have hsatisfies : u.traits.satisfies traits = true :=
    TraitSet.satisfies_iff.2 ⟨hconvention, h.enabled .collation (hdimensions _)⟩
  obtain ⟨n, t, ht, -, -, rfl⟩ := h.chain
  split_ifs at hconvention hsatisfies ⊢ with hsort
  · have hconverted : Node.Converted True p.registry.Arc node (t.sorted traits.collation) := by
      show Node.Converted True p.registry.Arc node
        ⟨.sort (t.traits.replace (.collation traits.collation)).collation none, [t], _, t.rowType⟩
      exact .sort ht.converted rfl fun _ => rfl
    refine ⟨hconverted, hsatisfies, fun hF hop hnode => ?_⟩
    have htraits : t.traits.replace (.collation traits.collation) = traits := by
      rw [TraitSet.replace, show t.traits.convention = traits.convention from hconvention]
    exact .over rfl rfl (ht.belongs hF hnode) (by rwa [Node.sorted, htraits])
  · exact ⟨ht.converted, hsatisfies, fun hF _ hnode => ht.belongs hF hnode⟩

/-- An expression is converted to traits if and only if their convention can be reached. -/
theorem convertTraits_cases (hr : p.registry.WrapsOnly)
    (hdimensions : ∀ d, d ∈ p.settings.dimensions) (node : Node) (traits : TraitSet) :
    ¬ ReflTransGen p.registry.Arc node.convention traits.convention ∧
        convertTraits node traits p = .ok none p ∨
      ∃ u, convertTraits node traits p = .ok (some u) p ∧ p.Meets F node traits u := by
  rcases convertTraits_delivers hr node traits with ⟨⟨-, hnot⟩, hok⟩ | ⟨u, hok, hu⟩
  · left
    refine ⟨fun h => ?_, hok⟩
    obtain ⟨n, hn⟩ := Registry.exists_reaches h
    exact hnot n hn
  · exact .inr ⟨u, hok, hu.meets hdimensions⟩

/-- Where the registered converter rules are guaranteed and put converters on top, converting an
expression to traits never fails, and changes nothing. There is no result if and only if conventions are
converted and no path of registered arcs leads from that of the expression to another one that is
requested. A result satisfies the request in all enabled dimensions and is like the expression in the
others: it is the expression under as many converters as a shortest path has arcs, and under a sort if
orders are converted and it is not in the requested one. -/
theorem convertTraits_of_registered
    (hrules : ∀ rule ∈ rules, rule.conversion = none ∨ ∃ s t, rule.Wraps s t)
    (hp : p.registry = Registry.empty.extendAll rules) (node : Node) (traits : TraitSet) :
    ∃ answer, convertTraits node traits p = .ok answer p ∧
      (answer = none ↔ .convention ∈ p.settings.dimensions ∧ node.convention ≠ traits.convention ∧
        ∀ n, ¬ p.registry.Reaches n node.convention traits.convention) ∧
      ∀ u, answer = some u → p.Delivers node traits u := by
  have hr : p.registry.WrapsOnly := by
    rw [hp]
    exact .extendAll hrules Registry.wrapsOnly_empty
  rcases convertTraits_delivers hr node traits with ⟨⟨henabled, hnot⟩, hok⟩ | ⟨u, hok, hu⟩
  · have hne : node.convention ≠ traits.convention := hnot 0
    exact ⟨none, hok, ⟨fun _ => ⟨henabled, hne, hnot⟩, fun _ => rfl⟩, nofun⟩
  · refine ⟨some u, hok, ⟨nofun, fun h => ?_⟩, fun _ h => Option.some.inj h ▸ hu⟩
    obtain ⟨n, -, -, hleast, -⟩ := hu.chain
    exact absurd (hleast h.1).1 (h.2.2 n)

/-- Two ways from no convention to B, of which the longer one was registered first. -/
def detourRules : List Rule :=
  [.wrapping .none ⟨"A"⟩ true, .wrapping ⟨"A"⟩ ⟨"B"⟩ true, .wrapping .none ⟨"B"⟩ true]

/-- A row is taken to B and put in order, by one converter and a sort. -/
theorem convertTraits_of_registered_detour :
    let p : Planner := { initial .default ⟨[]⟩ with registry := Registry.empty.extendAll detourRules }
    let row : Node := ⟨.values .empty [[]], [], .default, .empty⟩
    let traits : TraitSet := ⟨⟨"B"⟩, ⟨[⟨0, true, false⟩]⟩⟩
    (∀ rule ∈ detourRules, rule.conversion = none ∨ ∃ s t, rule.Wraps s t) ∧
      ∃ u, convertTraits row traits p = .ok (some u) p ∧ p.Delivers row traits u := by
  intro p row traits
  have hrules : ∀ rule ∈ detourRules, rule.conversion = none ∨ ∃ s t, rule.Wraps s t := by
    intro rule hrule
    right
    simp only [detourRules, List.mem_cons, List.not_mem_nil, or_false] at hrule
    rcases hrule with rfl | rfl | rfl <;> exact ⟨_, _, rfl⟩
  have hregistered : p.registry.rules = detourRules := rfl
  have harc : p.registry.Arc .none ⟨"B"⟩ :=
    ⟨.wrapping .none ⟨"B"⟩ true, by simp [hregistered, detourRules], rfl⟩
  obtain ⟨answer, hok, hnone, hsome⟩ := convertTraits_of_registered (p := p) hrules rfl row traits
  refine ⟨hrules, ?_⟩
  cases answer with
  | none => exact absurd ⟨_, harc, rfl⟩ ((hnone.1 rfl).2.2 1)
  | some u => exact ⟨u, hok, hsome u rfl⟩

end Planner

end QueryPlanner
