import QueryPlanner.Proofs.Planner.Startup
import QueryPlanner.Proofs.Planner.Termination
import QueryPlanner.Proofs.Simplification.Firing
import QueryPlanner.Proofs.Simplification.Typing

/-!
# Simplifications have one normal form

Fired until nothing changes, a set of simplifications turns a plan into its normal form, in every
match order and however the rules are listed: every firing keeps the normal form of the tree of the
root, and when none is left the tree is its own normal form.
-/

namespace QueryPlanner

open QueryPlanner.Graph Planning Planner

/-! ## Bounds -/

/-- The terms of an operator show its bound. -/
theorem Operator.eq_of_unbounded_eq {op op' : Operator} {mode : DigestMode}
    (h : op.unbounded = op'.unbounded)
    (hterms : listing (op.termTexts mode) = listing (op'.termTexts mode)) : op = op' := by
  cases op with
  | limit n =>
    cases op' with
    | limit n' => rw [Nat.repr_injective (read_last "limit" hterms)]
    | _ => cases h
  | tableScan scan =>
    cases op' with
    | tableScan scan' =>
      obtain ⟨table, schema, limit, rows⟩ := scan
      obtain ⟨table', schema', limit', rows'⟩ := scan'
      cases h
      simp only [termTexts, terms, List.map_cons, listing_cons, List.map_map, Function.comp_def,
        List.cons.injEq, List.append_cancel_left_eq, true_and] at hterms
      rw [read_optional "limit" hterms]
    | _ => cases h
  | _ => cases op' <;> first | exact h | cases h

/-- Keys tell expressions apart whose operators are, bounds aside, of different kinds. -/
theorem Node.keysTellNodes_of_kinds {ops : List Operator} {traits : TraitSet} (mode : DigestMode)
    (htraits : traits.isPlain = true)
    (hops : ∀ op ∈ ops, ∀ op' ∈ ops, op.kind = op'.kind → op = op') :
    KeysTellNodes (fun op t => op.unbounded ∈ ops ∧ t = traits) mode := by
  refine keysTellNodes_of_terms (fun _ _ h => h.2 ▸ htraits) ?_
  rintro op op' t t' ⟨hop, rfl⟩ ⟨hop', rfl⟩ hkind - hterms
  refine ⟨Operator.eq_of_unbounded_eq (hops _ hop _ hop' ?_) hterms, rfl⟩
  rw [op.kind_unbounded, op'.kind_unbounded, hkind]

namespace Simplification

variable {F : Operator → TraitSet → Prop} {S : Finset Simplification}
  {names : List Simplification} {form t u : Node} {p₀ p : Planner}

/-! ## Keeping the normal form -/

theorem reduction_lightens (S : Finset Simplification) :
    Node.Reduction Node.weight (Lightens S) where
  lt h := h.weight
  le_of_mem h := (Node.weight_lt_of_mem h).le
  trans := Lightens.trans
  congruence := congruence_simplifies S

/-- A tree that the simplifications turn into the form. -/
structure LeadsTo (S : Finset Simplification) (form t : Node) : Prop where
  grounded : t.Grounded
  normalForm : normalForm S t = form

theorem LeadsTo.lightens (h : LeadsTo S form t) (htu : Lightens S t u) : LeadsTo S form u :=
  ⟨htu.grounded h.grounded, htu.normalForm.trans h.normalForm⟩

/-- Where keys tell expressions of the family apart, simplifications keep the normal form. -/
theorem progress_leadsTo {force : Bool}
    (hF : ∀ op op' traits, op.unbounded = op'.unbounded → F op traits → F op' traits)
    (htells : p₀.settings.dag = true → Node.KeysTellNodes F p₀.settings.digestMode) :
    Progress (fun rule => ∃ s ∈ S, s.rule = rule) force
      (Measured p₀ F Node.weight (LeadsTo S form)) (IdleWhere Calm) fun _ => False := by
  have h : Progress (fun rule => ∃ s ∈ S, s.rule = rule) force
      (Measured p₀ F Node.weight (LeadsTo S form)) (IdleWhere Calm) _ :=
    progress (fun ⟨s, _, h⟩ => mem_simplifications.2 ⟨s, h⟩) hF (reduction_lightens S)
      Node.congruence_bare (fun g hg hF => keysRelate_bare hg hF htells) LeadsTo.lightens
      fun ⟨s', hs, heq⟩ hstep hv => hstep.lightens (rule_injective heq ▸ hs) hv
  exact h.mono fun _ h => h.2 fun _ h => h.grounded

/-- Where no simplification is left, the tree of the root is its own normal form. -/
theorem bare_eq_of_atRest {w : ℕ} {root : VertexId} (hS : names.toFinset = S)
    (hp : Measured p₀ F Node.weight (LeadsTo S form) w p)
    (hsettled : p.AtRest (IdleWhere Calm) (names.map rule)) (hroot : p.graph.root = some root)
    (ht : p.graph.UnfoldsTo root t) : t.bare = form := by
  have hleads : LeadsTo S form t := by
    obtain ⟨_, u, hroot', hu, hleads, -⟩ := hp.tree
    obtain rfl := Option.some.inj (hroot.symm.trans hroot')
    rwa [ht.unique hu]
  have hgrounded := (ht.everywhere_iff hp.consistent).1 hleads.grounded
  have hnormal : Normal S t := by
    refine (ht.everywhere_iff hp.consistent).2 fun j u hj hu s hs v hstep => ?_
    have hu' : u.Grounded := (hu.everywhere_iff hp.consistent).2 fun k _ hk =>
      hgrounded k _ (hj.trans hk)
    obtain ⟨node, hnode, hu⟩ := hu
    obtain ⟨node', hrewrites⟩ := hstep.exists_rewrites hp.consistent.toLinked
      (hp.consistent.currents j node hnode) hu hu'
    have hname : s.rule ∈ names.map rule := List.mem_map_of_mem (by simpa [← hS] using hs)
    exact hsettled.idle _ hname j (contains_of_current hnode) node hnode s rfl node' hrewrites
  rw [← hnormal.normalForm_eq, hleads.normalForm]

/-! ## Running -/

/-- One instruction that fires the simplifications of the list in a match order. -/
def simplifyIn (order : MatchOrder) (names : List Simplification) : Program :=
  ⟨[.order order, .rules (names.map rule)]⟩

theorem registrable_rule (s : Simplification) : s.rule.Registrable := by
  cases s <;> exact ⟨by decide, fun c h => nomatch h⟩

theorem leadsTo_of_bare_eq {plan : Node} (hplan : plan.Grounded) (h : t.bare = plan.bare) :
    LeadsTo S (normalForm S plan) t := by
  refine ⟨?_, ?_⟩
  · rwa [← grounded_bare, h, grounded_bare]
  · rw [← normalForm_bare, h, normalForm_bare]

/-- One instruction that fires a set of simplifications without a limit ends with the normal form of
the plan, row types aside: in every match order, for every order of the rules, and whether vertices
are shared or not. Where they are, keys have to tell the expressions over the operators of the plan
apart, bounds aside. Only a plan with a request for traits left in it cannot be extracted. -/
theorem findBestPlan_normalForm {settings : Settings} {plan : Node} {rules : List Rule}
    (hF : ∀ op op' traits, op.unbounded = op'.unbounded → F op traits → F op' traits)
    (hwithin : plan.Within F)
    (htells : settings.dag = true → Node.KeysTellNodes F settings.digestMode)
    (htyped : plan.WellTyped) (order : MatchOrder) (hS : names.toFinset = S)
    (hrules : ∀ rule ∈ rules, rule.Registrable) :
    ∃ p, build settings (simplifyIn order names) rules plan = .ok () p ∧
      Fueled findBestPlan p
        (fun best _ => best.tree.bare = normalForm S plan ∧ (normalForm S plan).Met)
        fun f _ => ¬ (normalForm S plan).Met ∧ ∃ request, f = .unimplemented request := by
  have hgrounded := grounded_of_wellTyped htyped
  have hregistrable : ∀ r ∈ rules ++ (simplifyIn order names).rules, r.Registrable := by
    intro r hr
    rcases List.mem_append.1 hr with hr | hr
    · exact hrules r hr
    · obtain ⟨s, -, rfl⟩ : ∃ s ∈ names, s.rule = r := by
        simpa [simplifyIn, Program.rules, Instruction.rulesOf, Instruction.ownRules] using hr
      exact registrable_rule s
  obtain ⟨p, hbuild, hp, hunderway⟩ := exists_build (F := F) Node.congruence_bare
    (fun g hg hF => keysRelate_bare hg hF htells) hregistrable htyped.without_vertices
    hwithin
  obtain ⟨w, hmeasured⟩ := hunderway.exists_measured
    (fun _ => leadsTo_of_bare_eq (S := S) hgrounded) Node.weight
  have hmet : ∀ {u : Node}, u.bare = normalForm S plan → ((normalForm S plan).Met ↔ u.Met) := by
    rintro u hu
    rw [← hu]
    exact u.met_bare
  have hnames : ∀ r ∈ names.map rule, ∃ s ∈ S, s.rule = r := by
    intro r hr
    obtain ⟨s, hs, rfl⟩ := List.mem_map.1 hr
    exact ⟨s, by simpa [← hS] using hs, rfl⟩
  have hinstruction : ∀ n q, q.registry = p.registry → q.execution.group = none →
      executeInstruction n (.rules (names.map rule)) q = applyRules n (names.map rule) true q := by
    intro n q _ _
    rw [executeInstruction]
  refine ⟨p, hbuild, ((progress_leadsTo hF (by rwa [hp.settings_eq])).fueled_findBestPlan hnames
    hp.program_eq hinstruction hmeasured).mono ?_ ?_⟩
  · rintro best _ ⟨hbest, w, q, root, hq, hsettled, hroot, ht⟩
    have hform := bare_eq_of_atRest hS hq hsettled hroot ht
    exact ⟨hform, (hmet hform).2 hbest⟩
  · rintro f _ (h | ⟨hf, w, q, root, u, hq, hsettled, hroot, hu, hbad⟩)
    · exact h.elim
    · exact ⟨fun h => hbad ((hmet (bare_eq_of_atRest hS hq hsettled hroot hu)).1 h), hf⟩

/-- Two limits and a filter that keeps everything, over a projection of a scan. -/
def limitedColumn : Node :=
  ⟨.limit 7, [⟨.filter (.literal (.boolean (some true))), [⟨.limit 5,
    [⟨.projection [.column none "a"] ["a"], [columnScan], .default, columnScan.rowType⟩],
      .default, columnScan.rowType⟩], .default, columnScan.rowType⟩], .default, columnScan.rowType⟩

theorem limitedColumn_wellTyped : limitedColumn.WellTyped := by decide +kernel

theorem findBestPlan_normalForm_limitedColumn :
    ∃ p, build .default (simplifyIn .topDown [removeLimit, removeTrivialFilter,
        pushLimitOverProjection]) [] limitedColumn = .ok () p ∧
      Fueled findBestPlan p (fun best _ => best.tree.bare = ⟨.projection [.column none "a"] ["a"],
        [⟨.limit 5, [columnScan.bare], .default, .empty⟩], .default, .empty⟩) fun _ _ => False := by
  let ops : List Operator := [.limit 0, .filter (.literal (.boolean (some true))),
    .projection [.column none "a"] ["a"], columnScan.operator]
  let F : Operator → TraitSet → Prop := fun op t => op.unbounded ∈ ops ∧ t = .default
  have hkeys : Node.KeysTellNodes F .normalized := Node.keysTellNodes_of_kinds _ (by decide)
    (by simp [ops, columnScan, Operator.kind])
  have hwithin : limitedColumn.Within F := by
    simp [limitedColumn, columnScan, Node.Within, Node.AllWithin, F, ops, Operator.unbounded]
  have hform : normalForm [removeLimit, removeTrivialFilter, pushLimitOverProjection].toFinset
      limitedColumn = ⟨.projection [.column none "a"] ["a"],
        [⟨.limit 5, [columnScan.bare], .default, .empty⟩], .default, .empty⟩ := by rfl
  have hdag : Settings.default.dag = true → Node.KeysTellNodes F Settings.default.digestMode :=
    fun _ => hkeys
  have hnone : ∀ rule ∈ ([] : List Rule), rule.Registrable := by simp
  obtain ⟨p, hbuild, h⟩ := findBestPlan_normalForm (fun op op' traits h hF => ⟨h ▸ hF.1, hF.2⟩)
    hwithin hdag limitedColumn_wellTyped .topDown rfl hnone
  rw [hform] at h
  refine ⟨p, hbuild, h.mono (fun _ _ h => h.1) fun _ _ h => h.1 ?_⟩
  simp [Node.Met, Node.Everywhere, Node.AllEverywhere, columnScan, Node.bare, Node.bares, Node.kind,
    Operator.kind]

end Simplification

end QueryPlanner
