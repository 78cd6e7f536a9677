import QueryPlanner.Proofs.Graph.Binding
import QueryPlanner.Proofs.Node.Key
import QueryPlanner.Proofs.Planner.Families

/-!
# Operations that change nothing

What an operation finds out when it changes nothing it finds out again: it ends in the same way in
every exact state that differs in caches and reports alone. This holds of operations that ask, of
adding an expression that is in the graph, and of a rule that leaves a vertex as it is.

Where vertices are shared, that an expression is in the graph is seen from its key, so keys have to
tell what expressions refer to. They do if the traits are plain.
-/

namespace QueryPlanner

open QueryPlanner.Graph Planning

variable {α β : Type} {p q : Planner}

namespace Planning

/-- In every exact state that differs in caches and reports alone, the operation ends with the result
and disturbs nothing. -/
def Steady (x : Planning α) (p : Planner) (a : α) : Prop :=
  ∀ q, p.Alike q → q.Exact → ∃ r, x q = .ok a r ∧ q.Undisturbed r

variable {x : Planning α} {f : α → Planning β} {a a' : α} {b : β}

theorem Steady.congr (h : Steady x p a) (hpq : p.Alike q) : Steady x q a :=
  fun r hr => h r (hpq.trans hr)

theorem Steady.eq (h : Steady x p a) (hp : p.Exact) (hx : x p = .ok a' q) :
    a' = a ∧ p.Undisturbed q := by
  obtain ⟨r, hok, hr⟩ := h p (.refl p) hp
  rw [hx] at hok
  cases hok
  exact ⟨rfl, hr⟩

theorem steady_pure : Steady (pure a) p a := fun q _ _ => ⟨q, rfl, .refl q⟩

theorem Steady.bind (hx : Steady x p a) (hf : Steady (f a) p b) : Steady (x >>= f) p b := by
  intro q hpq hq
  obtain ⟨r, hr, hqr⟩ := hx q hpq hq
  obtain ⟨t, ht, hrt⟩ := hf r (hpq.trans hqr.toAlike) (hqr.exact hq)
  exact ⟨t, bind_eq_ok.2 ⟨a, r, hr, ht⟩, hqr.trans hrt⟩

theorem steady_get {k : Planner → Planning β} (h : ∀ q, p.Alike q → Steady (k q) p b) :
    Steady (get >>= k) p b := by
  intro q hpq hq
  obtain ⟨r, hr, hqr⟩ := h q hpq q hpq hq
  exact ⟨r, hr, hqr⟩

/-- Asking is steady. -/
theorem Asks.steady (h : Asks p.settings x) (hp : p.Exact) (hx : x p = .ok a q) : Steady x p a := by
  intro r hpr hr
  obtain ⟨b, p', r', hendp, hendr, h⟩ | ⟨f, p', r', hendp, -⟩ :=
    (h.concur p r rfl hpr.parallel hp hr).cases_on
  · rw [hx] at hendp
    cases hendp
    exact ⟨r', hendr, h.right⟩
  · rw [hx] at hendp
    cases hendp

end Planning

/-- Traits whose text ends where the terms of a digest start. -/
def PlainTraits (_ : Operator) (traits : TraitSet) : Prop := traits.isPlain = true

namespace Planner

/-- Where vertices are shared, the traits of the graph are plain. -/
def Discerning (p : Planner) : Prop := p.settings.dag = true → p.graph.Within PlainTraits

theorem Discerning.congr (h : p.Discerning) (hpq : p.Alike q) : q.Discerning := by
  intro hdag
  rw [hpq.settings] at hdag
  exact (h hdag).congr hpq.graph.current?

/-! ## Adding what is there -/

section Adding

variable {node : Node} {id : VertexId} {nodes placeholders : List Node}

/-- An expression is placed at the vertex that is registered for it, or at a new one. -/
theorem place_eq_ok (hp : p.graph.Consistent p.settings.digestMode)
    (h : place node p = .ok id q) :
    p.settings.dag = true ∧ p.graph.lookup (node.key p.settings.digestMode) = some id ∨
      p.graph.contains id = false := by
  have hends : Ends (place node) p (fun id _ =>
      p.settings.dag = true ∧ p.graph.lookup (node.key p.settings.digestMode) = some id ∨
        p.graph.contains id = false) fun _ _ => True := by
    refine ends_bind.2 (ends_get.2 ?_)
    simp only
    split
    · next id hid =>
      by_cases hdag : p.settings.dag = true
      · rw [if_pos hdag] at hid
        exact ends_pure.2 (.inl ⟨hdag, hid⟩)
      · rw [if_neg hdag] at hid
        cases hid
    · refine ends_bind.2 (ends_set.2 (ends_bind.2 (ends_modify.2 (ends_pure.2 (.inr ?_)))))
      exact (inserted_insert hp.free node (node.key p.settings.digestMode)).unused hp.free
  exact hends.ok h

theorem steady_place (hdag : p.settings.dag = true)
    (hid : p.graph.lookup (node.key p.settings.digestMode) = some id) :
    Steady (place node) p id := by
  refine steady_get fun q hpq => ?_
  simp only [hpq.settings, hpq.graph.lookup, hdag, hid, if_true]
  exact steady_pure

/-- What the registered expression refers to is what an expression of its key refers to. -/
theorem live_of_lookup {r : Planner} (hp : p.graph.Consistent p.settings.digestMode)
    (hr : p.Extended r) (hplain : p.graph.Within PlainTraits) (hnode : r.graph.OverVertices node)
    (htraits : node.traits.isPlain = true)
    (hid : r.graph.lookup (node.key r.settings.digestMode) = some id)
    (hlive : p.graph.contains id = true) :
    ∀ i ∈ node.inputs, ∃ j, i.vertexId? = some j ∧ p.graph.contains j = true := by
  have hrc := hr.consistent hp
  rw [lookup_eq_some_iff hrc.digests_nodup] at hid
  have hkey := hrc.digests _ _ hid
  obtain ⟨held, hheld⟩ := contains_iff_current.1 hlive
  have hkeys := hrc.keys id held ((hr.graph hp).current?_of_some hheld)
  rw [hkey, Option.some.injEq] at hkeys
  have hover := hp.currents id held hheld
  have hin := hrc.isSome_vertexId? hnode
  obtain ⟨-, hreferences, -⟩ := Node.parts_eq_of_key_eq htraits (hplain id held hheld)
    hnode.isOperator hover.isOperator hin (hp.isSome_vertexId? hover) hkeys
  intro i hi
  obtain ⟨j, hj⟩ := Option.isSome_iff_exists.1 (hin i hi)
  refine ⟨j, hj, hp.toLinked.contains_of_reference hover ?_⟩
  rw [← hreferences]
  exact Node.mem_references.2 ⟨i, hi, hj⟩

mutual

/-- An expression that is added at a vertex from before has been in the graph. -/
theorem steady_add : ∀ (n : Node) (p q : Planner) (id : VertexId), p.Exact → p.Discerning →
    (p.settings.dag = true → n.Within PlainTraits) → add n p = .ok id q →
      p.graph.contains id = true → Steady (add n) p id
  | ⟨op, inputs, traits, rowType⟩, p, q, id, hp, hplain, hn, h, hid => by
    by_cases hop : ∃ j, op = .vertex j
    · obtain ⟨j, rfl⟩ := hop
      obtain ⟨hj, rfl, -⟩ := add_vertex_eq_ok.1 h
      exact fun r hpr _ => ⟨r, add_vertex_eq_ok.2 ⟨by rwa [hpr.graph.contains], rfl, rfl⟩, .refl r⟩
    · have hop : ∀ j, op ≠ .vertex j := fun j hj => hop ⟨j, hj⟩
      obtain ⟨placeholders, r, hinputs, hplace⟩ := (add_operator_eq_ok hop).1 h
      obtain ⟨hr, hall⟩ := (ends_addInputs inputs p hp.consistent).ok hinputs
      have hrc := hr.consistent hp.consistent
      have hlive : r.graph.contains id = true := (hr.graph hp.consistent).contains hid
      rcases place_eq_ok hrc hplace with ⟨hdag, hlookup⟩ | hnew
      · have hdag' : p.settings.dag = true := hr.settings ▸ hdag
        have hn' : Node.vertexId? ⟨op, inputs, traits, rowType⟩ = none := Node.vertexId?_eq_none.2 hop
        obtain ⟨htraits, hwithin⟩ : traits.isPlain = true ∧ ∀ i ∈ inputs, i.Within PlainTraits :=
          (Node.within_operator hn').1 (hn hdag')
        have hover : r.graph.OverVertices ⟨op, placeholders, traits, rowType⟩ :=
          ⟨Node.vertexId?_eq_none.2 hop, hall.overVertices⟩
        -- the inputs have been in the graph, for the registered expression refers to them
        have hinputs' := steady_addInputs inputs p r placeholders hp hplain (fun _ => hwithin) hinputs
          (live_of_lookup hp.consistent hr (hplain hdag') hover htraits hlookup hid)
        have hpr := (hinputs'.eq hp hinputs).2.toAlike
        intro s hps hs
        obtain ⟨t, ht, hst⟩ := hinputs' s hps hs
        obtain ⟨u, hu, htu⟩ := (steady_place hdag hlookup).congr
          ((hpr.symm.trans hps).trans hst.toAlike) t (.refl t) (hst.exact hs)
        exact ⟨u, (add_operator_eq_ok hop).2 ⟨placeholders, t, ht, hu⟩, hst.trans htu⟩
      · rw [hlive] at hnew
        cases hnew

theorem steady_addInputs : ∀ (ns : List Node) (p q : Planner) (placeholders : List Node), p.Exact →
    p.Discerning → (p.settings.dag = true → ∀ n ∈ ns, n.Within PlainTraits) →
      addInputs ns p = .ok placeholders q →
        (∀ i ∈ placeholders, ∃ j, i.vertexId? = some j ∧ p.graph.contains j = true) →
          Steady (addInputs ns) p placeholders
  | [], p, q, placeholders, hp, hplain, hn, h, hlive => by
    rw [addInputs] at h ⊢
    cases h
    exact steady_pure
  | n :: ns, p, q, placeholders, hp, hplain, hn, h, hlive => by
    obtain ⟨id, placeholder, rest, r, hadd, hplaceholder, hrest, rfl⟩ := addInputs_cons_eq_ok.1 h
    rw [List.forall_mem_cons] at hlive
    obtain ⟨⟨j, hj, hid⟩, hlive⟩ := hlive
    have hrc := ((ends_add n p hp.consistent).ok hadd).1.consistent hp.consistent
    obtain rfl : id = j := by
      rw [hrc.vertexId?_placeholder hplaceholder] at hj
      exact Option.some.inj hj
    have hadd' := steady_add n p r id hp hplain (fun hdag => hn hdag n List.mem_cons_self) hadd hid
    have hpr := (hadd'.eq hp hadd).2
    have hrest' := steady_addInputs ns r q rest (hpr.exact hp) (hplain.congr hpr.toAlike)
      (fun hdag m hm => hn (hpr.settings ▸ hdag) m (List.mem_cons_of_mem n hm)) hrest
      fun i hi => (hlive i hi).imp fun k hk => ⟨hk.1, (hpr.graph.contains k).trans hk.2⟩
    intro s hps hs
    obtain ⟨t, ht, hst⟩ := hadd' s hps hs
    have hrt := (hpr.toAlike.symm.trans hps).trans hst.toAlike
    obtain ⟨u, hu, htu⟩ := hrest' t hrt (hst.exact hs)
    exact ⟨u, addInputs_cons_eq_ok.2 ⟨id, placeholder, rest, t, ht,
      (hrt.graph.placeholder? id).trans hplaceholder, hu, rfl⟩, hst.trans htu⟩

end

end Adding

/-! ## Rules that leave a vertex as it is -/

section Trying

variable {rule : Rule} {id : VertexId} {force : Bool}

theorem steady_substitute (hp : p.Exact) (hplain : p.Discerning) (hid : p.graph.contains id = true)
    {accepts : Node → Bool} {first : Node} {others : List Node} {result : Option VertexId}
    (hcandidates : p.settings.dag = true → ∀ n ∈ first :: others, n.Within PlainTraits)
    (hresult : ∀ r ∈ result, r = id)
    (h : substitute rule id accepts first others p = .ok result q) :
    Steady (substitute rule id accepts first others) p result := by
  obtain ⟨best, p₁, hcheapest, h⟩ := bind_eq_ok.1 h
  obtain ⟨hbest, h₁⟩ := (ends_cheapest first others p).ok hcheapest
  obtain ⟨_, _, ⟨⟩, h⟩ := bind_eq_ok.1 h
  obtain ⟨placed, p₂, hadd, h⟩ := bind_eq_ok.1 h
  have hadd' : p.graph.contains placed = true → Steady (add best) p₁ placed := by
    intro hlive
    refine steady_add best p₁ p₂ placed (h₁.exact hp) (hplain.congr h₁.toAlike) ?_ hadd
      ((h₁.graph.contains placed).trans hlive)
    intro hdag
    exact hcandidates (h₁.settings ▸ hdag) best hbest
  have hedges := (h₁.extended.consistent hp.consistent).edges_live
  refine ((asks_cheapest first others).steady hp hcheapest).bind (Steady.congr ?_ h₁.toAlike.symm)
  refine steady_get fun r hr => ?_
  have hparents : (r.graph.parents id).filter (fun i => (r.graph.current? i).any accepts) =
      (p₁.graph.parents id).filter fun i => (p₁.graph.current? i).any accepts := by
    rw [hr.graph.parents]
    simp only [hr.graph.current?]
  simp only [hparents]
  split_ifs at h with hloop hne
  · cases h
    have hlive : p.graph.contains placed = true := by
      rw [← h₁.graph.contains]
      exact (hedges _ (mem_parents.1 (List.mem_of_mem_filter hloop))).1
    refine (hadd' hlive).bind ?_
    rw [if_pos hloop]
    exact steady_pure
  · obtain ⟨_, _, -, h⟩ := bind_eq_ok.1 h
    obtain ⟨_, _, -, h⟩ := bind_eq_ok.1 h
    obtain ⟨_, _, -, h⟩ := bind_eq_ok.1 h
    obtain ⟨_, _, -, h⟩ := bind_eq_ok.1 h
    cases h
    exact absurd (hresult placed rfl) hne
  · -- the vertex has the best expression already
    obtain rfl : placed = id := not_not.1 hne
    rw [contract, if_pos rfl] at h
    have hadd' := hadd' hid
    have h₂ := (hadd'.eq (h₁.exact hp) hadd).2
    have hp₂ := h₂.exact (h₁.exact hp)
    refine hadd'.bind ?_
    rw [if_neg hloop, contract, if_pos rfl, if_neg hne]
    have hasks : Asks p₂.settings (do
        log (.substituted rule.description placed placed)
        checkAcyclic (some rule.description)
        return some placed) :=
      (Asks.log _).bind fun _ => (asks_checkAcyclic _).bind fun _ => .pure _
    exact steady_pure.bind ((hasks.steady hp₂ h).congr h₂.toAlike.symm)

/-- A rule that is tried on a vertex and puts nothing else in its place does so again. -/
theorem steady_attempt (hp : p.Exact) (hplain : p.Discerning)
    (hrule : p.settings.dag = true → rule.StaysWithin PlainTraits) {replacement : Option Replacement}
    (hresult : ∀ r ∈ replacement, r.result = id)
    (h : attempt rule id force p = .ok replacement q) :
    Steady (attempt rule id force) p replacement := by
  obtain ⟨_, _, ⟨⟩, h⟩ := bind_eq_ok.1 h
  refine steady_get fun r hr => ?_
  rw [hr.graph.contains]
  split_ifs at h ⊢ with hid
  · cases h
    exact steady_pure
  simp only [Bool.not_eq_true', Bool.not_eq_false] at hid
  obtain ⟨occasion, p₁, hoccasion, h⟩ := bind_eq_ok.1 h
  have hoccasion' := (asks_occasion? rule id force).steady hp hoccasion
  have h₁ := (hoccasion'.eq hp hoccasion).2
  have hp₁ := h₁.exact hp
  refine hoccasion'.bind (Steady.congr ?_ h₁.toAlike.symm)
  cases occasion with
  | none =>
    cases h
    exact steady_pure
  | some occasion =>
    obtain ⟨node, p₂, hnode, hmatch⟩ := bind_eq_ok.1 h
    have hnode' := (asks_current id).steady hp₁ hnode
    obtain ⟨hcurrent, rfl⟩ := current_eq_ok.1 hnode
    refine hnode'.bind ?_
    clear h
    obtain ⟨_, _, ⟨⟩, h⟩ := bind_eq_ok.1 hmatch
    refine steady_get fun r hr => ?_
    rw [hr.graph.bind]
    cases hbind : p₂.graph.bind rule.pattern node .empty with
    | error f =>
      rw [hbind] at h
      cases h
    | ok binding =>
      rw [hbind] at h
      cases binding with
      | none =>
        cases h
        exact steady_pure
      | some binding =>
        obtain ⟨proposed, p₃, hfire, h⟩ := bind_eq_ok.1 h
        have hfire' := (asks_fire rule node _).steady hp₁ hfire
        have h₃ := (hfire'.eq hp₁ hfire).2
        refine hfire'.bind (Steady.congr ?_ h₃.toAlike.symm)
        have hall := h₁.trans h₃
        cases proposed with
        | nil =>
          cases h
          exact steady_pure
        | cons first others =>
          obtain ⟨result, p₄, hsubstitute, h⟩ := bind_eq_ok.1 h
          have hcandidates : p₃.settings.dag = true →
              ∀ n ∈ first :: others, n.Within PlainTraits := by
            intro hdag
            rw [hall.settings] at hdag
            exact hrule hdag p id force node _ hp.consistent (hplain hdag) ⟨occasion, binding, p₂, p₃,
              hoccasion, hcurrent, hbind, hfire⟩
          have hresult' : ∀ r ∈ result, r = id := by
            rintro r hr
            cases hr
            cases h
            exact hresult _ rfl
          refine (steady_substitute (h₃.exact hp₁) (hplain.congr hall.toAlike)
            ((hall.graph.contains id).trans hid) hcandidates hresult' hsubstitute).bind ?_
          cases result with
          | none =>
            cases h
            exact steady_pure
          | some result =>
            cases h
            exact steady_pure

theorem steady_collectGarbage (h : p.Clean) : Steady collectGarbage p () := by
  refine steady_get fun q hpq => ?_
  have hq : q.transformations = q.transformationsAtSweep := h.congr hpq
  rw [if_pos hq]
  exact steady_pure

theorem steady_reportProduction (hp : p.Exact) (hclean : p.Clean) {replacement : Replacement}
    (h : reportProduction rule replacement p = .ok () q) :
    Steady (reportProduction rule replacement) p () := by
  obtain ⟨_, _, ⟨⟩, h⟩ := bind_eq_ok.1 h
  refine steady_get fun r hr => ?_
  rw [hr.settings]
  split_ifs at h ⊢
  · obtain ⟨after, p₁, hafter, h⟩ := bind_eq_ok.1 h
    have hafter' := (asks_current replacement.result).steady hp hafter
    have h₁ := (hafter'.eq hp hafter).2
    have hp₁ := h₁.exact hp
    refine hafter'.bind (Steady.congr ?_ h₁.toAlike.symm)
    obtain ⟨_, _, ⟨⟩, h⟩ := bind_eq_ok.1 h
    refine steady_get fun r hr => ?_
    simp only
    rw [hr.settings]
    obtain ⟨before, p₂, hbefore, h⟩ := bind_eq_ok.1 h
    have hbefore' := (Asks.cumulativeCost replacement.before).steady hp₁ hbefore
    have h₂ := (hbefore'.eq hp₁ hbefore).2
    have hp₂ := h₂.exact hp₁
    refine hbefore'.bind (Steady.congr ?_ h₂.toAlike.symm)
    obtain ⟨cost, p₃, hcost, h⟩ := bind_eq_ok.1 h
    rw [← h₂.settings] at hcost ⊢
    have hcost' := (Asks.cumulativeCost after).steady hp₂ hcost
    have h₃ := (hcost'.eq hp₂ hcost).2
    refine hcost'.bind (Steady.congr ?_ h₃.toAlike.symm)
    obtain ⟨_, p₄, hreport, h⟩ := bind_eq_ok.1 h
    have hreport' := (Asks.report rfl rfl).steady (h₃.exact hp₂) hreport
    have h₄ := (hreport'.eq (h₃.exact hp₂) hreport).2
    have hall := ((h₁.trans h₂).trans h₃).trans h₄
    exact hreport'.bind ((steady_collectGarbage (hclean.congr hall.toAlike)).congr h₄.toAlike.symm)
  · exact steady_pure

/-- A rule that yields nothing or the vertex itself where no garbage is to be looked for yields that
again. -/
theorem steady_apply (hp : p.Exact) (hplain : p.Discerning) (hclean : p.Clean)
    (hrule : p.settings.dag = true → rule.StaysWithin PlainTraits) {result : Option VertexId}
    (hresult : ∀ r ∈ result, r = id) (h : apply rule id force p = .ok result q) :
    Steady (apply rule id force) p result := by
  obtain ⟨replacement, p₁, hattempt, h⟩ := bind_eq_ok.1 h
  have hattempt' : (∀ r ∈ replacement, r.result = id) → Steady (attempt rule id force) p replacement :=
    fun hresult => steady_attempt hp hplain hrule hresult hattempt
  cases replacement with
  | none =>
    cases h
    exact (hattempt' (by simp)).bind steady_pure
  | some replacement =>
    obtain ⟨_, p₂, hreport, h⟩ := bind_eq_ok.1 h
    cases h
    have hid : replacement.result = id := hresult _ rfl
    have hattempt' := hattempt' (by simpa using hid)
    have h₁ := (hattempt'.eq hp hattempt).2
    have hreport' := steady_reportProduction (h₁.exact hp) (hclean.congr h₁.toAlike) hreport
    exact hattempt'.bind ((hreport'.congr h₁.toAlike.symm).bind steady_pure)

end Trying

end Planner

end QueryPlanner
