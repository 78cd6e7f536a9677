import QueryPlanner.Proofs.Planner.Exactness
import QueryPlanner.Proofs.Planner.Schedules
import QueryPlanner.Proofs.Planner.Steadiness
import QueryPlanner.Proofs.Simplification.Proposals

/-!
# Fixed points

Rules are fired until a pass over the whole plan has met no firing. In the state that is left then no
rule puts another vertex in place of one, and firing the rules again does nothing.
-/

namespace QueryPlanner

open QueryPlanner.Graph Planning Relation

namespace Planner

variable {p q : Planner} {rules : List Rule} {force : Bool} {id : VertexId}

/-- Each rule yields nothing or the vertex itself, and disturbs nothing. -/
def Settled (rules : List Rule) (force : Bool) (p : Planner) (id : VertexId) : Prop :=
  ∀ rule ∈ rules, ∃ result, (∀ r ∈ result, r = id) ∧ Steady (apply rule id force) p result

theorem Settled.congr (h : Settled rules force p id) (hpq : p.Alike q) : Settled rules force q id :=
  fun rule hrule => (h rule hrule).imp fun _ h => ⟨h.1, h.2.congr hpq⟩

/-- A settled vertex is passed over. -/
theorem Settled.visit (h : Settled rules force p id) : Steady (visit rules force id) p none := by
  induction rules with
  | nil => exact steady_pure
  | cons rule rest ih =>
    obtain ⟨result, hresult, happly⟩ := h rule List.mem_cons_self
    have hrest := ih fun r hr => h r (List.mem_cons_of_mem rule hr)
    refine happly.bind ?_
    cases result with
    | none => exact hrest
    | some r =>
      obtain rfl := hresult r rfl
      simp only
      rw [if_neg (by simp)]
      exact hrest

/-! ## What rules keep -/

/-- Whatever the planner keeps is exact, and where vertices are shared keys tell what expressions
refer to. -/
structure Tame (p : Planner) : Prop where
  exact : p.Exact
  discerning : p.Discerning

theorem Tame.undisturbed (h : p.Tame) (hpq : p.Undisturbed q) : q.Tame :=
  ⟨hpq.exact h.exact, h.discerning.congr hpq.toAlike⟩

/-- Where vertices are shared the rules propose nothing but plain traits. -/
def Plain (dag : Bool) (rule : Rule) : Prop := dag = true → rule.StaysWithin PlainTraits

theorem law_tame (dag : Bool) : Law (Plain dag)
    (fun p q => p.settings.dag = dag → p.Tame → q.settings.dag = dag ∧ q.Tame)
    fun _ _ _ => True where
  undisturbed p q h hdag hp := ⟨by rw [h.settings, hdag], hp.undisturbed h⟩
  execution p e hdag hp := ⟨hdag, ⟨hp.exact.consistent, hp.exact.caches⟩, hp.discerning⟩
  trans p q r h h' hdag hp := h' (h hdag hp).1 (h hdag hp).2
  swept p q hp h hdag htame := by
    refine ⟨by rw [h.settings, hdag], h.exact htame.exact, fun hdag' => ?_⟩
    rw [h.settings] at hdag'
    exact law_within.swept p q hp h (htame.discerning hdag')
  attempt p rule id force hp hrule := by
    by_cases hdag : p.settings.dag = dag
    · have hwithin : Ends (attempt rule id force) p (fun _ q => p.Discerning → q.settings = p.settings →
          q.Discerning) fun _ _ => True := by
        cases hd : p.settings.dag with
        | false =>
          refine (ends_self _ p).mono (fun _ q _ _ hs hdag' => ?_) fun _ _ _ => trivial
          rw [hs, hd] at hdag'
          cases hdag'
        | true =>
          refine (law_within.attempt p rule id force hp (hrule (hdag ▸ hd))).mono
            (fun _ q h hdiscerning _ _ => h (hdiscerning hd)) fun _ _ _ => trivial
      refine ((hwithin.and (law_exact.attempt p rule id force hp trivial)).and
        (ends_attempt hp rule id force)).mono ?_ fun _ _ _ => trivial
      rintro replacement q ⟨⟨hwithin, hexact⟩, h⟩ - htame
      have hsettings : q.settings = p.settings := by
        cases replacement with
        | none => exact h.settings
        | some replacement =>
          obtain ⟨-, -, best, -, h⟩ := h
          exact h.settings
      exact ⟨by rw [hsettings, hdag], hexact htame.exact, hwithin htame.discerning hsettings⟩
    · exact (ends_self _ p).mono (fun _ _ _ h => absurd h hdag) fun _ _ _ => trivial
  fault _ _ _ _ := trivial
  fault_trans _ _ _ _ _ _ := trivial
  fault_execution _ _ _ _ _ := trivial

/-! ## Passes that meet no firing -/

/-- A vertex that was passed over in a clean state is settled. -/
theorem settled_of_visit (hrules : ∀ r ∈ rules, Plain p.settings.dag r) (hp : p.Tame)
    (hclean : p.Clean) (h : visit rules force id p = .ok none q) : Settled rules force p id := by
  induction rules generalizing p with
  | nil =>
    intro rule hrule
    cases hrule
  | cons rule rest ih =>
    rw [List.forall_mem_cons] at hrules
    obtain ⟨result, p₁, happly, h⟩ := bind_eq_ok.1 h
    have hstep : (∀ r ∈ result, r = id) → visit rest force id p₁ = .ok none q →
        Settled (rule :: rest) force p id := by
      intro hresult hvisit
      have hsteady := steady_apply hp.exact hp.discerning hclean hrules.1 hresult happly
      have h₁ := (hsteady.eq hp.exact happly).2
      have hrest := ih (by rw [h₁.settings]; exact hrules.2) (hp.undisturbed h₁)
        (hclean.congr h₁.toAlike) hvisit
      intro r hr
      rcases List.mem_cons.1 hr with rfl | hr
      · exact ⟨result, hresult, hsteady⟩
      · exact (hrest.congr h₁.toAlike.symm) r hr
    cases result with
    | none => exact hstep (by simp) h
    | some r =>
      simp only at h
      split_ifs at h with hne
      · cases h
      · exact hstep (by simpa using not_not.1 hne) h

/-- In a clean state a pass over the whole plan is scheduled without a change. -/
theorem steady_scheduleFromRoot {root : VertexId} {ids : List VertexId} (hclean : p.Clean)
    (hroot : p.graph.root = some root) (hlive : p.graph.contains root = true)
    (h : p.scheduled root = .ok ids) : Steady scheduleFromRoot p ids := by
  intro q hpq hq
  obtain ⟨r, hcollect, hqr⟩ := steady_collectGarbage hclean q hpq hq
  refine ⟨r, scheduleFromRoot_eq_ok.2 ⟨root, hpq.graph.root.trans hroot, ?_, hcollect, ?_⟩, hqr⟩
  · rwa [hpq.graph.contains]
  · rw [(hpq.trans hqr.toAlike).scheduled, h]

/-- The vertices are scheduled in a clean state, and those in `done` are settled. -/
structure Midway (rules : List Rule) (force : Bool) (p : Planner) (done pending : List VertexId) :
    Prop where
  clean : p.Clean
  scheduled : ∃ root, p.graph.root = some root ∧ p.graph.contains root = true ∧
    p.scheduled root = .ok (done ++ pending)
  settled : ∀ id ∈ done, Settled rules force p id

theorem Midway.congr {done pending : List VertexId} (h : p.Midway rules force done pending)
    (hpq : p.Alike q) : q.Midway rules force done pending where
  clean := h.clean.congr hpq
  scheduled := by
    obtain ⟨root, hroot, hlive, hids⟩ := h.scheduled
    exact ⟨root, hpq.graph.root.trans hroot, (hpq.graph.contains root).trans hlive,
      (hpq.scheduled root).trans hids⟩
  settled id hid := (h.settled id hid).congr hpq

/-- A pass that was scheduled has begun. -/
theorem midway_of_scheduleFromRoot {ids : List VertexId}
    (hp : p.graph.Consistent p.settings.digestMode) (h : scheduleFromRoot p = .ok ids q) :
    q.Midway rules force [] ids := by
  obtain ⟨root, hroot, hlive, hcollect, hids⟩ := scheduleFromRoot_eq_ok.1 h
  have hswept := (ends_collectGarbage p fun _ _ => True).ok hcollect
  have hq := hswept.consistent hp
  have hroot' : q.graph.root = some root := (hswept.root hp).trans hroot
  exact ⟨hswept.clean, ⟨root, hroot', hq.root root hroot', hids⟩, by simp⟩

/-- A traversal that was not stopped by the match limit ends with a pass over the whole plan in which
every vertex was settled, in `fuel` visits at most. -/
theorem midway_of_traverse {dag : Bool} (hrules : ∀ r ∈ rules, Plain dag r) {fuel firings : Nat}
    (hlimit : q.execution.reached firings = false) :
    ∀ n p pending settled matched, p.settings.dag = dag → p.Tame → n ≤ fuel →
      (settled = true → ∃ done, p.Midway rules force done pending ∧ n + done.length ≤ fuel) →
        traverse rules force n pending settled matched p = .ok firings q →
          q.Tame ∧ ∃ ids, q.Midway rules force ids [] ∧ ids.length < fuel := by
  intro n
  induction n with
  | zero =>
    intro p pending settled matched _ _ _ _ h
    cases h
  | succ n ih =>
    intro p pending settled matched hdag hp hn hsettled h
    have hL := (law_tame dag).toPassLaw
    cases pending with
    | nil =>
      rw [traverse] at h
      split_ifs at h with hdone
      · cases h
        obtain ⟨done, hmidway, hle⟩ := hsettled hdone
        exact ⟨hp, done, hmidway, by omega⟩
      · -- a new pass
        obtain ⟨ids, p₁, hschedule, h⟩ := bind_eq_ok.1 h
        have h₁ := (hL.scheduleFromRoot hp.exact.consistent).ok hschedule
        obtain ⟨hdag₁, hp₁⟩ := h₁.related hdag hp
        refine ih p₁ ids true matched hdag₁ hp₁ (by omega) (fun _ => ⟨[], ?_, by simp; omega⟩) h
        exact midway_of_scheduleFromRoot hp.exact.consistent hschedule
    | cons id rest =>
      rw [traverse] at h
      obtain ⟨result, p₁, hvisit, h⟩ := bind_eq_ok.1 h
      have h₁ := (hL.visit hrules force id hp.exact.consistent).ok hvisit
      obtain ⟨hdag₁, hp₁⟩ := h₁.related hdag hp
      cases result with
      | none =>
        refine ih p₁ rest settled matched hdag₁ hp₁ (by omega) (fun hdone => ?_) h
        obtain ⟨done, hmidway, hle⟩ := hsettled hdone
        have hid := settled_of_visit (hdag ▸ hrules) hp hmidway.clean hvisit
        have hundisturbed := (hid.visit.eq hp.exact hvisit).2
        refine ⟨done ++ [id], Midway.congr ⟨hmidway.clean, ?_, ?_⟩ hundisturbed.toAlike, ?_⟩
        · simpa using hmidway.scheduled
        · intro i hi
          rcases List.mem_append.1 hi with hi | hi
          · exact hmidway.settled i hi
          · rwa [List.mem_singleton.1 hi]
        · simp only [List.length_append, List.length_singleton]
          omega
      | some result =>
        obtain ⟨_, _, ⟨⟩, h⟩ := bind_eq_ok.1 h
        split_ifs at h with hreached
        · cases h
          rw [hlimit] at hreached
          cases hreached
        · obtain ⟨pending, p₂, hresume, h⟩ := bind_eq_ok.1 h
          obtain ⟨_, _, ⟨⟩, h⟩ := bind_eq_ok.1 h
          have h₂ := (hL.resume hp₁.exact.consistent result settled rest).ok hresume
          obtain ⟨hdag₂, hp₂⟩ := h₂.related hdag₁ hp₁
          refine ih p₂ pending _ _ hdag₂ hp₂ (by omega) (fun hdone => ⟨[], ?_, by simp; omega⟩) h
          rw [Bool.and_eq_true, h₂.execution] at hdone
          -- orders that restart have scheduled a pass over the whole plan
          obtain ⟨_, _, ⟨⟩, hresume⟩ := bind_eq_ok.1 hresume
          simp only [hdone.2, if_true] at hresume
          exact midway_of_scheduleFromRoot hp₁.exact.consistent hresume

/-- Where all that is pending is settled, the traversal ends without a firing. -/
theorem traverse_settled (matched : Nat) : ∀ (ids : List VertexId) (n : Nat) (p : Planner), p.Exact →
    (∀ id ∈ ids, Settled rules force p id) → ids.length < n →
      ∃ q, traverse rules force n ids true matched p = .ok matched q ∧ p.Undisturbed q := by
  intro ids
  induction ids with
  | nil =>
    intro n p _ _ hn
    obtain ⟨n, rfl⟩ := Nat.exists_eq_succ_of_ne_zero (Nat.ne_of_gt hn)
    exact ⟨p, rfl, .refl p⟩
  | cons id rest ih =>
    intro n p hp hsettled hn
    obtain ⟨n, rfl⟩ := Nat.exists_eq_succ_of_ne_zero (Nat.ne_zero_of_lt hn)
    rw [List.forall_mem_cons] at hsettled
    obtain ⟨p₁, hvisit, h₁⟩ := hsettled.1.visit p (.refl p) hp
    obtain ⟨q, htraverse, hq⟩ := ih n p₁ (h₁.exact hp)
      (fun i hi => (hsettled.2 i hi).congr h₁.toAlike) (by simpa using hn)
    exact ⟨q, bind_eq_ok.2 ⟨none, p₁, hvisit, htraverse⟩, h₁.trans hq⟩

/-! ## Firing rules -/

/-- Rules that were fired less often than the match limit end with a pass over the whole plan in which
every vertex was settled. -/
theorem midway_of_fireRules (hrules : ∀ r ∈ rules, Plain p.settings.dag r) (hp : p.Tame)
    {fuel firings : Nat} (hrun : fireRules fuel rules force p = .ok firings q)
    (hlimit : p.execution.reached firings = false) :
    q.Tame ∧ ∃ ids, q.Midway rules force ids [] ∧ ids.length < fuel := by
  have hL := (law_tame p.settings.dag).toPassLaw
  have hpassed := (hL.fireRules hrules hp.exact.consistent fuel force).ok hrun
  obtain ⟨_, p₁, hlog, hrun⟩ := bind_eq_ok.1 hrun
  have h₁ := (Asks.log _).ends.ok hlog
  have hp₁ := hp.undisturbed h₁
  obtain ⟨ids, p₂, hschedule, hrun⟩ := bind_eq_ok.1 hrun
  have h₂ := (hL.scheduleFromRoot hp₁.exact.consistent).ok hschedule
  obtain ⟨hdag₂, hp₂⟩ := h₂.related (by rw [h₁.settings]) hp₁
  exact midway_of_traverse hrules (by rwa [hpassed.execution]) fuel p₂ ids true 0 hdag₂ hp₂ le_rfl
    (fun _ => ⟨[], midway_of_scheduleFromRoot hp₁.exact.consistent hschedule, le_rfl⟩) hrun

/-- After a pass in which every vertex was settled no rule puts another vertex in place of one below
the root. -/
theorem Midway.unmoved {done : List VertexId} (h : q.Midway rules force done []) (hq : q.Tame)
    {root : VertexId} (hroot : q.graph.root = some root) (hid : ReflTransGen q.graph.Edge root id) :
    ∀ rule ∈ rules, ∃ result q', apply rule id force q = .ok result q' ∧
      (result = none ∨ result = some id) ∧ q.Alike q' := by
  intro rule hrule
  obtain ⟨root', hroot', hlive, hscheduled⟩ := h.scheduled
  obtain rfl : root = root' := Option.some.inj (hroot.symm.trans hroot')
  rw [List.append_nil] at hscheduled
  have hmem := mem_scheduled hq.exact.consistent.toLinked hlive hscheduled hid
  obtain ⟨result, hresult, hsteady⟩ := h.settled id hmem rule hrule
  obtain ⟨q', happly, hq'⟩ := hsteady q (.refl q) hq.exact
  refine ⟨result, q', happly, ?_, hq'.toAlike⟩
  cases result with
  | none => exact .inl rfl
  | some r => exact .inr (congrArg some (hresult r rfl))

/-- Rules are fired up to a fixed point or the match limit. Where vertices are shared, the traits have
to be plain, for keys to tell what expressions refer to. If rules were fired in a driven planner, in
any match order and less often than the limit, then afterwards none of them puts another vertex in
place of one below the root, and firing them again performs no firing and changes nothing but cached
costs and reports. -/
theorem fixed_point_of_fireRules (h : Driven p) (e : Execution)
    (hplain : p.settings.dag = true →
      p.graph.Within PlainTraits ∧ ∀ rule ∈ rules, rule.StaysWithin PlainTraits)
    {fuel firings : Nat} (hgroup : e.group = none)
    (hrun : fireRules fuel rules force { p with execution := e } = .ok firings q)
    (hlimit : e.reached firings = false) :
    (∀ root id, q.graph.root = some root → ReflTransGen q.graph.Edge root id →
      ∀ rule ∈ rules, ∃ result q', apply rule id force q = .ok result q' ∧
        (result = none ∨ result = some id) ∧ q.Alike q') ∧
      ∀ n ≥ fuel, ∃ q', fireRules n rules force q = .ok 0 q' ∧
        applyRules n rules force q = .ok () q' ∧ q.Alike q' := by
  have hrules : ∀ r ∈ rules, Plain p.settings.dag r := fun r hr hdag => (hplain hdag).2 r hr
  have hL := (law_tame p.settings.dag).toPassLaw
  have hp : Tame { p with execution := e } :=
    ⟨⟨h.exact.consistent, h.exact.caches⟩, fun hdag => (hplain hdag).1⟩
  have hexecution : q.execution = e :=
    ((hL.fireRules hrules hp.exact.consistent fuel force).ok hrun).execution
  obtain ⟨hq, done, hmidway, hlength⟩ :=
    midway_of_fireRules (p := { p with execution := e }) hrules hp hrun hlimit
  constructor
  · intro root id hroot hid
    exact hmidway.unmoved hq hroot hid
  · intro n hn
    obtain ⟨root, hroot, hlive, hscheduled⟩ := hmidway.scheduled
    rw [List.append_nil] at hscheduled
    obtain ⟨_, q₁, hlog, hreported⟩ := (ends_log (.applying (rules.map Rule.description)) q _).exists_ok
    have hq₁ := hreported.undisturbed
    obtain ⟨q₂, hschedule, hq₂⟩ := (steady_scheduleFromRoot hmidway.clean hroot hlive hscheduled) q₁
      hq₁.toAlike (hq₁.exact hq.exact)
    have h₃ := hq₁.trans hq₂
    obtain ⟨q₃, htraverse, hq₃⟩ := traverse_settled 0 done n q₂ (h₃.exact hq.exact)
      (fun i hi => (hmidway.settled i hi).congr h₃.toAlike) (by omega)
    have hrun : fireRules n rules force q = .ok 0 q₃ :=
      bind_eq_ok.2 ⟨(), q₁, hlog, bind_eq_ok.2 ⟨done, q₂, hschedule, htraverse⟩⟩
    refine ⟨q₃, hrun, ?_, (h₃.trans hq₃).toAlike⟩
    rw [applyRules_eq_fireRules (by rw [hexecution, hgroup])]
    exact bind_eq_ok.2 ⟨0, q₃, hrun, rfl⟩

/-- A limit on a limit, in a graph, and the rule that merges them, fired from the top. -/
theorem fixed_point_of_fireRules_loadedLimits :
    let e : Execution := ⟨.topDown, some 3, none⟩
    let p : Planner := { loadedLimits with execution := e }
    let q := left (fireRules 9 [Rule.removeLimit] true p)
    (∀ root id, q.graph.root = some root → ReflTransGen q.graph.Edge root id →
      ∀ rule ∈ [Rule.removeLimit], ∃ result q', apply rule id true q = .ok result q' ∧
        (result = none ∨ result = some id) ∧ q.Alike q') ∧
      ∀ n ≥ 9, ∃ q', fireRules n [Rule.removeLimit] true q = .ok 0 q' ∧
        applyRules n [Rule.removeLimit] true q = .ok () q' ∧ q.Alike q' := by
  intro e p q
  have hbuild := eq_ok_of_succeeded (x := build .default ⟨[]⟩ [] stackedLimits) (by decide +kernel)
  have hplan : stackedLimits.Within PlainTraits := by
    simp only [stackedLimits, Node.Within, Node.AllWithin, PlainTraits]
    decide
  have hrules : ∀ rule ∈ [Rule.removeLimit], rule.StaysWithin PlainTraits := by
    intro rule hrule
    rw [List.mem_singleton.1 hrule]
    exact Simplification.staysWithin (fun _ _ _ _ h => h) .removeLimit
  have hcount : (result (fireRules 9 [Rule.removeLimit] true p)).toOption = some 1 := by
    decide +kernel
  obtain ⟨firings, hrun⟩ := exists_ok_of_succeeded (x := fireRules 9 [Rule.removeLimit] true p)
    (by decide +kernel)
  rw [hrun] at hcount
  obtain rfl : firings = 1 := Option.some.inj hcount
  exact fixed_point_of_fireRules (.built hbuild) e (fun _ => ⟨within_build hplan hbuild, hrules⟩) rfl
    hrun rfl

/-! ## Traits that are not plain -/

/-- A convention whose name looks like the terms of a digest. -/
def misleadingTraits : TraitSet := ⟨⟨"NONE(input#0=#1, table=a"⟩, .unordered⟩

def misleadingScan : Node :=
  ⟨.tableScan ⟨"b", ⟨[⟨"a", .int64, false⟩]⟩, none, none⟩, [], misleadingTraits,
    ⟨[⟨"a", .int64, false⟩]⟩⟩

/-- Proposes a scan over a limit over the scan of vertex 0. Its digest is that of the scan, if the
limit is vertex 1. -/
def rebuildScan : Rule :=
  .transformation "Rebuild" { Pattern.ofKind .tableScan with convention := some misleadingTraits.convention }
    fun call => match call.rel? 0 with
      | some n => .offer ⟨.tableScan ⟨"a(table=b", n.rowType, none, none⟩,
          [⟨.limit 1, [n], n.traits, n.rowType⟩], .default, n.rowType⟩
      | none => return

/-- The planner of the scan, in which the rule was fired twice. -/
def misledPlanner : Nat → Planner
  | 0 => left (build .default ⟨[]⟩ [] misleadingScan)
  | n + 1 => left (fireRules 9 [rebuildScan] true (misledPlanner n))

/-- Firing a rule that has come to its end without a firing changes the planner, for the limit that
was added in vain is swept and added again. -/
theorem not_fixed_point_misledPlanner : ¬ ∀ (p q q' : Planner) (rules : List Rule) (fuel firings : Nat),
    Driven p → p.execution.group = none → fireRules fuel rules true p = .ok firings q →
      q.execution.reached firings = false → fireRules fuel rules true q = .ok 0 q' →
        q'.transformations = q.transformations := by
  intro h
  have hbuild : Driven (misledPlanner 0) := .built (eq_ok_of_succeeded (by decide +kernel))
  have hfired : ∀ n, succeeded (fireRules 9 [rebuildScan] true (misledPlanner n)) = true →
      (result (fireRules 9 [rebuildScan] true (misledPlanner n))).toOption = some 0 →
        fireRules 9 [rebuildScan] true (misledPlanner n) = .ok 0 (misledPlanner (n + 1)) := by
    intro n hok hcount
    obtain ⟨firings, hrun⟩ := exists_ok_of_succeeded hok
    rw [hrun] at hcount
    rw [hrun, show firings = 0 from Option.some.inj hcount]
    rfl
  have hfirst := hfired 0 (by decide +kernel) (by decide +kernel)
  have hsecond := hfired 1 (by decide +kernel) (by decide +kernel)
  have hsame := h _ _ _ _ 9 0 hbuild (by decide +kernel) hfirst (by decide +kernel) hsecond
  exact absurd hsame (by decide +kernel)

end Planner

end QueryPlanner
