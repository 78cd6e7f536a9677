import QueryPlanner.Proofs.Planner.Collection
import QueryPlanner.Proofs.Planner.Concurrence
import QueryPlanner.Proofs.Planner.Fixpoint
import QueryPlanner.Proofs.Planner.Lockstep

/-!
# Observers

Observers make a planner sweep after every firing and ask for costs. Where rules are tried there is
no garbage in an observed planner, and none in one that is not observed, so both find the same, fire
the same and end with the same plan.
-/

namespace QueryPlanner

open QueryPlanner.Graph Planning

namespace Planner

variable {α : Type} {p q r p' q' : Planner} {dag : Bool} {level : Level} {rule : Rule}
  {rules : List Rule}

/-! ## Catching up -/

/-- Garbage is looked for in the same way whoever observes the planner. -/
theorem Parallel.caughtUp (h : p.Parallel q) : p.caughtUp.Parallel q.caughtUp := by
  have hgarbage : q.graph.garbage = p.graph.garbage := by
    funext root
    unfold garbage reachableFrom
    rw [h.graph.vertexIds, h.graph.depthFirstFrom]
  unfold Planner.caughtUp
  rw [h.transformations, h.transformationsAtSweep, h.graph.root]
  split_ifs
  · exact h
  cases p.graph.root with
  | none => exact ⟨h.settings, h.program, h.registry, h.execution, h.graph, rfl, rfl, h.sizeAtSweep,
      h.sweeps⟩
  | some root =>
    simp only [h.graph.contains, hgarbage, reachableFrom, h.graph.depthFirstFrom,
      h.settings.sweepOrder, h.sweeps]
    split_ifs
    · exact ⟨h.settings, h.program, h.registry, h.execution, h.graph, rfl, rfl, h.sizeAtSweep, rfl⟩
    · exact ⟨h.settings, h.program, h.registry, h.execution, h.graph, rfl, rfl, rfl, rfl⟩
    · exact ⟨h.settings, h.program, h.registry, h.execution, h.graph.discard _ _, rfl, rfl, rfl, rfl⟩

theorem caughtUp_execution (p : Planner) (e : Execution) :
    caughtUp { p with execution := e } = { p.caughtUp with execution := e } := by
  unfold caughtUp
  split_ifs
  · rfl
  cases p.graph.root with
  | none => rfl
  | some root =>
    simp only
    split_ifs <;> rfl

/-- A later state in which nothing was done but asking for costs, reporting what is not a step, and
looking for garbage. -/
structure Overtook (p q : Planner) : Prop where
  settings : q.settings = p.settings
  caughtUp : p.caughtUp.Parallel q.caughtUp
  transcript : q.transcript = p.transcript
  tame : p.Tame → q.Tame

namespace Overtook

theorem refl (p : Planner) : p.Overtook p := ⟨rfl, (Alike.refl _).parallel, rfl, id⟩

theorem trans (h : p.Overtook q) (h' : q.Overtook r) : p.Overtook r :=
  ⟨h'.settings.trans h.settings, h.caughtUp.trans h'.caughtUp, h'.transcript.trans h.transcript,
    h'.tame ∘ h.tame⟩

end Overtook

theorem Undisturbed.overtook (h : p.Undisturbed q) (ht : q.transcript = p.transcript) :
    p.Overtook q :=
  ⟨h.settings, h.toAlike.parallel.caughtUp, ht, fun hp => hp.undisturbed h⟩

theorem ends_collectGarbage_overtook (p : Planner) (E : Fault → Planner → Prop) :
    Ends collectGarbage p (fun _ q => p.Overtook q ∧ q.Clean) E := by
  refine (ends_collectGarbage_caughtUp p E).mono (fun _ q h => ?_) fun _ _ h => h
  have hswept := (swept_caughtUp p).reported h.reported
  refine ⟨⟨hswept.settings, ?_, ?_, fun hp => ?_⟩, hswept.clean⟩
  · rw [hswept.clean.caughtUp]
    exact h.reported.undisturbed.toAlike.parallel
  · rw [h.transcript]
    unfold Planner.caughtUp
    split_ifs
    · rfl
    cases p.graph.root with
    | none => rfl
    | some root =>
      simp only
      split_ifs <;> rfl
  · exact ((law_tame p.settings.dag).swept p q hp.exact.consistent hswept rfl hp).2

/-- After an instruction, garbage is swept or left as it is. -/
theorem ends_sweepIfLarge_overtook (p : Planner) (E : Fault → Planner → Prop) :
    Ends sweepIfLarge p (fun _ q => p.Overtook q) E := by
  refine ends_bind.2 (ends_get.2 ?_)
  split
  · exact (ends_collectGarbage_overtook p E).mono (fun _ _ h => h.1) fun _ _ h => h
  · exact ends_pure.2 (.refl p)

/-- Reporting a firing to observers. -/
theorem ends_reportProduction_overtook {replacement : Replacement}
    (hlive : p.graph.contains replacement.result = true) (E : Fault → Planner → Prop) :
    Ends (reportProduction rule replacement) p (fun _ q => p.Overtook q) E := by
  refine ends_bind.2 (ends_get.2 ?_)
  split_ifs
  · obtain ⟨after, hafter⟩ := contains_iff_current.1 hlive
    refine ends_bind.2 (ends_bind.2 (ends_get.2 ?_))
    rw [hafter]
    refine ends_pure.2 (ends_bind.2 (ends_get.2 ?_))
    refine ends_bind.2 (ends_onGraph.2 (ends_bind.2 (ends_onGraph.2 (ends_bind.2 (ends_modify.2 ?_)))))
    have h := (undisturbed_cumulativeCost replacement.before p).trans
      (undisturbed_cumulativeCost after _)
    refine (ends_collectGarbage_overtook _ E).mono (fun _ q hq => ?_) fun _ _ h => h
    refine Overtook.trans ((h.trans ?_).overtook ?_) hq.1
    · exact Reported.undisturbed ⟨_, rfl⟩
    · rw [transcript_report]
      exact List.append_nil _
  · exact ends_pure.2 (.refl p)

/-! ## Planners abreast -/

/-- Once garbage was looked for in both, the planners differ in whether they are observed, in the level
from which they write, in cached costs and in reports alone. -/
structure Abreast (dag : Bool) (level : Level) (p q : Planner) : Prop where
  dag_eq : p.settings.dag = dag
  allows : p.Allows (Plain dag)
  left : p.Tame
  right : q.Tame
  caughtUp : p.caughtUp.Parallel q.caughtUp
  retold : Retold level p q

namespace Abreast

theorem settings (h : Abreast dag level p q) : p.settings.Agree q.settings := by
  have hagree := h.caughtUp.settings
  rwa [(swept_caughtUp p).settings, (swept_caughtUp q).settings] at hagree

theorem registry (h : Abreast dag level p q) : q.registry = p.registry := by
  rw [← (swept_caughtUp p).registry, ← (swept_caughtUp q).registry, h.caughtUp.registry]

theorem execution (h : Abreast dag level p q) : q.execution = p.execution := by
  rw [← (swept_caughtUp p).execution, ← (swept_caughtUp q).execution, h.caughtUp.execution]

theorem transformations (h : Abreast dag level p q) : q.transformations = p.transformations := by
  rw [← (swept_caughtUp p).transformations, ← (swept_caughtUp q).transformations,
    h.caughtUp.transformations]

/-- Where no garbage is to be looked for, the planners are in step. -/
theorem inStep (h : Abreast dag level p q) (hp : p.Clean) (hq : q.Clean) : InStep level p q :=
  ⟨hp.caughtUp ▸ hq.caughtUp ▸ h.caughtUp, h.retold⟩

theorem overtook (h : Abreast dag level p q) (hp : p.Overtook p') (hq : q.Overtook q') :
    Abreast dag level p' q' where
  dag_eq := by rw [hp.settings, h.dag_eq]
  allows := by
    refine h.allows.congr ?_ ?_
    · rw [← (swept_caughtUp p').registry, hp.caughtUp.registry, (swept_caughtUp p).registry]
    · rw [← (swept_caughtUp p').execution, hp.caughtUp.execution, (swept_caughtUp p).execution]
  left := hp.tame h.left
  right := hq.tame h.right
  caughtUp := (hp.caughtUp.symm.trans h.caughtUp).trans hq.caughtUp
  retold := h.retold.congr hp.settings hp.transcript hq.settings hq.transcript

/-- Rule instructions may be executed in another way from now on. -/
theorem executed (h : Abreast dag level p q) (e : Execution)
    (he : ∀ rules, e.group = some rules → ∀ r ∈ rules, Plain dag r) :
    Abreast dag level { p with execution := e } { q with execution := e } where
  dag_eq := h.dag_eq
  allows := ⟨h.allows.registered, h.allows.companions, he⟩
  left := ⟨⟨h.left.exact.consistent, h.left.exact.caches⟩, h.left.discerning⟩
  right := ⟨⟨h.right.exact.consistent, h.right.exact.caches⟩, h.right.discerning⟩
  caughtUp := by
    rw [caughtUp_execution p e, caughtUp_execution q e]
    exact ⟨h.caughtUp.settings, h.caughtUp.program, h.caughtUp.registry, rfl, h.caughtUp.graph,
      h.caughtUp.transformations, h.caughtUp.transformationsAtSweep, h.caughtUp.sizeAtSweep,
      h.caughtUp.sweeps⟩
  retold := h.retold.congr rfl rfl rfl rfl

end Abreast

/-- What cannot fail, and leaves garbage and steps as they are but for looking for garbage. -/
theorem concur_overtook {x : Planning Unit} {P : Planner → Prop} {E : Planner → Planner → Prop}
    (h : Abreast dag level p q) (hp : Ends x p (fun _ p' => p.Overtook p' ∧ P p') fun _ _ => False)
    (hq : Ends x q (fun _ q' => q.Overtook q' ∧ P q') fun _ _ => False) :
    Concur x p q (fun _ p' q' => Abreast dag level p' q' ∧ P p' ∧ P q') E := by
  obtain ⟨_, p', hendp, hp', hP⟩ := hp.exists_ok
  obtain ⟨_, q', hendq, hq', hP'⟩ := hq.exists_ok
  exact concur_of_eq_ok hendp hendq ⟨h.overtook hp' hq', hP, hP'⟩

theorem Abreast.asked (h : Abreast dag level p q) (hasked : Asked p q p' q') :
    Abreast dag level p' q' where
  dag_eq := by rw [hasked.left.settings, h.dag_eq]
  allows := h.allows.congr hasked.left.registry hasked.left.execution
  left := h.left.undisturbed hasked.left
  right := h.right.undisturbed hasked.right
  caughtUp := (hasked.left.toAlike.parallel.caughtUp.symm.trans h.caughtUp).trans
    hasked.right.toAlike.parallel.caughtUp
  retold := hasked.retold level h.retold

theorem concur_log_abreast (h : Abreast dag level p q) (m : Message) (E : Planner → Planner → Prop) :
    Concur (log m) p q (fun _ => Abreast dag level) E :=
  (concur_log_asked m p q E).mono (fun _ _ _ => h.asked) fun _ _ h => h

/-! ## Trying rules -/

section Trying

variable {id : VertexId} {force : Bool}

/-- What a try of a rule leaves, before it is reported. -/
theorem ends_attempt_tame (hp : p.Tame) (hrule : Plain p.settings.dag rule) :
    Ends (attempt rule id force) p (fun replacement q => q.Tame ∧ q.settings = p.settings ∧
      q.registry = p.registry ∧ q.execution = p.execution ∧
        ∀ r ∈ replacement, q.graph.contains r.result = true) fun _ _ => True := by
  refine (((law_tame p.settings.dag).attempt p rule id force hp.exact.consistent hrule).and
    (ends_attempt hp.exact.consistent rule id force)).mono ?_ fun _ _ _ => trivial
  rintro (_ | replacement) q ⟨htame, h⟩
  · exact ⟨(htame rfl hp).2, h.settings, h.registry, h.execution, by simp⟩
  · obtain ⟨-, -, best, -, h⟩ := h
    refine ⟨(htame rfl hp).2, h.settings, h.registry, h.execution, ?_⟩
    rintro _ ⟨⟩
    exact h.contains hp.exact.consistent

/-- A rule does the same in both planners. If it puts no other vertex in place of the one that it is
tried on, then there is still no garbage. -/
theorem concur_apply (h : Abreast dag level p q) (hp : p.Clean) (hq : q.Clean) (hrule : Plain dag rule)
    (id : VertexId) (force : Bool) :
    Concur (apply rule id force) p q (fun result p' q' => Abreast dag level p' q' ∧
      ((∀ r ∈ result, r = id) → p'.Clean ∧ q'.Clean)) (Retold level) := by
  have hrulep : Plain p.settings.dag rule := h.dag_eq ▸ hrule
  have hruleq : Plain q.settings.dag rule := h.settings.dag ▸ hrulep
  have hmain : Concur (apply rule id force) p q (fun _ => Abreast dag level) (Retold level) := by
    refine ((concur_attempt (h.inStep hp hq) h.left.exact h.right.exact rule id force).and
      (ends_attempt_tame h.left hrulep) (ends_attempt_tame h.right hruleq)).bind ?_
    rintro replacement p₁ q₁ ⟨hin, ⟨htame, hsettings, hregistry, hexecution, hlive⟩,
      htame', -, -, -, hlive'⟩
    have h₁ : Abreast dag level p₁ q₁ := ⟨(congrArg Settings.dag hsettings).trans h.dag_eq,
      h.allows.congr hregistry hexecution, htame, htame', hin.parallel.caughtUp, hin.retold⟩
    cases replacement with
    | none => exact concur_pure h₁
    | some replacement =>
      have hreport : ∀ {r : Planner}, r.graph.contains replacement.result = true →
          Ends (reportProduction rule replacement) r (fun _ r' => r.Overtook r' ∧ True)
            fun _ _ => False := fun hr =>
        (ends_reportProduction_overtook hr _).mono (fun _ _ h => ⟨h, trivial⟩) fun _ _ h => h
      refine (concur_overtook h₁ (hreport (hlive _ rfl)) (hreport (hlive' _ rfl))).bind ?_
      rintro _ p₂ q₂ ⟨h₂, -⟩
      exact concur_pure h₂
  refine (hmain.and (ends_self _ p) (ends_self _ q)).mono ?_ fun _ _ h => h
  rintro result p' q' ⟨h', hendp, hendq⟩
  refine ⟨h', fun hresult => ⟨?_, ?_⟩⟩
  · have hsteady := steady_apply h.left.exact h.left.discerning hp hrulep hresult hendp
    exact hp.congr (hsteady.eq h.left.exact hendp).2.toAlike
  · have hsteady := steady_apply h.right.exact h.right.discerning hq hruleq hresult hendq
    exact hq.congr (hsteady.eq h.right.exact hendq).2.toAlike

theorem concur_visit (hrules : ∀ r ∈ rules, Plain dag r) (force : Bool) (id : VertexId) :
    ∀ {p q}, Abreast dag level p q → p.Clean → q.Clean →
      Concur (visit rules force id) p q (fun result p' q' => Abreast dag level p' q' ∧
        (result = none → p'.Clean ∧ q'.Clean)) (Retold level) := by
  induction rules with
  | nil => exact fun h hp hq => concur_pure ⟨h, fun _ => ⟨hp, hq⟩⟩
  | cons rule rest ih =>
    intro p q h hp hq
    rw [List.forall_mem_cons] at hrules
    rw [visit]
    refine (concur_apply h hp hq hrules.1 id force).bind ?_
    rintro (_ | result) p' q' ⟨h', hclean⟩
    · obtain ⟨hp', hq'⟩ := hclean (by simp)
      exact ih hrules.2 h' hp' hq'
    · simp only
      split_ifs with hne
      · exact concur_pure ⟨h', fun heq => by cases heq⟩
      · obtain ⟨hp', hq'⟩ := hclean (by simpa using not_not.1 hne)
        exact ih hrules.2 h' hp' hq'

end Trying

/-! ## Passes -/

theorem concur_schedule (h : Abreast dag level p q) (start : VertexId) :
    Concur (schedule start) p q (fun _ p' q' => Abreast dag level p' q' ∧ p'.Clean ∧ q'.Clean)
      (Retold level) := by
  refine (concur_overtook h (ends_collectGarbage_overtook p _)
    (ends_collectGarbage_overtook q _)).bind ?_
  rintro _ p q ⟨h, hp, hq⟩
  have hin := h.inStep hp hq
  refine concur_get (by rw [h.execution]) ?_
  split
  · exact concur_get (by rw [hin.parallel.graph.depthFirstFrom]) (concur_pure ⟨h, hp, hq⟩)
  · exact concur_get (by rw [hin.parallel.graph.depthFirstFrom]) (concur_pure ⟨h, hp, hq⟩)
  · refine (concur_topologicalOrder hin).mono ?_ fun _ _ h => h
    rintro _ _ _ ⟨rfl, rfl⟩
    exact ⟨h, hp, hq⟩
  · refine (concur_topologicalOrder hin).bind ?_
    rintro _ _ _ ⟨rfl, rfl⟩
    exact concur_pure ⟨h, hp, hq⟩

theorem concur_requireRoot (h : Abreast dag level p q) :
    Concur requireRoot p q (fun _ p' q' => p' = p ∧ q' = q) (Retold level) := by
  have hp := h.left.exact.consistent
  have hq := h.right.exact.consistent
  have hroot : q.graph.root = p.graph.root := by
    rw [← (swept_caughtUp p).root hp, ← (swept_caughtUp q).root hq, h.caughtUp.graph.root]
  cases hcase : p.graph.root with
  | none =>
    -- without a root nothing is swept
    have hgraph : ∀ {r : Planner}, r.graph.Consistent r.settings.digestMode →
        r.graph.root = none → r.caughtUp.graph = r.graph := by
      intro r hr hnone
      rcases (swept_caughtUp r).graph with heq | hsweep
      · exact heq
      · obtain ⟨_, hsome, -, -⟩ := hsweep.discarded hr.toLinked
        rw [hnone] at hsome
        cases hsome
    have halike := h.caughtUp.graph
    rw [hgraph hp hcase, hgraph hq (hroot.trans hcase)] at halike
    refine concur_get (by simp only [hroot, halike.contains]) ?_
    simp only [hcase]
    exact concur_get (by rw [halike.dump]) (concur_throw h.retold)
  | some root =>
    rw [hcase] at hroot
    exact concur_of_eq_ok (requireRoot_eq_ok.2 ⟨hcase, hp.root root hcase, rfl⟩)
      (requireRoot_eq_ok.2 ⟨hroot, hq.root root hroot, rfl⟩) ⟨rfl, rfl⟩

theorem concur_scheduleFromRoot (h : Abreast dag level p q) :
    Concur scheduleFromRoot p q (fun _ p' q' => Abreast dag level p' q' ∧ p'.Clean ∧ q'.Clean)
      (Retold level) := by
  refine (concur_requireRoot h).bind ?_
  rintro root _ _ ⟨rfl, rfl⟩
  exact concur_schedule h root

theorem concur_resume (h : Abreast dag level p q) (result : VertexId) (settled : Bool)
    (rest : List VertexId) :
    Concur (resume result settled rest) p q
      (fun _ p' q' => Abreast dag level p' q' ∧ p'.Clean ∧ q'.Clean)
      (Retold level) := by
  refine concur_get (by rw [h.execution]) ?_
  simp only
  split_ifs
  · exact concur_scheduleFromRoot h
  · exact (concur_schedule h result).bind fun _ _ _ h => concur_pure h
  · exact (concur_schedule h result).bind fun _ _ _ h => concur_pure h

theorem concur_traverse (hrules : ∀ r ∈ rules, Plain dag r) (force : Bool) (n : Nat) :
    ∀ {p q}, Abreast dag level p q → p.Clean → q.Clean → ∀ pending settled matched,
      Concur (traverse rules force n pending settled matched) p q
        (fun _ => Abreast dag level) (Retold level) := by
  induction n with
  | zero => exact fun h _ _ _ _ _ => concur_throw h.retold
  | succ n ih =>
    intro p q h hp hq pending settled matched
    cases pending with
    | nil =>
      rw [traverse]
      split_ifs
      · exact concur_pure h
      · exact (concur_scheduleFromRoot h).bind fun _ _ _ h => ih h.1 h.2.1 h.2.2 _ _ _
    | cons id rest =>
      rw [traverse]
      refine (concur_visit hrules force id h hp hq).bind ?_
      rintro (_ | result) p q ⟨h, hclean⟩
      · obtain ⟨hp, hq⟩ := hclean rfl
        exact ih h hp hq _ _ _
      · refine concur_get (by rw [h.execution]) ?_
        split_ifs
        · exact concur_pure h
        · refine (concur_resume h result settled rest).bind ?_
          rintro pending p q ⟨h, hp, hq⟩
          exact concur_get (by rw [h.execution]) (ih h hp hq _ _ _)

theorem concur_fireRules (hrules : ∀ r ∈ rules, Plain dag r) (h : Abreast dag level p q) (fuel : Nat)
    (force : Bool) :
    Concur (fireRules fuel rules force) p q (fun _ => Abreast dag level) (Retold level) := by
  refine (concur_log_abreast h _ _).bind fun _ p q h => ?_
  refine (concur_scheduleFromRoot h).bind fun _ p q h => ?_
  exact concur_traverse hrules force fuel h.1 h.2.1 h.2.2 _ _ _

/-! ## Instructions -/

theorem concur_sweepIfLarge (h : Abreast dag level p q) (E : Planner → Planner → Prop) :
    Concur sweepIfLarge p q (fun _ => Abreast dag level) E := by
  have hsweep : ∀ r, Ends sweepIfLarge r (fun _ r' => r.Overtook r' ∧ True) fun _ _ => False :=
    fun r => (ends_sweepIfLarge_overtook r _).mono (fun _ _ h => ⟨h, trivial⟩) fun _ _ h => h
  exact (concur_overtook h (hsweep p) (hsweep q)).mono (fun _ _ _ h => h.1) fun _ _ h => h

/-- Whatever a program does, the planners stay abreast. -/
theorem lockstep_abreast : Lockstep (Plain dag) (fun _ => True) (Abreast dag level)
    fun f g p q => g = f ∧ Retold level p q where
  fresh := trivial
  allows h := h.allows
  order _ := trivial
  registry h := h.registry
  execution h := h.execution
  transformations h := h.transformations
  executed h _ hgroup := h.executed _ hgroup
  log m h := (concur_log_abreast h m _).paired.mono (fun _ _ _ _ h => h.2) fun _ _ _ _ h => h
  fireRules fuel force hrules h :=
    (concur_fireRules hrules h fuel force).paired.mono (fun _ _ _ _ h => h.2) fun _ _ _ _ h => h
  sweepIfLarge h := (concur_sweepIfLarge h _).paired.mono (fun _ _ _ _ h => h.2) fun _ _ _ _ h => h
  fault _ h := ⟨rfl, h.retold⟩
  fault_execution _ h := ⟨h.1, h.2.congr rfl rfl rfl rfl⟩

theorem concur_execute {program : Program} (hprogram : ∀ r ∈ program.rules, Plain dag r)
    (h : Abreast dag level p q) (fuel : Nat) :
    Concur (execute fuel program) p q (fun _ => Abreast dag level) (Retold level) :=
  ((lockstep_abreast.execute hprogram (fun _ _ => trivial) h fuel).mono
    (fun _ _ _ _ h => ⟨rfl, h⟩) fun _ _ _ _ h => h).concur

/-! ## Whole runs -/

theorem concur_findBestPlan (hprogram : ∀ r ∈ p.program.rules, Plain dag r) (h : Abreast dag level p q)
    (fuel : Nat) : Concur (findBestPlan fuel) p q (fun _ => (Retold level)) (Retold level) := by
  have hsame : q.program = p.program := by
    rw [← (swept_caughtUp p).program, ← (swept_caughtUp q).program, h.caughtUp.program]
  refine concur_get (by rw [hsame]) ?_
  refine (concur_log_abreast h _ _).bind fun _ p₁ q₁ h₁ => ?_
  refine (concur_execute hprogram h₁ fuel).bind fun _ p₂ q₂ h₂ => ?_
  refine (concur_overtook h₂ (ends_collectGarbage_overtook p₂ _)
    (ends_collectGarbage_overtook q₂ _)).bind ?_
  rintro _ p₃ q₃ ⟨h₃, hp₃, hq₃⟩
  refine (concur_requireRoot h₃).bind ?_
  rintro root _ _ ⟨rfl, rfl⟩
  refine (concur_finalPlan (h₃.inStep hp₃ hq₃) root).bind fun plan p₄ q₄ h₄ => ?_
  refine concur_get (by rw [h₄.parallel.transformations]) ?_
  exact (concur_log h₄ _).bind fun _ _ _ h₅ => concur_pure h₅.retold

/-- A planner is built for a plan and finds its best plan. -/
def optimize (settings : Settings) (program : Program) (rules : List Rule) (plan : Node)
    (fuel : Nat) : EStateM.Result Fault Planner Plan :=
  (load rules plan >>= fun _ => findBestPlan fuel) (initial settings program)

/-- What is known of a planner that was built, if the traits are plain where vertices are shared. -/
theorem ends_load_tame {settings : Settings} {program : Program} {plan : Node}
    (hplain : settings.dag = true → plan.Within PlainTraits ∧
      Closed (Rule.StaysWithin PlainTraits) (rules ++ program.rules)) :
    Ends (load rules plan) (initial settings program) (fun _ p => p.Tame ∧
      p.settings = settings ∧ p.program = program ∧ p.Allows (Plain settings.dag))
      fun _ _ => True := by
  have hclosed : Closed (Plain settings.dag) (rules ++ program.rules) := fun r hr =>
    ⟨fun hdag => ((hplain hdag).2 r hr).1, fun c hc hdag => ((hplain hdag).2 r hr).2 c hc⟩
  refine ((ends_self _ _).and (ends_load plan hclosed (ready_initial settings program _))).mono ?_
    fun _ _ _ => trivial
  rintro _ p ⟨hbuild, hallows, hloaded⟩
  refine ⟨⟨(Driven.built hbuild).exact, fun hdag => ?_⟩, hloaded.settings, hloaded.program, hallows⟩
  rw [hloaded.settings] at hdag
  exact within_build (hplain hdag).1 hbuild

/-- A run that is observed or not, at whatever level, keeps in step with the unobserved run that writes
everything down. -/
theorem concur_optimize (settings : Settings) (program : Program) (rules : List Rule) (plan : Node)
    (hplain : settings.dag = true → plan.Within PlainTraits ∧
      Closed (Rule.StaysWithin PlainTraits) (rules ++ program.rules)) (fuel : Nat) (observed : Bool)
    (level : Level) :
    Concur (load rules plan >>= fun _ => findBestPlan fuel)
      (initial { settings with observed := false, level := .trace } program)
      (initial { settings with observed, level } program) (fun _ => Retold level) (Retold level) := by
  let s (observed : Bool) (level : Level) : Settings := { settings with observed, level }
  have hagree : (s false .trace).Agree (s observed level) := ⟨rfl, rfl, rfl, rfl, rfl, rfl, rfl⟩
  have hinit : InStep level (initial (s false .trace) program) (initial (s observed level) program) :=
    ⟨⟨hagree, rfl, rfl, rfl, .refl _, rfl, rfl, rfl, rfl⟩, ⟨rfl, rfl, rfl⟩⟩
  have hclosed : ∀ r ∈ program.rules, Plain settings.dag r := fun r hr hdag =>
    ((hplain hdag).2 r (List.mem_append_right _ hr)).1
  have hload := (concur_load hinit rules plan).and (ends_load_tame hplain) (ends_load_tame hplain)
  refine hload.bind ?_
  rintro _ p q ⟨hin, ⟨hp, hsettings, hprogram, hallows⟩, hq, -⟩
  refine concur_findBestPlan (hprogram ▸ hclosed) ⟨?_, hallows, hp, hq, hin.parallel.caughtUp,
    hin.retold⟩ fuel
  rw [hsettings]

/-- Observers do not influence the planner, and neither does what is written down. Where vertices are
shared, traits have to be plain, for keys to tell what expressions refer to. Whether somebody observes
the planner or not, and whatever the level, it ends with the same plan or the same fault, and it takes
the same steps: it writes down what an unobserved planner writes down at the lowest level, as far as
the level asks for it and sweeps aside. These messages tell of every firing the rule, the expression
that it matched, what each proposed expression costs, and the vertices before and after. -/
theorem optimize_observed (settings : Settings) (program : Program) (rules : List Rule) (plan : Node)
    (hplain : settings.dag = true → plan.Within PlainTraits ∧
      Closed (Rule.StaysWithin PlainTraits) (rules ++ program.rules)) (fuel : Nat) (observed : Bool)
    (level : Level) :
    let run (observed : Bool) (level : Level) :=
      optimize { settings with observed, level } program rules plan fuel
    result (run observed level) = result (run false .trace) ∧
      (left (run observed level)).transcript =
        (left (run false .trace)).transcript.filter fun m => level.rank ≤ m.level.rank := by
  intro run
  have hrun := concur_optimize settings program rules plan hplain fuel observed level
  exact ⟨hrun.result_eq, hrun.left.transcript⟩

/-- A limit on a limit, merged while somebody observes. -/
theorem optimize_observed_stackedLimits :
    let run (observed : Bool) (level : Level) := optimize { Settings.default with observed, level }
      ⟨[.rule Rule.removeLimit]⟩ [] stackedLimits 9
    result (run true .info) = result (run false .trace) ∧
      (left (run true .info)).transcript =
        (left (run false .trace)).transcript.filter fun m => Level.info.rank ≤ m.level.rank := by
  refine optimize_observed .default ⟨[.rule Rule.removeLimit]⟩ [] stackedLimits
    (fun _ => ⟨?_, fun rule hrule => ?_⟩) 9 true .info
  · simp only [stackedLimits, Node.Within, Node.AllWithin, PlainTraits]
    decide
  · obtain rfl : rule = Rule.removeLimit := by
      simpa [Program.rules, Instruction.rulesOf, Instruction.ownRules] using hrule
    refine ⟨Simplification.staysWithin (fun _ _ _ _ h => h) .removeLimit, fun companion h => ?_⟩
    cases h

/-! ## Traits that are not plain -/

def mirroredTraits : TraitSet := ⟨⟨"NONE(input#0=#2, table=a"⟩, .unordered⟩

/-- Vertex 0 is the scan and vertex 1 the limit. -/
def mirroredPlan : Node :=
  ⟨.limit 5, [{ misleadingScan with traits := mirroredTraits }], mirroredTraits,
    misleadingScan.rowType⟩

/-- Proposes a scan over another one. Its digest is that of the matched scan, if the other scan is
vertex 2. -/
def rebuildOver (leaf : String) : Rule :=
  .transformation ("Rebuild over " ++ leaf)
    { Pattern.ofKind .tableScan with convention := some mirroredTraits.convention }
    fun call => match call.rel? 0 with
      | some n => .offer ⟨.tableScan ⟨"a(table=b", n.rowType, none, none⟩,
          [⟨.tableScan ⟨leaf, n.rowType, none, none⟩, [], .default, n.rowType⟩], .default, n.rowType⟩
      | none => return

/-- Whether the plan reads the table. -/
def scansTable (table : String) (plan : Plan) : Bool :=
  plan.entries.any fun entry => match entry.operator with
    | .tableScan scan => scan.table = table
    | _ => false

/-- The scan is rebuilt over a scan that becomes vertex 2, and is found to be there already. An observed
planner sweeps vertex 2 and meets the same when it rebuilds the scan over the next one. Another
planner makes that one vertex 3, and replaces the scan. -/
theorem not_optimize_observed : ¬ ∀ (settings : Settings) (program : Program) (rules : List Rule)
    (plan : Node) (fuel : Nat),
    result (optimize { settings with observed := true } program rules plan fuel) =
      result (optimize { settings with observed := false } program rules plan fuel) := by
  intro h
  have hsame := h .default ⟨[.rules [rebuildOver "c", rebuildOver "d"]]⟩ [] mirroredPlan 9
  have hscans := congrArg (fun r => r.toOption.map (scansTable "d")) hsame
  exact absurd hscans (by decide +kernel)

end Planner

end QueryPlanner
