import QueryPlanner.Planner.Run
import Mathlib.Tactic

/-!
# Outcomes of planner operations

`Ends x p Q E` says how the operation `x` ends when it is started in the state `p`: with a result
and a state in `Q`, or with a fault and a state in `E`. Sequencing two operations sequences these
statements, so an operation is described from the descriptions of its parts.
-/

namespace QueryPlanner

namespace Planning

variable {α β : Type} {p : Planner} {Q Q' : α → Planner → Prop} {E E' : Fault → Planner → Prop}

def Ends (x : Planning α) (p : Planner) (Q : α → Planner → Prop) (E : Fault → Planner → Prop) :
    Prop :=
  match x p with
  | .ok a q => Q a q
  | .error f q => E f q

theorem Ends.mono {x : Planning α} (h : Ends x p Q E) (hQ : ∀ a q, Q a q → Q' a q)
    (hE : ∀ f q, E f q → E' f q) : Ends x p Q' E' := by
  unfold Ends at h ⊢
  split at h
  · exact hQ _ _ h
  · exact hE _ _ h

theorem Ends.ok {x : Planning α} {a : α} {q : Planner} (h : Ends x p Q E) (hx : x p = .ok a q) :
    Q a q := by
  rwa [Ends, hx] at h

theorem Ends.error {x : Planning α} {f : Fault} {q : Planner} (h : Ends x p Q E)
    (hx : x p = .error f q) : E f q := by
  rwa [Ends, hx] at h

theorem ends_of_eq_ok {x : Planning α} {a : α} {q : Planner} (hx : x p = .ok a q) :
    Ends x p Q E ↔ Q a q := by
  rw [Ends, hx]

/-- An operation that cannot fail ends with a result. -/
theorem Ends.exists_ok {x : Planning α} (h : Ends x p Q fun _ _ => False) :
    ∃ a q, x p = .ok a q ∧ Q a q := by
  unfold Ends at h
  split at h
  · next a q hx => exact ⟨a, q, hx, h⟩
  · exact h.elim

/-- An operation ends in some way. -/
theorem ends_self (x : Planning α) (p : Planner) :
    Ends x p (fun a q => x p = .ok a q) fun f q => x p = .error f q := by
  unfold Ends
  split <;> assumption

theorem Ends.and {x : Planning α} (h : Ends x p Q E) (h' : Ends x p Q' E') :
    Ends x p (fun a q => Q a q ∧ Q' a q) fun f q => E f q ∧ E' f q := by
  unfold Ends at h h' ⊢
  split at h
  · next hx =>
    rw [hx] at h'
    exact ⟨h, h'⟩
  · next hx =>
    rw [hx] at h'
    exact ⟨h, h'⟩

theorem ends_pure {a : α} : Ends (pure a) p Q E ↔ Q a p := Iff.rfl

theorem ends_throw {f : Fault} : Ends (throw f : Planning α) p Q E ↔ E f p := Iff.rfl

theorem ends_get {Q : Planner → Planner → Prop} : Ends get p Q E ↔ Q p p := Iff.rfl

theorem ends_set {Q : PUnit → Planner → Prop} {q : Planner} : Ends (set q) p Q E ↔ Q ⟨⟩ q := Iff.rfl

theorem ends_modify {Q : PUnit → Planner → Prop} {f : Planner → Planner} :
    Ends (modify f) p Q E ↔ Q ⟨⟩ (f p) := Iff.rfl

theorem ends_bind {x : Planning α} {f : α → Planning β} {Q : β → Planner → Prop} :
    Ends (x >>= f) p Q E ↔ Ends x p (fun a q => Ends (f a) q Q E) E := by
  show Ends (EStateM.bind x f) p Q E ↔ _
  unfold Ends EStateM.bind
  split <;> split <;> simp_all

theorem Ends.bind {x : Planning α} {f : α → Planning β} {Q' : β → Planner → Prop}
    (hx : Ends x p Q E) (hf : ∀ a q, Q a q → Ends (f a) q Q' E) : Ends (x >>= f) p Q' E :=
  ends_bind.2 (hx.mono hf fun _ _ h => h)

/-- Two operations succeed one after the other. -/
theorem bind_eq_ok {x : Planning α} {f : α → Planning β} {b : β} {q : Planner} :
    (x >>= f) p = .ok b q ↔ ∃ a p₁, x p = .ok a p₁ ∧ f a p₁ = .ok b q := by
  show EStateM.bind x f p = .ok b q ↔ _
  unfold EStateM.bind
  cases hx : x p <;> simp

/-- A loop that keeps a relation to the states it has gone through. -/
theorem ends_forM {xs : List α} {f : α → Planning PUnit} {R : Planner → Planner → Prop}
    {E : Planner → Fault → Planner → Prop} (refl : ∀ p, R p p)
    (trans : ∀ p q r, R p q → R q r → R p r) (fault : ∀ p q f r, R p q → E q f r → E p f r)
    (hf : ∀ x ∈ xs, ∀ p, Ends (f x) p (fun _ q => R p q) (E p)) (p : Planner) :
    Ends (xs.forM f) p (fun _ q => R p q) (E p) := by
  induction xs generalizing p with
  | nil => exact ends_pure.2 (refl p)
  | cons x xs ih =>
    apply (hf x List.mem_cons_self p).bind
    intro _ q hq
    exact (ih (fun y hy => hf y (List.mem_cons_of_mem x hy)) q).mono
      (fun _ r => trans p q r hq) (fun f r => fault p q f r hq)

/-- With enough fuel the operation ends, always in the same way, and it ends so. -/
def Fueled (x : Nat → Planning α) (p : Planner) (Q : α → Planner → Prop)
    (E : Fault → Planner → Prop) : Prop :=
  ∃ N r, (∀ n ≥ N, x n p = r) ∧ Ends (fun _ => r) p Q E

theorem Fueled.mono {x : Nat → Planning α} (h : Fueled x p Q E) (hQ : ∀ a q, Q a q → Q' a q)
    (hE : ∀ f q, E f q → E' f q) : Fueled x p Q' E' := by
  obtain ⟨N, r, hr, h⟩ := h
  exact ⟨N, r, hr, h.mono hQ hE⟩

theorem Ends.fueled {x : Planning α} (h : Ends x p Q E) : Fueled (fun _ => x) p Q E :=
  ⟨0, x p, fun _ _ => rfl, h⟩

/-- Fuel that is used up by a first step does not matter. -/
theorem Fueled.of_succ {x : Nat → Planning α} (h : Fueled (fun n => x (n + 1)) p Q E) :
    Fueled x p Q E := by
  obtain ⟨N, r, hr, h⟩ := h
  refine ⟨N + 1, r, fun n hn => ?_, h⟩
  obtain ⟨n, rfl⟩ := Nat.exists_eq_succ_of_ne_zero (Nat.ne_zero_of_lt hn)
  exact hr n (Nat.le_of_succ_le_succ hn)

/-- Two operations of which both take fuel. -/
theorem Fueled.bind {x : Nat → Planning α} {f : Nat → α → Planning β} {Q' : β → Planner → Prop}
    (hx : Fueled x p Q E) (hf : ∀ a q, Q a q → Fueled (fun n => f n a) q Q' E) :
    Fueled (fun n => x n >>= f n) p Q' E := by
  obtain ⟨N, r, hr, h⟩ := hx
  cases r with
  | ok a q =>
    obtain ⟨M, r', hr', h'⟩ := hf a q h
    refine ⟨max N M, r', fun n hn => ?_, h'⟩
    show EStateM.bind (x n) (f n) p = r'
    rw [EStateM.bind, hr n (le_of_max_le_left hn)]
    exact hr' n (le_of_max_le_right hn)
  | error f q =>
    refine ⟨N, .error f q, fun n hn => ?_, h⟩
    show EStateM.bind (x n) _ p = .error f q
    rw [EStateM.bind, hr n hn]

/-- What is done first takes no fuel. -/
theorem Ends.bind_fueled {x : Planning α} {f : Nat → α → Planning β} {Q' : β → Planner → Prop}
    (hx : Ends x p Q E) (hf : ∀ a q, Q a q → Fueled (fun n => f n a) q Q' E) :
    Fueled (fun n => x >>= f n) p Q' E :=
  hx.fueled.bind hf

theorem fueled_get {f : Nat → Planner → Planning β} {Q : β → Planner → Prop}
    (h : Fueled (fun n => f n p) p Q E) : Fueled (fun n => get >>= f n) p Q E := by
  have hget : Ends get p (fun q r => q = p ∧ r = p) E := ends_get.2 ⟨rfl, rfl⟩
  refine hget.bind_fueled ?_
  rintro _ _ ⟨rfl, rfl⟩
  exact h

/-- A broken graph is reported as it is. -/
theorem ends_structuralFault {defect : GraphDefect} {rule : Option String} :
    Ends (Planner.structuralFault defect rule) p Q E ↔
      E (.structural rule defect p.graph.dump) p := Iff.rfl

/-- An operation ends in an execution state of its own as it ends in a fresh one. -/
theorem ends_isolated {body : Planning Unit} {Q : Unit → Planner → Prop} :
    Ends (Planner.isolated body) p Q E ↔
      Ends body { p with execution := .fresh } (fun a q => Q a { q with execution := p.execution })
        fun f q => E f { q with execution := p.execution } := by
  unfold Ends Planner.isolated
  cases body { p with execution := .fresh } <;> rfl

/-- What holds before every repetition, as long as the last one has transformed something. -/
theorem ends_untilStable {body : Planning Unit} {I : Planner → Prop} {Q : Unit → Planner → Prop}
    (hfuel : ∀ p, I p → E .outOfFuel p)
    (hbody : ∀ p, I p → Ends body p (fun _ q => (q.transformations ≠ p.transformations → I q) ∧
      (q.transformations = p.transformations → Q () q)) E) (n : Nat) :
    ∀ p, I p → Ends (Planner.untilStable body n) p Q E := by
  induction n with
  | zero => exact fun p hp => ends_throw.2 (hfuel p hp)
  | succ n ih =>
    intro p hp
    rw [Planner.untilStable]
    refine ends_bind.2 (ends_get.2 ((hbody p hp).bind fun _ q hq => ends_bind.2 (ends_get.2 ?_)))
    split_ifs with hchanged
    · exact ih q (hq.1 hchanged)
    · exact ends_pure.2 (hq.2 (not_not.1 hchanged))

/-- Whether an operation has ended with a result. -/
def succeeded : EStateM.Result Fault Planner α → Bool
  | .ok .. => true
  | .error .. => false

/-- What an operation has ended with, the state aside. -/
def result : EStateM.Result Fault Planner α → Except Fault α
  | .ok a _ => .ok a
  | .error f _ => .error f

/-- The state that an operation has left. -/
def left : EStateM.Result Fault Planner α → Planner
  | .ok _ q => q
  | .error _ q => q

theorem exists_ok_of_succeeded {x : EStateM.Result Fault Planner α} (h : succeeded x = true) :
    ∃ a, x = .ok a (left x) := by
  cases x with
  | ok a q => exact ⟨a, rfl⟩
  | error f q => cases h

/-- Whether an operation has ended with a result of which this holds. -/
def yields (P : α → Prop) [DecidablePred P] : EStateM.Result Fault Planner α → Bool
  | .ok a _ => decide (P a)
  | .error .. => false

theorem exists_ok_of_yields {P : α → Prop} [DecidablePred P] {x : EStateM.Result Fault Planner α}
    (h : yields P x = true) : ∃ a, x = .ok a (left x) ∧ P a := by
  cases x with
  | ok a q => exact ⟨a, rfl, of_decide_eq_true h⟩
  | error f q => cases h

/-- Whether an outcome is a fault with the property. -/
def fails (P : Fault → Prop) [DecidablePred P] : EStateM.Result Fault Planner α → Bool
  | .ok .. => false
  | .error f _ => decide (P f)

theorem exists_error_of_fails {P : Fault → Prop} [DecidablePred P]
    {x : EStateM.Result Fault Planner α} (h : fails P x = true) :
    ∃ f, x = .error f (left x) ∧ P f := by
  cases x with
  | ok a q => cases h
  | error f q => exact ⟨f, rfl, of_decide_eq_true h⟩

theorem eq_ok_of_succeeded {x : EStateM.Result Fault Planner Unit} (h : succeeded x = true) :
    x = .ok () (left x) := (exists_ok_of_succeeded h).choose_spec

/-! ## Two outcomes -/

/-- In two states the operation ends with the same result or with the same fault, and the states that
it leaves are related. -/
def Concur (x : Planning α) (p q : Planner) (Q : α → Planner → Planner → Prop)
    (E : Planner → Planner → Prop) : Prop :=
  match x p, x q with
  | .ok a p, .ok b q => b = a ∧ Q a p q
  | .error f p, .error g q => g = f ∧ E p q
  | _, _ => False

section Concur

variable {x : Planning α} {f : α → Planning β} {a : α} {q p' q' : Planner}
  {Q Q' : α → Planner → Planner → Prop} {E E' : Planner → Planner → Prop}

theorem concur_of_eq_ok (hp : x p = .ok a p') (hq : x q = .ok a q') (h : Q a p' q') :
    Concur x p q Q E := by
  rw [Concur, hp, hq]
  exact ⟨rfl, h⟩

theorem concur_of_eq_error {f : Fault} (hp : x p = .error f p') (hq : x q = .error f q')
    (h : E p' q') : Concur x p q Q E := by
  rw [Concur, hp, hq]
  exact ⟨rfl, h⟩

theorem Concur.cases_on (h : Concur x p q Q E) :
    (∃ a p' q', x p = .ok a p' ∧ x q = .ok a q' ∧ Q a p' q') ∨
      ∃ f p' q', x p = .error f p' ∧ x q = .error f q' ∧ E p' q' := by
  unfold Concur at h
  cases hp : x p <;> cases hq : x q <;> rw [hp, hq] at h
  · obtain ⟨rfl, h⟩ := h
    exact .inl ⟨_, _, _, rfl, rfl, h⟩
  · exact h.elim
  · exact h.elim
  · obtain ⟨rfl, h⟩ := h
    exact .inr ⟨_, _, _, rfl, rfl, h⟩

theorem concur_pure (h : Q a p q) : Concur (pure a) p q Q E := ⟨rfl, h⟩

theorem concur_throw {f : Fault} (h : E p q) : Concur (throw f : Planning α) p q Q E := ⟨rfl, h⟩

/-- What is read in both states makes them go on in the same way. -/
theorem concur_get {k : Planner → Planning α} (hk : k q = k p) (h : Concur (k p) p q Q E) :
    Concur (get >>= k) p q Q E := by
  show (match k p p, k q q with
    | .ok a p, .ok b q => b = a ∧ Q a p q
    | .error f p, .error g q => g = f ∧ E p q
    | _, _ => False)
  rw [hk]
  exact h

theorem Concur.mono (h : Concur x p q Q E) (hQ : ∀ a p q, Q a p q → Q' a p q)
    (hE : ∀ p q, E p q → E' p q) : Concur x p q Q' E' := by
  obtain ⟨a, p', q', hp, hq, h⟩ | ⟨f, p', q', hp, hq, h⟩ := h.cases_on
  · exact concur_of_eq_ok hp hq (hQ a p' q' h)
  · exact concur_of_eq_error hp hq (hE p' q' h)

theorem Concur.bind {Q' : β → Planner → Planner → Prop} (h : Concur x p q Q E)
    (hf : ∀ a p q, Q a p q → Concur (f a) p q Q' E) : Concur (x >>= f) p q Q' E := by
  show (match EStateM.bind x f p, EStateM.bind x f q with
    | .ok a p, .ok b q => b = a ∧ Q' a p q
    | .error f p, .error g q => g = f ∧ E p q
    | _, _ => False)
  unfold EStateM.bind
  obtain ⟨a, p', q', hp, hq, h⟩ | ⟨f, p', q', hp, hq, h⟩ := h.cases_on
  · rw [hp, hq]
    exact hf a p' q' h
  · rw [hp, hq]
    exact ⟨rfl, h⟩

/-- What is known of each of the states. -/
theorem Concur.and {P P' : α → Planner → Prop} {F F' : Fault → Planner → Prop}
    (h : Concur x p q Q E) (hp : Ends x p P F) (hq : Ends x q P' F') :
    Concur x p q (fun a p q => Q a p q ∧ P a p ∧ P' a q) E := by
  obtain ⟨a, p', q', hendp, hendq, h⟩ | ⟨f, p', q', hendp, hendq, h⟩ := h.cases_on
  · exact concur_of_eq_ok hendp hendq ⟨h, hp.ok hendp, hq.ok hendq⟩
  · exact concur_of_eq_error hendp hendq h

theorem Concur.result_eq (h : Concur x p q Q E) : result (x q) = result (x p) := by
  obtain ⟨a, p', q', hp, hq, -⟩ | ⟨f, p', q', hp, hq, -⟩ := h.cases_on <;> rw [hp, hq] <;> rfl

theorem Concur.left (h : Concur x p q (fun _ => E) E) : E (left (x p)) (left (x q)) := by
  obtain ⟨a, p', q', hp, hq, h⟩ | ⟨f, p', q', hp, hq, h⟩ := h.cases_on <;> rw [hp, hq] <;> exact h

end Concur

end Planning

end QueryPlanner
