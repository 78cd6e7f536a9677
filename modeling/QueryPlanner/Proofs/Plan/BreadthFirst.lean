import QueryPlanner.Plan.Basic
import Mathlib.Tactic
import Mathlib.Order.ConditionallyCompleteLattice.Basic

/-!
# Plans level by level

The traversal of a plan ends, and it visits what the root leads to: every position once, the nearer
ones first, and those of equal distance in the order in which they are met from the level above.
Between two levels its state is known (`stage`): everything up to some distance was met, and what
has just this distance comes next.
-/

namespace QueryPlanner.Plan

variable {p : Plan} {d m n i j : ℕ}

/-! ## Distances -/

/-- From the root a way over so many inputs leads to the position. -/
inductive Leads (p : Plan) : ℕ → ℕ → Prop
  | root : Leads p 0 p.root
  | input {n i j : ℕ} (h : Leads p n i) (hj : j ∈ p.inputs i) : Leads p (n + 1) j

/-- The length of the shortest way from the root to a position. -/
noncomputable def distance (p : Plan) (i : ℕ) : ℕ := sInf {n | p.Leads n i}

theorem leads_zero : p.Leads 0 i ↔ i = p.root :=
  ⟨fun h => by cases h; rfl, fun h => h ▸ .root⟩

theorem leads_succ : p.Leads (n + 1) j ↔ ∃ i, p.Leads n i ∧ j ∈ p.inputs i :=
  ⟨fun | .input h hj => ⟨_, h, hj⟩, fun ⟨_, h, hj⟩ => .input h hj⟩

/-- Inputs come before what uses them, so no way is longer than its end is far from the root. -/
theorem Leads.add_le (h : p.Leads n i) : n + i ≤ p.root := by
  induction h with
  | root => omega
  | input _ hj ih =>
    have hlt := (lt_of_mem_inputs hj).1
    omega

theorem Leads.distance_le (h : p.Leads n i) : p.distance i ≤ n := Nat.sInf_le h

theorem Leads.distance (h : p.Leads n i) : p.Leads (p.distance i) i :=
  Nat.sInf_mem (s := {n | p.Leads n i}) ⟨n, h⟩

theorem distance_eq_iff (h : p.Leads n i) :
    p.distance i = d ↔ p.Leads d i ∧ ∀ m < d, ¬ p.Leads m i := by
  constructor
  · rintro rfl
    exact ⟨h.distance, fun m hm hmi => absurd hmi.distance_le (by omega)⟩
  · rintro ⟨hd, hmin⟩
    exact hd.distance_le.antisymm (not_lt.1 fun hlt => hmin _ hlt h.distance)

namespace Traversal

variable {t t' : Traversal} {met is : List ℕ}

/-! ## Visiting a level -/

/-- The traversal ends, and these positions are visited until it does. -/
inductive Visits (p : Plan) : Traversal → List ℕ → Prop
  | done {t : Traversal} (h : t.next p = none) : Visits p t []
  | visit {t t' : Traversal} {i : ℕ} {is : List ℕ} (h : t.next p = some (i, t'))
      (hrest : Visits p t' is) : Visits p t (i :: is)

theorem rest_of_none (h : t.next p = none) : t.rest p = [] := by
  rw [rest]
  split
  · rfl
  · simp_all

theorem rest_of_some (h : t.next p = some (i, t')) : t.rest p = i :: t'.rest p := by
  rw [rest]
  split <;> simp_all

theorem visits_rest (p : Plan) (t : Traversal) : Visits p t (t.rest p) := by
  induction t using rest.induct p with
  | case1 t h =>
    rw [rest_of_none h]
    exact .done h
  | case2 t i t' h ih =>
    rw [rest_of_some h]
    exact .visit h ih

/-- Of positions that are met in turn, those that were not met before. -/
def fresh (met is : List ℕ) : List ℕ := (is.filter (· ∉ met)).eraseDups

theorem fresh_cons_of_mem (h : i ∈ met) : fresh met (i :: is) = fresh met is := by
  simp [fresh, h]

theorem fresh_cons_of_not_mem (h : i ∉ met) : fresh met (i :: is) = i :: fresh (i :: met) is := by
  have hfilter : (is.filter (· ∉ met)).filter (fun j => !j == i) = is.filter (· ∉ i :: met) := by
    rw [List.filter_filter]
    exact List.filter_congr fun j _ => by simp [beq_eq_decide]
  rw [fresh, List.filter_cons_of_pos (by simpa using h), List.eraseDups_cons, hfilter, fresh]

theorem mem_fresh : i ∈ fresh met is ↔ i ∈ is ∧ i ∉ met := by
  simp [fresh]

theorem nodup_fresh (met is : List ℕ) : (fresh met is).Nodup := by
  induction is generalizing met with
  | nil => simp [fresh]
  | cons i is ih =>
    by_cases h : i ∈ met
    · rw [fresh_cons_of_mem h]
      exact ih met
    · rw [fresh_cons_of_not_mem h, List.nodup_cons, mem_fresh]
      exact ⟨fun hi => hi.2 List.mem_cons_self, ih (i :: met)⟩

theorem foldl_meet (t : Traversal) (is : List ℕ) :
    is.foldl meet t =
      ⟨(fresh t.met is).reverse ++ t.met, t.level, (fresh t.met is).reverse ++ t.below⟩ := by
  induction is generalizing t with
  | nil => rfl
  | cons i is ih =>
    rw [List.foldl_cons, ih, meet]
    split_ifs with h
    · rw [fresh_cons_of_mem h]
    · simp [fresh_cons_of_not_mem h]

/-- A level is visited from left to right, and all inputs of its positions are met. -/
theorem rest_level (p : Plan) (met level below : List ℕ) :
    rest p ⟨met, level, below⟩ =
      level ++ rest p ((level.flatMap p.inputs).foldl meet ⟨met, [], below⟩) := by
  induction level generalizing met below with
  | nil => rfl
  | cons i level ih =>
    have hnext : next p ⟨met, i :: level, below⟩ =
        some (i, (p.inputs i).foldl meet ⟨met, level, below⟩) := rfl
    rw [rest_of_some hnext, foldl_meet, ih, List.flatMap_cons, List.foldl_append, foldl_meet,
      foldl_meet, foldl_meet]
    rfl

theorem rest_descend (p : Plan) (t : Traversal) : t.descend.rest p = t.rest p := by
  have hnext : t.descend.next p = t.next p := by
    have hidem : t.descend.descend = t.descend := by
      unfold descend
      split_ifs <;> simp_all
    rw [next, next, hidem]
  cases h : t.next p with
  | none => rw [rest_of_none h, rest_of_none (hnext.trans h)]
  | some r => rw [rest_of_some h, rest_of_some (hnext.trans h)]

/-! ## From level to level -/

/-- The traversal when its level was visited. -/
def afterLevel (p : Plan) (t : Traversal) : Traversal :=
  ((t.level.flatMap p.inputs).foldl meet { t with level := [] }).descend

theorem rest_afterLevel (p : Plan) (t : Traversal) :
    t.rest p = t.level ++ (t.afterLevel p).rest p := by
  rw [afterLevel, rest_descend]
  exact rest_level p t.met t.level t.below

theorem afterLevel_eq (h : t.below = []) :
    t.afterLevel p = ⟨(fresh t.met (t.level.flatMap p.inputs)).reverse ++ t.met,
      fresh t.met (t.level.flatMap p.inputs), []⟩ := by
  simp [afterLevel, foldl_meet, descend, h]

/-- The traversal is about to visit the positions of a distance. -/
structure Starts (p : Plan) (d : ℕ) (t : Traversal) : Prop where
  met : ∀ i, i ∈ t.met ↔ ∃ n ≤ d, p.Leads n i
  level : ∀ i, i ∈ t.level ↔ p.Leads d i ∧ ∀ n < d, ¬ p.Leads n i
  nodup : t.level.Nodup
  below : t.below = []

theorem starts_traversal (p : Plan) : Starts p 0 p.traversal where
  met i := by simp [traversal, leads_zero]
  level i := by simp [traversal, leads_zero]
  nodup := List.nodup_singleton p.root
  below := rfl

/-- What an input of the level leads to is one step further, and nothing else is. -/
theorem Starts.mem_inputs (h : Starts p d t) (hi : i ∉ t.met) :
    i ∈ t.level.flatMap p.inputs ↔ p.Leads (d + 1) i := by
  rw [List.mem_flatMap, leads_succ]
  refine exists_congr fun j => and_congr_left fun hj => ?_
  rw [h.level]
  refine and_iff_left_of_imp fun hd n hn hnj => hi ((h.met i).2 ⟨n + 1, by omega, .input hnj hj⟩)

theorem Starts.afterLevel (h : Starts p d t) : Starts p (d + 1) (t.afterLevel p) := by
  rw [afterLevel_eq h.below]
  have hfresh : ∀ i, i ∈ fresh t.met (t.level.flatMap p.inputs) ↔
      p.Leads (d + 1) i ∧ ∀ n < d + 1, ¬ p.Leads n i := by
    intro i
    have hmet : i ∉ t.met ↔ ∀ n < d + 1, ¬ p.Leads n i := by
      simp [h.met]
    rw [mem_fresh, and_congr_left h.mem_inputs, hmet]
  refine ⟨fun i => ?_, hfresh, nodup_fresh _ _, rfl⟩
  rw [List.mem_append, List.mem_reverse, hfresh, h.met]
  constructor
  · rintro (⟨hi, -⟩ | ⟨n, hn, hi⟩)
    · exact ⟨d + 1, le_rfl, hi⟩
    · exact ⟨n, by omega, hi⟩
  · rintro ⟨n, hn, hi⟩
    by_cases hearlier : ∃ n ≤ d, p.Leads n i
    · exact .inr hearlier
    · push Not at hearlier
      obtain rfl : n = d + 1 := by
        by_contra hne
        exact hearlier n (by omega) hi
      exact .inl ⟨hi, fun m hm => hearlier m (by omega)⟩

end Traversal

open Traversal

/-- The traversal of the plan before it visits the positions of a distance. -/
def stage (p : Plan) : ℕ → Traversal
  | 0 => p.traversal
  | d + 1 => (p.stage d).afterLevel p

theorem starts_stage (p : Plan) (d : ℕ) : Starts p d (p.stage d) := by
  induction d with
  | zero => exact starts_traversal p
  | succ d ih => exact ih.afterLevel

theorem mem_stage_iff : i ∈ (p.stage d).level ↔ p.Leads d i ∧ p.distance i = d := by
  rw [(starts_stage p d).level, and_congr_right fun h => distance_eq_iff h]
  simp

/-- The plan has no more levels than positions. -/
theorem level_stage_eq_nil (h : p.entries.size ≤ d) : (p.stage d).level = [] := by
  refine List.eq_nil_iff_forall_not_mem.2 fun i hi => ?_
  have hle := (mem_stage_iff.1 hi).1.add_le
  have hroot := p.root_lt
  omega

/-- The plan is visited level by level. -/
theorem breadthFirst_eq (p : Plan) :
    p.breadthFirst = (List.range p.entries.size).flatMap fun d => (p.stage d).level := by
  have hstages : ∀ n, p.breadthFirst =
      ((List.range n).flatMap fun d => (p.stage d).level) ++ (p.stage n).rest p := by
    intro n
    induction n with
    | zero => rfl
    | succ n ih => rw [ih, rest_afterLevel, List.range_succ, List.flatMap_append,
        List.flatMap_singleton, List.append_assoc, stage]
  have hnone : (p.stage p.entries.size).next p = none := by
    simp [next, descend, level_stage_eq_nil le_rfl, (starts_stage p p.entries.size).below]
  rw [hstages p.entries.size, rest_of_none hnone, List.append_nil]

theorem mem_breadthFirst : i ∈ p.breadthFirst ↔ ∃ n, p.Leads n i := by
  rw [breadthFirst_eq, List.mem_flatMap]
  constructor
  · rintro ⟨d, -, hi⟩
    exact ⟨d, (mem_stage_iff.1 hi).1⟩
  · rintro ⟨n, h⟩
    refine ⟨p.distance i, List.mem_range.2 ?_, mem_stage_iff.2 ⟨h.distance, rfl⟩⟩
    have hle := h.distance.add_le
    have hroot := p.root_lt
    omega

theorem nodup_breadthFirst (p : Plan) : p.breadthFirst.Nodup := by
  rw [breadthFirst_eq, List.nodup_flatMap]
  refine ⟨fun d _ => (starts_stage p d).nodup, List.nodup_range.imp fun hne => ?_⟩
  intro i hi hi'
  exact hne ((mem_stage_iff.1 hi).2.symm.trans (mem_stage_iff.1 hi').2)

theorem pairwise_breadthFirst (p : Plan) :
    p.breadthFirst.Pairwise fun i j => p.distance i ≤ p.distance j := by
  rw [breadthFirst_eq, List.pairwise_flatMap]
  refine ⟨fun d _ => ?_, List.pairwise_lt_range.imp fun hlt i hi j hj => ?_⟩
  · refine List.pairwise_of_forall_mem_list fun i hi j hj => ?_
    rw [(mem_stage_iff.1 hi).2, (mem_stage_iff.1 hj).2]
  · rw [(mem_stage_iff.1 hi).2, (mem_stage_iff.1 hj).2]
    exact hlt.le

/-- What is visited of a distance is what comes next at its stage. -/
theorem filter_breadthFirst (p : Plan) (d : ℕ) :
    p.breadthFirst.filter (p.distance · = d) = (p.stage d).level := by
  have hlevel : ∀ n, (p.stage n).level.filter (p.distance · = d) =
      if n = d then (p.stage d).level else [] := by
    intro n
    split_ifs with h
    · subst h
      exact List.filter_eq_self.2 fun i hi => by simpa using (mem_stage_iff.1 hi).2
    · exact List.filter_eq_nil_iff.2 fun i hi => by simpa [(mem_stage_iff.1 hi).2] using h
  have hrange : ∀ n, ((List.range n).flatMap fun n => (p.stage n).level.filter (p.distance · = d)) =
      if d < n then (p.stage d).level else [] := by
    intro n
    induction n with
    | zero => rfl
    | succ n ih =>
      rw [List.range_succ, List.flatMap_append, List.flatMap_singleton, ih, hlevel]
      rcases lt_trichotomy n d with h | rfl | h
      · rw [if_neg (by omega), if_neg (by omega), if_neg (by omega), List.append_nil]
      · rw [if_neg (by omega), if_pos rfl, if_pos (by omega), List.nil_append]
      · rw [if_pos (by omega), if_neg (by omega), if_pos (by omega), List.append_nil]
  rw [breadthFirst_eq, List.filter_flatMap, hrange]
  split_ifs with h
  · rfl
  · exact (level_stage_eq_nil (not_lt.1 h)).symm

/-- The positions of a level are those that are new among the inputs of the level above. -/
theorem level_stage_succ (p : Plan) (d : ℕ) :
    (p.stage (d + 1)).level =
      (((p.stage d).level.flatMap p.inputs).filter (p.distance · = d + 1)).eraseDups := by
  have h := starts_stage p d
  rw [stage, afterLevel_eq h.below]
  show fresh _ _ = _
  rw [fresh]
  congr 1
  refine List.filter_congr fun i hi => decide_eq_decide.2 ?_
  obtain ⟨j, hj, hij⟩ := List.mem_flatMap.1 hi
  have hleads := Leads.input (mem_stage_iff.1 hj).1 hij
  rw [distance_eq_iff hleads, and_iff_right hleads, h.met]
  simp

/-- The traversal of a plan ends. It starts with the root and visits everything that the root leads
to exactly once, what is nearer to the root first. What has one distance is visited in the order in
which it is first met when the inputs of the positions before it, as they were visited, are gone
through from left to right. -/
theorem breadthFirst_byDistance (p : Plan) :
    Visits p p.traversal p.breadthFirst ∧ p.breadthFirst.head? = some p.root ∧
      p.breadthFirst.Nodup ∧ (∀ i, i ∈ p.breadthFirst ↔ ∃ n, p.Leads n i) ∧
      (p.breadthFirst.Pairwise fun i j => p.distance i ≤ p.distance j) ∧
      ∀ d, p.breadthFirst.filter (p.distance · = d + 1) =
        (((p.breadthFirst.filter (p.distance · = d)).flatMap p.inputs).filter
          (p.distance · = d + 1)).eraseDups := by
  refine ⟨visits_rest p _, ?_, p.nodup_breadthFirst, fun i => mem_breadthFirst,
    p.pairwise_breadthFirst, fun d => ?_⟩
  · rw [breadthFirst, rest_afterLevel]
    rfl
  · rw [filter_breadthFirst, filter_breadthFirst, level_stage_succ]

/-- A union over a limit on a limit on a row, over this row, and over the outer limit once more. The
row is met on two levels and visited on the upper one. -/
example :
    breadthFirst ⟨#[⟨.values .empty [[]], [], .default, .empty⟩,
      ⟨.limit 3, [0], .default, .empty⟩, ⟨.limit 5, [1], .default, .empty⟩,
      ⟨.setOp .union true, [2, 0, 2], .default, .empty⟩], 3, by decide⟩ = [3, 2, 0, 1] := by
  decide +kernel

end QueryPlanner.Plan
