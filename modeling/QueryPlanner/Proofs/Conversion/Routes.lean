import QueryPlanner.ConversionGraph
import Mathlib.Tactic

/-!
# Routes in the conversion graph

The search for paths is right: what it finds are routes along the arcs, and it finds one wherever a
convention can be reached from another.
-/

namespace QueryPlanner.ConversionGraph

open Relation

variable {g : ConversionGraph} {a b c target : Convention} {path visited : List Convention}

def Arc (g : ConversionGraph) (source target : Convention) : Prop := (source, target) ∈ g.arcs

theorem mem_successors : b ∈ g.successors a ↔ g.Arc a b := by
  simp [successors, Arc]

theorem arc_addArc (g : ConversionGraph) (source target a b : Convention) :
    (g.addArc source target).Arc a b ↔ g.Arc a b ∨ a = source ∧ b = target := by
  simp only [addArc, Arc]
  split_ifs with h
  · constructor
    · exact .inl
    · rintro (hab | ⟨rfl, rfl⟩)
      · exact hab
      · exact h
  · simp

/-- The conventions from the first to the second one, along arcs. -/
inductive Route (g : ConversionGraph) : Convention → Convention → List Convention → Prop
  | here (c : Convention) : Route g c c [c]
  | along {a b c : Convention} {path : List Convention} (hab : g.Arc a b) (h : Route g b c path) :
      Route g a c (a :: path)

namespace Route

theorem reaches (h : g.Route a b path) : ReflTransGen g.Arc a b := by
  induction h with
  | here => exact .refl
  | along hab _ ih => exact .head hab ih

theorem mem_last (h : g.Route a b path) : b ∈ path := by
  induction h with
  | here => exact List.mem_singleton_self _
  | along _ _ ih => exact List.mem_cons_of_mem _ ih

/-- What follows a convention of a route is a route from there. -/
theorem exists_from (h : g.Route a b path) (hc : c ∈ path) : ∃ rest, rest <:+ path ∧ g.Route c b rest := by
  induction h with
  | here a =>
    obtain rfl := List.mem_singleton.1 hc
    exact ⟨[c], List.suffix_rfl, .here c⟩
  | @along a _ _ path hab h ih =>
    rcases List.mem_cons.1 hc with rfl | hc
    · exact ⟨c :: path, List.suffix_rfl, .along hab h⟩
    · obtain ⟨rest, hrest, hroute⟩ := ih hc
      exact ⟨rest, hrest.trans (List.suffix_cons _ _), hroute⟩

/-- A route leaves all of its conventions but the last. -/
theorem subset (h : g.Route a b path) : path ⊆ b :: g.arcs.map Prod.fst := by
  induction h with
  | here a => simp
  | along hab _ ih =>
    refine List.cons_subset.2 ⟨List.mem_cons_of_mem _ (List.mem_map.2 ⟨_, hab, rfl⟩), ih⟩

theorem length_le (h : g.Route a b path) (hnodup : path.Nodup) : path.length ≤ g.arcs.length + 1 := by
  simpa using (hnodup.subperm h.subset).length_le

end Route

/-- What a route reaches is reached without repetition by one that is not longer. -/
theorem Route.exists_nodup (h : g.Route a b path) :
    ∃ short, g.Route a b short ∧ short.Nodup ∧ short.length ≤ path.length := by
  induction h with
  | here c => exact ⟨[c], .here c, List.nodup_singleton c, le_rfl⟩
  | @along a c b path hac _ ih =>
    obtain ⟨short, hshort, hnodup, hle⟩ := ih
    by_cases ha : a ∈ short
    · obtain ⟨rest, hrest, hroute⟩ := hshort.exists_from ha
      have hlength := hrest.length_le
      refine ⟨rest, hroute, hnodup.sublist hrest.sublist, ?_⟩
      simp only [List.length_cons]
      omega
    · exact ⟨a :: short, .along hac hshort, List.nodup_cons.2 ⟨ha, hnodup⟩, by simpa using hle⟩

/-- What can be reached is reached without repetition. -/
theorem exists_route (h : ReflTransGen g.Arc a b) : ∃ path, g.Route a b path ∧ path.Nodup := by
  have hroute : ∃ path, g.Route a b path := by
    induction h using ReflTransGen.head_induction_on with
    | refl => exact ⟨[b], .here b⟩
    | @head a c hac _ ih =>
      obtain ⟨path, hpath⟩ := ih
      exact ⟨a :: path, .along hac hpath⟩
  obtain ⟨path, hpath⟩ := hroute
  obtain ⟨short, hshort, hnodup, -⟩ := hpath.exists_nodup
  exact ⟨short, hshort, hnodup⟩

theorem route_of_mem_pathsAvoiding {n : Nat} (h : path ∈ g.pathsAvoiding target n visited a) :
    g.Route a target path := by
  induction n generalizing path visited a with
  | zero => simp [pathsAvoiding] at h
  | succ n ih =>
    rw [pathsAvoiding, List.mem_flatMap] at h
    obtain ⟨next, hnext, h⟩ := h
    rw [mem_successors] at hnext
    split_ifs at h with htarget hvisited
    · obtain rfl := List.mem_singleton.1 h
      exact .along (htarget ▸ hnext) (.here target)
    · simp at h
    · obtain ⟨rest, hrest, rfl⟩ := List.mem_map.1 h
      exact .along hnext (ih hrest)

/-- A route without repetition that avoids what was visited is found. -/
theorem mem_pathsAvoiding (h : g.Route a target path) {n : Nat} (hnodup : path.Nodup)
    (hvisited : ∀ c ∈ path, c ∉ visited) (hne : a ≠ target) (hlength : path.length ≤ n + 1) :
    path ∈ g.pathsAvoiding target n visited a := by
  induction h generalizing n visited with
  | here c => exact absurd rfl hne
  | @along a b target path hab h ih =>
    rw [List.nodup_cons] at hnodup
    rw [List.forall_mem_cons] at hvisited
    obtain ⟨m, rfl⟩ : ∃ m, n = m + 1 :=
      Nat.exists_eq_succ_of_ne_zero fun hn => by
        have hpath := List.length_pos_of_mem h.mem_last
        simp only [List.length_cons] at hlength
        omega
    rw [pathsAvoiding, List.mem_flatMap]
    refine ⟨b, mem_successors.2 hab, ?_⟩
    split_ifs with htarget hb
    · -- the rest of the route is its end
      subst htarget
      cases h with
      | here => exact List.mem_singleton_self _
      | along _ h => exact absurd h.mem_last (List.nodup_cons.1 hnodup.2).1
    · have hmem : b ∈ path := by cases h <;> exact List.mem_cons_self
      rcases List.mem_cons.1 hb with rfl | hb
      · exact absurd hmem hnodup.1
      · exact absurd hb (hvisited.2 b hmem)
    · refine List.mem_map_of_mem (ih hnodup.2 (fun c hc => ?_) htarget (by simpa using hlength))
      rw [List.mem_cons, not_or]
      exact ⟨fun heq => hnodup.1 (heq ▸ hc), hvisited.2 c hc⟩

theorem route_of_mem_paths (h : path ∈ g.paths a b) : g.Route a b path := by
  rw [paths] at h
  split_ifs at h with heq
  · obtain rfl := List.mem_singleton.1 h
    exact heq ▸ .here a
  · exact route_of_mem_pathsAvoiding (List.mem_mergeSort.1 h)

/-- Every route without repetition is found. -/
theorem mem_paths (h : g.Route a b path) (hnodup : path.Nodup) : path ∈ g.paths a b := by
  rw [paths]
  split_ifs with heq
  · subst heq
    cases h with
    | here => exact List.mem_singleton_self _
    | along _ h => exact absurd h.mem_last (List.nodup_cons.1 hnodup).1
  · have hlength := h.length_le hnodup
    have hpos : 0 < g.arcs.length := by
      cases h with
      | here => exact absurd rfl heq
      | along hab _ => exact List.length_pos_of_mem hab
    apply List.mem_mergeSort.2
    exact mem_pathsAvoiding h hnodup (by simp) heq (by omega)

/-- There is a path wherever there is a way. -/
theorem paths_eq_nil_iff : g.paths a b = [] ↔ ¬ ReflTransGen g.Arc a b := by
  constructor
  · intro hnil h
    obtain ⟨path, hpath, hnodup⟩ := exists_route h
    have hmem := mem_paths hpath hnodup
    rw [hnil] at hmem
    cases hmem
  · intro h
    apply List.eq_nil_iff_forall_not_mem.2
    intro path hpath
    exact h (route_of_mem_paths hpath).reaches

/-- The path that comes first is a shortest one of all routes. -/
theorem length_le_of_paths_eq_cons {first route : List Convention} {rest : List (List Convention)}
    (h : g.paths a b = first :: rest) (hroute : g.Route a b route) : first.length ≤ route.length := by
  obtain ⟨short, hshort, hnodup, hle⟩ := hroute.exists_nodup
  have hmem : short ∈ g.paths a b := mem_paths hshort hnodup
  have hsorted : (g.paths a b).Pairwise fun p q => p.length ≤ q.length := by
    rw [paths]
    split_ifs
    · exact List.pairwise_singleton _ _
    · have hpairwise := @List.pairwise_mergeSort (List Convention)
        (fun p q => decide (p.length ≤ q.length))
        (fun p q r hpq hqr => by simp only [decide_eq_true_eq] at *; omega)
        (fun p q => by simp only [Bool.or_eq_true, decide_eq_true_eq]; omega)
        (g.pathsAvoiding b (2 * g.arcs.length) [] a)
      simpa using hpairwise
  rw [h] at hmem hsorted
  have hfirst : first.length ≤ short.length := by
    rcases List.mem_cons.1 hmem with rfl | hmem
    · exact le_rfl
    · exact (List.pairwise_cons.1 hsorted).1 short hmem
  omega

end QueryPlanner.ConversionGraph
