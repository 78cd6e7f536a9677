import QueryPlanner.Proofs.Graph.Traversal

/-!
# Topological orders exist

In a graph without cycles every vertex finishes after what it leads to: when a vertex is visited, the
visited vertices that have not finished lead to it, so it leads to none of them. The order of
finishing, the latest first, thus has no late parents, and the check for cycles passes.
-/

namespace QueryPlanner.Graph

open Relation

section Finish

variable {neighbours : VertexId → List VertexId}

/-- The neighbours of each vertex of the list stand behind it. -/
def Descending (neighbours : VertexId → List VertexId) : List VertexId → Prop
  | [] => True
  | v :: rest => (∀ w ∈ neighbours v, w ∈ rest) ∧ Descending neighbours rest

theorem Descending.mem {order : List VertexId} (h : Descending neighbours order) {v w : VertexId}
    (hv : v ∈ order) (hw : w ∈ neighbours v) : w ∈ order := by
  induction order with
  | nil => cases hv
  | cons u order ih =>
    rcases List.mem_cons.1 hv with rfl | hv
    · exact List.mem_cons_of_mem _ (h.1 w hw)
    · exact List.mem_cons_of_mem _ (ih h.2 hv)

/-- A search under way. A visited vertex that has not finished is on the stack, it leads to all that
lies above its topmost place, and its neighbours have finished or lie there. -/
structure Searching (neighbours : VertexId → List VertexId) (stack visited finished : List VertexId) :
    Prop where
  onStack : ∀ v ∈ visited, v ∈ finished ∨ v ∈ stack
  nodup : finished.Nodup
  descending : Descending neighbours finished
  leads : ∀ v ∈ visited, v ∉ finished → ∀ w ∈ stack.takeWhile (· ≠ v),
    TransGen (fun a b => b ∈ neighbours a) v w
  covers : ∀ v ∈ visited, v ∉ finished → ∀ w ∈ neighbours v,
    w ∈ finished ∨ w ∈ stack.takeWhile (· ≠ v)

variable {u v : VertexId} {stack visited finished : List VertexId}

theorem searching_start (stack : List VertexId) : Searching neighbours stack [] [] where
  onStack _ h := nomatch h
  nodup := List.nodup_nil
  descending := trivial
  leads _ h := nomatch h
  covers _ h := nomatch h

theorem takeWhile_cons_of_ne (h : u ≠ v) (stack : List VertexId) :
    (v :: stack).takeWhile (· ≠ u) = v :: stack.takeWhile (· ≠ u) :=
  List.takeWhile_cons_of_pos (by simpa using h.symm)

theorem takeWhile_cons_self (v : VertexId) (stack : List VertexId) :
    (v :: stack).takeWhile (· ≠ v) = [] :=
  List.takeWhile_cons_of_neg (by simp)

/-- Visiting a vertex puts its unvisited neighbours above it. It leads to no visited vertex that has
not finished, for such a vertex leads to it. -/
theorem Searching.visit (hacyclic : ∀ v, ¬ TransGen (fun a b => b ∈ neighbours a) v v)
    (h : Searching neighbours (v :: stack) visited finished) (hv : v ∉ visited) :
    Searching neighbours (((neighbours v).filter (· ∉ v :: visited)).reverse ++ v :: stack)
      (v :: visited) finished := by
  generalize hpushed : ((neighbours v).filter (· ∉ v :: visited)).reverse = pushed
  have hmem : ∀ w, w ∈ pushed ↔ w ∈ neighbours v ∧ w ∉ v :: visited := by
    intro w
    rw [← hpushed]
    simp
  -- what lies above a visited vertex now
  have habove : ∀ u ∈ v :: visited, (pushed ++ v :: stack).takeWhile (· ≠ u) =
      pushed ++ (v :: stack).takeWhile (· ≠ u) := by
    intro u hu
    refine List.takeWhile_append_of_pos fun w hw => ?_
    have hne : w ≠ u := by
      rintro rfl
      exact ((hmem w).1 hw).2 hu
    simpa using hne
  refine ⟨fun u hu => ?_, h.nodup, h.descending, fun u hu hfin w hw => ?_,
    fun u hu hfin w hw => ?_⟩
  · rcases List.mem_cons.1 hu with rfl | hu
    · simp
    · exact (h.onStack u hu).imp_right (List.mem_append_right _)
  · rw [habove u hu, List.mem_append] at hw
    by_cases huv : u = v
    · subst huv
      rw [takeWhile_cons_self] at hw
      rcases hw with hw | hw
      · exact .single ((hmem w).1 hw).1
      · cases hw
    · have hu : u ∈ visited := (List.mem_cons.1 hu).resolve_left huv
      have hleads := h.leads u hu hfin
      rcases hw with hw | hw
      · refine .tail (hleads v ?_) ((hmem w).1 hw).1
        rw [takeWhile_cons_of_ne huv]
        exact List.mem_cons_self
      · exact hleads w hw
  · rw [habove u hu, List.mem_append]
    by_cases huv : u = v
    · subst huv
      by_cases hvisited : w ∈ u :: visited
      · rcases List.mem_cons.1 hvisited with rfl | hvisited
        · exact absurd (.single hw) (hacyclic w)
        · by_contra hcon
          have hwu : w ≠ u := fun heq => hv (heq ▸ hvisited)
          have hlead := h.leads w hvisited (fun hdone => hcon (.inl hdone)) u (by
            rw [takeWhile_cons_of_ne hwu]
            exact List.mem_cons_self)
          exact hacyclic u (.head hw hlead)
      · exact .inr (.inl ((hmem w).2 ⟨hw, hvisited⟩))
    · have hu : u ∈ visited := (List.mem_cons.1 hu).resolve_left huv
      exact (h.covers u hu hfin w hw).imp_right .inr

/-- A vertex that finishes has nothing above it, so its neighbours have finished. -/
theorem Searching.finish (h : Searching neighbours (v :: stack) visited finished) (hv : v ∈ visited)
    (hfin : v ∉ finished) : Searching neighbours stack visited (v :: finished) where
  onStack u hu := by
    rcases h.onStack u hu with hdone | hstack
    · exact .inl (List.mem_cons_of_mem _ hdone)
    · rcases List.mem_cons.1 hstack with rfl | hstack
      · exact .inl List.mem_cons_self
      · exact .inr hstack
  nodup := List.nodup_cons.2 ⟨hfin, h.nodup⟩
  descending := by
    refine ⟨fun w hw => ?_, h.descending⟩
    have hcovered := h.covers v hv hfin w hw
    rw [takeWhile_cons_self] at hcovered
    exact hcovered.resolve_right (List.not_mem_nil)
  leads u hu hdone w hw := by
    rw [List.mem_cons, not_or] at hdone
    refine h.leads u hu hdone.2 w ?_
    rw [takeWhile_cons_of_ne hdone.1]
    exact List.mem_cons_of_mem _ hw
  covers u hu hdone w hw := by
    rw [List.mem_cons, not_or] at hdone
    have hcovered := h.covers u hu hdone.2 w hw
    rw [takeWhile_cons_of_ne hdone.1, List.mem_cons] at hcovered
    rw [List.mem_cons]
    tauto

theorem Searching.skip (h : Searching neighbours (v :: stack) visited finished)
    (hfin : v ∈ finished) : Searching neighbours stack visited finished where
  onStack u hu := by
    rcases h.onStack u hu with hdone | hstack
    · exact .inl hdone
    · rcases List.mem_cons.1 hstack with rfl | hstack
      · exact .inl hfin
      · exact .inr hstack
  nodup := h.nodup
  descending := h.descending
  leads u hu hdone w hw := by
    have huv : u ≠ v := fun heq => hdone (heq ▸ hfin)
    refine h.leads u hu hdone w ?_
    rw [takeWhile_cons_of_ne huv]
    exact List.mem_cons_of_mem _ hw
  covers u hu hdone w hw := by
    have huv : u ≠ v := fun heq => hdone (heq ▸ hfin)
    have hcovered := h.covers u hu hdone w hw
    rw [takeWhile_cons_of_ne huv, List.mem_cons] at hcovered
    rcases hcovered with hcovered | rfl | hcovered
    · exact .inl hcovered
    · exact .inl hfin
    · exact .inr hcovered

/-- Without cycles no vertex is found to be its own input, and what finishes stands before its
neighbours. -/
theorem finish_descending (hacyclic : ∀ v, ¬ TransGen (fun a b => b ∈ neighbours a) v v) :
    ∀ n stack visited finished, Searching neighbours stack visited finished →
      ∃ order, finish neighbours n stack visited finished = .ok order ∧ order.Nodup ∧
        Descending neighbours order := by
  intro n
  induction n with
  | zero => exact fun stack visited finished h => ⟨finished, by simp [Graph.finish], h.nodup, h.descending⟩
  | succ n ih =>
    intro stack visited finished h
    cases stack with
    | nil => exact ⟨finished, by simp [Graph.finish], h.nodup, h.descending⟩
    | cons v stack =>
      rw [Graph.finish]
      by_cases hv : v ∈ visited
      · rw [if_neg (not_not.2 hv)]
        split_ifs with hdone
        · exact ih _ _ _ (h.skip hdone)
        · exact ih _ _ _ (h.finish hv hdone)
      · rw [if_pos hv]
        split_ifs with hloop
        · exact absurd (.single hloop) (hacyclic v)
        · exact ih _ _ _ (h.visit hacyclic hv)

theorem lateParent?_eq_none {parents : VertexId → List VertexId}
    (hparents : ∀ v, ∀ p ∈ parents v, v ∈ neighbours p) :
    ∀ order before, order.Nodup → Descending neighbours order →
      (∀ v ∈ order, ∀ p ∈ parents v, p ∈ before ∨ p ∈ order) →
        lateParent? parents order before = none := by
  intro order
  induction order with
  | nil => exact fun _ _ _ _ => rfl
  | cons v order ih =>
    intro before hnodup hdescending hknown
    rw [List.nodup_cons] at hnodup
    rw [List.forall_mem_cons] at hknown
    have hnone : (parents v).filter (· ∉ v :: before) = [] := by
      refine List.filter_eq_nil_iff.2 fun p hp hlate => ?_
      rcases hknown.1 p hp with hbefore | hbehind
      · exact absurd (List.mem_cons_of_mem v hbefore) (of_decide_eq_true hlate)
      · rcases List.mem_cons.1 hbehind with rfl | hbehind
        · exact absurd List.mem_cons_self (of_decide_eq_true hlate)
        · exact hnodup.1 (hdescending.2.mem hbehind (hparents v p hp))
    rw [lateParent?, hnone]
    refine ih _ hnodup.2 hdescending.2 fun w hw p hp => ?_
    rcases hknown.2 w hw p hp with hbefore | hbehind
    · exact .inl (List.mem_cons_of_mem v hbefore)
    · rcases List.mem_cons.1 hbehind with rfl | hbehind
      · exact .inl List.mem_cons_self
      · exact .inr hbehind

end Finish

/-- A graph without cycles has a topological order. -/
theorem Acyclic.exists_topologicalOrder {g : Graph} (h : g.Acyclic)
    (hg : ∀ e ∈ g.edges, g.contains e.1 = true ∧ g.contains e.2 = true) :
    ∃ order, g.topologicalOrder = .ok order := by
  have hacyclic : ∀ v, ¬ TransGen (fun a b => b ∈ g.successors a) v v := by
    intro v hv
    exact h v (hv.lift (fun a => a) fun a b hab => mem_successors.1 hab)
  obtain ⟨order, hfin, hnodup, hdescending⟩ := finish_descending hacyclic
    (2 * (g.slots.size + g.edges.length) + 1) g.vertexIds [] [] (searching_start _)
  have hlate : lateParent? g.predecessors order [] = none := by
    refine lateParent?_eq_none (fun v p hp => mem_successors.2 (mem_predecessors.1 hp)) order []
      hnodup hdescending fun v _ p hp => .inr ?_
    exact (mem_of_finish_vertexIds hg hfin).1 p (hg _ (mem_predecessors.1 hp)).1
  refine ⟨order, ?_⟩
  rw [topologicalOrder, hfin]
  simp [Bind.bind, Except.bind, hlate, pure, Except.pure]

theorem Acyclic.isAcyclic {g : Graph} (h : g.Acyclic)
    (hg : ∀ e ∈ g.edges, g.contains e.1 = true ∧ g.contains e.2 = true) : g.isAcyclic = true := by
  obtain ⟨order, horder⟩ := h.exists_topologicalOrder hg
  rw [Graph.isAcyclic, horder]
  rfl

end QueryPlanner.Graph
