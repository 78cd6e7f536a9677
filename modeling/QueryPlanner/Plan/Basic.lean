import QueryPlanner.Node

/-!
# Query plans

A plan is a directed acyclic graph with a single root. It is kept as a list of entries, each with
the positions of its inputs among the entries before it, so an input that is used twice is shared,
not copied. The tree of a plan forgets the sharing; a traversal level by level visits every shared
entry once.
-/

namespace QueryPlanner

namespace Plan

/-- A node of a plan, its inputs given by position. -/
structure Entry where
  operator : Operator
  inputs : List Nat
  traits : TraitSet
  rowType : Schema

/-- An entry before its row type is derived. -/
inductive Item where
  /-- A placeholder of a vertex. -/
  | vertex (id : VertexId)
  /-- A node over earlier entries. Without a row type of its own it gets the derived one. -/
  | node (operator : Operator) (inputs : List Nat) (traits : TraitSet) (rowType : Option Schema)

end Plan

structure Plan where
  entries : Array Plan.Entry
  root : Nat
  root_lt : root < entries.size

namespace Plan

/-- The entry of an item behind the entries that it may use. A placeholder is that of the
surrounding graph if there is one. -/
def Item.entry (placeholder : VertexId → Option Node) (earlier : Array Entry) :
    Item → Except Fault Entry
  | .vertex id =>
    let node := (placeholder id).getD (.placeholder id .default .empty)
    .ok ⟨node.operator, [], node.traits, node.rowType⟩
  | .node op inputs traits (some rowType) => .ok ⟨op, inputs, traits, rowType⟩
  | .node op inputs traits none => do
    let types := inputs.filterMap fun i => earlier[i]?.map Entry.rowType
    return ⟨op, inputs, traits, ← op.rowType types⟩

/-- The entries of a list of items. -/
def entriesOf (placeholder : VertexId → Option Node) (items : List Item) :
    Except Fault (Array Entry) :=
  items.foldlM (fun earlier item => return earlier.push (← item.entry placeholder earlier)) #[]

/-- The plan of these entries whose root is the last one, if there is one. -/
def ofEntries? (entries : Array Entry) : Option Plan :=
  if h : 0 < entries.size then some ⟨entries, entries.size - 1, by omega⟩ else none

/-- A node with its tree, over the trees of earlier entries. -/
def Entry.node (e : Entry) (earlier : Array Node) : Node :=
  ⟨e.operator, e.inputs.filterMap fun i => earlier[i]?, e.traits, e.rowType⟩

/-- The trees of all entries. -/
def nodes (p : Plan) : Array Node :=
  p.entries.foldl (fun earlier e => earlier.push (e.node earlier)) #[]

theorem size_nodes (p : Plan) : p.nodes.size = p.entries.size := by
  unfold nodes
  refine Array.foldl_induction (fun i (a : Array Node) => a.size = i) rfl ?_
  intro i a h
  simp [h]

/-- The plan as a tree. -/
def tree (p : Plan) : Node :=
  have root_lt : p.root < p.nodes.size := p.size_nodes ▸ p.root_lt
  p.nodes[p.root]

/-- Positions of the inputs of an entry, from left to right. They all come before it. -/
def inputs (p : Plan) (i : Nat) : List Nat :=
  match p.entries[i]? with
  | some e => e.inputs.filter (· < i)
  | none => []

theorem lt_of_mem_inputs {p : Plan} {i j : Nat} (h : j ∈ p.inputs i) : j < i ∧ i < p.entries.size := by
  unfold inputs at h
  split at h
  · next e he =>
    obtain ⟨hi, -⟩ := Array.getElem?_eq_some_iff.1 he
    exact ⟨by simpa using (List.mem_filter.1 h).2, hi⟩
  · cases h

/-! ## Level by level -/

/-- A traversal level by level: the positions that were met so far, what is left of the current level,
and the positions that were met for the next level, the last one in front. -/
structure Traversal where
  met : List Nat
  level : List Nat
  below : List Nat

namespace Traversal

/-- Meets an input. It belongs to the next level, unless it was met before. -/
def meet (t : Traversal) (i : Nat) : Traversal :=
  if i ∈ t.met then t else { t with met := i :: t.met, below := i :: t.below }

/-- Goes on to the next level when the current one is done. -/
def descend (t : Traversal) : Traversal :=
  if t.level.isEmpty then { t with level := t.below.reverse, below := [] } else t

/-- Visits a position: the next one of the level, whose inputs are met from left to right. None if all
was visited. -/
def next (p : Plan) (t : Traversal) : Option (Nat × Traversal) :=
  match t.descend with
  | ⟨_, [], _⟩ => none
  | ⟨met, i :: level, below⟩ => some (i, (p.inputs i).foldl meet ⟨met, level, below⟩)

/-- No more positions than this are visited: those on the two levels, and those not yet met. -/
def remaining (p : Plan) (t : Traversal) : Nat :=
  t.level.length + t.below.length + (List.range p.entries.size).countP (· ∉ t.met)

variable {p : Plan} {t t' : Traversal} {i : Nat}

/-- A position that is met is one less that was not. -/
theorem countP_not_met_lt {met range : List Nat} (hi : i ∈ range) (hnew : i ∉ met) :
    range.countP (· ∉ i :: met) < range.countP (· ∉ met) := by
  obtain ⟨front, back, rfl⟩ := List.append_of_mem hi
  have hle : ∀ l : List Nat, l.countP (· ∉ i :: met) ≤ l.countP (· ∉ met) := fun l =>
    List.countP_mono_left fun x _ => by simp
  have hfront := hle front
  have hback := hle back
  rw [List.countP_append, List.countP_append, List.countP_cons_of_neg (by simp),
    List.countP_cons_of_pos (by simpa using hnew)]
  omega

theorem remaining_meet_le (t : Traversal) (hi : i < p.entries.size) :
    (t.meet i).remaining p ≤ t.remaining p := by
  unfold meet
  split
  · exact Nat.le_refl _
  · next hnew =>
    have hlt := countP_not_met_lt (List.mem_range.2 hi) hnew
    simp only [remaining, List.length_cons]
    omega

theorem remaining_meetAll_le {is : List Nat} (t : Traversal) (his : ∀ i ∈ is, i < p.entries.size) :
    (is.foldl meet t).remaining p ≤ t.remaining p := by
  induction is generalizing t with
  | nil => exact Nat.le_refl _
  | cons i is ih =>
    rw [List.forall_mem_cons] at his
    exact Nat.le_trans (ih (t.meet i) his.2) (remaining_meet_le t his.1)

theorem remaining_descend (p : Plan) (t : Traversal) : t.descend.remaining p = t.remaining p := by
  unfold descend
  split
  · next h => simp [remaining, List.isEmpty_iff.1 h]
  · rfl

theorem remaining_next_lt (h : t.next p = some (i, t')) : t'.remaining p < t.remaining p := by
  unfold next at h
  rw [← remaining_descend p t]
  split at h
  · cases h
  · next met j level below hdescend =>
    cases h
    refine Nat.lt_of_le_of_lt (remaining_meetAll_le _ fun j hj => ?_) ?_
    · have hj := lt_of_mem_inputs hj
      omega
    · rw [hdescend]
      simp only [remaining, List.length_cons]
      omega

/-- The positions that are visited until there is none left. -/
def rest (p : Plan) (t : Traversal) : List Nat :=
  match _h : t.next p with
  | none => []
  | some (i, t') => i :: t'.rest p
termination_by t.remaining p
decreasing_by exact remaining_next_lt _h

end Traversal

/-- A traversal that has met the root alone. -/
def traversal (p : Plan) : Traversal := ⟨[p.root], [p.root], []⟩

/-- The positions reachable from the root, level by level. -/
def breadthFirst (p : Plan) : List Nat := p.traversal.rest p

/-- The lines of the nodes, level by level. -/
def breadthFirstTexts (p : Plan) : List String :=
  p.breadthFirst.filterMap fun i => p.entries[i]?.map fun e => Node.line e.operator e.traits

end Plan

end QueryPlanner
