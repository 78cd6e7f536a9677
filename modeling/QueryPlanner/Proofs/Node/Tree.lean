import QueryPlanner.Node
import Mathlib.Tactic

/-!
# Trees

What holds everywhere in a tree, its subtrees, and trees without the row types of their nodes.
-/

namespace QueryPlanner.Node

variable {P Q : Node → Prop} {n : Node}

mutual

/-- The node and everything below it has the property. -/
def Everywhere (P : Node → Prop) : Node → Prop
  | ⟨op, inputs, traits, rowType⟩ => P ⟨op, inputs, traits, rowType⟩ ∧ AllEverywhere P inputs

def AllEverywhere (P : Node → Prop) : List Node → Prop
  | [] => True
  | n :: ns => n.Everywhere P ∧ AllEverywhere P ns

end

mutual

def decidableEverywhere (P : Node → Prop) [DecidablePred P] : ∀ n : Node, Decidable (n.Everywhere P)
  | ⟨op, inputs, traits, rowType⟩ =>
    have := decidableAllEverywhere P inputs
    decidable_of_iff (P ⟨op, inputs, traits, rowType⟩ ∧ AllEverywhere P inputs) (by rw [Everywhere])

def decidableAllEverywhere (P : Node → Prop) [DecidablePred P] :
    ∀ ns : List Node, Decidable (AllEverywhere P ns)
  | [] => .isTrue (by rw [AllEverywhere]; trivial)
  | n :: ns =>
    have := decidableEverywhere P n
    have := decidableAllEverywhere P ns
    decidable_of_iff (n.Everywhere P ∧ AllEverywhere P ns) (by rw [AllEverywhere])

end

theorem allEverywhere_iff {ns : List Node} : AllEverywhere P ns ↔ ∀ n ∈ ns, n.Everywhere P := by
  induction ns with
  | nil => simp [AllEverywhere]
  | cons n ns ih => simp [AllEverywhere, ih]

theorem everywhere_iff : n.Everywhere P ↔ P n ∧ ∀ i ∈ n.inputs, i.Everywhere P := by
  obtain ⟨op, inputs, traits, rowType⟩ := n
  rw [Everywhere, allEverywhere_iff]

mutual

theorem Everywhere.mono (h : ∀ n, P n → Q n) : ∀ n : Node, n.Everywhere P → n.Everywhere Q
  | ⟨op, inputs, traits, rowType⟩ => by
    rw [Everywhere, Everywhere]
    exact fun ⟨hhead, hinputs⟩ => ⟨h _ hhead, AllEverywhere.mono h inputs hinputs⟩

theorem AllEverywhere.mono (h : ∀ n, P n → Q n) :
    ∀ ns : List Node, AllEverywhere P ns → AllEverywhere Q ns
  | [] => by
    rw [AllEverywhere, AllEverywhere]
    exact id
  | n :: ns => by
    rw [AllEverywhere, AllEverywhere]
    exact fun ⟨hn, hns⟩ => ⟨Everywhere.mono h n hn, AllEverywhere.mono h ns hns⟩

end

mutual

theorem Everywhere.and : ∀ n : Node, n.Everywhere P → n.Everywhere Q →
    n.Everywhere fun m => P m ∧ Q m
  | ⟨op, inputs, traits, rowType⟩ => by
    rw [Everywhere, Everywhere, Everywhere]
    exact fun ⟨hhead, hinputs⟩ ⟨hhead', hinputs'⟩ =>
      ⟨⟨hhead, hhead'⟩, AllEverywhere.and inputs hinputs hinputs'⟩

theorem AllEverywhere.and : ∀ ns : List Node, AllEverywhere P ns → AllEverywhere Q ns →
    AllEverywhere (fun m => P m ∧ Q m) ns
  | [] => by
    rw [AllEverywhere, AllEverywhere, AllEverywhere]
    exact fun _ _ => trivial
  | n :: ns => by
    rw [AllEverywhere, AllEverywhere, AllEverywhere]
    exact fun ⟨hn, hns⟩ ⟨hn', hns'⟩ => ⟨Everywhere.and n hn hn', AllEverywhere.and ns hns hns'⟩

end

mutual

/-- The tree and all that is below its root. -/
def subtrees : Node → List Node
  | ⟨op, inputs, traits, rowType⟩ => ⟨op, inputs, traits, rowType⟩ :: allSubtrees inputs

def allSubtrees : List Node → List Node
  | [] => []
  | n :: ns => n.subtrees ++ allSubtrees ns

end

mutual

theorem everywhere_iff_subtrees : ∀ n : Node, n.Everywhere P ↔ ∀ m ∈ n.subtrees, P m
  | ⟨op, inputs, traits, rowType⟩ => by
    rw [Everywhere, subtrees, List.forall_mem_cons, allEverywhere_iff_subtrees inputs]

theorem allEverywhere_iff_subtrees : ∀ ns : List Node,
    AllEverywhere P ns ↔ ∀ m ∈ allSubtrees ns, P m
  | [] => by simp [AllEverywhere, allSubtrees]
  | n :: ns => by
    rw [AllEverywhere, allSubtrees, List.forall_mem_append, everywhere_iff_subtrees n,
      allEverywhere_iff_subtrees ns]

end

mutual

/-- What holds everywhere in a tree holds everywhere in its subtrees. -/
theorem everywhere_of_mem_subtrees : ∀ n : Node, n.Everywhere P → ∀ m ∈ n.subtrees, m.Everywhere P
  | ⟨op, inputs, traits, rowType⟩, h => by
    rw [subtrees, List.forall_mem_cons]
    exact ⟨h, everywhere_of_mem_allSubtrees inputs (everywhere_iff.1 h).2⟩

theorem everywhere_of_mem_allSubtrees : ∀ ns : List Node, (∀ n ∈ ns, n.Everywhere P) →
    ∀ m ∈ allSubtrees ns, m.Everywhere P
  | [], _ => by simp [allSubtrees]
  | n :: ns, h => by
    rw [List.forall_mem_cons] at h
    rw [allSubtrees, List.forall_mem_append]
    exact ⟨everywhere_of_mem_subtrees n h.1, everywhere_of_mem_allSubtrees ns h.2⟩

end

/-! ## Row types aside -/

mutual

/-- The tree without its row types. -/
def bare : Node → Node
  | ⟨op, inputs, traits, _⟩ => ⟨op, bares inputs, traits, .empty⟩

def bares : List Node → List Node
  | [] => []
  | n :: ns => n.bare :: bares ns

end

mutual

/-- What does not depend on row types holds everywhere in the tree
without row types if it does in the tree. -/
theorem everywhere_bare (h : ∀ op inputs traits rowType,
      P ⟨op, bares inputs, traits, .empty⟩ ↔ P ⟨op, inputs, traits, rowType⟩) :
    ∀ n : Node, n.bare.Everywhere P ↔ n.Everywhere P
  | ⟨op, inputs, traits, rowType⟩ => by
    rw [bare, Everywhere, Everywhere, h op inputs traits rowType, allEverywhere_bares h inputs]

theorem allEverywhere_bares (h : ∀ op inputs traits rowType,
      P ⟨op, bares inputs, traits, .empty⟩ ↔ P ⟨op, inputs, traits, rowType⟩) :
    ∀ ns : List Node, AllEverywhere P (bares ns) ↔ AllEverywhere P ns
  | [] => by rw [bares]
  | n :: ns => by
    rw [bares, AllEverywhere, AllEverywhere, everywhere_bare h n, allEverywhere_bares h ns]

end

end QueryPlanner.Node
