/-!
# Sets of characters

A set of characters is kept as blocks of code points, the first and the last of each, ascending and
apart, so that it has one form.
-/

namespace QueryPlanner.Text

structure CharacterSet where
  blocks : List (Nat × Nat)

namespace CharacterSet

def contains (s : CharacterSet) (c : Char) : Bool :=
  s.blocks.any fun (first, last) => first ≤ c.toNat && c.toNat ≤ last

/-- How many code points the blocks hold. -/
def size (s : CharacterSet) : Nat :=
  s.blocks.foldl (fun n (first, last) => n + (last + 1 - first)) 0

/-- The blocks lie after `start`, ascend and leave a gap between any two. -/
def ascendsFrom : Nat → List (Nat × Nat) → Bool
  | _, [] => true
  | start, (first, last) :: rest => start ≤ first && first ≤ last && ascendsFrom (last + 2) rest

def isOrdered (s : CharacterSet) : Bool := ascendsFrom 0 s.blocks

end CharacterSet

end QueryPlanner.Text
