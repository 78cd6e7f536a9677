import QueryPlanner.Proofs.Graph.Absorption

/-!
# Comparing rows

Rows that are numbers, the infinite ones among them, are compared as their places in a linear order.
What is not a number has no place: it is less than nothing, and nothing is less than it. So
comparing costs by their rows is a strict order in all cases, and a strict weak one among costs
whose rows are numbers.
-/

namespace QueryPlanner.Cost

open Float.Model

/-! ## Places -/

/-- The place of a number among all numbers. Numbers of one sign are compared by their exponents
first. -/
def place : UnpackedFloat → Option (ℤ ×ₗ ℤ ×ₗ ℤ)
  | .notANumber => none
  | .infinity .negative => some (toLex (-2, toLex (0, 0)))
  | .finite .negative mantissa exponent _ => some (toLex (-1, toLex (-exponent, -mantissa)))
  | .zero _ => some (toLex (0, toLex (0, 0)))
  | .finite .positive mantissa exponent _ => some (toLex (1, toLex (exponent, mantissa)))
  | .infinity .positive => some (toLex (2, toLex (0, 0)))

theorem lt_iff_place (x y : UnpackedFloat) :
    x.lt y = true ↔ ∃ i ∈ place x, ∃ j ∈ place y, i < j := by
  rcases x with ⟨_ | _⟩ | _ | _ | ⟨_ | _, m, e, hm⟩ <;>
    rcases y with ⟨_ | _⟩ | _ | _ | ⟨_ | _, n, f, hn⟩ <;>
    simp [UnpackedFloat.lt, UnpackedFloat.compare, place, Prod.Lex.toLex_lt_toLex,
      Ordering.then_eq_lt, Ordering.then_eq_gt, compare_lt_iff_lt, compare_gt_iff_gt]
  rfl

theorem isSome_place {x : UnpackedFloat} (h : x.isNaN = false) : (place x).isSome := by
  cases x with
  | notANumber => cases h
  | infinity sign => cases sign <;> rfl
  | zero sign => rfl
  | finite sign mantissa exponent hpos => cases sign <;> rfl

/-- The place of the rows of a cost. -/
def rowsPlace (c : Cost) : Option (ℤ ×ₗ ℤ ×ₗ ℤ) := place c.rows.toModel.unpack

theorem less_iff {a b : Cost} :
    a.less b = true ↔ ∃ i ∈ a.rowsPlace, ∃ j ∈ b.rowsPlace, i < j := by
  rw [less_eq_lt, lt_iff_place]
  rfl

theorem isSome_rowsPlace {c : Cost} (h : c.rows.isNaN = false) : c.rowsPlace.isSome :=
  isSome_place h

/-! ## Orders -/

/-- Comparing rows is a strict order, also where some of them are not numbers. -/
instance isStrictOrder_less : IsStrictOrder Cost fun a b => a.less b = true where
  irrefl a h := by
    obtain ⟨i, hi, j, hj, hij⟩ := less_iff.1 h
    cases Option.mem_unique hi hj
    exact lt_irrefl i hij
  trans a b c hab hbc := by
    obtain ⟨i, hi, j, hj, hij⟩ := less_iff.1 hab
    obtain ⟨j', hj', k, hk, hjk⟩ := less_iff.1 hbc
    cases Option.mem_unique hj hj'
    exact less_iff.2 ⟨i, hi, k, hk, hij.trans hjk⟩

/-- Rows that are numbers have the same place if none of them is the lesser one. -/
theorem rowsPlace_eq {a b : Cost} (ha : a.rows.isNaN = false) (hb : b.rows.isNaN = false)
    (h : ¬ a.less b = true ∧ ¬ b.less a = true) : a.rowsPlace = b.rowsPlace := by
  obtain ⟨i, hi⟩ := Option.isSome_iff_exists.1 (isSome_rowsPlace ha)
  obtain ⟨j, hj⟩ := Option.isSome_iff_exists.1 (isSome_rowsPlace hb)
  have hij : ¬ i < j := fun hij => h.1 (less_iff.2 ⟨i, hi, j, hj, hij⟩)
  have hji : ¬ j < i := fun hji => h.2 (less_iff.2 ⟨j, hj, i, hi, hji⟩)
  rw [hi, hj, le_antisymm (not_lt.1 hji) (not_lt.1 hij)]

/-- Among costs whose rows are numbers it is a strict weak order. -/
theorem isStrictWeakOrder_less {P : Cost → Prop} (hP : ∀ c, P c → c.rows.isNaN = false) :
    IsStrictWeakOrder (Subtype P) (Subrel (fun a b => a.less b = true) P) where
  incomp_trans a b c hab hbc := by
    have heq : a.1.rowsPlace = c.1.rowsPlace :=
      (rowsPlace_eq (hP _ a.2) (hP _ b.2) hab).trans (rowsPlace_eq (hP _ b.2) (hP _ c.2) hbc)
    simp only [subrel_val, less_iff, heq]
    refine ⟨?_, ?_⟩ <;>
    · rintro ⟨i, hi, j, hj, hij⟩
      cases Option.mem_unique hi hj
      exact lt_irrefl i hij

end QueryPlanner.Cost
