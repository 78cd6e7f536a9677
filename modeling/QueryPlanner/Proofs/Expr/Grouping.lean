import QueryPlanner.Proofs.Expr.Words

/-!
# Grouping

Expressions that are grouped as a reader would group their text: operators of equal precedence from
the left, `NOT` around everything that binds more tightly, the other keywords around single operands.
The items of a grouped expression determine it; that of two groupings of the same items only one is
grouped in this sense is what the text leaves open.
-/

namespace QueryPlanner

open Text

/-- Not a double, whose text may stand for several. -/
def Scalar.isExact : Scalar → Bool
  | .float64 (some _) => false
  | _ => true

namespace Expr

/-- Words that mean something else where a column could stand. -/
def reserved : List String := ["NOT", "NULL", "-"]

/-- A column that is not taken for anything else, as its parts have no dots. -/
def isColumnName (table : Option String) (name : String) : Bool :=
  (table.all fun t => '.' ∉ t.toList) && ('.' ∉ name.toList && columnText table name ∉ reserved)

/-- How tightly the outermost operator binds. -/
def rank : Expr → Nat
  | .binary op _ _ => op.precedence
  | .unary .not _ => 12
  | _ => 100

/-- A binary expression that is put into parentheses below an operator of this precedence. -/
def isBelow (precedence : Nat) : Expr → Bool
  | .binary op _ _ => op.precedence < precedence
  | _ => false

/-- Expressions whose text is a single item. -/
def isClosed : Expr → Bool
  | .column .. => true
  | .literal _ => true
  | .unary .negative _ => true
  | .cast .. => true
  | _ => false

mutual

def isGrouped : Expr → Bool
  | .column t n => isColumnName t n
  | .literal v => v.isExact
  | .unary .not e => e.isGrouped && 12 ≤ e.rank
  | .unary .negative e => e.isGrouped
  | .unary _ e => e.isGrouped && e.isClosed
  | .binary op l r =>
    l.isGrouped && r.isGrouped && (l.isBelow op.precedence || op.precedence ≤ l.rank) &&
      (r.isBelow op.precedence || op.precedence < r.rank)
  | .between e l h _ =>
    e.isGrouped && l.isGrouped && h.isGrouped && e.isClosed && l.isClosed && h.isClosed
  | .inList e is _ => e.isGrouped && e.isClosed && allGrouped is
  | .like e p _ => e.isGrouped && p.isGrouped && e.isClosed && p.isClosed
  | .alias _ _ => false
  | .cast e _ _ => e.isGrouped

def allGrouped : List Expr → Bool
  | [] => true
  | e :: es => e.isGrouped && allGrouped es

end

theorem allGrouped_iff {es : List Expr} : allGrouped es = true ↔ ∀ e ∈ es, e.isGrouped = true := by
  induction es with
  | nil => simp [allGrouped]
  | cons e es ih => simp [allGrouped, ih]

theorem operandItems_eq (precedence : Nat) (e : Expr) (items : List Item) :
    operandItems precedence e items =
      if e.isBelow precedence = true then [.group "" items] else items := by
  cases e <;> simp [operandItems, isBelow]

/-! ## Chains -/

/-- What operators are put between. -/
inductive Piece where
  | phrase (e : Expr)
  | operator (op : BinaryOp)
  | negation

namespace Piece

def items : Piece → List Item
  | phrase (.binary op l r) => [.group "" (Expr.items (.binary op l r))]
  | phrase e => e.items
  | operator op => [.word op.text]
  | negation => [.word "NOT"]

/-- How tightly the operator binds. -/
def rank : Piece → Nat
  | phrase _ => 100
  | operator op => op.precedence
  | negation => 12

end Piece

/-- Pieces of an operand below an operator of this precedence. -/
def side (precedence : Nat) (operand : Expr) (pieces : List Piece) : List Piece :=
  if operand.isBelow precedence then [.phrase operand] else pieces

/-- The operators of an expression outside of parentheses, and what is between them. -/
def chain : Expr → List Piece
  | .binary op l r => side op.precedence l l.chain ++ (.operator op :: side op.precedence r r.chain)
  | .unary .not e => .negation :: e.chain
  | e => [.phrase e]

theorem flatMap_side {precedence : Nat} {e : Expr} {pieces : List Piece}
    (h : pieces.flatMap Piece.items = e.items) :
    (side precedence e pieces).flatMap Piece.items = operandItems precedence e e.items := by
  rw [side, operandItems_eq]
  split_ifs with hbelow
  · cases e with
    | binary op l r => simp [Piece.items]
    | _ => simp [isBelow] at hbelow
  · exact h

theorem flatMap_chain (e : Expr) : e.chain.flatMap Piece.items = e.items := by
  induction e using induct with
  | unary op e ih =>
    cases op with
    | not => simp [chain, Piece.items, items, unaryItems, ih]
    | _ => simp [chain, Piece.items]
  | binary op l r hl hr =>
    rw [chain, items, List.flatMap_append, List.flatMap_cons, flatMap_side hl, flatMap_side hr]
    rfl
  | _ => simp [chain, Piece.items]

theorem forall_mem_side {P : Piece → Prop} {precedence : Nat} {e : Expr} {pieces : List Piece}
    (hwrapped : e.isBelow precedence = true → P (.phrase e))
    (hpieces : e.isBelow precedence = false → ∀ p ∈ pieces, P p) :
    ∀ p ∈ side precedence e pieces, P p := by
  rw [side]
  split_ifs with hbelow
  · simpa using hwrapped hbelow
  · exact hpieces (by simpa using hbelow)

/-- No piece of a grouped expression binds less tightly than the expression. -/
theorem rank_le_of_mem_chain (e : Expr) : e.isGrouped = true → ∀ p ∈ e.chain, e.rank ≤ p.rank := by
  induction e using induct with
  | unary op e ih =>
    intro h
    cases op with
    | not =>
      rw [isGrouped, Bool.and_eq_true, decide_eq_true_eq] at h
      rw [chain, List.forall_mem_cons]
      exact ⟨le_refl 12, fun p hp => h.2.trans (ih h.1 p hp)⟩
    | _ => simp [chain, rank, Piece.rank]
  | binary op l r hl hr =>
    intro h
    have hop : op.precedence ≤ 100 := by cases op <;> decide
    simp only [isGrouped, Bool.and_eq_true, Bool.or_eq_true, decide_eq_true_eq] at h
    obtain ⟨⟨⟨hgl, hgr⟩, hleft⟩, hright⟩ := h
    rw [chain, List.forall_mem_append, List.forall_mem_cons]
    refine ⟨?_, le_refl _, ?_⟩
    · apply forall_mem_side
      · exact fun _ => hop
      · intro hbelow p hp
        exact (hleft.resolve_left (by simp [hbelow])).trans (hl hgl p hp)
    · apply forall_mem_side
      · exact fun _ => hop
      · intro hbelow p hp
        exact (hright.resolve_left (by simp [hbelow])).le.trans (hr hgr p hp)
  | _ => simp [chain, rank, Piece.rank]

/-- What stands to the right of an operator in a grouped expression binds more tightly. -/
theorem lt_rank_of_mem_right {op : BinaryOp} {l r : Expr}
    (h : (Expr.binary op l r).isGrouped = true) :
    ∀ p ∈ side op.precedence r r.chain, op.precedence < p.rank := by
  have hop : op.precedence < 100 := by cases op <;> decide
  simp only [isGrouped, Bool.and_eq_true, Bool.or_eq_true, decide_eq_true_eq] at h
  obtain ⟨⟨⟨-, hgr⟩, -⟩, hright⟩ := h
  apply forall_mem_side
  · exact fun _ => hop
  · intro hbelow p hp
    exact (hright.resolve_left (by simp [hbelow])).trans_le (rank_le_of_mem_chain r hgr p hp)

/-- The last element with a property splits a list in one way only. -/
theorem append_cons_inj_of_last {α : Type*} {P : α → Prop} {as as' bs bs' : List α} {x x' : α}
    (hx : P x) (hx' : P x') (hbs : ∀ b ∈ bs, ¬ P b) (hbs' : ∀ b ∈ bs', ¬ P b)
    (h : as ++ x :: bs = as' ++ x' :: bs') : as = as' ∧ x = x' ∧ bs = bs' := by
  rcases List.append_eq_append_iff.1 h with ⟨cs, rfl, heq⟩ | ⟨cs, rfl, heq⟩
  · cases cs with
    | nil => simpa using heq
    | cons c cs =>
      rw [List.cons_append, List.cons.injEq] at heq
      exact absurd hx' (hbs x' (by simp [heq.2]))
  · cases cs with
    | nil => simpa [eq_comm] using heq
    | cons c cs =>
      rw [List.cons_append, List.cons.injEq] at heq
      exact absurd hx (hbs' x (by simp [heq.2]))

theorem operator_mem_chain (op : BinaryOp) (l r : Expr) :
    Piece.operator op ∈ (binary op l r).chain := by
  simp [chain]

theorem negation_mem_chain (e : Expr) : Piece.negation ∈ (unary .not e).chain := by
  simp [chain]

/-- An expression whose chain is a single phrase is that phrase. -/
theorem eq_of_chain_eq_phrase {e e' : Expr} (h : e.chain = [.phrase e']) : e = e' := by
  cases e with
  | unary op e =>
    cases op with
    | not => simp [chain] at h
    | _ => simpa [chain] using h
  | binary op l r =>
    have hmem := operator_mem_chain op l r
    simp [h] at hmem
  | _ => simpa [chain] using h

theorem eq_of_side_eq {precedence : Nat} {e e' : Expr} (h : e.chain = e'.chain → e = e')
    (heq : side precedence e e.chain = side precedence e' e'.chain) : e = e' := by
  rw [side, side] at heq
  split_ifs at heq
  · simpa using heq
  · exact (eq_of_chain_eq_phrase heq.symm).symm
  · exact eq_of_chain_eq_phrase heq
  · exact h heq

/-- Grouped expressions of the same chain are equal. -/
theorem eq_of_chain_eq (e : Expr) : ∀ e' : Expr, e.isGrouped = true → e'.isGrouped = true →
    e.chain = e'.chain → e = e' := by
  induction e using induct with
  | unary op e ih =>
    intro e' h h' heq
    cases op with
    | not =>
      have hmem : Piece.negation ∈ e'.chain := heq ▸ negation_mem_chain e
      cases e' with
      | unary op e' =>
        cases op with
        | not =>
          rw [isGrouped, Bool.and_eq_true] at h h'
          rw [chain, chain, List.cons.injEq] at heq
          rw [ih e' h.1 h'.1 heq.2]
        | _ => simp [chain] at hmem
      | binary op' l' r' =>
        -- the operator would bind less tightly than the negation, and the other way round
        have hle : op'.precedence ≤ 12 := rank_le_of_mem_chain _ h' _ hmem
        have hmem' : Piece.operator op' ∈ (unary .not e).chain :=
          heq ▸ operator_mem_chain op' l' r'
        have hge : 12 ≤ op'.precedence := rank_le_of_mem_chain _ h _ hmem'
        cases op' <;> simp [BinaryOp.precedence] at hle hge
      | _ => simp [chain] at hmem
    | _ => exact (eq_of_chain_eq_phrase heq.symm).symm
  | binary op l r hl hr =>
    intro e' h h' heq
    have hmem : Piece.operator op ∈ e'.chain := heq ▸ operator_mem_chain op l r
    cases e' with
    | unary op' e' =>
      cases op' with
      | not =>
        have hmem' : Piece.negation ∈ (binary op l r).chain := heq ▸ negation_mem_chain e'
        have hle : op.precedence ≤ 12 := rank_le_of_mem_chain _ h _ hmem'
        have hge : 12 ≤ op.precedence := rank_le_of_mem_chain _ h' _ hmem
        cases op <;> simp [BinaryOp.precedence] at hle hge
      | _ => simp [chain] at hmem
    | binary op' l' r' =>
      have hmem' : Piece.operator op' ∈ (binary op l r).chain :=
        heq ▸ operator_mem_chain op' l' r'
      have hle : op.precedence ≤ op'.precedence := rank_le_of_mem_chain _ h _ hmem'
      have hge : op'.precedence ≤ op.precedence := rank_le_of_mem_chain _ h' _ hmem
      have hprecedence : op.precedence = op'.precedence := le_antisymm hle hge
      have hright := lt_rank_of_mem_right h
      have hright' := lt_rank_of_mem_right h'
      rw [chain, chain, ← hprecedence] at heq
      rw [← hprecedence] at hright'
      obtain ⟨hleft, hop, hright⟩ := append_cons_inj_of_last
        (P := fun p => p.rank ≤ op.precedence) (le_refl _) (hprecedence ▸ le_refl _)
        (fun p hp => not_le.2 (hright p hp)) (fun p hp => not_le.2 (hright' p hp)) heq
      simp only [isGrouped, Bool.and_eq_true] at h h'
      rw [eq_of_side_eq (hl l' h.1.1.1 h'.1.1.1) hleft, eq_of_side_eq (hr r' h.1.1.2 h'.1.1.2) hright,
        Piece.operator.inj hop]
    | _ => simp [chain] at hmem
  | _ =>
    intro e' _ _ heq
    exact (eq_of_chain_eq_phrase heq.symm).symm

end Expr

end QueryPlanner
