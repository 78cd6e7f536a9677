import QueryPlanner.Proofs.Expr.Grouping

/-!
# Phrases

What stands between the operators of a grouped expression are phrases: a single item, or one with a
keyword and what belongs to it. Phrases can be read one after the other, so the items of a grouped
expression tell its chain, and by that the expression.
-/

namespace QueryPlanner

open Text

theorem BinaryOp.text_injective {a b : BinaryOp} (h : a.text = b.text) : a = b := by
  revert h
  cases a <;> cases b <;> decide

namespace Expr

def isBinary : Expr → Bool
  | .binary .. => true
  | _ => false

/-- A grouped expression as it stands between operators; a binary one is put into parentheses. -/
structure IsPhrase (e : Expr) : Prop where
  grouped : e.isGrouped = true
  notNegation : ∀ e', e ≠ .unary .not e'

/-- What may follow a phrase. -/
def phraseStops : List Item :=
  ["AS", "=", "!=", "<", "<=", ">", ">=", "AND", "OR", "+", "-", "*", "/", "%"].map .word

theorem operator_mem_phraseStops (op : BinaryOp) : Item.word op.text ∈ phraseStops := by
  cases op <;> simp [BinaryOp.text, phraseStops]

/-- What the keyword of a phrase is about, or the phrase itself if it has none. -/
def base : Expr → Expr
  | .unary .negative e => .unary .negative e
  | .unary _ e => e
  | .between e _ _ _ => e
  | .inList e _ _ => e
  | .like e _ _ => e
  | e => e

/-- The keyword of a phrase and what follows it. -/
def suffix : Expr → List Item
  | .unary .isNull _ => [.word "IS", .word "NULL"]
  | .unary .isNotNull _ => [.word "IS", .word "NOT", .word "NULL"]
  | .unary .isTrue _ => [.word "IS", .word "TRUE"]
  | .unary .isFalse _ => [.word "IS", .word "FALSE"]
  | .between _ l h n => negatedItems n "BETWEEN" ++ (l.items ++ (.word "AND" :: h.items))
  | .inList _ is n => negatedItems n "IN" ++ [.listing (itemLists is)]
  | .like _ p n => negatedItems n "LIKE" ++ p.items
  | _ => []

/-- The item of a closed expression, or of a binary one in parentheses. -/
def atom : Expr → Item
  | .column t n => .word (columnText t n)
  | .literal v => v.item
  | .unary .negative e => .group "" (.word "-" :: e.items)
  | .cast e t false => .group "CAST" (e.items ++ [.word "AS", .word t.text])
  | .cast e t true => .group "TRY_CAST" (e.items ++ [.word "AS", .word t.text])
  | e => .group "" e.items

theorem items_of_isClosed {e : Expr} (h : e.isClosed = true) : e.items = [e.atom] := by
  cases e with
  | column t n => rfl
  | literal v => rfl
  | unary op e => cases op <;> first | rfl | simp [isClosed] at h
  | cast e t l => cases l <;> rfl
  | _ => simp [isClosed] at h

/-- Closed or binary. -/
def isAtomic (e : Expr) : Bool := e.isClosed || e.isBinary

theorem IsPhrase.base {e : Expr} (h : e.IsPhrase) :
    e.base.isGrouped = true ∧ e.base.isAtomic = true := by
  obtain ⟨hgrouped, hnot⟩ := h
  cases e with
  | unary op e =>
    cases op with
    | not => exact absurd rfl (hnot e)
    | negative => exact ⟨hgrouped, rfl⟩
    | _ =>
      rw [isGrouped, Bool.and_eq_true] at hgrouped
      · simp [Expr.base, isAtomic, hgrouped]
      · simp
      · simp
  | between e l h n =>
    simp only [isGrouped, Bool.and_eq_true] at hgrouped
    simp [Expr.base, isAtomic, hgrouped]
  | inList e is n =>
    simp only [isGrouped, Bool.and_eq_true] at hgrouped
    simp [Expr.base, isAtomic, hgrouped]
  | like e p n =>
    simp only [isGrouped, Bool.and_eq_true] at hgrouped
    simp [Expr.base, isAtomic, hgrouped]
  | «alias» e n => simp [isGrouped] at hgrouped
  | _ => exact ⟨hgrouped, rfl⟩

theorem phrase_items {e : Expr} (h : e.IsPhrase) :
    (Piece.phrase e).items = e.base.atom :: e.suffix := by
  obtain ⟨hgrouped, hnot⟩ := h
  cases e with
  | unary op e =>
    cases op with
    | not => exact absurd rfl (hnot e)
    | negative => rfl
    | _ =>
      rw [isGrouped, Bool.and_eq_true] at hgrouped
      · simp [Piece.items, items, unaryItems, items_of_isClosed hgrouped.2, Expr.base, suffix]
      · simp
      · simp
  | between e l h n =>
    simp only [isGrouped, Bool.and_eq_true] at hgrouped
    simp [Piece.items, items, items_of_isClosed hgrouped.1.1.2, Expr.base, suffix]
  | inList e is n =>
    simp only [isGrouped, Bool.and_eq_true] at hgrouped
    simp [Piece.items, items, items_of_isClosed hgrouped.1.2, Expr.base, suffix]
  | like e p n =>
    simp only [isGrouped, Bool.and_eq_true] at hgrouped
    simp [Piece.items, items, items_of_isClosed hgrouped.1.2, Expr.base, suffix]
  | «alias» e n => simp [isGrouped] at hgrouped
  | cast e t l => cases l <;> rfl
  | _ => rfl

/-! ## Chains of phrases -/

/-- Phrases with operators between them, behind negations. -/
inductive Regular : List Piece → Prop
  | phrase {e : Expr} (he : e.IsPhrase) : Regular [.phrase e]
  | negation {pieces : List Piece} (h : Regular pieces) : Regular (.negation :: pieces)
  | operator {e : Expr} {op : BinaryOp} {pieces : List Piece} (he : e.IsPhrase)
      (h : Regular pieces) : Regular (.phrase e :: .operator op :: pieces)

theorem Regular.append {ps qs : List Piece} {op : BinaryOp} (hp : Regular ps) (hq : Regular qs) :
    Regular (ps ++ .operator op :: qs) := by
  induction hp with
  | phrase he => exact .operator he hq
  | negation _ ih => exact .negation ih
  | operator he _ ih => exact .operator he ih

theorem isPhrase_of_isBelow {precedence : Nat} {e : Expr} (hgrouped : e.isGrouped = true)
    (h : e.isBelow precedence = true) : e.IsPhrase := by
  refine ⟨hgrouped, ?_⟩
  rintro e' rfl
  simp [isBelow] at h

theorem regular_side {precedence : Nat} {e : Expr} (hgrouped : e.isGrouped = true)
    (h : Regular e.chain) : Regular (side precedence e e.chain) := by
  rw [side]
  split_ifs with hbelow
  · exact .phrase (isPhrase_of_isBelow hgrouped hbelow)
  · exact h

theorem regular_chain (e : Expr) : e.isGrouped = true → Regular e.chain := by
  induction e using induct with
  | unary op e ih =>
    intro h
    cases op with
    | not =>
      rw [isGrouped, Bool.and_eq_true] at h
      exact .negation (ih h.1)
    | _ => exact .phrase ⟨h, by simp⟩
  | binary op l r hl hr =>
    intro h
    simp only [isGrouped, Bool.and_eq_true] at h
    exact (regular_side h.1.1.1 (hl h.1.1.1)).append (regular_side h.1.1.2 (hr h.1.1.2))
  | _ =>
    intro h
    exact .phrase ⟨h, by simp⟩

theorem atom_ne {e : Expr} (h : e.isGrouped = true) :
    e.atom ≠ .word "NOT" ∧ e.atom ≠ .word "-" := by
  cases e with
  | column t n =>
    simp only [isGrouped, isColumnName, reserved, Bool.and_eq_true, decide_eq_true_eq] at h
    simp only [atom, ne_eq, Item.word.injEq]
    constructor <;> rintro heq <;> simp [heq] at h
  | literal v =>
    rw [atom]
    unfold Scalar.item
    split <;> simp
  | unary op e => cases op <;> simp [atom]
  | cast e t l => cases l <;> simp [atom]
  | _ => simp [atom]

/-- Where the phrases of a chain can be read, the chain can. -/
theorem readable_chain {ps : List Piece} (hp : Regular ps)
    (h : ∀ e, .phrase e ∈ ps → Readable IsPhrase (fun e => (Piece.phrase e).items) id phraseStops e) :
    Readable Regular (fun ps => ps.flatMap Piece.items) id [.word "AS"] ps := by
  have has : ∀ {s : List Item}, Delimited [.word "AS"] s → Delimited phraseStops s := fun hs =>
    hs.mono (by simp [phraseStops])
  have hop : ∀ {op : BinaryOp} {s : List Item}, Delimited phraseStops (.word op.text :: s) :=
    fun {op} _ => delimited_cons.2 (operator_mem_phraseStops op)
  have hne : ∀ {op : BinaryOp} {s : List Item}, ¬ Delimited [.word "AS"] (.word op.text :: s) := by
    intro op s
    cases op <;> simp [BinaryOp.text]
  have hnot : ∀ {e : Expr} {s t : List Item}, e.IsPhrase →
      (Piece.phrase e).items ++ s ≠ .word "NOT" :: t := by
    intro e s t he heq
    rw [phrase_items he, List.cons_append, List.cons.injEq] at heq
    exact (atom_ne he.base.1).1 heq.1
  induction hp with
  | @phrase e he =>
    intro qs s t hq hs ht heq
    have hread := h e List.mem_cons_self
    cases hq with
    | phrase he' =>
      simp only [List.flatMap_cons, List.flatMap_nil, List.append_nil] at heq
      obtain ⟨rfl, rfl⟩ := hread _ s t he' (has hs) (has ht) heq
      exact ⟨rfl, rfl⟩
    | negation hq =>
      simp only [List.flatMap_cons, List.flatMap_nil, List.append_nil, List.append_assoc] at heq
      exact absurd heq (hnot he)
    | operator he' hq =>
      simp only [List.flatMap_cons, List.flatMap_nil, List.append_nil, List.append_assoc] at heq
      obtain ⟨-, hst⟩ := hread _ s _ he' (has hs) hop heq
      rw [hst] at hs
      exact absurd hs hne
  | @negation ps hp ih =>
    intro qs s t hq hs ht heq
    cases hq with
    | phrase he' =>
      simp only [List.flatMap_cons, List.flatMap_nil, List.append_nil, List.append_assoc] at heq
      exact absurd heq.symm (hnot he')
    | negation hq =>
      simp only [List.flatMap_cons, List.append_assoc, List.append_cancel_left_eq] at heq
      obtain ⟨rfl, rfl⟩ := ih (fun e he => h e (List.mem_cons_of_mem _ he)) _ s t hq hs ht heq
      exact ⟨rfl, rfl⟩
    | operator he' hq =>
      simp only [List.flatMap_cons, List.append_assoc] at heq
      exact absurd heq.symm (hnot he')
  | @operator e op ps he hp ih =>
    intro qs s t hq hs ht heq
    have hread := h e List.mem_cons_self
    cases hq with
    | phrase he' =>
      simp only [List.flatMap_cons, List.flatMap_nil, List.append_nil, List.append_assoc] at heq
      obtain ⟨-, hst⟩ := hread _ _ t he' hop (has ht) heq
      rw [← hst] at ht
      exact absurd ht hne
    | negation hq =>
      simp only [List.flatMap_cons, List.append_assoc] at heq
      exact absurd heq (hnot he)
    | @operator e' op' qs he' hq =>
      simp only [List.flatMap_cons, List.append_assoc] at heq
      obtain ⟨rfl, hrest⟩ := hread _ _ _ he' hop hop heq
      obtain ⟨hword, hlater⟩ := List.cons.inj hrest
      obtain rfl : op = op' := BinaryOp.text_injective (Item.word.inj hword)
      obtain ⟨rfl, rfl⟩ := ih (fun e he => h e (by simp [he])) _ s t hq hs ht hlater
      exact ⟨rfl, rfl⟩

end Expr

end QueryPlanner
