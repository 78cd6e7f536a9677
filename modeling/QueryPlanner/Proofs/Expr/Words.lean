import QueryPlanner.Expr.Text
import QueryPlanner.Proofs.Text.Items

/-!
# The words of an expression

What the text of an expression shows: its items, as they stand between blanks. The text determines
the items if names are words and quoted texts have no quotes, so two expressions look alike if and
only if they have the same items.
-/

namespace QueryPlanner

open Text

def Scalar.item : Scalar → Item
  | .null => .word "NULL"
  | .utf8 (some s) => .quoted s
  | v => .group v.type.text [.word v.bare]

namespace Expr

/-- Induction on expressions. -/
theorem induct {P : Expr → Prop} (column : ∀ t n, P (.column t n)) (literal : ∀ v, P (.literal v))
    (unary : ∀ op e, P e → P (.unary op e)) (binary : ∀ op l r, P l → P r → P (.binary op l r))
    (between : ∀ e l h n, P e → P l → P h → P (.between e l h n))
    (inList : ∀ e is n, P e → (∀ i ∈ is, P i) → P (.inList e is n))
    (like : ∀ e p n, P e → P p → P (.like e p n)) (named : ∀ e n, P e → P (.alias e n))
    (cast : ∀ e t l, P e → P (.cast e t l)) (e : Expr) : P e :=
  @Expr.rec P (fun es => ∀ e ∈ es, P e) column literal unary binary between inList like named cast
    (fun _ h => nomatch h) (fun _ _ he hes => List.forall_mem_cons.2 ⟨he, hes⟩) e

/-- Items of an operand below an operator of this precedence. -/
def operandItems (precedence : Nat) (operand : Expr) (items : List Item) : List Item :=
  match operand with
  | .binary op _ _ => if op.precedence < precedence then [.group "" items] else items
  | _ => items

/-- Items of a unary operator with those of its operand. -/
def unaryItems (op : UnaryOp) (items : List Item) : List Item :=
  match op with
  | .not => .word "NOT" :: items
  | .negative => [.group "" (.word "-" :: items)]
  | .isNull => items ++ [.word "IS", .word "NULL"]
  | .isNotNull => items ++ [.word "IS", .word "NOT", .word "NULL"]
  | .isTrue => items ++ [.word "IS", .word "TRUE"]
  | .isFalse => items ++ [.word "IS", .word "FALSE"]

def negatedItems (negated : Bool) (word : String) : List Item :=
  if negated then [.word "NOT", .word word] else [.word word]

mutual

def items : Expr → List Item
  | .column t n => [.word (columnText t n)]
  | .literal v => [v.item]
  | .unary op e => unaryItems op e.items
  | .binary op l r =>
    operandItems op.precedence l l.items ++
      (.word op.text :: operandItems op.precedence r r.items)
  | .between e l h n =>
    e.items ++ (negatedItems n "BETWEEN" ++ (l.items ++ (.word "AND" :: h.items)))
  | .inList e is n => e.items ++ (negatedItems n "IN" ++ [.listing (itemLists is)])
  | .like e p n => e.items ++ (negatedItems n "LIKE" ++ p.items)
  | .alias e n => e.items ++ [.word "AS", .word n]
  | .cast e t false => [.group "CAST" (e.items ++ [.word "AS", .word t.text])]
  | .cast e t true => [.group "TRY_CAST" (e.items ++ [.word "AS", .word t.text])]

def itemLists : List Expr → List (List Item)
  | [] => []
  | e :: es => e.items :: itemLists es

end

theorem itemLists_eq_map (es : List Expr) : itemLists es = es.map items := by
  induction es with
  | nil => simp [itemLists]
  | cons e es ih => simp [itemLists, ih]

theorem texts_eq_map (es : List Expr) : texts es = es.map text := by
  induction es with
  | nil => simp [texts]
  | cons e es ih => simp [texts, ih]

theorem operandItems_ne_nil {precedence : Nat} {e : Expr} {items : List Item} (h : items ≠ []) :
    operandItems precedence e items ≠ [] := by
  unfold operandItems
  split
  · split_ifs
    · simp
    · exact h
  · exact h

@[simp] theorem items_ne_nil (e : Expr) : e.items ≠ [] := by
  cases e with
  | unary op e => cases op <;> simp [items, unaryItems, items_ne_nil e]
  | like e p n => cases n <;> simp [items, negatedItems]
  | cast e t l => cases l <;> simp [items]
  | _ => simp [items]

/-! ## Spelling -/

theorem spell_item (v : Scalar) : v.item.spell = v.text.toList := by
  unfold Scalar.item Scalar.text
  split
  · simp [Item.spell]
  · simp [Item.spell]
  · simp [Item.spell, Item.spells]

theorem spell_group {items : List Item} {head text : String}
    (h : Item.spellAll items = text.toList) :
    (Item.group head items).spell = (head ++ "(" ++ text ++ ")").toList := by
  rw [Item.spell, Item.spells_eq_map, show [' '].intercalate _ = _ from h]
  simp

theorem spell_operandItems {precedence : Nat} {e : Expr} {items : List Item} {text : String}
    (h : Item.spellAll items = text.toList) :
    Item.spellAll (operandItems precedence e items) = (operandText precedence e text).toList := by
  cases e with
  | binary op l r =>
    rw [operandItems, operandText]
    split_ifs
    · rw [Item.spellAll_singleton, spell_group h, String.empty_append]
    · exact h
  | _ => exact h

theorem spell_unaryItems {op : UnaryOp} {items : List Item} {text : String} (hne : items ≠ [])
    (h : Item.spellAll items = text.toList) :
    Item.spellAll (unaryItems op items) = (unaryText op text).toList := by
  have hsuffix : ∀ is : List Item, is ≠ [] →
      Item.spellAll (items ++ is) = text.toList ++ ' ' :: Item.spellAll is := by
    intro is his
    rw [Item.spellAll_append hne his, h]
  cases op with
  | not =>
    rw [unaryItems, Item.spellAll_cons hne, h]
    simp [unaryText, Item.spell]
  | negative =>
    have hminus : Item.spellAll (.word "-" :: items) = ("- " ++ text).toList := by
      rw [Item.spellAll_cons hne, h]
      simp [Item.spell]
    rw [unaryItems, Item.spellAll_singleton, spell_group hminus]
    simp [unaryText]
  | _ =>
    rw [unaryItems, hsuffix _ (by simp)]
    simp [unaryText, Item.spell, Item.spellAll_cons]

theorem spell_negatedItems {negated : Bool} {word : String} {is js : List Item}
    {text text' : String} (his : is ≠ []) (hjs : js ≠ []) (h : Item.spellAll is = text.toList)
    (h' : Item.spellAll js = text'.toList) :
    Item.spellAll (is ++ (negatedItems negated word ++ js)) =
      (text ++ negatedWord negated word ++ text').toList := by
  have hne : negatedItems negated word ≠ [] := by
    cases negated <;> simp [negatedItems]
  rw [Item.spellAll_append his (by simp [hjs]), Item.spellAll_append hne hjs, h, h']
  cases negated <;> simp [negatedItems, negatedWord, Item.spell, Item.spellAll_cons]

/-- The text of an expression is that of its items with blanks between them. -/
theorem spellAll_items (e : Expr) : Item.spellAll e.items = e.text.toList := by
  induction e using induct with
  | column t n => simp [items, text, Item.spell]
  | literal v => simp [items, text, spell_item]
  | unary op e ih => exact spell_unaryItems (items_ne_nil e) ih
  | binary op l r hl hr =>
    rw [items, Item.spellAll_append (operandItems_ne_nil (items_ne_nil l)) (by simp),
      Item.spellAll_cons (operandItems_ne_nil (items_ne_nil r)), spell_operandItems hl,
      spell_operandItems hr]
    simp [text, Item.spell]
  | between e l h n he hl hh =>
    have hrange : Item.spellAll (l.items ++ (.word "AND" :: h.items)) =
        (l.text ++ " AND " ++ h.text).toList := by
      rw [Item.spellAll_append (items_ne_nil l) (by simp), Item.spellAll_cons (items_ne_nil h), hl,
        hh]
      simp [Item.spell]
    rw [items, spell_negatedItems (items_ne_nil e) (by simp) he hrange]
    simp [text]
  | inList e is n he his =>
    have hlists : is.map (Item.spellAll ∘ items) = is.map (String.toList ∘ text) :=
      List.map_congr_left his
    have hlisting : Item.spellAll [.listing (itemLists is)] =
        ("([" ++ ", ".intercalate (texts is) ++ "])").toList := by
      rw [Item.spellAll_singleton, Item.spell, Item.spellLists_eq_map, itemLists_eq_map,
        texts_eq_map, List.map_map, hlists]
      simp [String.toList_intercalate]
    rw [items, spell_negatedItems (items_ne_nil e) (by simp) he hlisting]
    simp [text]
  | like e p n he hp =>
    rw [items, spell_negatedItems (items_ne_nil e) (items_ne_nil p) he hp]
    simp [text]
  | named e n ih =>
    rw [items, Item.spellAll_append (items_ne_nil e) (by simp), ih]
    simp [text, Item.spell, Item.spellAll_cons]
  | cast e t l ih =>
    have htype : Item.spellAll (e.items ++ [.word "AS", .word t.text]) =
        (e.text ++ " AS " ++ t.text).toList := by
      rw [Item.spellAll_append (items_ne_nil e) (by simp), ih]
      simp [Item.spell, Item.spellAll_cons]
    cases l with
    | false =>
      rw [items, Item.spellAll_singleton, spell_group htype]
      simp [text]
    | true =>
      rw [items, Item.spellAll_singleton, spell_group htype]
      simp [text]

end Expr

/-! ## Literals -/

section Literals

open Item

theorem not_special_of_isDigit {c : Char} (h : c.isDigit = true) : c ∉ special := by
  intro hc
  simp only [special, List.mem_cons, List.not_mem_nil, or_false] at hc
  rcases hc with rfl | rfl | rfl | rfl | rfl | rfl | rfl <;> simp at h

theorem isWord_iff {w : String} : isWord w = true ↔ w ≠ "" ∧ ∀ c ∈ w.toList, c ∉ special := by
  simp [isWord, isPlain, and_comm]

theorem isWord_nat (n : Nat) : isWord (toString n) = true := by
  rw [isWord_iff]
  constructor
  · intro h
    have hlist := congrArg String.toList h
    simp [toString] at hlist
  · intro c hc
    exact not_special_of_isDigit (isDigit_of_mem_nat hc)

theorem toString_negSucc (n : Nat) : toString (Int.negSucc n) = "-" ++ toString (n + 1) := rfl

theorem mem_int {n : Int} {c : Char} (hc : c ∈ (toString n).toList) :
    c.isDigit = true ∨ c = '-' := by
  cases n with
  | ofNat n => exact .inl (isDigit_of_mem_nat hc)
  | negSucc n =>
    rw [toString_negSucc, String.toList_append, List.mem_append] at hc
    rcases hc with hc | hc
    · exact .inr (by simpa using hc)
    · exact .inl (isDigit_of_mem_nat hc)

theorem isWord_int (n : Int) : isWord (toString n) = true := by
  rw [isWord_iff]
  constructor
  · cases n with
    | ofNat n => exact (isWord_iff.1 (isWord_nat n)).1
    | negSucc n =>
      rw [toString_negSucc]
      simp
  · intro c hc
    rcases mem_int hc with hdigit | rfl
    · exact not_special_of_isDigit hdigit
    · decide

theorem isWord_positional (d : Nat) (e : Int) : isWord (Decimal.positional d e) = true := by
  have hdigit : ∀ c ∈ Nat.toDigits 10 d, c ∉ special := fun c hc =>
    not_special_of_isDigit (Nat.isDigit_of_mem_toDigits (by decide) (by decide) hc)
  have hzero : ∀ (n : Nat) (c : Char), c ∈ List.replicate n '0' → c ∉ special := by
    intro n c hc
    obtain rfl := List.eq_of_mem_replicate hc
    decide
  rw [isWord_iff]
  unfold Decimal.positional
  simp only
  split_ifs with he
  · constructor
    · intro h
      have hlist := congrArg String.toList h
      simp at hlist
    · intro c hc
      rw [String.toList_ofList, List.mem_append] at hc
      exact hc.elim (hdigit c) (hzero _ c)
  · constructor
    · intro h
      have hlist := congrArg String.toList h
      simp at hlist
    · intro c hc
      have hpadded : ∀ (n : Nat), c ∈ List.replicate n '0' ++ Nat.toDigits 10 d → c ∉ special :=
        fun n hc => (List.mem_append.1 hc).elim (hzero n c) (hdigit c)
      rw [String.toList_ofList, List.mem_append, List.mem_cons] at hc
      rcases hc with hc | rfl | hc
      · exact hpadded _ (List.mem_of_mem_take hc)
      · decide
      · exact hpadded _ (List.mem_of_mem_drop hc)

theorem isWord_append {v w : String} (hv : isPlain v = true) (hw : isWord w = true) :
    isWord (v ++ w) = true := by
  rw [isWord_iff] at hw ⊢
  constructor
  · simp [hw.1]
  · intro c hc
    rw [String.toList_append, List.mem_append] at hc
    exact hc.elim (not_special hv c) (hw.2 c)

theorem isWord_decimal (x : Float) : isWord (Decimal.text x) = true := by
  have hsign : ∀ p : Prop, [Decidable p] → isPlain (if p then "-" else "") = true := by
    intro p _
    split_ifs <;> decide
  unfold Decimal.text
  simp only
  split_ifs
  all_goals first
    | decide
    | exact isWord_append (by decide) (by decide)
    | exact isWord_append (by decide) (isWord_positional _ _)

theorem isWord_bare {v : Scalar} (h : ∀ s, v ≠ .utf8 (some s)) : isWord v.bare = true := by
  unfold Scalar.bare
  split
  · next b => cases b <;> decide
  · exact isWord_int _
  · exact isWord_int _
  · exact isWord_nat _
  · exact isWord_decimal _
  · exact absurd rfl (h _)
  · decide

theorem isWord_type (t : DataType) : isWord t.text = true := by
  cases t <;> decide

theorem legible_word {w : String} : (Item.word w).Legible ↔ isWord w = true := by
  constructor
  · intro h
    cases h with
    | word hw => exact hw
  · exact .word

/-- Text has no quotes. -/
def Scalar.isLegible : Scalar → Bool
  | .utf8 (some s) => '"' ∉ s.toList
  | _ => true

theorem legible_item {v : Scalar} (h : v.isLegible = true) : v.item.Legible := by
  unfold Scalar.item
  split
  · exact .word (by decide)
  · exact .quoted (by simpa [Scalar.isLegible] using h)
  · next hnull hutf8 =>
    apply Legible.group
    · exact (Bool.and_eq_true_iff.1 (isWord_type v.type)).1
    · intro i hi
      obtain rfl := List.mem_singleton.1 hi
      exact .word (isWord_bare hutf8)

end Literals

namespace Expr

mutual

/-- Names are words, and quoted texts have no quotes. -/
def isLegible : Expr → Bool
  | .column t n => Item.isWord (columnText t n)
  | .literal v => v.isLegible
  | .unary _ e => e.isLegible
  | .binary _ l r => l.isLegible && r.isLegible
  | .between e l h _ => e.isLegible && (l.isLegible && h.isLegible)
  | .inList e is _ => e.isLegible && allLegible is
  | .like e p _ => e.isLegible && p.isLegible
  | .alias e n => e.isLegible && Item.isWord n
  | .cast e _ _ => e.isLegible

def allLegible : List Expr → Bool
  | [] => true
  | e :: es => e.isLegible && allLegible es

end

theorem allLegible_iff {es : List Expr} : allLegible es = true ↔ ∀ e ∈ es, e.isLegible = true := by
  induction es with
  | nil => simp [allLegible]
  | cons e es ih => simp [allLegible, ih]

theorem forall_mem_operandItems {P : Item → Prop} {precedence : Nat} {e : Expr} {items : List Item}
    (hitems : ∀ i ∈ items, P i) (hgroup : P (.group "" items)) :
    ∀ i ∈ operandItems precedence e items, P i := by
  unfold operandItems
  split
  · split_ifs
    · simpa using hgroup
    · exact hitems
  · exact hitems

theorem legible_operandItems {precedence : Nat} {e : Expr} {items : List Item}
    (h : ∀ i ∈ items, i.Legible) : ∀ i ∈ operandItems precedence e items, i.Legible :=
  forall_mem_operandItems h (.group (by decide) h)

theorem legible_negatedItems {negated : Bool} {word : String} (h : Item.isWord word = true) :
    ∀ i ∈ negatedItems negated word, i.Legible := by
  cases negated
  · simpa [negatedItems] using Item.Legible.word h
  · simpa [negatedItems] using ⟨Item.Legible.word (by decide), Item.Legible.word h⟩

/-- The items of a legible expression are legible. -/
theorem legible_items (e : Expr) : e.isLegible = true → ∀ i ∈ e.items, i.Legible := by
  induction e using induct with
  | column t n =>
    intro h
    simpa [items] using Item.Legible.word h
  | literal v =>
    intro h
    simpa [items] using legible_item h
  | unary op e ih =>
    intro h
    have he := ih h
    cases op with
    | not => exact List.forall_mem_cons.2 ⟨.word (by decide), he⟩
    | negative =>
      have hitems : ∀ i ∈ Item.word "-" :: e.items, i.Legible :=
        List.forall_mem_cons.2 ⟨.word (by decide), he⟩
      exact List.forall_mem_singleton.2 (.group (by decide) hitems)
    | _ =>
      rw [items, unaryItems, List.forall_mem_append]
      simp only [List.forall_mem_cons, List.not_mem_nil, false_implies, implies_true, legible_word]
      exact ⟨he, by decide⟩
  | binary op l r hl hr =>
    intro h
    rw [isLegible, Bool.and_eq_true] at h
    rw [items, List.forall_mem_append, List.forall_mem_cons]
    exact ⟨legible_operandItems (hl h.1), .word (by cases op <;> decide),
      legible_operandItems (hr h.2)⟩
  | between e l h n he hl hh =>
    intro hlegible
    rw [isLegible, Bool.and_eq_true, Bool.and_eq_true] at hlegible
    rw [items]
    simp only [List.forall_mem_append, List.forall_mem_cons]
    exact ⟨he hlegible.1, legible_negatedItems (by decide), hl hlegible.2.1, .word (by decide),
      hh hlegible.2.2⟩
  | inList e is n he his =>
    intro h
    rw [isLegible, Bool.and_eq_true, allLegible_iff] at h
    rw [items, itemLists_eq_map]
    simp only [List.forall_mem_append, List.forall_mem_singleton]
    refine ⟨he h.1, legible_negatedItems (by decide), .listing ?_ ?_⟩
    · simp
    · simpa using fun i hi => his i hi (h.2 i hi)
  | like e p n he hp =>
    intro h
    rw [isLegible, Bool.and_eq_true] at h
    rw [items]
    simp only [List.forall_mem_append]
    exact ⟨he h.1, legible_negatedItems (by decide), hp h.2⟩
  | named e n ih =>
    intro h
    rw [isLegible, Bool.and_eq_true] at h
    rw [items]
    simp only [List.forall_mem_append, List.forall_mem_cons]
    exact ⟨ih h.1, .word (by decide), .word h.2, by simp⟩
  | cast e t l ih =>
    intro h
    have htype : ∀ i ∈ e.items ++ [.word "AS", .word t.text], i.Legible := by
      simp only [List.forall_mem_append, List.forall_mem_cons]
      exact ⟨ih h, .word (by decide), .word (isWord_type t), by simp⟩
    cases l with
    | false => exact List.forall_mem_singleton.2 (.group (by decide) htype)
    | true => exact List.forall_mem_singleton.2 (.group (by decide) htype)

/-- The text of a legible expression tells its items, and where it ends. -/
theorem readable_text {e : Expr} (he : e.isLegible = true) :
    Readable (fun e : Expr => e.isLegible = true) (fun e => e.text.toList) items [')', ']', ','] e := by
  intro e' s t he' hs ht heq
  simp only [← spellAll_items] at heq
  have hread := Item.readable_spellAll (legible_items e he) fun i hi =>
    Item.readable_spell i (legible_items e he i hi)
  exact hread e'.items s t (legible_items e' he') hs ht heq

theorem text_eq_iff {e e' : Expr} (he : e.isLegible = true) (he' : e'.isLegible = true) :
    e.text = e'.text ↔ e.items = e'.items := by
  constructor
  · intro h
    exact (readable_text he).eq he' (by rw [h])
  · intro h
    apply String.toList_injective
    rw [← spellAll_items, ← spellAll_items, h]

end Expr

end QueryPlanner
