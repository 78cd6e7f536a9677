import QueryPlanner.Proofs.Expr.Phrases

/-!
# Grouped expressions are told by their items

Of all grouped expressions at most one shows a given list of items. The proof goes through the
expression: a phrase is told by its items if its parts are.
-/

namespace QueryPlanner

open Text

theorem DataType.text_injective {a b : DataType} (h : a.text = b.text) : a = b := by
  revert h
  cases a <;> cases b <;> decide

namespace Scalar

theorem nat_ne_null (n : Nat) : toString n ≠ "NULL" := by
  intro h
  have hdigit := isDigit_of_mem_nat (n := n) (c := 'N') (by simp [h])
  simp at hdigit

theorem int_ne_null (n : Int) : toString n ≠ "NULL" := by
  intro h
  have hdigit := mem_int (n := n) (c := 'N') (by simp [h])
  simp at hdigit

/-- A value is told by its type and its text. -/
theorem bare_injective {v w : Scalar} (htype : v.type = w.type) (hv : v.isExact = true)
    (hw : w.isExact = true) (hv' : v ≠ .utf8 (some "NULL")) (hw' : w ≠ .utf8 (some "NULL"))
    (h : v.bare = w.bare) : v = w := by
  cases v with
  | null => cases w <;> simp_all [type]
  | boolean a =>
    cases w with
    | boolean b =>
      revert h
      rcases a with _ | _ | _ <;> rcases b with _ | _ | _ <;> decide
    | _ => simp [type] at htype
  | int32 a =>
    cases w with
    | int32 b =>
      rcases a with _ | n <;> rcases b with _ | m
      · rfl
      · exact absurd h.symm (int_ne_null m)
      · exact absurd h (int_ne_null n)
      · rw [Int.repr_injective h]
    | _ => simp [type] at htype
  | int64 a =>
    cases w with
    | int64 b =>
      rcases a with _ | n <;> rcases b with _ | m
      · rfl
      · exact absurd h.symm (int_ne_null m)
      · exact absurd h (int_ne_null n)
      · rw [Int.repr_injective h]
    | _ => simp [type] at htype
  | uint64 a =>
    cases w with
    | uint64 b =>
      rcases a with _ | n <;> rcases b with _ | m
      · rfl
      · exact absurd h.symm (nat_ne_null m)
      · exact absurd h (nat_ne_null n)
      · rw [Nat.repr_injective h]
    | _ => simp [type] at htype
  | float64 a =>
    cases w with
    | float64 b => rcases a with _ | x <;> rcases b with _ | y <;> simp_all [isExact]
    | _ => simp [type] at htype
  | utf8 a =>
    cases w with
    | utf8 b => rcases a with _ | s <;> rcases b with _ | t <;> simp_all [bare]
    | _ => simp [type] at htype

theorem item_injective {v w : Scalar} (hv : v.isExact = true) (hw : w.isExact = true)
    (h : v.item = w.item) : v = w := by
  unfold item at h
  split at h <;> split at h
  · rfl
  · simp at h
  · simp at h
  · simp at h
  · rw [Item.quoted.inj h]
  · simp at h
  · simp at h
  · simp at h
  · next hv' _ _ hw' =>
    simp only [Item.group.injEq, List.cons.injEq, Item.word.injEq, and_true] at h
    exact bare_injective (DataType.text_injective h.1) hv hw (hv' _) (hw' _) h.2

end Scalar

namespace Expr

theorem columnText_injective {t t' : Option String} {n n' : String}
    (h : isColumnName t n = true) (h' : isColumnName t' n' = true)
    (heq : columnText t n = columnText t' n') : t = t' ∧ n = n' := by
  simp only [isColumnName, Bool.and_eq_true, decide_eq_true_eq] at h h'
  have hdot : ∀ {a b c : String}, '.' ∉ c.toList → c ≠ a ++ "." ++ b := by
    rintro a b _ hc rfl
    simp at hc
  cases t with
  | none =>
    cases t' with
    | none => exact ⟨rfl, heq⟩
    | some t' => exact absurd heq (hdot h.2.1)
  | some t =>
    cases t' with
    | none => exact absurd heq.symm (hdot h'.2.1)
    | some t' =>
      have hlist := congrArg String.toList heq
      simp only [columnText, String.toList_append, List.append_assoc] at hlist
      have hword : ∀ {u : String}, '.' ∉ u.toList → ∀ c ∈ u.toList, c ∉ ['.'] := by
        intro u hu c hc hmem
        rw [List.mem_singleton.1 hmem] at hc
        exact hu hc
      obtain ⟨htt, hnn⟩ := word_append_inj ['.'] (hword (by simpa using h.1))
        (hword (by simpa using h'.1)) (by simp) (by simp) hlist
      simp only [List.append_cancel_left_eq] at hnn
      exact ⟨by rw [String.toList_injective htt], String.toList_injective hnn⟩

/-! ## Atoms -/

/-- The item of an atomic expression is that of no other one. -/
def AtomTells (e : Expr) : Prop :=
  ∀ b : Expr, b.isGrouped = true → b.isAtomic = true → e.atom = b.atom → e = b

/-- The items of a phrase tell it, and where it ends. -/
def Told (e : Expr) : Prop := Readable IsPhrase (fun e => (Piece.phrase e).items) id phraseStops e

theorem base_of_isAtomic {e : Expr} (h : e.isAtomic = true) : e.base = e ∧ e.suffix = [] := by
  cases e with
  | unary op e => cases op <;> first | exact ⟨rfl, rfl⟩ | simp [isAtomic, isClosed, isBinary] at h
  | between e l h n => simp [isAtomic, isClosed, isBinary] at h
  | inList e is n => simp [isAtomic, isClosed, isBinary] at h
  | like e p n => simp [isAtomic, isClosed, isBinary] at h
  | _ => exact ⟨rfl, rfl⟩

theorem not_delimited_suffix {e : Expr} {s : List Item} (he : e.IsPhrase)
    (h : e.isAtomic = false) : ¬ Delimited phraseStops (e.suffix ++ s) := by
  obtain ⟨hgrouped, hnot⟩ := he
  cases e with
  | unary op e =>
    cases op with
    | not => exact absurd rfl (hnot e)
    | negative => simp [isAtomic, isClosed] at h
    | _ => simp [suffix, phraseStops]
  | between e l u n => cases n <;> simp [suffix, negatedItems, phraseStops]
  | inList e is n => cases n <;> simp [suffix, negatedItems, phraseStops]
  | like e p n => cases n <;> simp [suffix, negatedItems, phraseStops]
  | «alias» e n => simp [isGrouped] at hgrouped
  | _ => simp [isAtomic, isClosed, isBinary] at h

theorem isPhrase_of_isAtomic {e : Expr} (hgrouped : e.isGrouped = true) (h : e.isAtomic = true) :
    e.IsPhrase := by
  refine ⟨hgrouped, ?_⟩
  rintro e' rfl
  simp [isAtomic, isClosed, isBinary] at h

theorem AtomTells.told {e : Expr} (he : e.IsPhrase) (hatomic : e.isAtomic = true)
    (h : e.AtomTells) : e.Told := by
  intro b s t hb hs ht heq
  obtain ⟨hbase, hsuffix⟩ := base_of_isAtomic hatomic
  simp only [phrase_items he, phrase_items hb, hbase, hsuffix, List.cons_append, List.nil_append,
    List.cons.injEq] at heq
  by_cases hb' : b.isAtomic = true
  · obtain ⟨hbase', hsuffix'⟩ := base_of_isAtomic hb'
    rw [hbase', hsuffix'] at heq
    exact ⟨h b hb.grouped hb' heq.1, heq.2⟩
  · rw [heq.2] at hs
    exact absurd hs (not_delimited_suffix hb (by simpa using hb'))

theorem Told.atomTells {e : Expr} (hgrouped : e.isGrouped = true) (hatomic : e.isAtomic = true)
    (h : e.Told) : e.AtomTells := by
  intro b hb hb' heq
  have hbp := isPhrase_of_isAtomic hb hb'
  obtain ⟨hbase, hsuffix⟩ := base_of_isAtomic hatomic
  obtain ⟨hbase', hsuffix'⟩ := base_of_isAtomic hb'
  apply Readable.eq h hbp
  rw [phrase_items (isPhrase_of_isAtomic hgrouped hatomic), phrase_items hbp, hbase, hbase', hsuffix,
    hsuffix', heq]

/-- A phrase with a keyword is told if the parts of it are. -/
theorem told_of_suffix {e : Expr} (he : e.IsPhrase) (hatomic : e.isAtomic = false)
    (hbase : e.base.AtomTells)
    (hsuffix : ∀ b s t, b.IsPhrase → b.isAtomic = false → Delimited phraseStops s →
      Delimited phraseStops t → e.base = b.base → e.suffix ++ s = b.suffix ++ t → e = b ∧ s = t) :
    e.Told := by
  intro b s t hb hs ht heq
  simp only [phrase_items he, phrase_items hb, List.cons_append, List.cons.injEq] at heq
  have heb := hbase b.base hb.base.1 hb.base.2 heq.1
  by_cases hb' : b.isAtomic = true
  · have heq' := heq.2
    rw [(base_of_isAtomic hb').2, List.nil_append] at heq'
    rw [← heq'] at ht
    exact absurd ht (not_delimited_suffix he hatomic)
  · exact hsuffix b s t hb (by simpa using hb') hs ht heb heq.2

/-- A grouped expression whose phrases are told is told by its items. -/
theorem readable_items_of_told {e : Expr} (he : e.isGrouped = true)
    (h : ∀ y, .phrase y ∈ e.chain → Told y) :
    Readable (fun e : Expr => e.isGrouped = true) items id [.word "AS"] e := by
  intro e' s t he' hs ht heq
  rw [← flatMap_chain, ← flatMap_chain] at heq
  obtain ⟨hchain, hst⟩ := readable_chain (regular_chain e he) h _ s t (regular_chain e' he') hs ht
    heq
  exact ⟨eq_of_chain_eq e e' he he' hchain, hst⟩

theorem cons_ne_items {e : Expr} {s : List Item} (he : e.isGrouped = true) :
    .word "-" :: s ≠ e.items := by
  intro h
  rw [← flatMap_chain] at h
  have hregular := regular_chain e he
  generalize e.chain = ps at h hregular
  cases hregular with
  | phrase he' =>
    simp only [List.flatMap_cons, phrase_items he', List.cons_append, List.cons.injEq] at h
    exact (atom_ne he'.base.1).2 h.1.symm
  | negation hq => simp [Piece.items] at h
  | operator he' hq =>
    simp only [List.flatMap_cons, phrase_items he', List.cons_append, List.cons.injEq] at h
    exact (atom_ne he'.base.1).2 h.1.symm

theorem atomTells_column {t : Option String} {n : String}
    (h : (Expr.column t n).isGrouped = true) : (Expr.column t n).AtomTells := by
  intro b hb hatomic heq
  cases b with
  | column t' n' =>
    obtain ⟨rfl, rfl⟩ := columnText_injective h hb (Item.word.inj heq)
    rfl
  | literal v =>
    rw [atom, atom] at heq
    unfold Scalar.item at heq
    split at heq
    · simp only [isGrouped, isColumnName, reserved, Item.word.inj heq] at h
      simp at h
    · simp at heq
    · simp at heq
  | unary op b => cases op <;> simp [atom] at heq
  | cast b t l => cases l <;> simp [atom] at heq
  | _ => simp [atom] at heq

theorem atomTells_literal {v : Scalar} (h : (Expr.literal v).isGrouped = true) :
    (Expr.literal v).AtomTells := by
  have hgroup : ∀ {head : String} {is : List Item}, v.item = .group head is →
      ∃ t : DataType, head = t.text := by
    intro head is hitem
    unfold Scalar.item at hitem
    split at hitem
    · simp at hitem
    · simp at hitem
    · exact ⟨v.type, (Item.group.inj hitem).1.symm⟩
  have hhead : ∀ t : DataType, t.text ≠ "" ∧ t.text ≠ "CAST" ∧ t.text ≠ "TRY_CAST" := by
    intro t
    cases t <;> decide
  intro b hb hatomic heq
  cases b with
  | column t n => exact (atomTells_column hb _ h rfl heq.symm).symm
  | literal w => rw [Scalar.item_injective h hb heq]
  | unary op b =>
    obtain ⟨t, ht⟩ : ∃ t : DataType, "" = t.text := by
      cases op <;> exact hgroup heq
    exact absurd ht.symm (hhead t).1
  | cast b t l =>
    cases l with
    | false =>
      obtain ⟨t, ht⟩ := hgroup heq
      exact absurd ht.symm (hhead t).2.1
    | true =>
      obtain ⟨t, ht⟩ := hgroup heq
      exact absurd ht.symm (hhead t).2.2
  | binary op l r =>
    obtain ⟨t, ht⟩ := hgroup heq
    exact absurd ht.symm (hhead t).1
  | _ => simp [isAtomic, isClosed, isBinary] at hatomic

/-- The items of a grouped expression tell it. -/
def ItemsTell (e : Expr) : Prop :=
  Readable (fun e : Expr => e.isGrouped = true) items id [.word "AS"] e

theorem atomTells_negative {e : Expr} (h : (Expr.unary .negative e).isGrouped = true)
    (he : e.ItemsTell) : (Expr.unary .negative e).AtomTells := by
  intro b hb hatomic heq
  cases b with
  | column t n => simp [atom] at heq
  | literal v => exact (atomTells_literal hb _ h rfl heq.symm).symm
  | unary op b =>
    cases op with
    | negative =>
      simp only [atom, Item.group.injEq, List.cons.injEq, true_and] at heq
      obtain rfl : e = b := he.eq hb heq
      rfl
    | _ => simp [isAtomic, isClosed, isBinary] at hatomic
  | binary op l r =>
    exact absurd (Item.group.inj heq).2 (cons_ne_items hb)
  | cast b t l => cases l <;> simp [atom] at heq
  | _ => simp [isAtomic, isClosed, isBinary] at hatomic

theorem atomTells_cast {e : Expr} {t : DataType} {l : Bool}
    (h : (Expr.cast e t l).isGrouped = true) (he : e.ItemsTell) : (Expr.cast e t l).AtomTells := by
  intro b hb hatomic heq
  cases b with
  | column t' n => cases l <;> simp [atom] at heq
  | literal v => exact (atomTells_literal hb _ h rfl heq.symm).symm
  | cast b t' l' =>
    have htype : ∀ {head head' : String}, Item.group head (e.items ++ [.word "AS", .word t.text]) =
        .group head' (b.items ++ [.word "AS", .word t'.text]) → e = b ∧ t = t' := by
      intro head head' heq
      obtain ⟨heb, htail⟩ := he b _ _ hb (by simp) (by simp) (Item.group.inj heq).2
      simp only [List.cons.injEq, Item.word.injEq, true_and, and_true] at htail
      exact ⟨heb, DataType.text_injective htail⟩
    cases l <;> cases l'
    · obtain ⟨rfl, rfl⟩ := htype heq
      rfl
    · simp [atom] at heq
    · simp [atom] at heq
    · obtain ⟨rfl, rfl⟩ := htype heq
      rfl
  | unary op b => cases l <;> cases op <;> simp [atom] at heq
  | binary op l' r => cases l <;> simp [atom] at heq
  | _ => simp [isAtomic, isClosed, isBinary] at hatomic

theorem atomTells_binary {op : BinaryOp} {l r : Expr} (h : (Expr.binary op l r).isGrouped = true)
    (he : (Expr.binary op l r).ItemsTell) : (Expr.binary op l r).AtomTells := by
  intro b hb hatomic heq
  cases b with
  | column t n => simp [atom] at heq
  | literal v => exact (atomTells_literal hb _ h rfl heq.symm).symm
  | unary op' b =>
    cases op' with
    | negative => exact absurd (Item.group.inj heq).2.symm (cons_ne_items h)
    | _ => simp [isAtomic, isClosed, isBinary] at hatomic
  | binary op' l' r' => exact he.eq hb (Item.group.inj heq).2
  | cast b t l' => cases l' <;> simp [atom] at heq
  | _ => simp [isAtomic, isClosed, isBinary] at hatomic

/-! ## Phrases with keywords -/

/-- The keywords of phrases. -/
inductive Keyword where
  | unary (op : UnaryOp)
  | between (negated : Bool)
  | inList (negated : Bool)
  | like (negated : Bool)
deriving DecidableEq

/-- The words of a keyword that follows an operand. -/
def Keyword.words : Keyword → List String
  | unary .isNull => ["IS", "NULL"]
  | unary .isNotNull => ["IS", "NOT", "NULL"]
  | unary .isTrue => ["IS", "TRUE"]
  | unary .isFalse => ["IS", "FALSE"]
  | unary _ => []
  | between n => if n then ["NOT", "BETWEEN"] else ["BETWEEN"]
  | inList n => if n then ["NOT", "IN"] else ["IN"]
  | like n => if n then ["NOT", "LIKE"] else ["LIKE"]

/-- No keyword starts with another one. -/
theorem Keyword.eq_of_isPrefix {k k' : Keyword} (hk : k.words ≠ []) (h : k.words <+: k'.words) :
    k = k' := by
  revert hk h
  cases k with
  | unary op =>
    cases k' with
    | unary op' => cases op <;> cases op' <;> decide
    | _ n' => cases op <;> cases n' <;> decide
  | _ n =>
    cases k' with
    | unary op' => cases n <;> cases op' <;> decide
    | _ n' => cases n <;> cases n' <;> decide

def keyword? : Expr → Option Keyword
  | .unary op _ => some (.unary op)
  | .between _ _ _ n => some (.between n)
  | .inList _ _ n => some (.inList n)
  | .like _ _ n => some (.like n)
  | _ => none

/-- What follows the operand of a phrase starts with its keyword. -/
theorem exists_suffix_eq {e : Expr} (he : e.IsPhrase) (hatomic : e.isAtomic = false) :
    ∃ k rest, e.keyword? = some k ∧ k.words ≠ [] ∧ e.suffix = k.words.map Item.word ++ rest := by
  cases e with
  | unary op e =>
    cases op with
    | not => exact absurd rfl (he.notNegation e)
    | negative => cases hatomic
    | _ => exact ⟨_, [], rfl, by decide, rfl⟩
  | between e l u n => cases n <;> exact ⟨_, _, rfl, by decide, rfl⟩
  | inList e is n => cases n <;> exact ⟨_, _, rfl, by decide, rfl⟩
  | like e p n => cases n <;> exact ⟨_, _, rfl, by decide, rfl⟩
  | «alias» e n => cases he.grouped
  | _ => cases hatomic

def shownWord : Item → String
  | .word w => w
  | _ => ""

/-- Phrases that show the same keyword have it. -/
theorem keyword?_eq_of_suffix_eq {e b : Expr} {s t : List Item} (he : e.IsPhrase) (hb : b.IsPhrase)
    (hatomic : e.isAtomic = false) (hatomic' : b.isAtomic = false)
    (heq : e.suffix ++ s = b.suffix ++ t) : e.keyword? = b.keyword? := by
  obtain ⟨k, rest, hk, hne, hsuffix⟩ := exists_suffix_eq he hatomic
  obtain ⟨k', rest', hk', hne', hsuffix'⟩ := exists_suffix_eq hb hatomic'
  have hword : ∀ k : Keyword, (k.words.map Item.word).map shownWord = k.words := by
    intro k
    rw [List.map_map]
    exact List.map_id k.words
  have hwords := congrArg (List.map shownWord) heq
  simp only [hsuffix, hsuffix', List.append_assoc, List.map_append, hword] at hwords
  rw [hk, hk']
  rcases List.append_eq_append_iff.1 hwords with ⟨_, h, -⟩ | ⟨_, h, -⟩
  · rw [Keyword.eq_of_isPrefix hne ⟨_, h.symm⟩]
  · rw [Keyword.eq_of_isPrefix hne' ⟨_, h.symm⟩]

theorem told_unary {op : UnaryOp} {e : Expr} (hop : op ≠ .not ∧ op ≠ .negative)
    (h : (Expr.unary op e).IsPhrase) (he : e.AtomTells) : (Expr.unary op e).Told := by
  have hbase : (Expr.unary op e).base = e := by
    cases op <;> first | rfl | simp at hop
  have hatomic : (Expr.unary op e).isAtomic = false := by
    cases op <;> first | rfl | simp at hop
  apply told_of_suffix h hatomic
  · rwa [hbase]
  · intro b s t hb hb' hs ht heb heq
    have hkeyword := keyword?_eq_of_suffix_eq h hb hatomic hb' heq
    cases b with
    | unary op' b =>
      cases hkeyword
      cases op <;> simp_all [suffix, base]
    | _ => cases hkeyword

theorem told_between {e l u : Expr} {n : Bool} (h : (Expr.between e l u n).IsPhrase)
    (he : e.AtomTells) (hl : l.AtomTells) (hu : u.AtomTells) : (Expr.between e l u n).Told := by
  have hgrouped := h.grouped
  simp only [isGrouped, Bool.and_eq_true] at hgrouped
  apply told_of_suffix h rfl he
  intro b s t hb hb' hs ht heb heq
  have hkeyword := keyword?_eq_of_suffix_eq h hb rfl hb' heq
  cases b with
  | between b l' u' n' =>
    cases hkeyword
    have hgrouped' := hb.grouped
    simp only [isGrouped, Bool.and_eq_true] at hgrouped'
    obtain rfl : e = b := heb
    simp only [suffix, items_of_isClosed hgrouped.1.2, items_of_isClosed hgrouped.2,
      items_of_isClosed hgrouped'.1.2, items_of_isClosed hgrouped'.2, List.append_assoc,
      List.append_cancel_left_eq, List.cons_append, List.nil_append, List.cons.injEq, true_and] at heq
    obtain ⟨hll, huu, rfl⟩ := heq
    rw [hl l' hgrouped'.1.1.1.1.2 (by simp [isAtomic, hgrouped'.1.2]) hll,
      hu u' hgrouped'.1.1.1.2 (by simp [isAtomic, hgrouped'.2]) huu]
    exact ⟨rfl, rfl⟩
  | _ => cases hkeyword

theorem map_items_injective {is is' : List Expr} (h : ∀ i ∈ is, i.ItemsTell)
    (h' : ∀ i ∈ is', i.isGrouped = true) (heq : is.map items = is'.map items) : is = is' := by
  induction is generalizing is' with
  | nil => simpa [eq_comm] using heq
  | cons i is ih =>
    cases is' with
    | nil => simp at heq
    | cons i' is' =>
      rw [List.forall_mem_cons] at h h'
      rw [List.map_cons, List.map_cons, List.cons.injEq] at heq
      obtain rfl : i = i' := h.1.eq h'.1 heq.1
      rw [ih h.2 h'.2 heq.2]

theorem told_inList {e : Expr} {is : List Expr} {n : Bool} (h : (Expr.inList e is n).IsPhrase)
    (he : e.AtomTells) (his : ∀ i ∈ is, i.ItemsTell) : (Expr.inList e is n).Told := by
  apply told_of_suffix h rfl he
  intro b s t hb hb' hs ht heb heq
  have hkeyword := keyword?_eq_of_suffix_eq h hb rfl hb' heq
  cases b with
  | inList b is' n' =>
    cases hkeyword
    have hgrouped := hb.grouped
    simp only [isGrouped, Bool.and_eq_true, allGrouped_iff] at hgrouped
    obtain rfl : e = b := heb
    simp only [suffix, itemLists_eq_map, List.append_assoc, List.append_cancel_left_eq,
      List.cons_append, List.nil_append, List.cons.injEq, Item.listing.injEq] at heq
    obtain ⟨hmap, rfl⟩ := heq
    rw [map_items_injective his hgrouped.2 hmap]
    exact ⟨rfl, rfl⟩
  | _ => cases hkeyword

theorem told_like {e p : Expr} {n : Bool} (h : (Expr.like e p n).IsPhrase) (he : e.AtomTells)
    (hp : p.AtomTells) : (Expr.like e p n).Told := by
  have hgrouped := h.grouped
  simp only [isGrouped, Bool.and_eq_true] at hgrouped
  apply told_of_suffix h rfl he
  intro b s t hb hb' hs ht heb heq
  have hkeyword := keyword?_eq_of_suffix_eq h hb rfl hb' heq
  cases b with
  | like b p' n' =>
    cases hkeyword
    have hgrouped' := hb.grouped
    simp only [isGrouped, Bool.and_eq_true] at hgrouped'
    obtain rfl : e = b := heb
    simp only [suffix, items_of_isClosed hgrouped.2, items_of_isClosed hgrouped'.2,
      List.append_assoc, List.append_cancel_left_eq, List.cons_append, List.nil_append,
      List.cons.injEq] at heq
    obtain ⟨hpp, rfl⟩ := heq
    rw [hp p' hgrouped'.1.1.2 (by simp [isAtomic, hgrouped'.2]) hpp]
    exact ⟨rfl, rfl⟩
  | _ => cases hkeyword

/-! ## All expressions -/

theorem chain_of_isClosed {e : Expr} (h : e.isClosed = true) : e.chain = [.phrase e] := by
  cases e with
  | unary op e => cases op <;> first | rfl | cases h
  | binary op l r => cases h
  | _ => rfl

/-- A closed expression is told as an atom if its phrase is told. -/
theorem atomTells_of_isClosed {e : Expr} (hgrouped : e.isGrouped = true)
    (h : ∀ y, .phrase y ∈ e.chain → y.Told) (hclosed : e.isClosed = true) : e.AtomTells := by
  apply Told.atomTells hgrouped
  · simp [isAtomic, hclosed]
  · exact h e (by simp [chain_of_isClosed hclosed])

/-- The phrases of a side of a binary expression are told if those of its own chain are. -/
theorem told_of_mem_side {e : Expr} {precedence : Nat} (hgrouped : e.isGrouped = true)
    (h : ∀ y, .phrase y ∈ e.chain → y.Told) :
    ∀ p ∈ side precedence e e.chain, ∀ y, p = .phrase y → y.Told := by
  apply forall_mem_side
  · rintro hbelow y heq
    obtain rfl : e = y := by simpa using heq
    cases e with
    | binary op l r =>
      exact (atomTells_binary hgrouped (readable_items_of_told hgrouped h)).told
        (isPhrase_of_isBelow hgrouped hbelow) rfl
    | _ => simp [isBelow] at hbelow
  · rintro - p hp y rfl
    exact h y hp

/-- The phrases of a grouped expression are told by their items. -/
theorem told_of_mem_chain (e : Expr) : e.isGrouped = true → ∀ y, .phrase y ∈ e.chain → y.Told := by
  induction e using induct with
  | column t n =>
    intro h y hy
    obtain rfl : y = _ := by simpa [chain] using hy
    exact (atomTells_column h).told ⟨h, by simp⟩ rfl
  | literal v =>
    intro h y hy
    obtain rfl : y = _ := by simpa [chain] using hy
    exact (atomTells_literal h).told ⟨h, by simp⟩ rfl
  | unary op e ih =>
    intro h y hy
    cases op with
    | not =>
      rw [isGrouped, Bool.and_eq_true] at h
      exact ih h.1 y (by simpa [chain] using hy)
    | negative =>
      obtain rfl : y = _ := by simpa [chain] using hy
      exact (atomTells_negative h (readable_items_of_told h (ih h))).told ⟨h, by simp⟩ rfl
    | _ =>
      obtain rfl : y = _ := by simpa [chain] using hy
      have hgrouped := h
      rw [isGrouped, Bool.and_eq_true] at hgrouped
      · have htells := atomTells_of_isClosed hgrouped.1 (ih hgrouped.1) hgrouped.2
        exact told_unary (by simp) ⟨h, by simp⟩ htells
      · simp
      · simp
  | binary op l r hl hr =>
    intro h y hy
    simp only [isGrouped, Bool.and_eq_true] at h
    rw [chain, List.mem_append, List.mem_cons] at hy
    rcases hy with hy | hy | hy
    · exact told_of_mem_side h.1.1.1 (hl h.1.1.1) _ hy y rfl
    · cases hy
    · exact told_of_mem_side h.1.1.2 (hr h.1.1.2) _ hy y rfl
  | between e l u n he hl hu =>
    intro h y hy
    obtain rfl : y = _ := by simpa [chain] using hy
    have hgrouped := h
    simp only [isGrouped, Bool.and_eq_true] at hgrouped
    obtain ⟨⟨⟨⟨⟨hge, hgl⟩, hgu⟩, hce⟩, hcl⟩, hcu⟩ := hgrouped
    exact told_between ⟨h, by simp⟩ (atomTells_of_isClosed hge (he hge) hce)
      (atomTells_of_isClosed hgl (hl hgl) hcl) (atomTells_of_isClosed hgu (hu hgu) hcu)
  | inList e is n he his =>
    intro h y hy
    obtain rfl : y = _ := by simpa [chain] using hy
    have hgrouped := h
    simp only [isGrouped, Bool.and_eq_true, allGrouped_iff] at hgrouped
    obtain ⟨⟨hge, hce⟩, hgs⟩ := hgrouped
    exact told_inList ⟨h, by simp⟩ (atomTells_of_isClosed hge (he hge) hce) fun i hi =>
      readable_items_of_told (hgs i hi) (his i hi (hgs i hi))
  | like e p n he hp =>
    intro h y hy
    obtain rfl : y = _ := by simpa [chain] using hy
    have hgrouped := h
    simp only [isGrouped, Bool.and_eq_true] at hgrouped
    obtain ⟨⟨⟨hge, hgp⟩, hce⟩, hcp⟩ := hgrouped
    exact told_like ⟨h, by simp⟩ (atomTells_of_isClosed hge (he hge) hce)
      (atomTells_of_isClosed hgp (hp hgp) hcp)
  | named e n ih =>
    intro h
    cases h
  | cast e t l ih =>
    intro h y hy
    obtain rfl : y = _ := by simpa [chain] using hy
    exact (atomTells_cast h (readable_items_of_told h (ih h))).told ⟨h, by simp⟩ rfl

/-- A grouped expression is told by its items. -/
theorem itemsTell {e : Expr} (h : e.isGrouped = true) : e.ItemsTell :=
  readable_items_of_told h (told_of_mem_chain e h)

/-- Grouped, or the alias of a grouped expression. -/
def isUnambiguous : Expr → Bool
  | .alias e _ => e.isGrouped
  | e => e.isGrouped

/-- Unambiguous expressions of the same items are equal. -/
theorem eq_of_items_eq {e e' : Expr} (h : e.isUnambiguous = true) (h' : e'.isUnambiguous = true)
    (heq : e.items = e'.items) : e = e' := by
  have hgrouped : ∀ {e : Expr}, e.isUnambiguous = true →
      e.isGrouped = true ∨ ∃ a n, e = .alias a n ∧ a.isGrouped = true := by
    intro e h
    cases e with
    | «alias» a n => exact .inr ⟨a, n, rfl, h⟩
    | _ => exact .inl h
  have hne : ∀ {a b : Expr} {n : String}, a.isGrouped = true → b.isGrouped = true →
      a.items ++ [.word "AS", .word n] ≠ b.items := by
    intro a b n ha hb heq
    rw [← List.append_nil b.items] at heq
    obtain ⟨-, htail⟩ := itemsTell ha b _ [] hb (by simp) (by simp) heq
    cases htail
  rcases hgrouped h with h | ⟨a, n, rfl, ha⟩
  · rcases hgrouped h' with h' | ⟨a', n', rfl, ha'⟩
    · exact (itemsTell h).eq h' heq
    · exact absurd heq.symm (hne ha' h)
  · rcases hgrouped h' with h' | ⟨a', n', rfl, ha'⟩
    · exact absurd heq (hne ha h')
    · obtain ⟨rfl, htail⟩ := itemsTell ha a' [.word "AS", .word n] [.word "AS", .word n'] ha'
        (by simp) (by simp) heq
      simp only [List.cons.injEq, Item.word.injEq, true_and, and_true] at htail
      rw [htail, id]

end Expr

end QueryPlanner
