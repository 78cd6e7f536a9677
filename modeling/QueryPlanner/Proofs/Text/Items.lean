import QueryPlanner.Proofs.Text.Reading

/-!
# Items

What the text of an expression shows is a list of items: words and groups of items between
parentheses. If the words have no special characters, a text shows one list of items only.
-/

namespace QueryPlanner.Text

inductive Item where
  | word (text : String)
  /-- A text between quotes. -/
  | quoted (text : String)
  /-- A head with items between parentheses. -/
  | group (head : String) (items : List Item)
  /-- Lists of items between brackets. -/
  | listing (lists : List (List Item))

namespace Item

/-- The characters that no word has. -/
def special : List Char := [' ', '(', ')', ',', '[', ']', '"']

def isPlain (w : String) : Bool := w.toList.all (· ∉ special)

/-- Not empty, and without special characters. -/
def isWord (w : String) : Bool := isPlain w && w ≠ ""

mutual

def spell : Item → List Char
  | word w => w.toList
  | quoted s => "Utf8(\"".toList ++ (s.toList ++ ['"', ')'])
  | group head items => head.toList ++ '(' :: ([' '].intercalate (spells items) ++ [')'])
  | listing lists => '(' :: '[' :: ([',', ' '].intercalate (spellLists lists) ++ [']', ')'])

def spells : List Item → List (List Char)
  | [] => []
  | i :: is => i.spell :: spells is

def spellLists : List (List Item) → List (List Char)
  | [] => []
  | is :: lists => [' '].intercalate (spells is) :: spellLists lists

end

theorem spells_eq_map (items : List Item) : spells items = items.map spell := by
  induction items with
  | nil => simp [spells]
  | cons i is ih => simp [spells, ih]

/-- Items with blanks between them. -/
def spellAll (items : List Item) : List Char := [' '].intercalate (items.map spell)

@[simp] theorem spellAll_singleton (i : Item) : spellAll [i] = i.spell := by simp [spellAll]

theorem spellAll_append {is js : List Item} (his : is ≠ []) (hjs : js ≠ []) :
    spellAll (is ++ js) = spellAll is ++ ' ' :: spellAll js := by
  obtain ⟨i, is, rfl⟩ := List.exists_cons_of_ne_nil his
  obtain ⟨j, js, rfl⟩ := List.exists_cons_of_ne_nil hjs
  simp [spellAll, intercalate_cons]

theorem spellAll_cons {i : Item} {js : List Item} (hjs : js ≠ []) :
    spellAll (i :: js) = i.spell ++ ' ' :: spellAll js := by
  rw [← spellAll_singleton, ← spellAll_append (List.cons_ne_nil i []) hjs]
  rfl

theorem spellLists_eq_map (lists : List (List Item)) : spellLists lists = lists.map spellAll := by
  induction lists with
  | nil => simp [spellLists]
  | cons is lists ih => simp [spellLists, ih, spells_eq_map, spellAll]

/-- Induction on items. -/
theorem induct {P : Item → Prop} (word : ∀ w, P (.word w)) (quoted : ∀ s, P (.quoted s))
    (group : ∀ head items, (∀ i ∈ items, P i) → P (.group head items))
    (listing : ∀ lists, (∀ items ∈ lists, ∀ i ∈ items, P i) → P (.listing lists)) (i : Item) : P i :=
  @Item.rec P (fun items => ∀ i ∈ items, P i) (fun lists => ∀ items ∈ lists, ∀ i ∈ items, P i) word
    quoted group listing (fun _ h => nomatch h) (fun _ _ hi his => List.forall_mem_cons.2 ⟨hi, his⟩)
    (fun _ h => nomatch h) (fun _ _ hi his => List.forall_mem_cons.2 ⟨hi, his⟩) i

/-- All words are words, quoted texts have no quotes, and listed items are not missing. -/
inductive Legible : Item → Prop
  | word {w : String} (hw : isWord w = true) : Legible (.word w)
  | quoted {s : String} (hs : '"' ∉ s.toList) : Legible (.quoted s)
  | group {head : String} {items : List Item} (hhead : isPlain head = true)
      (hitems : ∀ i ∈ items, Legible i) : Legible (.group head items)
  | listing {lists : List (List Item)} (hne : ∀ items ∈ lists, items ≠ [])
      (hitems : ∀ items ∈ lists, ∀ i ∈ items, Legible i) : Legible (.listing lists)

theorem not_special {w : String} (hw : isPlain w = true) : ∀ c ∈ w.toList, c ∉ special := by
  simpa [isPlain] using hw

theorem exists_cons_of_isWord {w : String} (hw : isWord w = true) :
    ∃ c cs, w.toList = c :: cs ∧ c ∉ special := by
  simp only [isWord, Bool.and_eq_true, decide_eq_true_eq] at hw
  obtain ⟨hplain, hne⟩ := hw
  obtain ⟨c, cs, hcs⟩ := List.exists_cons_of_ne_nil fun h => hne (String.toList_injective h)
  refine ⟨c, cs, hcs, not_special hplain c ?_⟩
  simp [hcs]

/-- How items start. -/
theorem Legible.exists_cons {i : Item} (h : i.Legible) :
    ∃ c cs, i.spell = c :: cs ∧ c ∉ [' ', ')', ',', '[', ']', '"'] := by
  cases h with
  | word hw =>
    obtain ⟨c, cs, hcs, hc⟩ := exists_cons_of_isWord hw
    refine ⟨c, cs, by rw [spell, hcs], fun hmem => hc ?_⟩
    simp only [special, List.mem_cons] at hmem ⊢
    tauto
  | quoted hs => exact ⟨'U', _, rfl, by decide⟩
  | @group head items hhead hitems =>
    cases hcs : head.toList with
    | nil => exact ⟨'(', _, by rw [spell, hcs, List.nil_append], by decide⟩
    | cons c cs =>
      have hc := not_special hhead c (by simp [hcs])
      refine ⟨c, _, by rw [spell, hcs, List.cons_append], fun hmem => hc ?_⟩
      simp only [special, List.mem_cons] at hmem ⊢
      tauto
  | listing hne hitems => exact ⟨'(', _, by rw [spell], by decide⟩

theorem exists_cons_spellAll {items : List Item} (h : ∀ i ∈ items, Legible i) (hne : items ≠ []) :
    ∃ c cs, spellAll items = c :: cs ∧ c ∉ [' ', ')', ',', '[', ']', '"'] := by
  obtain ⟨i, is, rfl⟩ := List.exists_cons_of_ne_nil hne
  obtain ⟨c, cs, hcs, hc⟩ := (h i List.mem_cons_self).exists_cons
  exact ⟨c, _, by rw [spellAll, List.map_cons, intercalate_cons, hcs, List.cons_append], hc⟩

/-- The text of an item up to its first special character, and the rest of it. -/
def lead : Item → List Char
  | word w => w.toList
  | quoted _ => "Utf8".toList
  | group head _ => head.toList
  | listing _ => []

def rest : Item → List Char
  | word _ => []
  | quoted s => '(' :: '"' :: (s.toList ++ ['"', ')'])
  | group _ items => '(' :: (spellAll items ++ [')'])
  | listing lists => '(' :: '[' :: ([',', ' '].intercalate (lists.map spellAll) ++ [']', ')'])

theorem spell_eq (i : Item) : i.spell = i.lead ++ i.rest := by
  cases i with
  | word w => simp [spell, lead, rest]
  | quoted s => simp [spell, lead, rest]
  | group head items => simp [spell, lead, rest, spells_eq_map, spellAll]
  | listing lists => simp [spell, lead, rest, spellLists_eq_map]

theorem Legible.lead {i : Item} (h : i.Legible) : ∀ c ∈ i.lead, c ∉ special := by
  cases h with
  | word hw => exact not_special (Bool.and_eq_true_iff.1 hw).1
  | quoted hs => simp [Item.lead, special]
  | group hhead hitems => exact not_special hhead
  | listing hne hitems => simp [Item.lead]

/-- What may follow an item. -/
def stops : List Char := [' ', ')', ']', ',']

theorem delimited_rest {i : Item} {s : List Char} (hs : Delimited stops s) :
    Delimited special (i.rest ++ s) := by
  cases i with
  | word w =>
    apply hs.mono
    simp [special, stops]
  | quoted t => simp [rest, special]
  | group head items => simp [rest, special]
  | listing lists => simp [rest, special]

/-- Items with blanks between them can be read if they can be read one by one. -/
theorem readable_spellAll {items : List Item} (hitems : ∀ i ∈ items, Legible i)
    (h : ∀ i ∈ items, Readable Legible spell id stops i) :
    Readable (fun items => ∀ i ∈ items, Legible i) spellAll id [')', ']', ','] items := by
  have hread := readable_intercalate ' ' [] h (by decide) hitems fun i hi => by
    obtain ⟨c, cs, hcs, hc⟩ := hi.exists_cons
    exact ⟨c, cs, hcs, fun hmem => hc (by simp only [List.mem_cons] at hmem ⊢; tauto)⟩
  exact hread.imp fun b _ heq => by simpa using heq

/-- No item starts with a quote or a bracket. -/
theorem spellAll_append_ne {items : List Item} {c : Char} {s t : List Char}
    (h : ∀ i ∈ items, Legible i) (hc : c = '"' ∨ c = '[') : spellAll items ++ ')' :: s ≠ c :: t := by
  intro heq
  cases items with
  | nil => rcases hc with rfl | rfl <;> simp [spellAll] at heq
  | cons k ks =>
    obtain ⟨d, ds, hds, hd⟩ := exists_cons_spellAll h (List.cons_ne_nil k ks)
    rw [hds, List.cons_append, List.cons.injEq] at heq
    rcases hc with rfl | rfl <;> simp [heq.1] at hd

/-- A word is followed by what may follow an item, anything else by a parenthesis. -/
theorem rest_append_ne {s t u : List Char} (hs : Delimited stops s) : s ≠ '(' :: t ++ u := by
  rintro rfl
  simp [stops] at hs

/-- An item is read by its rest: the leads agree, and the first character of the rest tells the kinds of
items apart. -/
theorem Legible.readable_of_rest {i : Item} (hi : i.Legible)
    (h : ∀ j s t, j.Legible → Delimited stops s → Delimited stops t → i.lead = j.lead →
      i.rest ++ s = j.rest ++ t → i = j ∧ s = t) : Readable Legible spell id stops i := by
  intro j s t hj hs ht heq
  rw [spell_eq, spell_eq, List.append_assoc, List.append_assoc] at heq
  obtain ⟨hlead, hrest⟩ := word_append_inj special hi.lead hj.lead (delimited_rest hs)
    (delimited_rest ht) heq
  exact h j s t hj hs ht hlead hrest

/-- Listed items can be read if they can be read one by one. -/
theorem readable_lists {lists : List (List Item)} (hne : ∀ items ∈ lists, items ≠ [])
    (hitems : ∀ items ∈ lists, ∀ i ∈ items, Legible i)
    (h : ∀ items ∈ lists, ∀ i ∈ items, Readable Legible spell id stops i) :
    Readable (fun lists => ∀ items ∈ lists, items ≠ [] ∧ ∀ i ∈ items, Legible i)
      (fun lists => [',', ' '].intercalate (lists.map spellAll)) id [']'] lists := by
  have hread : Readable (fun lists => ∀ items ∈ lists, items ≠ [] ∧ ∀ i ∈ items, Legible i)
      (fun lists => [',', ' '].intercalate (lists.map spellAll)) (List.map id) [']'] lists := by
    apply readable_intercalate
    · intro items hmem items' s t hitems' hs ht
      exact readable_spellAll (hitems items hmem) (h items hmem) items' s t hitems'.2
        (hs.mono (by simp)) (ht.mono (by simp))
    · decide
    · exact fun items hmem => ⟨hne items hmem, hitems items hmem⟩
    · intro items h
      obtain ⟨c, cs, hcs, hc⟩ := exists_cons_spellAll h.2 h.1
      exact ⟨c, cs, hcs, fun hmem => hc (by simp_all)⟩
  exact hread.imp fun b _ heq => by simpa using heq

/-- A legible item can be read wherever something may follow it. -/
theorem readable_spell (i : Item) : i.Legible → Readable Legible spell id stops i := by
  induction i using induct with
  | word w =>
    refine fun hi => hi.readable_of_rest fun j s t hj hs ht hlead hrest => ?_
    cases hj with
    | word hv =>
      rw [show w = _ from String.toList_injective hlead]
      exact ⟨rfl, hrest⟩
    | quoted hv => exact absurd hrest (rest_append_ne hs)
    | group hhead hitems => exact absurd hrest (rest_append_ne hs)
    | listing hne hitems => exact absurd hrest (rest_append_ne hs)
  | quoted u =>
    refine fun hi => hi.readable_of_rest fun j s t hj hs ht hlead hrest => ?_
    cases hj with
    | word hv => exact absurd hrest.symm (rest_append_ne ht)
    | quoted hv =>
      cases hi with
      | quoted hu =>
        simp only [rest, List.cons_append, List.append_assoc, List.cons.injEq, true_and] at hrest
        obtain ⟨huv, hst⟩ := word_append_inj ['"'] (fun c hc hmem => hu (by simp_all))
          (fun c hc hmem => hv (by simp_all)) (by simp) (by simp) hrest
        rw [String.toList_injective huv]
        simpa using hst
    | group hhead hitems =>
      simp only [rest, List.cons_append, List.append_assoc, List.cons.injEq, true_and] at hrest
      exact absurd hrest.symm (spellAll_append_ne hitems (.inl rfl))
    | listing hne hitems => simp [rest] at hrest
  | group head items ih =>
    refine fun hi => hi.readable_of_rest fun j s t hj hs ht hlead hrest => ?_
    cases hi with
    | group hhead hitems =>
      cases hj with
      | word hv => exact absurd hrest.symm (rest_append_ne ht)
      | quoted hv =>
        simp only [rest, List.cons_append, List.append_assoc, List.cons.injEq, true_and] at hrest
        exact absurd hrest (spellAll_append_ne hitems (.inl rfl))
      | group hhead' hitems' =>
        have hread := readable_spellAll hitems fun i hi => ih i hi (hitems i hi)
        simp only [rest, List.cons_append, List.append_assoc, List.cons.injEq, true_and] at hrest
        obtain ⟨heq, hst⟩ := hread _ _ _ hitems' (by simp) (by simp) hrest
        rw [show head = _ from String.toList_injective hlead, show items = _ from heq]
        exact ⟨rfl, List.tail_eq_of_cons_eq hst⟩
      | listing hne hitems' =>
        simp only [rest, List.cons_append, List.append_assoc, List.cons.injEq, true_and] at hrest
        exact absurd hrest (spellAll_append_ne hitems (.inr rfl))
  | listing lists ih =>
    refine fun hi => hi.readable_of_rest fun j s t hj hs ht hlead hrest => ?_
    cases hi with
    | listing hne hitems =>
      cases hj with
      | word hv => exact absurd hrest.symm (rest_append_ne ht)
      | quoted hv => simp [rest] at hrest
      | group hhead hitems' =>
        simp only [rest, List.cons_append, List.append_assoc, List.cons.injEq, true_and] at hrest
        exact absurd hrest.symm (spellAll_append_ne hitems' (.inr rfl))
      | @listing lists' hne' hitems' =>
        have hread := readable_lists hne hitems fun items hmem i hi =>
          ih items hmem i hi (hitems items hmem i hi)
        simp only [rest, List.cons_append, List.append_assoc, List.cons.injEq, true_and] at hrest
        obtain ⟨heq, hst⟩ := hread lists' _ _ (fun items hmem => ⟨hne' items hmem, hitems' items hmem⟩)
          (by simp) (by simp) hrest
        rw [show lists = _ from heq]
        exact ⟨rfl, by simpa using hst⟩

end Item

end QueryPlanner.Text
