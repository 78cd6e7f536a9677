import Mathlib
import QueryPlanner.Text.Quoted

/-!
# Reading texts

A text is a list of characters, or of symbols of another kind. One that stands between others can be
read back if what it means, and where it ends, does not depend on what follows. Texts without the
symbols that may follow can be read, and so can lists of readable texts.
-/

namespace QueryPlanner.Text

variable {α β γ ι : Type*} {stops s t v w : List ι}

/-- Nothing follows, or one of the symbols does. -/
def Delimited (stops s : List ι) : Prop := ∀ c ∈ s.head?, c ∈ stops

@[simp] theorem delimited_nil : Delimited stops [] := by simp [Delimited]

@[simp] theorem delimited_cons {c : ι} : Delimited stops (c :: s) ↔ c ∈ stops := by
  simp [Delimited]

theorem Delimited.mono {stops' : List ι} (h : Delimited stops s) (hs : ∀ c ∈ stops, c ∈ stops') :
    Delimited stops' s := fun c hc => hs c (h c hc)

/-- Where nothing or one of the symbols follows, the text of `a` is that of nothing fine but what has
the meaning of `a`, and ends where it does. -/
def Readable (Fine : α → Prop) (text : α → List ι) (meaning : α → β) (stops : List ι) (a : α) :
    Prop :=
  ∀ b s t, Fine b → Delimited stops s → Delimited stops t → text a ++ s = text b ++ t →
    meaning a = meaning b ∧ s = t

section Readable

variable {Fine : α → Prop} {text : α → List ι} {meaning : α → β} {a : α}

theorem Readable.mono {stops' : List ι} (h : Readable Fine text meaning stops a)
    (hs : ∀ c ∈ stops', c ∈ stops) : Readable Fine text meaning stops' a :=
  fun b s t hb hsd htd => h b s t hb (hsd.mono hs) (htd.mono hs)

theorem Readable.imp {meaning' : α → γ} (h : Readable Fine text meaning stops a)
    (himp : ∀ b, Fine b → meaning a = meaning b → meaning' a = meaning' b) :
    Readable Fine text meaning' stops a := by
  intro b s t hb hs ht heq
  obtain ⟨hab, hst⟩ := h b s t hb hs ht heq
  exact ⟨himp b hb hab, hst⟩

theorem Readable.eq (h : Readable Fine text meaning stops a) {b : α} (hb : Fine b)
    (heq : text a = text b) : meaning a = meaning b :=
  (h b [] [] hb delimited_nil delimited_nil (by rw [heq])).1

end Readable

/-! ## Words -/

/-- A text without the symbols that may follow it ends where the first of them is. -/
theorem word_append_inj (stops : List ι) (hw : ∀ c ∈ w, c ∉ stops) (hv : ∀ c ∈ v, c ∉ stops)
    (hs : Delimited stops s) (ht : Delimited stops t) (h : w ++ s = v ++ t) :
    w = v ∧ s = t := by
  induction w generalizing v with
  | nil =>
    cases v with
    | nil => exact ⟨rfl, h⟩
    | cons c v =>
      rw [List.nil_append] at h
      rw [h, List.cons_append, delimited_cons] at hs
      exact absurd hs (hv c List.mem_cons_self)
  | cons c w ih =>
    cases v with
    | nil =>
      rw [List.nil_append] at h
      rw [← h, List.cons_append, delimited_cons] at ht
      exact absurd ht (hw c List.mem_cons_self)
    | cons d v =>
      rw [List.cons_append, List.cons_append, List.cons.injEq] at h
      obtain ⟨rfl, h⟩ := h
      obtain ⟨rfl, rfl⟩ := ih (fun c hc => hw c (List.mem_cons_of_mem _ hc))
        (fun c hc => hv c (List.mem_cons_of_mem _ hc)) h
      exact ⟨rfl, rfl⟩

theorem readable_word {Fine : α → Prop} {text : α → List ι}
    (h : ∀ a, Fine a → ∀ c ∈ text a, c ∉ stops) {a : α} (ha : Fine a) :
    Readable Fine text text stops a :=
  fun b _ _ hb hs ht heq => word_append_inj stops (h a ha) (h b hb) hs ht heq

/-! ## Numbers -/

theorem isDigit_of_mem_nat {n : Nat} {c : Char} (hc : c ∈ (toString n).toList) :
    c.isDigit = true := by
  have h : c ∈ Nat.toDigits 10 n := by simpa [toString] using hc
  exact Nat.isDigit_of_mem_toDigits (by decide) (by decide) h

theorem not_mem_nat {n : Nat} {c : Char} (h : c.isDigit = false) : c ∉ (toString n).toList := by
  intro hc
  rw [isDigit_of_mem_nat hc] at h
  cases h

theorem readable_nat (stops : List Char) (hstops : ∀ c ∈ stops, c.isDigit = false) (n : Nat) :
    Readable (fun _ => True) (fun n : Nat => (toString n).toList) id stops n := by
  have hword : Readable (fun _ : Nat => True) (fun n => (toString n).toList)
      (fun n => (toString n).toList) stops n := by
    apply readable_word
    · exact fun n _ c hc hstop => not_mem_nat (hstops c hstop) hc
    · trivial
  exact hword.imp fun m _ h => Nat.repr_injective (String.toList_injective h)

/-! ## Lists -/

/-- Each of the texts behind a separator. -/
def separated (sep : List ι) (texts : List (List ι)) : List ι := texts.flatMap (sep ++ ·)

section Separated

variable {sep : List ι} {c : ι} {x : List ι} {xs ys : List (List ι)}

@[simp] theorem separated_nil : separated sep [] = [] := rfl

@[simp] theorem separated_cons : separated sep (x :: xs) = sep ++ (x ++ separated sep xs) := by
  simp [separated]

@[simp] theorem separated_append :
    separated sep (xs ++ ys) = separated sep xs ++ separated sep ys := by
  simp [separated]

theorem intercalate_cons : sep.intercalate (x :: xs) = x ++ separated sep xs := by
  induction xs generalizing x with
  | nil => simp
  | cons y ys ih =>
    rw [List.intercalate_cons_cons, ih]
    simp

/-- What is in no text and not in the separator is not between them either. -/
theorem not_mem_intercalate (hsep : c ∉ sep) (h : ∀ x ∈ xs, c ∉ x) : c ∉ sep.intercalate xs := by
  cases xs with
  | nil => simp
  | cons x xs =>
    rw [List.forall_mem_cons] at h
    rw [intercalate_cons, List.mem_append, separated, List.mem_flatMap]
    rintro (hx | ⟨y, hy, hc⟩)
    · exact h.1 hx
    · exact (List.mem_append.1 hc).elim hsep (h.2 y hy)

theorem delimited_separated (hs : Delimited stops s) :
    Delimited (c :: stops) (separated (c :: sep) xs ++ s) := by
  cases xs with
  | nil => exact hs.mono fun c hc => List.mem_cons_of_mem _ hc
  | cons x xs => simp

end Separated

section Lists

variable {Fine : α → Prop} {text : α → List ι} {meaning : α → β} {sep : List ι} {c : ι}
  {xs : List α}

theorem readable_separated (h : ∀ x ∈ xs, Readable Fine text meaning (c :: stops) x)
    (hc : c ∉ stops) :
    Readable (fun xs => ∀ x ∈ xs, Fine x) (fun xs => separated (c :: sep) (xs.map text))
      (List.map meaning) stops xs := by
  intro ys s t hys hs ht heq
  induction xs generalizing ys with
  | nil =>
    cases ys with
    | nil => exact ⟨rfl, heq⟩
    | cons y ys =>
      rw [show s = _ from heq] at hs
      simp [hc] at hs
  | cons x xs ih =>
    cases ys with
    | nil =>
      rw [← show _ = t from heq] at ht
      simp [hc] at ht
    | cons y ys =>
      rw [List.forall_mem_cons] at h hys
      simp only [List.map_cons, separated_cons, List.append_assoc, List.append_cancel_left_eq]
        at heq
      obtain ⟨hxy, heq⟩ := h.1 y _ _ hys.1 (delimited_separated hs) (delimited_separated ht) heq
      obtain ⟨hrest, hst⟩ := ih h.2 ys hys.2 heq
      exact ⟨by rw [List.map_cons, List.map_cons, hxy, hrest], hst⟩

/-- The texts with separators between them. None of them is empty, or starts as what follows. -/
theorem readable_intercalate (c : ι) (sep : List ι)
    (h : ∀ x ∈ xs, Readable Fine text meaning (c :: stops) x) (hc : c ∉ stops) (hxs : ∀ x ∈ xs, Fine x)
    (hne : ∀ a, Fine a → ∃ d ds, text a = d :: ds ∧ d ∉ stops) :
    Readable (fun xs => ∀ x ∈ xs, Fine x) (fun xs => (c :: sep).intercalate (xs.map text))
      (List.map meaning) stops xs := by
  intro ys s t hys hs ht heq
  cases xs with
  | nil =>
    cases ys with
    | nil => exact ⟨rfl, heq⟩
    | cons y ys =>
      obtain ⟨d, ds, hy, hd⟩ := hne y (hys y List.mem_cons_self)
      rw [show s = _ from heq] at hs
      simp [intercalate_cons, hy, hd] at hs
  | cons x xs =>
    cases ys with
    | nil =>
      obtain ⟨d, ds, hx, hd⟩ := hne x (hxs x List.mem_cons_self)
      rw [← show _ = t from heq] at ht
      simp [intercalate_cons, hx, hd] at ht
    | cons y ys =>
      rw [List.forall_mem_cons] at h hys
      simp only [List.map_cons, intercalate_cons, List.append_assoc] at heq
      obtain ⟨hxy, heq⟩ := h.1 y _ _ hys.1 (delimited_separated hs) (delimited_separated ht) heq
      obtain ⟨hrest, hst⟩ := readable_separated h.2 hc ys s t hys.2 hs ht heq
      exact ⟨by rw [List.map_cons, List.map_cons, hxy, hrest], hst⟩

end Lists

theorem toList_bracketed (items : List String) :
    (bracketed items).toList = '[' :: ([',', ' '].intercalate (items.map String.toList) ++ [']']) := by
  simp [bracketed, String.toList_intercalate]

/-- A list between brackets can be read whatever follows. -/
theorem readable_bracketed (stops : List Char) {Fine : α → Prop} {text : α → String} {meaning : α → β}
    {xs : List α} (h : ∀ x ∈ xs, Readable Fine (fun a => (text a).toList) meaning [',', ']'] x)
    (hxs : ∀ x ∈ xs, Fine x) (hne : ∀ a, Fine a → ∃ c cs, (text a).toList = c :: cs ∧ c ≠ ']') :
    Readable (fun xs => ∀ x ∈ xs, Fine x) (fun xs => (bracketed (xs.map text)).toList)
      (List.map meaning) stops xs := by
  intro ys s t hys _ _ heq
  simp only [toList_bracketed, List.map_map, List.cons_append, List.append_assoc, List.cons.injEq,
    true_and] at heq
  have hread := readable_intercalate ',' [' '] h (by decide) hxs fun a ha => by
    simpa using hne a ha
  obtain ⟨hmap, heq⟩ := hread ys _ _ hys (by simp) (by simp) heq
  exact ⟨hmap, List.tail_eq_of_cons_eq heq⟩

end QueryPlanner.Text
