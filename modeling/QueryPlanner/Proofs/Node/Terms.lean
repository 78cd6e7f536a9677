import QueryPlanner.Operator.Terms
import QueryPlanner.Proofs.Expr.Unambiguity

/-!
# Reading the terms of an operator

The terms of operators of one kind are equal if and only if the operators agree in what the terms
show, their expressions up to what the items of expressions show.
-/

namespace QueryPlanner

open Text

/-! ## Attributes -/

/-- Names that end where a list goes on. -/
def isListed (name : String) : Bool := ',' ∉ name.toList && ']' ∉ name.toList

theorem not_mem_of_isListed {name : String} (h : isListed name = true) :
    ∀ c ∈ name.toList, c ∉ [',', ']'] := by
  simp only [isListed, Bool.and_eq_true, decide_eq_true_eq] at h
  intro c hc hmem
  simp only [List.mem_cons, List.not_mem_nil, or_false] at hmem
  rcases hmem with rfl | rfl
  · exact h.1 hc
  · exact h.2 hc

theorem isListed_append {v w : String} (hv : isListed v = true) (hw : isListed w = true) :
    isListed (v ++ w) = true := by
  simp_all [isListed]

theorem isListed_nat (n : Nat) : isListed (toString n) = true := by
  have hcomma : ',' ∉ (toString n).toList := not_mem_nat (by decide)
  have hbracket : ']' ∉ (toString n).toList := not_mem_nat (by decide)
  rw [isListed, decide_eq_true hcomma, decide_eq_true hbracket]
  rfl

section Lists

variable {α : Type} {Fine : α → Prop} {text : α → String} {xs : List α}

/-- A list of things that can be listed shows their texts. -/
theorem readable_texts (stops : List Char) (hlisted : ∀ a, Fine a → isListed (text a) = true)
    (hne : ∀ a, Fine a → text a ≠ "") (hxs : ∀ x ∈ xs, Fine x) :
    Readable (fun xs => ∀ x ∈ xs, Fine x) (fun xs => (bracketed (xs.map text)).toList)
      (List.map text) stops xs := by
  have hread : ∀ x ∈ xs, Readable Fine (fun a => (text a).toList) text [',', ']'] x := by
    intro x hx
    have hword : Readable Fine (fun a => (text a).toList) (fun a => (text a).toList) [',', ']'] x :=
      readable_word (fun a ha => not_mem_of_isListed (hlisted a ha)) (hxs x hx)
    exact hword.imp fun b _ h => String.toList_injective h
  apply readable_bracketed stops hread hxs
  intro a ha
  obtain ⟨c, cs, hcs⟩ := List.exists_cons_of_ne_nil fun h =>
    hne a ha (String.toList_injective (h.trans String.toList_empty.symm))
  refine ⟨c, cs, hcs, ?_⟩
  rintro rfl
  exact not_mem_of_isListed (hlisted a ha) ']' (by simp [hcs]) (by simp)

/-- A list of things of different texts, each of which can be listed. -/
theorem readable_list (stops : List Char) (hlisted : ∀ a, Fine a → isListed (text a) = true)
    (hne : ∀ a, Fine a → text a ≠ "") (hinj : ∀ {a b}, text a = text b → a = b)
    (hxs : ∀ x ∈ xs, Fine x) :
    Readable (fun xs => ∀ x ∈ xs, Fine x) (fun xs => (bracketed (xs.map text)).toList) id stops
      xs :=
  (readable_texts stops hlisted hne hxs).imp fun _ _ h =>
    List.map_injective_iff.2 (fun _ _ => hinj) h

end Lists

/-- A name without the character that may follow it, of all things of different names. -/
theorem readable_name {α : Type} {Fine : α → Prop} {text : α → String} (stop : Char)
    (hstop : ∀ a, Fine a → stop ∉ (text a).toList) (hinj : ∀ {a b}, text a = text b → a = b) {a : α}
    (ha : Fine a) : Readable Fine (fun a => (text a).toList) id [stop] a := by
  have hword : Readable Fine (fun a => (text a).toList) (fun a => (text a).toList) [stop] a := by
    apply readable_word
    · intro a ha c hc hmem
      rw [List.mem_singleton.1 hmem] at hc
      exact hstop a ha hc
    · exact ha
  exact hword.imp fun b _ h => hinj (String.toList_injective h)

theorem FieldOrder.isListed_text (o : FieldOrder) : isListed o.text = true := by
  apply isListed_append
  · apply isListed_append (isListed_nat _)
    split_ifs <;> decide
  · split_ifs <;> decide

theorem FieldOrder.text_injective {o o' : FieldOrder} (h : o.text = o'.text) : o = o' := by
  obtain ⟨field, ascending, nulls⟩ := o
  obtain ⟨field', ascending', nulls'⟩ := o'
  have hdelimited : ∀ a n : Bool, Delimited [' '] ((if a then " ASC" else " DESC").toList ++
      (if n then " NULLS FIRST" else "").toList) := by
    intro a n
    cases a <;> cases n <;> simp
  have hflags : ∀ a n a' n' : Bool, (if a then " ASC" else " DESC").toList ++
      (if n then " NULLS FIRST" else "").toList = (if a' then " ASC" else " DESC").toList ++
        (if n' then " NULLS FIRST" else "").toList → a = a' ∧ n = n' := by
    decide
  have hlist := congrArg String.toList h
  simp only [text, String.toList_append, List.append_assoc] at hlist
  obtain ⟨hfield, hrest⟩ := readable_nat [' '] (by simp) field field' _ _ trivial (hdelimited _ _)
    (hdelimited _ _) hlist
  obtain ⟨rfl, rfl⟩ := hflags _ _ _ _ hrest
  obtain rfl : field = field' := hfield
  rfl

theorem FieldOrder.text_ne_empty (o : FieldOrder) : o.text ≠ "" := by
  intro h
  simp [text] at h

theorem Collation.readable_text (stops : List Char) (c : Collation) :
    Readable (fun _ => True) (fun c : Collation => c.text.toList) id stops c := by
  have hread : Readable (fun os => ∀ o ∈ os, True)
      (fun os => (bracketed (os.map FieldOrder.text)).toList) id stops c.orders :=
    readable_list stops (fun o _ => o.isListed_text) (fun o _ => o.text_ne_empty)
      FieldOrder.text_injective fun _ _ => trivial
  intro c' s t _ hs ht heq
  obtain ⟨horders, hst⟩ := hread c'.orders s t (fun _ _ => trivial) hs ht heq
  exact ⟨congrArg Collation.mk horders, hst⟩

theorem JoinType.text_injective {a b : JoinType} (h : a.text = b.text) : a = b := by
  revert h
  cases a <;> cases b <;> decide

theorem AggregateFunction.text_injective {a b : AggregateFunction} (h : a.text = b.text) :
    a = b := by
  revert h
  cases a <;> cases b <;> decide

theorem SetOperation.text_injective {a b : SetOperation} (h : a.text = b.text) : a = b := by
  revert h
  cases a <;> cases b <;> decide

theorem ModifyOperation.text_injective {a b : ModifyOperation} (h : a.text = b.text) : a = b := by
  revert h
  cases a <;> cases b <;> decide

namespace AggregateCall

/-- A call with the name of its column. -/
def named (c : AggregateCall) : String := c.text ++ " AS " ++ c.name

theorem isListed_named {c : AggregateCall} (h : isListed c.name = true) :
    isListed c.named = true := by
  have hfunction : isListed c.function.text = true := by
    cases c.function <;> decide
  apply isListed_append _ h
  apply isListed_append _ (by decide)
  apply isListed_append _ (by decide)
  apply isListed_append
  · apply isListed_append
    · exact isListed_append hfunction (by decide)
    · split_ifs <;> decide
  · cases c.argument with
    | none => decide
    | some idx => exact isListed_append (by decide) (isListed_nat idx)

theorem named_ne_empty (c : AggregateCall) : c.named ≠ "" := by
  intro h
  simp [named] at h

theorem named_injective {c c' : AggregateCall} (h : c.named = c'.named) : c = c' := by
  obtain ⟨function, argument, name, distinct⟩ := c
  obtain ⟨function', argument', name', distinct'⟩ := c'
  have hlist := congrArg String.toList h
  simp only [named, text, String.toList_append, List.append_assoc] at hlist
  have hword : ∀ f : AggregateFunction, ∀ c ∈ f.text.toList, c ∉ ['('] := by
    intro f
    cases f <;> simp [AggregateFunction.text]
  obtain ⟨hfunction, hlist⟩ := word_append_inj ['('] (hword function) (hword function') (by simp)
    (by simp) hlist
  obtain rfl := AggregateFunction.text_injective (String.toList_injective hfunction)
  rw [List.append_cancel_left_eq] at hlist
  have hflag : distinct = distinct' := by
    cases distinct <;> cases distinct' <;> cases argument <;> cases argument' <;> simp_all
  obtain rfl := hflag
  rw [List.append_cancel_left_eq] at hlist
  have hargument : argument = argument' ∧ name.toList = name'.toList := by
    cases argument with
    | none =>
      cases argument' with
      | none => simpa using hlist
      | some idx' => simp at hlist
    | some idx =>
      cases argument' with
      | none => simp at hlist
      | some idx' =>
        simp only [String.toList_append, List.append_assoc, List.append_cancel_left_eq] at hlist
        obtain ⟨hidx, hname⟩ := readable_nat [')'] (by simp) idx idx' _ _ trivial (by simp) (by simp)
          hlist
        simp only [List.append_cancel_left_eq] at hname
        exact ⟨congrArg some hidx, hname⟩
  rw [hargument.1, String.toList_injective hargument.2]

end AggregateCall

/-! ## Terms -/

/-- Terms, each behind a comma. -/
def listing (terms : List String) : List Char := separated [',', ' '] (terms.map String.toList)

@[simp] theorem listing_nil : listing [] = [] := rfl

@[simp] theorem listing_cons {t : String} {ts : List String} :
    listing (t :: ts) = ',' :: ' ' :: (t.toList ++ listing ts) := by
  simp [listing]

theorem delimited_listing (ts : List String) : Delimited [','] (listing ts) := by
  cases ts <;> simp

/-- The first of several terms is told by its name. -/
theorem read_term {α β : Type} {Fine : α → Prop} {text : α → String} {meaning : α → β} {a b : α}
    {ts us : List String} (name : String)
    (h : Readable Fine (fun a => (text a).toList) meaning [','] a) (hb : Fine b)
    (heq : listing ((name ++ "=" ++ text a) :: ts) = listing ((name ++ "=" ++ text b) :: us)) :
    meaning a = meaning b ∧ listing ts = listing us := by
  simp only [listing_cons, String.toList_append, List.append_assoc, List.cons.injEq, true_and,
    List.append_cancel_left_eq] at heq
  exact h b _ _ hb (delimited_listing ts) (delimited_listing us) heq

/-- A last term may have any value. -/
theorem read_last (name : String) {value value' : String}
    (heq : listing [name ++ "=" ++ value] = listing [name ++ "=" ++ value']) : value = value' := by
  simp only [listing_cons, listing_nil, String.toList_append, List.append_assoc, List.cons.injEq,
    true_and, List.append_cancel_left_eq, List.append_nil] at heq
  exact String.toList_injective heq

/-- A last term that may be missing. -/
theorem read_optional (name : String) {o o' : Option Nat}
    (heq : listing (o.toList.map fun n => name ++ "=" ++ toString n) =
      listing (o'.toList.map fun n => name ++ "=" ++ toString n)) : o = o' := by
  cases o with
  | none =>
    cases o' with
    | none => rfl
    | some n' => simp at heq
  | some n =>
    cases o' with
    | none => simp at heq
    | some n' => exact congrArg some (Nat.repr_injective (read_last name heq))

namespace Operator

/-- Operators that differ in nothing but statistics, the names and nullability of fields, and in
expressions that are related. -/
def Alike (R : Expr → Expr → Prop) : Operator → Operator → Prop
  | tableScan s, tableScan s' =>
    s.table = s'.table ∧ s.limit = s'.limit ∧ s.schema.types = s'.schema.types
  | filter e, filter e' => R e e'
  | projection es names, projection es' names' => List.Forall₂ R es es' ∧ names = names'
  | join type e, join type' e' => type = type' ∧ R e e'
  | aggregate keys calls, aggregate keys' calls' => keys = keys' ∧ calls = calls'
  | sort c fetch, sort c' fetch' => c = c' ∧ fetch = fetch'
  | limit n, limit n' => n = n'
  | setOp op all, setOp op' all' => op = op' ∧ all = all'
  | values schema tuples, values schema' tuples' =>
    schema.types = schema'.types ∧ tuples = tuples'
  | tableModify table op, tableModify table' op' => table = table' ∧ op = op'
  | converter source target, converter source' target' => source = source' ∧ target = target'
  | abstractConverter, abstractConverter => True
  | vertex id, vertex id' => id = id'
  | _, _ => False

theorem Alike.kind {R : Expr → Expr → Prop} {op op' : Operator} (h : op.Alike R op') :
    op.kind = op'.kind := by
  cases op <;> cases op' <;> first | rfl | cases h

/-- Expressions of the same text. -/
def SameText (e e' : Expr) : Prop := e.text = e'.text

theorem forall₂_sameText {es es' : List Expr} :
    List.Forall₂ SameText es es' ↔ es.map Expr.text = es'.map Expr.text := by
  rw [← List.forall₂_eq_eq_eq, List.forall₂_map_left_iff, List.forall₂_map_right_iff]
  rfl

/-- Operators that are alike up to the texts of their expressions have the same terms. -/
theorem Alike.termTexts_eq {op op' : Operator} (h : op.Alike SameText op') :
    op.termTexts .full = op'.termTexts .full := by
  cases op with
  | abstractConverter =>
    cases op' with
    | abstractConverter => rfl
    | _ => cases h
  | filter e =>
    cases op' with
    | filter e' => simp only [termTexts, terms, show e.text = e'.text from h]
    | _ => cases h
  | limit n =>
    cases op' with
    | limit n' => rw [show n = n' from h]
    | _ => cases h
  | values schema tuples =>
    cases op' with
    | values schema' tuples' =>
      obtain ⟨-, rfl⟩ := h
      rfl
    | _ => cases h
  | converter source target =>
    cases op' with
    | converter source' target' =>
      obtain ⟨rfl, rfl⟩ := h
      rfl
    | _ => cases h
  | vertex id =>
    cases op' with
    | vertex id' => rw [show id = id' from h]
    | _ => cases h
  | tableScan s =>
    cases op' with
    | tableScan s' =>
      obtain ⟨htable, hlimit, -⟩ := h
      simp only [termTexts, terms, htable, hlimit]
    | _ => cases h
  | projection es names =>
    cases op' with
    | projection es' names' =>
      obtain ⟨hexprs, rfl⟩ := h
      simp only [termTexts, terms, forall₂_sameText.1 hexprs]
    | _ => cases h
  | join type e =>
    cases op' with
    | join type' e' =>
      obtain ⟨rfl, he⟩ := h
      simp only [termTexts, terms, show e.text = e'.text from he]
    | _ => cases h
  | aggregate keys calls =>
    cases op' with
    | aggregate keys' calls' =>
      obtain ⟨rfl, rfl⟩ := h
      rfl
    | _ => cases h
  | sort c fetch =>
    cases op' with
    | sort c' fetch' =>
      obtain ⟨rfl, rfl⟩ := h
      rfl
    | _ => cases h
  | setOp op all =>
    cases op' with
    | setOp op' all' =>
      obtain ⟨rfl, rfl⟩ := h
      rfl
    | _ => cases h
  | tableModify table op =>
    cases op' with
    | tableModify table' op' =>
      obtain ⟨rfl, rfl⟩ := h
      rfl
    | _ => cases h

/-- Whether a row of these types can be read. -/
def isRow (types : List DataType) (t : List Scalar) : Bool :=
  t.map Scalar.type = types &&
    t.all fun v => v.isExact && isListed v.bare && v.bare ≠ "" && v ≠ .utf8 (some "NULL")

/-- Whether the terms of an operator with rows of these types in this convention can be read. -/
def isLegible (types : List DataType) (convention : Convention) : Operator → Bool
  | tableScan s => ',' ∉ s.table.toList && s.schema.types = types
  | filter e => e.isLegible
  | projection es names => es.all Expr.isLegible && names.all fun n => isListed n && n ≠ ""
  | join _ e => e.isLegible
  | aggregate _ calls => calls.all fun c => isListed c.name
  | values schema tuples => schema.types = types && tuples.all (isRow types)
  | tableModify table _ => ',' ∉ table.toList
  | converter _ target => target = convention
  | _ => true

theorem readable_expr {e : Expr} (h : e.isLegible = true) :
    Readable (fun e : Expr => e.isLegible = true) (fun e => e.text.toList) Expr.text [',', ']'] e :=
  ((Expr.readable_text h).mono (by simp)).imp fun _ h' hitems => (Expr.text_eq_iff h h').2 hitems

theorem readable_exprs {es : List Expr} (h : ∀ e ∈ es, e.isLegible = true) :
    Readable (fun es => ∀ e ∈ es, e.isLegible = true)
      (fun es => (bracketed (es.map Expr.text)).toList) (List.map Expr.text) [','] es := by
  apply readable_bracketed
  · intro e he
    exact readable_expr (h e he)
  · exact h
  · intro e he
    obtain ⟨c, cs, hcs, hc⟩ := Item.exists_cons_spellAll (Expr.legible_items e he) e.items_ne_nil
    rw [Expr.spellAll_items] at hcs
    refine ⟨c, cs, hcs, ?_⟩
    rintro rfl
    exact hc (by simp)

theorem readable_table {table : String} (h : ',' ∉ table.toList) :
    Readable (fun t : String => ',' ∉ t.toList) (fun t => t.toList) id [','] table :=
  readable_name ',' (fun _ ht => ht) id h

/-! ### Tuples -/

theorem row_injective {types : List DataType} {t t' : List Scalar} (h : isRow types t = true)
    (h' : isRow types t' = true) (heq : t.map Scalar.bare = t'.map Scalar.bare) : t = t' := by
  simp only [isRow, Bool.and_eq_true, decide_eq_true_eq, List.all_eq_true] at h h'
  obtain ⟨htypes, hfine⟩ := h
  obtain ⟨rfl, hfine'⟩ := h'
  induction t generalizing t' with
  | nil => simpa using heq
  | cons v t ih =>
    cases t' with
    | nil => simp at heq
    | cons w t' =>
      simp only [List.map_cons, List.cons.injEq, List.forall_mem_cons] at htypes heq hfine hfine'
      obtain ⟨⟨⟨hv, -⟩, -⟩, hv'⟩ := hfine.1
      obtain ⟨⟨⟨hw, -⟩, -⟩, hw'⟩ := hfine'.1
      rw [Scalar.bare_injective htypes.1 hv hw hv' hw' heq.1, ih heq.2 hfine.2 hfine'.2 htypes.2]

theorem readable_tuples {types : List DataType} {ts : List (List Scalar)}
    (h : ∀ t ∈ ts, isRow types t = true) :
    Readable (fun ts => ∀ t ∈ ts, isRow types t = true)
      (fun ts => (bracketed (ts.map fun t => bracketed (t.map Scalar.bare))).toList) id [','] ts := by
  have hfine : ∀ {t}, isRow types t = true → ∀ v ∈ t, isListed v.bare = true ∧ v.bare ≠ "" := by
    intro t ht v hv
    simp only [isRow, Bool.and_eq_true, decide_eq_true_eq, List.all_eq_true] at ht
    exact ⟨(ht.2 v hv).1.1.2, (ht.2 v hv).1.2⟩
  have hrow : ∀ t ∈ ts, Readable (fun t => isRow types t = true)
      (fun t => (bracketed (t.map Scalar.bare)).toList) id [',', ']'] t := by
    intro t ht t' s u ht' hs hu heq
    have hvalues : Readable (fun vs => ∀ v ∈ vs, isListed v.bare = true ∧ v.bare ≠ "")
        (fun vs => (bracketed (vs.map Scalar.bare)).toList) (List.map Scalar.bare) [',', ']'] t :=
      readable_texts [',', ']'] (fun _ hv => hv.1) (fun _ hv => hv.2) (hfine (h t ht))
    obtain ⟨hbare, hsu⟩ := hvalues t' s u (hfine ht') hs hu heq
    exact ⟨row_injective (h t ht) ht' hbare, hsu⟩
  have hread := readable_bracketed [','] hrow h fun t _ => ⟨'[', _, toList_bracketed _, by decide⟩
  exact hread.imp fun ts' _ h => by simpa using h

/-! ### Operators of one kind -/

variable {types : List DataType} {convention : Convention}

theorem listing_projection (es : List Expr) (names : List String) :
    listing ((projection es names).termTexts .full) =
      listing ["exprs" ++ "=" ++ bracketed (es.map Expr.text), "names" ++ "=" ++ bracketed names] :=
  rfl

theorem alike_projection {es es' : List Expr} {names names' : List String}
    (h : (projection es names).isLegible types convention = true)
    (h' : (projection es' names').isLegible types convention = true)
    (heq : listing ((projection es names).termTexts .full) =
      listing ((projection es' names').termTexts .full)) :
    (projection es names).Alike SameText (projection es' names') := by
  simp only [isLegible, Bool.and_eq_true, decide_eq_true_eq, List.all_eq_true] at h h'
  rw [listing_projection, listing_projection] at heq
  obtain ⟨htexts, heq⟩ := read_term "exprs" (readable_exprs h.1) h'.1 heq
  have hnames : Readable (fun ns => ∀ n ∈ ns, isListed n = true ∧ n ≠ "")
      (fun ns => (bracketed (ns.map id)).toList) id [','] names :=
    readable_list [','] (fun _ hn => hn.1) (fun _ hn => hn.2) id h.2
  refine ⟨forall₂_sameText.2 htexts, hnames.eq h'.2 ?_⟩
  rw [List.map_id, List.map_id, read_last "names" heq]

theorem listing_aggregate (keys : List Nat) (calls : List AggregateCall) :
    listing ((aggregate keys calls).termTexts .full) =
      listing ["group" ++ "=" ++ bracketed (keys.map toString),
        "calls" ++ "=" ++ bracketed (calls.map AggregateCall.named)] :=
  rfl

theorem alike_aggregate {keys keys' : List Nat}
    {calls calls' : List AggregateCall} (h : (aggregate keys calls).isLegible types convention = true)
    (h' : (aggregate keys' calls').isLegible types convention = true)
    (heq : listing ((aggregate keys calls).termTexts .full) =
      listing ((aggregate keys' calls').termTexts .full)) :
    (aggregate keys calls).Alike SameText (aggregate keys' calls') := by
  simp only [isLegible, List.all_eq_true] at h h'
  rw [listing_aggregate, listing_aggregate] at heq
  have hkeys : Readable (fun ks => ∀ k ∈ ks, True)
      (fun ks : List Nat => (bracketed (ks.map toString)).toList) id [','] keys :=
    readable_list [','] (fun k _ => isListed_nat k)
      (fun k _ => k.repr_ne_empty) Nat.repr_injective
      fun _ _ => trivial
  obtain ⟨hkeys, heq⟩ := read_term "group" hkeys (fun _ _ => trivial) heq
  have hcalls : Readable (fun cs => ∀ c ∈ cs, isListed c.name = true)
      (fun cs => (bracketed (cs.map AggregateCall.named)).toList) id [','] calls :=
    readable_list [','] (fun _ => AggregateCall.isListed_named)
      (fun c _ => c.named_ne_empty) AggregateCall.named_injective h
  exact ⟨hkeys, hcalls.eq h' (congrArg String.toList (read_last "calls" heq))⟩

theorem listing_join (type : JoinType) (e : Expr) :
    listing ((join type e).termTexts .full) =
      listing ["type" ++ "=" ++ type.text, "condition" ++ "=" ++ e.text] :=
  rfl

theorem alike_join {type type' : JoinType} {e e' : Expr}
    (heq : listing ((join type e).termTexts .full) = listing ((join type' e').termTexts .full)) :
    (join type e).Alike SameText (join type' e') := by
  rw [listing_join, listing_join] at heq
  have htype : Readable (fun _ => True) (fun t : JoinType => t.text.toList) id [','] type :=
    readable_name ',' (fun t _ => by cases t <;> decide) JoinType.text_injective trivial
  obtain ⟨htype, heq⟩ := read_term "type" htype trivial heq
  exact ⟨htype, read_last "condition" heq⟩

theorem listing_setOp (op : SetOperation) (all : Bool) :
    listing ((setOp op all).termTexts .full) =
      listing ["kind" ++ "=" ++ op.text, "all" ++ "=" ++ toString all] :=
  rfl

theorem alike_setOp {op op' : SetOperation} {all all' : Bool}
    (heq : listing ((setOp op all).termTexts .full) = listing ((setOp op' all').termTexts .full)) :
    (setOp op all).Alike SameText (setOp op' all') := by
  rw [listing_setOp, listing_setOp] at heq
  have hop : Readable (fun _ => True) (fun o : SetOperation => o.text.toList) id [','] op :=
    readable_name ',' (fun o _ => by cases o <;> decide) SetOperation.text_injective trivial
  obtain ⟨hop, heq⟩ := read_term "kind" hop trivial heq
  have hall : ∀ a b : Bool, toString a = toString b → a = b := by decide
  exact ⟨hop, hall all all' (read_last "all" heq)⟩

theorem listing_tableScan (s : TableScan) :
    listing ((tableScan s).termTexts .full) =
      listing (("table" ++ "=" ++ s.table) ::
        s.limit.toList.map fun n => "limit" ++ "=" ++ toString n) := by
  simp only [termTexts, terms, List.map_cons, List.map_map, Function.comp_def]

theorem alike_tableScan {s s' : TableScan}
    (h : (tableScan s).isLegible types convention = true) (h' : (tableScan s').isLegible types convention = true)
    (heq : listing ((tableScan s).termTexts .full) = listing ((tableScan s').termTexts .full)) :
    (tableScan s).Alike SameText (tableScan s') := by
  simp only [isLegible, Bool.and_eq_true, decide_eq_true_eq] at h h'
  rw [listing_tableScan, listing_tableScan] at heq
  obtain ⟨htable, heq⟩ := read_term "table" (readable_table h.1) h'.1 heq
  exact ⟨htable, read_optional "limit" heq, h.2.trans h'.2.symm⟩

theorem listing_sort (c : Collation) (fetch : Option Nat) :
    listing ((sort c fetch).termTexts .full) =
      listing (("collation" ++ "=" ++ c.text) ::
        fetch.toList.map fun n => "fetch" ++ "=" ++ toString n) := by
  simp only [termTexts, terms, List.map_cons, List.map_map, Function.comp_def]

theorem alike_sort {c c' : Collation} {fetch fetch' : Option Nat}
    (heq : listing ((sort c fetch).termTexts .full) = listing ((sort c' fetch').termTexts .full)) :
    (sort c fetch).Alike SameText (sort c' fetch') := by
  rw [listing_sort, listing_sort] at heq
  obtain ⟨hcollation, heq⟩ := read_term "collation" (c.readable_text [',']) trivial heq
  exact ⟨hcollation, read_optional "fetch" heq⟩

theorem listing_tableModify (table : String) (op : ModifyOperation) :
    listing ((tableModify table op).termTexts .full) =
      listing ["table" ++ "=" ++ table, "operation" ++ "=" ++ op.text] :=
  rfl

theorem alike_tableModify {table table' : String} {op op' : ModifyOperation}
    (h : (tableModify table op).isLegible types convention = true)
    (h' : (tableModify table' op').isLegible types convention = true)
    (heq : listing ((tableModify table op).termTexts .full) =
      listing ((tableModify table' op').termTexts .full)) :
    (tableModify table op).Alike SameText (tableModify table' op') := by
  simp only [isLegible, decide_eq_true_eq] at h h'
  rw [listing_tableModify, listing_tableModify] at heq
  obtain ⟨htable, heq⟩ := read_term "table" (readable_table h) h' heq
  exact ⟨htable, ModifyOperation.text_injective (read_last "operation" heq)⟩

/-- Operators of one kind and the same terms are alike. -/
theorem alike_of_listing {op op' : Operator}
    (h : op.isLegible types convention = true) (h' : op'.isLegible types convention = true) (hkind : op.kind = op'.kind)
    (heq : listing (op.termTexts .full) = listing (op'.termTexts .full)) :
    op.Alike SameText op' := by
  cases op with
  | tableScan s =>
    cases op' with
    | tableScan s' => exact alike_tableScan h h' heq
    | _ => cases hkind
  | filter e =>
    cases op' with
    | filter e' => exact read_last "condition" heq
    | _ => cases hkind
  | projection es names =>
    cases op' with
    | projection es' names' => exact alike_projection h h' heq
    | _ => cases hkind
  | join type e =>
    cases op' with
    | join type' e' => exact alike_join heq
    | _ => cases hkind
  | aggregate keys calls =>
    cases op' with
    | aggregate keys' calls' => exact alike_aggregate h h' heq
    | _ => cases hkind
  | sort c fetch =>
    cases op' with
    | sort c' fetch' => exact alike_sort heq
    | _ => cases hkind
  | limit n =>
    cases op' with
    | limit n' => exact Nat.repr_injective (read_last "limit" heq)
    | _ => cases hkind
  | setOp op all =>
    cases op' with
    | setOp op' all' => exact alike_setOp heq
    | _ => cases hkind
  | values schema tuples =>
    cases op' with
    | values schema' tuples' =>
      simp only [isLegible, Bool.and_eq_true, decide_eq_true_eq, List.all_eq_true] at h h'
      have htexts := read_last "tuples" heq
      exact ⟨h.1.trans h'.1.symm, (readable_tuples h.2).eq h'.2 (congrArg String.toList htexts)⟩
    | _ => cases hkind
  | tableModify table op =>
    cases op' with
    | tableModify table' op' => exact alike_tableModify h h' heq
    | _ => cases hkind
  | converter source target =>
    cases op' with
    | converter source' target' =>
      simp only [isLegible, decide_eq_true_eq] at h h'
      exact ⟨congrArg Convention.mk (read_last "from" heq), h.trans h'.symm⟩
    | _ => cases hkind
  | abstractConverter =>
    cases op' with
    | abstractConverter => trivial
    | _ => cases hkind
  | vertex id =>
    cases op' with
    | vertex id' => exact Nat.repr_injective (read_last "id" heq)
    | _ => cases hkind

end Operator

end QueryPlanner
