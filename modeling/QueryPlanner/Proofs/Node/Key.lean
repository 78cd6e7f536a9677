import QueryPlanner.Node
import QueryPlanner.Proofs.Node.Terms

/-!
# Reading keys

The digest of an expression shows the kind of its operator, its traits, the vertices that its inputs
stand for and its terms. Two expressions that can be read have one key if and only if they agree in
all of these and in the types of their fields.
-/

namespace QueryPlanner

open Text

/-! ## Kinds and traits -/

theorem OperatorKind.text_injective {a b : OperatorKind} (h : a.text = b.text) : a = b := by
  revert h
  cases a <;> cases b <;> decide

theorem OperatorKind.readable_text (k : OperatorKind) :
    Readable (fun _ => True) (fun k : OperatorKind => k.text.toList) id ['.'] k :=
  readable_name '.' (fun k _ => by cases k <;> decide) text_injective trivial

/-- Whether the name of a convention ends where the traits go on. -/
def Convention.isLegible (c : Convention) : Bool := '.' ∉ c.name.toList && '(' ∉ c.name.toList

namespace TraitSet

/-- What follows the convention. -/
def suffix (c : Collation) : String := if c.isEmpty then "" else "." ++ c.text

theorem delimited_suffix (c : Collation) {s : List Char} (hs : Delimited ['('] s) :
    Delimited ['.', '('] ((suffix c).toList ++ s) := by
  unfold suffix
  split_ifs
  · exact hs.mono (by simp)
  · simp

theorem readable_suffix (c : Collation) :
    Readable (fun _ => True) (fun c => (suffix c).toList) id ['('] c := by
  have hne : ∀ (d : Collation) {s t : List Char}, Delimited ['('] s →
      s ≠ ("." ++ d.text).toList ++ t := by
    rintro d s t hs rfl
    simp at hs
  have hempty : ∀ {d : Collation}, d.isEmpty = true → d = .unordered := by
    rintro ⟨orders⟩ h
    obtain rfl : orders = [] := List.isEmpty_iff.1 h
    rfl
  intro d s t _ hs ht heq
  simp only [suffix] at heq
  split_ifs at heq with hc hd hd
  · exact ⟨(hempty hc).trans (hempty hd).symm, heq⟩
  · exact absurd heq (hne d hs)
  · exact absurd heq.symm (hne c ht)
  · simp only [String.toList_append, List.append_assoc, List.append_cancel_left_eq] at heq
    exact c.readable_text ['('] d s t trivial hs ht heq

theorem readable_text {traits : TraitSet} (h : traits.convention.isLegible = true) :
    Readable (fun t : TraitSet => t.convention.isLegible = true) (fun t => t.text.toList) id ['(']
      traits := by
  have hword : ∀ {c : Convention}, c.isLegible = true → ∀ x ∈ c.name.toList, x ∉ ['.', '('] := by
    intro c hc x hx hmem
    simp only [Convention.isLegible, Bool.and_eq_true, decide_eq_true_eq] at hc
    simp only [List.mem_cons, List.not_mem_nil, or_false] at hmem
    rcases hmem with rfl | rfl
    · exact hc.1 hx
    · exact hc.2 hx
  obtain ⟨convention, collation⟩ := traits
  rintro ⟨convention', collation'⟩ s t h' hs ht heq
  have hlist : convention.name.toList ++ ((suffix collation).toList ++ s) =
      convention'.name.toList ++ ((suffix collation').toList ++ t) := by
    rw [← List.append_assoc, ← List.append_assoc, ← String.toList_append, ← String.toList_append]
    exact heq
  obtain ⟨hname, hlist⟩ := word_append_inj ['.', '('] (hword h) (hword h')
    (delimited_suffix collation hs) (delimited_suffix collation' ht) hlist
  obtain ⟨hcollation, hst⟩ := readable_suffix collation collation' s t trivial hs ht hlist
  obtain rfl : collation = collation' := hcollation
  rw [show convention = convention' from congrArg Convention.mk (String.toList_injective hname)]
  exact ⟨rfl, hst⟩

end TraitSet

/-- Whether the text of the traits ends where the terms start. -/
def TraitSet.isPlain (t : TraitSet) : Bool := '(' ∉ t.text.toList

/-! ## Inputs -/

/-- Vertices as terms of a digest, numbered from `idx`. -/
def referenceTerms : Nat → List VertexId → List String
  | _, [] => []
  | idx, v :: vs => ("input#" ++ toString idx ++ "=" ++ ("#" ++ toString v)) ::
      referenceTerms (idx + 1) vs

/-- The first term is not one of an input. -/
def StartsOwn (ts : List String) : Prop := ∀ t ∈ ts.head?, t.toList.head? ≠ some 'i'

theorem StartsOwn.listing_ne {ts us : List String} {t : String} (h : StartsOwn ts) :
    listing ts ≠ listing (("input#" ++ t) :: us) := by
  intro heq
  cases ts with
  | nil => simp at heq
  | cons v vs =>
    simp only [listing_cons, List.cons.injEq, true_and, String.toList_append, List.append_assoc]
      at heq
    have hv : v.toList.head? ≠ some 'i' := h v rfl
    cases hlist : v.toList with
    | nil =>
      rw [hlist] at heq
      cases vs <;> simp at heq
    | cons c cs =>
      rw [hlist] at hv heq
      simp only [List.cons_append, String.reduceToList, List.cons.injEq] at heq
      exact hv (by rw [heq.1, List.head?_cons])

theorem readable_references (idx : Nat) {vs vs' : List VertexId} {ts us : List String}
    (hts : StartsOwn ts) (hus : StartsOwn us)
    (heq : listing (referenceTerms idx vs ++ ts) = listing (referenceTerms idx vs' ++ us)) :
    vs = vs' ∧ listing ts = listing us := by
  induction vs generalizing idx vs' with
  | nil =>
    cases vs' with
    | nil => exact ⟨rfl, heq⟩
    | cons v' vs' =>
      simp only [referenceTerms, List.nil_append, List.cons_append, String.append_assoc] at heq
      exact absurd heq hts.listing_ne
  | cons v vs ih =>
    cases vs' with
    | nil =>
      simp only [referenceTerms, List.nil_append, List.cons_append, String.append_assoc] at heq
      exact absurd heq.symm hus.listing_ne
    | cons v' vs' =>
      have hv : Readable (fun _ => True) (fun i : VertexId => ("#" ++ toString i).toList) id [',']
          v := by
        intro i s t _ hs ht h
        simp only [String.toList_append, List.append_assoc, List.append_cancel_left_eq] at h
        exact readable_nat [','] (by simp) v i s t trivial hs ht h
      obtain ⟨hv, hrest⟩ := read_term ("input#" ++ toString idx) hv trivial heq
      obtain ⟨hvs, hown⟩ := ih (idx + 1) hrest
      exact ⟨congrArg₂ List.cons hv hvs, hown⟩

theorem startsOwn_append {name value : String} {ts : List String} (hne : name ≠ "")
    (h : name.toList.head? ≠ some 'i') : StartsOwn ((name ++ "=" ++ value) :: ts) := by
  intro t ht
  obtain rfl := Option.some.inj ht
  obtain ⟨c, cs, hcs⟩ := List.exists_cons_of_ne_nil fun hnil => hne (String.toList_injective hnil)
  simpa [hcs] using h

theorem Operator.startsOwn {op : Operator} (mode : DigestMode) (h : ∀ id, op ≠ .vertex id) :
    StartsOwn (op.termTexts mode) := by
  cases op with
  | abstractConverter => simp [StartsOwn, termTexts, terms]
  | vertex id => exact absurd rfl (h id)
  | projection exprs names => cases mode <;> exact startsOwn_append (by decide) (by decide)
  | _ => exact startsOwn_append (by decide) (by decide)

/-! ## Digests -/

namespace Node

variable {n n' : Node} {mode : DigestMode}

theorem toList_render (op : Operator) (traits : TraitSet) (terms : List String) :
    (render op traits terms).toList = op.kind.text.toList ++ '.' ::
      (traits.text.toList ++ '(' :: ([',', ' '].intercalate (terms.map String.toList) ++ [')'])) := by
  simp [render, String.toList_intercalate]

/-- The kind of the operator can be read whatever the name of the convention and the terms. -/
theorem kind_eq_of_render_eq {op op' : Operator} {traits traits' : TraitSet} {ts us : List String}
    (h : render op traits ts = render op' traits' us) : op.kind = op'.kind := by
  have hlist := congrArg String.toList h
  rw [toList_render, toList_render] at hlist
  exact (op.kind.readable_text op'.kind _ _ trivial (by simp) (by simp) hlist).1

theorem listing_eq_of_intercalate_eq {ts us : List String} (hts : ∀ t ∈ ts, t ≠ "")
    (hus : ∀ u ∈ us, u ≠ "")
    (h : [',', ' '].intercalate (ts.map String.toList) =
      [',', ' '].intercalate (us.map String.toList)) : listing ts = listing us := by
  have hne : ∀ {v : String}, v ≠ "" → v.toList ≠ [] := fun hv hnil =>
    hv (String.toList_injective hnil)
  cases ts with
  | nil =>
    cases us with
    | nil => rfl
    | cons u us =>
      rw [List.forall_mem_cons] at hus
      rw [List.map_cons, intercalate_cons] at h
      exact absurd (List.append_eq_nil_iff.1 h.symm).1 (hne hus.1)
  | cons t ts =>
    cases us with
    | nil =>
      rw [List.forall_mem_cons] at hts
      rw [List.map_cons, intercalate_cons] at h
      exact absurd (List.append_eq_nil_iff.1 h).1 (hne hts.1)
    | cons u us =>
      rw [List.map_cons, List.map_cons, intercalate_cons, intercalate_cons] at h
      rw [listing_cons, listing_cons]
      exact congrArg (fun cs => ',' :: ' ' :: cs) h

theorem eq_of_render_eq {op op' : Operator} {traits traits' : TraitSet} {ts us : List String}
    (htraits : traits.convention.isLegible = true) (htraits' : traits'.convention.isLegible = true)
    (hts : ∀ t ∈ ts, t ≠ "") (hus : ∀ u ∈ us, u ≠ "")
    (h : render op traits ts = render op' traits' us) :
    op.kind = op'.kind ∧ traits = traits' ∧ listing ts = listing us := by
  have hlist := congrArg String.toList h
  rw [toList_render, toList_render] at hlist
  obtain ⟨hkind, hlist⟩ := op.kind.readable_text op'.kind _ _ trivial (by simp) (by simp) hlist
  obtain ⟨htraits, hlist⟩ := TraitSet.readable_text htraits traits' _ _ htraits' (by simp) (by simp)
    (List.tail_eq_of_cons_eq hlist)
  have hterms := List.append_cancel_right (List.tail_eq_of_cons_eq hlist)
  exact ⟨hkind, htraits, listing_eq_of_intercalate_eq hts hus hterms⟩

theorem digest_eq_render (h : n.vertexId? = none) :
    n.digest mode = render n.operator n.traits
      (inputTerms mode 0 n.inputs ++ n.operator.termTexts mode) := by
  obtain ⟨op, inputs, traits, rowType⟩ := n
  rw [digest]
  intro id hid
  rw [vertexId?, hid] at h
  cases h

theorem digest_of_vertexId? {id : VertexId} (h : n.vertexId? = some id) :
    n.digest mode = "#" ++ toString id := by
  obtain ⟨op, inputs, traits, rowType⟩ := n
  cases op <;> cases h
  rw [digest]

theorem inputTerms_eq (idx : Nat) {ns : List Node} (h : ∀ n ∈ ns, n.vertexId?.isSome = true) :
    inputTerms mode idx ns = referenceTerms idx (ns.filterMap vertexId?) := by
  induction ns generalizing idx with
  | nil => rw [inputTerms, List.filterMap_nil, referenceTerms]
  | cons n ns ih =>
    rw [List.forall_mem_cons] at h
    obtain ⟨id, hid⟩ := Option.isSome_iff_exists.1 h.1
    rw [inputTerms, digest_of_vertexId? hid, ih _ h.2, List.filterMap_cons_some hid, referenceTerms]

theorem ne_empty_of_mem_referenceTerms {idx : Nat} {vs : List VertexId} :
    ∀ t ∈ referenceTerms idx vs, t ≠ "" := by
  induction vs generalizing idx with
  | nil => simp [referenceTerms]
  | cons v vs ih =>
    rw [referenceTerms, List.forall_mem_cons]
    exact ⟨by simp, ih⟩

theorem ne_empty_of_mem_termTexts {op : Operator} : ∀ t ∈ op.termTexts mode, t ≠ "" := by
  intro t ht
  obtain ⟨term, -, rfl⟩ := List.mem_map.1 ht
  simp

theorem ne_empty_of_mem_terms :
    ∀ t ∈ referenceTerms 0 n.references ++ n.operator.termTexts mode, t ≠ "" := by
  intro t ht
  rcases List.mem_append.1 ht with ht | ht
  · exact ne_empty_of_mem_referenceTerms t ht
  · exact ne_empty_of_mem_termTexts t ht

/-! ## Keys -/

/-- Nodes with the same types of fields whose operators are alike. Unless they stand for vertices,
their traits and the vertices that their inputs stand for are the same. -/
structure Alike (R : Expr → Expr → Prop) (n n' : Node) : Prop where
  operator : n.operator.Alike R n'.operator
  types : n.rowType.types = n'.rowType.types
  traits : n.vertexId? = none → n.traits = n'.traits
  references : n.vertexId? = none → n.references = n'.references

/-- Whether the inputs stand for vertices and the digest can be read. -/
def isLegible (n : Node) : Bool :=
  n.inputs.all (fun i => i.vertexId?.isSome) && n.traits.convention.isLegible &&
    n.operator.isLegible n.rowType.types n.traits.convention

theorem isLegible_iff : n.isLegible = true ↔ (∀ i ∈ n.inputs, i.vertexId?.isSome = true) ∧
    n.traits.convention.isLegible = true ∧
      n.operator.isLegible n.rowType.types n.traits.convention = true := by
  simp only [isLegible, Bool.and_eq_true, List.all_eq_true, and_assoc]

theorem digest_of_isLegible (h : n.isLegible = true) (hn : n.vertexId? = none) :
    n.digest .full = render n.operator n.traits
      (referenceTerms 0 n.references ++ n.operator.termTexts .full) := by
  rw [digest_eq_render hn, inputTerms_eq 0 (isLegible_iff.1 h).1, references]

theorem ne_vertex_of_vertexId? (h : n.vertexId? = none) (id : VertexId) :
    n.operator ≠ .vertex id := by
  intro hid
  rw [vertexId?, hid] at h
  cases h

theorem operator_of_vertexId? {id : VertexId} (h : n.vertexId? = some id) :
    n.operator = .vertex id := by
  obtain ⟨op, inputs, traits, rowType⟩ := n
  cases op <;> cases h
  rfl

/-- No expression has the digest of a placeholder. -/
theorem digest_ne {id : VertexId} (h : n.vertexId? = none) (h' : n'.vertexId? = some id) :
    n.digest mode ≠ n'.digest mode := by
  rw [digest_eq_render h, digest_of_vertexId? h']
  intro heq
  have hlist := congrArg String.toList heq
  rw [toList_render] at hlist
  cases hkind : n.operator.kind <;> simp [hkind, OperatorKind.text] at hlist

theorem alike_of_digest_eq (h : n.isLegible = true) (h' : n'.isLegible = true)
    (hn : n.vertexId? = none) (hn' : n'.vertexId? = none)
    (htypes : n.rowType.types = n'.rowType.types) (hdigest : n.digest .full = n'.digest .full) :
    n.Alike Operator.SameText n' := by
  rw [digest_of_isLegible h hn, digest_of_isLegible h' hn'] at hdigest
  obtain ⟨-, hconvention, hop⟩ := isLegible_iff.1 h
  obtain ⟨-, hconvention', hop'⟩ := isLegible_iff.1 h'
  obtain ⟨hkind, htraits, hterms⟩ := eq_of_render_eq hconvention hconvention' ne_empty_of_mem_terms
    ne_empty_of_mem_terms hdigest
  obtain ⟨hreferences, hterms⟩ := readable_references 0
    (Operator.startsOwn .full (ne_vertex_of_vertexId? hn))
    (Operator.startsOwn .full (ne_vertex_of_vertexId? hn')) hterms
  rw [← htypes, ← htraits] at hop'
  exact ⟨Operator.alike_of_listing hop hop' hkind hterms, htypes, fun _ => htraits,
    fun _ => hreferences⟩

theorem alike_of_key_eq (h : n.isLegible = true) (h' : n'.isLegible = true)
    (hkey : n.key .full = n'.key .full) : n.Alike Operator.SameText n' := by
  obtain ⟨hdigest, htypes⟩ := DigestKey.mk.inj hkey
  cases hn : n.vertexId? with
  | none =>
    cases hn' : n'.vertexId? with
    | none => exact alike_of_digest_eq h h' hn hn' htypes hdigest
    | some id' => exact absurd hdigest (digest_ne hn hn')
  | some id =>
    cases hn' : n'.vertexId? with
    | none => exact absurd hdigest.symm (digest_ne hn' hn)
    | some id' =>
      rw [digest_of_vertexId? hn, digest_of_vertexId? hn', String.append_right_inj] at hdigest
      refine ⟨?_, htypes, ?_, ?_⟩
      · rw [operator_of_vertexId? hn, operator_of_vertexId? hn']
        exact Nat.repr_injective hdigest
      · simp [hn]
      · simp [hn]

theorem Alike.vertexId?_eq {R : Expr → Expr → Prop} (h : n.Alike R n') :
    n.vertexId? = n'.vertexId? := by
  have hop := h.operator
  obtain ⟨op, inputs, traits, rowType⟩ := n
  obtain ⟨op', inputs', traits', rowType'⟩ := n'
  cases op with
  | vertex id =>
    cases op' with
    | vertex id' => exact congrArg some hop
    | _ => cases hop
  | _ =>
    cases op' with
    | vertex id' => cases hop
    | _ => rfl

theorem Alike.key_eq (h : n.isLegible = true) (h' : n'.isLegible = true)
    (halike : n.Alike Operator.SameText n') : n.key .full = n'.key .full := by
  rw [key, key, halike.types, DigestKey.mk.injEq]
  refine ⟨?_, rfl⟩
  cases hn : n.vertexId? with
  | none =>
    have hn' := halike.vertexId?_eq.symm.trans hn
    rw [digest_of_isLegible h hn, digest_of_isLegible h' hn', halike.references hn,
      halike.traits hn, halike.operator.termTexts_eq, render, render, halike.operator.kind]
  | some id =>
    have hn' := halike.vertexId?_eq.symm.trans hn
    rw [digest_of_vertexId? hn, digest_of_vertexId? hn']

theorem key_eq_iff (h : n.isLegible = true) (h' : n'.isLegible = true) :
    n.key .full = n'.key .full ↔ n.Alike Operator.SameText n' :=
  ⟨alike_of_key_eq h h', Alike.key_eq h h'⟩

/-- The terms in the digest of an expression over placeholders. -/
def shownTerms (mode : DigestMode) (n : Node) : List Char :=
  [',', ' '].intercalate ((referenceTerms 0 n.references ++ n.operator.termTexts mode).map
    String.toList)

/-- Keys tell the kinds, and the traits and terms as they are written one behind the other. -/
theorem written_eq_of_key_eq (hn : n.vertexId? = none) (hn' : n'.vertexId? = none)
    (hin : ∀ i ∈ n.inputs, i.vertexId?.isSome = true)
    (hin' : ∀ i ∈ n'.inputs, i.vertexId?.isSome = true) (hkey : n.key mode = n'.key mode) :
    n.operator.kind = n'.operator.kind ∧
      n.traits.text.toList ++ '(' :: (n.shownTerms mode ++ [')']) =
        n'.traits.text.toList ++ '(' :: (n'.shownTerms mode ++ [')']) := by
  have hdigest : n.digest mode = n'.digest mode := congrArg DigestKey.digest hkey
  rw [digest_eq_render hn, digest_eq_render hn', inputTerms_eq 0 hin, inputTerms_eq 0 hin'] at hdigest
  have hlist := congrArg String.toList hdigest
  rw [toList_render, toList_render] at hlist
  obtain ⟨hkind, hlist⟩ := n.operator.kind.readable_text n'.operator.kind _ _ trivial (by simp)
    (by simp) hlist
  exact ⟨hkind, List.tail_eq_of_cons_eq hlist⟩

theorem references_eq_of_shownTerms_eq (hn : n.vertexId? = none) (hn' : n'.vertexId? = none)
    (h : n.shownTerms mode = n'.shownTerms mode) : n.references = n'.references ∧
      listing (n.operator.termTexts mode) = listing (n'.operator.termTexts mode) :=
  readable_references 0 (Operator.startsOwn mode (ne_vertex_of_vertexId? hn))
    (Operator.startsOwn mode (ne_vertex_of_vertexId? hn'))
    (listing_eq_of_intercalate_eq ne_empty_of_mem_terms ne_empty_of_mem_terms h)

/-- Keys tell the kinds, what the inputs stand for, the terms of the operators and how the traits are
written, wherever the terms of the digests are found. -/
theorem parts_eq_of_key_eq (hplain : n.traits.isPlain = true) (hplain' : n'.traits.isPlain = true)
    (hn : n.vertexId? = none) (hn' : n'.vertexId? = none)
    (hin : ∀ i ∈ n.inputs, i.vertexId?.isSome = true)
    (hin' : ∀ i ∈ n'.inputs, i.vertexId?.isSome = true) (hkey : n.key mode = n'.key mode) :
    n.operator.kind = n'.operator.kind ∧ n.references = n'.references ∧
      listing (n.operator.termTexts mode) = listing (n'.operator.termTexts mode) ∧
        n.traits.text = n'.traits.text := by
  obtain ⟨hkind, hlist⟩ := written_eq_of_key_eq hn hn' hin hin' hkey
  have hword : ∀ {t : TraitSet}, t.isPlain = true → ∀ c ∈ t.text.toList, c ∉ ['('] := by
    intro t ht c hc hmem
    rw [List.mem_singleton.1 hmem] at hc
    exact of_decide_eq_true ht hc
  obtain ⟨htext, hlist⟩ := word_append_inj ['('] (hword hplain) (hword hplain') (by simp) (by simp)
    hlist
  obtain ⟨hreferences, hlisting⟩ := references_eq_of_shownTerms_eq hn hn'
    (List.append_cancel_right (List.tail_eq_of_cons_eq hlist))
  exact ⟨hkind, hreferences, hlisting, String.toList_injective htext⟩

theorem not_mem_shownTerms (h : ∀ t ∈ n.operator.termTexts mode, '(' ∉ t.toList) :
    ∀ c ∈ n.shownTerms mode, c ∉ ['('] := by
  have hreferences : ∀ vs idx, ∀ t ∈ referenceTerms idx vs, '(' ∉ t.toList := by
    have hdigits : ∀ k : Nat, '(' ∉ (toString k).toList := fun k => not_mem_nat (by decide)
    intro vs
    induction vs with
    | nil => simp [referenceTerms]
    | cons v vs ih =>
      intro idx
      rw [referenceTerms, List.forall_mem_cons]
      refine ⟨?_, ih (idx + 1)⟩
      simp only [String.toList_append, List.mem_append, hdigits, or_false]
      decide
  intro c hc hmem
  rw [List.mem_singleton.1 hmem] at hc
  refine not_mem_intercalate (by decide) (fun x hx => ?_) hc
  obtain ⟨t, ht, rfl⟩ := List.mem_map.1 hx
  exact (List.mem_append.1 ht).elim (hreferences _ 0 t) (h t)

/-- Where no term has the parenthesis that opens the terms, keys tell what the inputs stand for,
whatever the traits: the terms are behind the last one. -/
theorem references_eq_of_key_eq (h : ∀ t ∈ n.operator.termTexts mode, '(' ∉ t.toList)
    (h' : ∀ t ∈ n'.operator.termTexts mode, '(' ∉ t.toList)
    (hn : n.vertexId? = none) (hn' : n'.vertexId? = none)
    (hin : ∀ i ∈ n.inputs, i.vertexId?.isSome = true)
    (hin' : ∀ i ∈ n'.inputs, i.vertexId?.isSome = true) (hkey : n.key mode = n'.key mode) :
    n.references = n'.references := by
  obtain ⟨-, hlist⟩ := written_eq_of_key_eq hn hn' hin hin' hkey
  have hreverse := congrArg List.reverse hlist
  simp only [List.reverse_append, List.reverse_cons, List.reverse_nil, List.append_assoc,
    List.nil_append, List.cons_append, List.cons.injEq, true_and] at hreverse
  have hword : ∀ {m : Node}, (∀ t ∈ m.operator.termTexts mode, '(' ∉ t.toList) →
      ∀ c ∈ (m.shownTerms mode).reverse, c ∉ ['('] := fun hm c hc =>
    not_mem_shownTerms hm c (List.mem_reverse.1 hc)
  obtain ⟨hterms, -⟩ := word_append_inj ['('] (hword h) (hword h') (by simp) (by simp) hreverse
  exact (references_eq_of_shownTerms_eq hn hn' (List.reverse_injective hterms)).1

/-- Where conventions are legible, keys tell the traits too. -/
theorem traits_eq_of_key_eq (hlegible : n.traits.convention.isLegible = true)
    (hlegible' : n'.traits.convention.isLegible = true)
    (hn : n.vertexId? = none) (hn' : n'.vertexId? = none)
    (hin : ∀ i ∈ n.inputs, i.vertexId?.isSome = true)
    (hin' : ∀ i ∈ n'.inputs, i.vertexId?.isSome = true) (hkey : n.key mode = n'.key mode) :
    n.operator.kind = n'.operator.kind ∧ n.traits = n'.traits ∧ n.references = n'.references := by
  have hdigest : n.digest mode = n'.digest mode := congrArg DigestKey.digest hkey
  rw [digest_eq_render hn, digest_eq_render hn', inputTerms_eq 0 hin, inputTerms_eq 0 hin'] at hdigest
  obtain ⟨hkind, htraits, hterms⟩ := eq_of_render_eq hlegible hlegible' ne_empty_of_mem_terms
    ne_empty_of_mem_terms hdigest
  obtain ⟨hreferences, -⟩ := readable_references 0
    (Operator.startsOwn mode (ne_vertex_of_vertexId? hn))
    (Operator.startsOwn mode (ne_vertex_of_vertexId? hn')) hterms
  exact ⟨hkind, htraits, hreferences⟩

/-- Expressions of the family over placeholders with equal keys have the same operator, the same traits
and the same inputs. -/
def KeysTellNodes (F : Operator → TraitSet → Prop) (mode : DigestMode) : Prop :=
  ∀ n n' : Node, n.vertexId? = none → n'.vertexId? = none →
    (∀ i ∈ n.inputs, i.vertexId?.isSome = true) → (∀ i ∈ n'.inputs, i.vertexId?.isSome = true) →
      F n.operator n.traits → F n'.operator n'.traits → n.key mode = n'.key mode →
        n.operator = n'.operator ∧ n.traits = n'.traits ∧ n.references = n'.references

/-- Keys tell expressions of plain traits if no two of the family show the same traits and terms. -/
theorem keysTellNodes_of_terms {F : Operator → TraitSet → Prop} {mode : DigestMode}
    (hplain : ∀ op t, F op t → t.isPlain = true)
    (hterms : ∀ op op' t t', F op t → F op' t' → op.kind = op'.kind → t.text = t'.text →
      listing (op.termTexts mode) = listing (op'.termTexts mode) → op = op' ∧ t = t') :
    KeysTellNodes F mode := by
  intro n n' hn hn' hin hin' hF hF' hkey
  obtain ⟨hkind, hreferences, hlisting, htext⟩ := parts_eq_of_key_eq (hplain _ _ hF)
    (hplain _ _ hF') hn hn' hin hin' hkey
  obtain ⟨hop, htraits⟩ := hterms _ _ _ _ hF hF' hkind htext hlisting
  exact ⟨hop, htraits, hreferences⟩

end Node

/-! ## Unambiguous expressions -/

namespace Operator

def exprs : Operator → List Expr
  | filter e => [e]
  | projection es _ => es
  | join _ e => [e]
  | _ => []

theorem forall₂_imp_of_mem {R S : Expr → Expr → Prop} {es es' : List Expr}
    (h : List.Forall₂ R es es') (himp : ∀ e ∈ es, ∀ e' ∈ es', R e e' → S e e') :
    List.Forall₂ S es es' := by
  induction h with
  | nil => exact .nil
  | cons hab hrest ih =>
    simp only [List.forall_mem_cons] at himp
    exact .cons (himp.1.1 hab) (ih fun e he e' he' => (himp.2 e he).2 e' he')

theorem Alike.imp {R S : Expr → Expr → Prop} {op op' : Operator} (h : op.Alike R op')
    (himp : ∀ e ∈ op.exprs, ∀ e' ∈ op'.exprs, R e e' → S e e') : op.Alike S op' := by
  cases op with
  | filter e =>
    cases op' with
    | filter e' => exact himp e (by simp [exprs]) e' (by simp [exprs]) h
    | _ => cases h
  | projection es names =>
    cases op' with
    | projection es' names' => exact ⟨forall₂_imp_of_mem h.1 himp, h.2⟩
    | _ => cases h
  | join type e =>
    cases op' with
    | join type' e' => exact ⟨h.1, himp e (by simp [exprs]) e' (by simp [exprs]) h.2⟩
    | _ => cases h
  | _ => cases op' <;> exact h

theorem isLegible_of_mem_exprs {types : List DataType} {convention : Convention} {op : Operator}
    (h : op.isLegible types convention = true) : ∀ e ∈ op.exprs, e.isLegible = true := by
  cases op with
  | filter e => simpa [exprs] using show e.isLegible = true from h
  | projection es names =>
    simp only [isLegible, Bool.and_eq_true, List.all_eq_true] at h
    exact h.1
  | join type e => simpa [exprs] using show e.isLegible = true from h
  | _ => simp [exprs]

end Operator

namespace Node

variable {n n' : Node}

theorem Alike.imp {R S : Expr → Expr → Prop} (h : n.Alike R n')
    (himp : ∀ e ∈ n.operator.exprs, ∀ e' ∈ n'.operator.exprs, R e e' → S e e') : n.Alike S n' :=
  ⟨h.operator.imp himp, h.types, h.traits, h.references⟩

/-- Whether equal texts of its expressions mean equal expressions. -/
def isUnambiguous (n : Node) : Bool := n.operator.exprs.all Expr.isUnambiguous

theorem Alike.eq_of_isUnambiguous (h : n.isLegible = true) (h' : n'.isLegible = true)
    (hu : n.isUnambiguous = true) (hu' : n'.isUnambiguous = true)
    (halike : n.Alike Operator.SameText n') : n.Alike Eq n' := by
  obtain ⟨-, -, hop⟩ := isLegible_iff.1 h
  obtain ⟨-, -, hop'⟩ := isLegible_iff.1 h'
  rw [isUnambiguous, List.all_eq_true] at hu hu'
  apply halike.imp
  intro e he e' he' htext
  have hitems := (Expr.text_eq_iff (Operator.isLegible_of_mem_exprs hop e he)
    (Operator.isLegible_of_mem_exprs hop' e' he')).1 htext
  exact Expr.eq_of_items_eq (hu e he) (hu' e' he') hitems

end Node

end QueryPlanner
