import TermJoin.Document

/-!
# Terms of documents

A document is indexed under the terms of all its values. Looking at one field of the stored document
finds the same terms.

* `Schema.textsOf`: the texts that a value of a field is indexed under, none if it does not fit.
* **`Schema.holds_iff`**: a document has a term exactly if one of its values is indexed under it.
* **`Schema.mem_termsOf_iff`**: an indexed document was recorded under exactly the terms it has.
-/

namespace TermJoin

namespace Document

theorem mem_fieldValues {doc : Document} {field value : String} :
    (field, value) ∈ doc.fieldValues ↔ value ∈ doc.values field := by
  rw [fieldValues, List.mem_flatMap, values, values?]
  constructor
  · rintro ⟨⟨name, values⟩, hfield, hvalue⟩
    obtain ⟨v, hv, heq⟩ := List.mem_map.1 hvalue
    cases heq
    rw [Std.ExtTreeMap.mem_toList_iff_getElem?_eq_some] at hfield
    rw [hfield, Option.getD_some]
    exact hv
  · intro h
    cases hvalues : doc.fields[field]? with
    | none =>
      rw [hvalues, Option.getD_none] at h
      exact absurd h List.not_mem_nil
    | some values =>
      rw [hvalues, Option.getD_some] at h
      exact ⟨(field, values), Std.ExtTreeMap.mem_toList_iff_getElem?_eq_some.2 hvalues,
        List.mem_map.2 ⟨value, h, rfl⟩⟩

end Document

namespace Schema

variable {schema : Schema}

/-- The texts that a value is indexed under in a field. -/
def textsOf (schema : Schema) (field value : String) : List String :=
  match schema.fieldType? field with
  | none => []
  | some type =>
    match type.indexTerms field value with
    | .ok texts => texts
    | .error _ => []

/-- The texts that a document is indexed under in a field. -/
def textsIn (schema : Schema) (doc : Document) (field : String) : List String :=
  (doc.values field).flatMap (schema.textsOf field)

/-- **A document has a term exactly if one of its values is indexed under it.** -/
theorem holds_iff {doc : Document} {field text : String} :
    schema.holds doc ⟨field, text⟩ = true ↔ text ∈ schema.textsIn doc field := by
  rw [holds, textsIn, List.mem_flatMap]
  cases htype : schema.fieldType? field with
  | none =>
    refine ⟨fun h => absurd h (by simp), ?_⟩
    rintro ⟨value, _, h⟩
    rw [textsOf, htype] at h
    exact absurd h List.not_mem_nil
  | some type =>
    simp only [List.any_eq_true, textsOf, htype]
    refine exists_congr fun value => and_congr Iff.rfl ?_
    cases type.indexTerms field value with
    | error cause => simp
    | ok texts => simp

theorem mem_termsOfValue_iff {field value : String} {terms : List Term}
    (h : schema.termsOfValue field value = .ok terms) (term : Term) :
    term ∈ terms ↔ term.field = field ∧ term.text ∈ schema.textsOf field value := by
  rw [termsOfValue] at h
  rw [textsOf]
  cases htype : schema.fieldType? field with
  | none => simp [htype] at h
  | some type =>
    simp only [htype] at h ⊢
    cases htexts : type.indexTerms field value with
    | error cause => simp [htexts] at h
    | ok texts =>
      simp only [htexts, Except.ok.injEq] at h
      subst h
      rw [List.mem_map]
      constructor
      · rintro ⟨text, htext, rfl⟩
        exact ⟨rfl, htext⟩
      · rintro ⟨rfl, htext⟩
        exact ⟨term.text, htext, rfl⟩

theorem mem_termsOfValues_iff {values : List (String × String)} {terms : List Term}
    (h : schema.termsOfValues values = .ok terms) (term : Term) :
    term ∈ terms ↔ ∃ value, (term.field, value) ∈ values ∧
      term.text ∈ schema.textsOf term.field value := by
  induction values generalizing terms with
  | nil =>
    simp only [termsOfValues, Except.ok.injEq] at h
    subst h
    simp
  | cons pair rest ih =>
    obtain ⟨field, value⟩ := pair
    simp only [termsOfValues, bind, Except.bind, pure, Except.pure] at h
    cases hvalue : schema.termsOfValue field value with
    | error fault => simp [hvalue] at h
    | ok first =>
      cases hrest : schema.termsOfValues rest with
      | error fault => simp [hvalue, hrest] at h
      | ok others =>
        simp only [hvalue, hrest, Except.ok.injEq] at h
        subst h
        rw [List.mem_append, mem_termsOfValue_iff hvalue, ih hrest]
        simp only [List.mem_cons, Prod.mk.injEq, or_and_right, exists_or]
        refine or_congr ?_ Iff.rfl
        constructor
        · rintro ⟨rfl, htext⟩
          exact ⟨value, ⟨rfl, rfl⟩, htext⟩
        · rintro ⟨_, ⟨rfl, rfl⟩, htext⟩
          exact ⟨rfl, htext⟩

/-- **A document that can be indexed is recorded under exactly the terms it has.** -/
theorem mem_termsOf_iff {doc : Document} {terms : List Term} (h : schema.termsOf doc = .ok terms)
    (term : Term) : term ∈ terms ↔ schema.holds doc term = true := by
  rw [mem_termsOfValues_iff h, holds_iff, textsIn, List.mem_flatMap]
  exact exists_congr fun value => and_congr Document.mem_fieldValues Iff.rfl

end Schema

end TermJoin
