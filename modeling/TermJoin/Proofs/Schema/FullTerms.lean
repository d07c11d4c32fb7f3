import TermJoin.Ledger
import TermJoin.Proofs.Segment.Terms

/-!
# Terms of full values

A number is indexed under several terms, and one of them is that of the full value. It is told from the
others by what it starts with.

* **`NumericTerm.isPrefixOf_encode_iff`**: the term of a number starts like one of a full value exactly if
  nothing was shifted out.
* `Schema.isFull`: whether a term of a field stands for a full value, decided from its text.
* **`Schema.mem_fullTerms_iff`**: the terms that queries look up are the full ones among all terms.
* `Schema.holds_queryTerm`: for the term of a query, having it and having the value are the same.
-/

namespace TermJoin

namespace NumericTerm

/-- The decimal digits of a shift are two zeros only if it is zero. -/
theorem fixedDigits_shift_iff {shift : Nat} (h : shift < 64) :
    fixedDigits 10 2 shift = ['0', '0'] ↔ shift = 0 := by
  have hall : ∀ shift < 64, fixedDigits 10 2 shift = ['0', '0'] ↔ shift = 0 := by decide
  exact hall shift h

theorem length_fixedDigits (base width n : Nat) : (fixedDigits base width n).length = width := by
  induction width generalizing n with
  | zero => rfl
  | succ width ih => rw [fixedDigits, List.length_append, ih, List.length_singleton]

/-- **Only the term of the full number starts as such a term does.** -/
theorem isPrefixOf_encode_iff {v : Int64} {shift : Nat} (h : shift < 64) :
    fullStem.toList.isPrefixOf (encode v shift).toList = true ↔ shift = 0 := by
  have hstem : fullStem.toList = '#' :: ['0', '0'] := by decide
  rw [hstem, encode, String.toList_ofList, List.isPrefixOf_iff_prefix, List.cons_prefix_cons,
    and_iff_right rfl, ← fixedDigits_shift_iff h]
  constructor
  · intro hprefix
    have hdigits := List.prefix_append (fixedDigits 10 2 shift)
      (fixedDigits 16 16 (sortable v >>> UInt64.ofNat shift).toNat)
    have hlength := length_fixedDigits 10 2 shift
    exact ((List.prefix_of_prefix_length_le hprefix hdigits
      (Nat.le_of_eq hlength.symm)).eq_of_length hlength.symm).symm
  · intro heq
    rw [heq]
    exact List.prefix_append _ _

end NumericTerm

namespace FieldType

theorem lt_of_mem_shifts {step : UInt8} {shift : Nat} (h : shift ∈ shifts step) : shift < 64 :=
  List.mem_range.1 (List.mem_filter.1 h).1

theorem zero_mem_shifts (step : UInt8) : 0 ∈ shifts step := by
  rw [shifts, List.mem_filter]
  exact ⟨List.mem_range.2 (by decide), by rw [Nat.zero_mod]; rfl⟩

/-- Whether a term of the type stands for a full value, decided from its text. -/
def isFull (type : FieldType) (text : String) : Bool :=
  match type.fullStem? with
  | none => true
  | some stem => stem.toList.isPrefixOf text.toList

theorem queryTerm_eq_ok_iff {type : FieldType} {field value text : String} :
    type.queryTerm field value = .ok text ↔
      (∃ texts, type.indexTerms field value = .ok texts ∧ text ∈ texts) ∧
        type.isFull text = true := by
  cases type with
  | text =>
    simp [queryTerm, indexTerms, isFull, fullStem?, eq_comm]
  | int64 step =>
    rw [queryTerm, indexTerms, isFull, fullStem?]
    cases readNumber field value with
    | error cause =>
      refine iff_of_false (fun h => nomatch h) ?_
      rintro ⟨⟨texts, h, _⟩, _⟩
      exact nomatch h
    | ok v =>
      change Except.ok (NumericTerm.full v) = Except.ok text ↔ (∃ texts,
        Except.ok ((shifts step).map (NumericTerm.encode v)) = Except.ok texts ∧ text ∈ texts) ∧ _
      rw [Except.ok.injEq]
      constructor
      · rintro rfl
        exact ⟨⟨_, rfl, List.mem_map.2 ⟨0, zero_mem_shifts step, rfl⟩⟩,
          (NumericTerm.isPrefixOf_encode_iff (by decide)).2 rfl⟩
      · rintro ⟨⟨texts, htexts, htext⟩, hfull⟩
        cases htexts
        obtain ⟨shift, hshift, rfl⟩ := List.mem_map.1 htext
        rw [(NumericTerm.isPrefixOf_encode_iff (lt_of_mem_shifts hshift)).1 hfull]
        rfl

end FieldType

namespace Schema

/-- Whether a term of the field stands for a full value, decided from its text. -/
def isFull (schema : Schema) (field text : String) : Bool :=
  (schema.fieldType? field).all (·.isFull text)

variable {schema : Schema} {doc : Document} {field text : String}

theorem isFull_iff :
    schema.isFull field text = true ↔
      ∀ stem, (schema.fieldType? field).bind (·.fullStem?) = some stem →
        stem.toList.isPrefixOf text.toList = true := by
  rw [isFull]
  cases schema.fieldType? field with
  | none => exact iff_of_true rfl fun stem h => nomatch h
  | some type =>
    rw [Option.all_some, FieldType.isFull, Option.bind_some]
    cases type.fullStem? with
    | none => exact iff_of_true rfl fun stem h => nomatch h
    | some stem => simp only [Option.some.injEq, forall_eq']

/-- **The terms that queries look up are the full ones among all terms of the document.** -/
theorem mem_fullTerms_iff :
    text ∈ schema.fullTerms doc field ↔
      text ∈ schema.textsIn doc field ∧ schema.isFull field text = true := by
  rw [fullTerms, textsIn, isFull, List.mem_flatMap]
  cases htype : schema.fieldType? field with
  | none => simp [textsOf, htype]
  | some type =>
    rw [List.mem_filterMap, Option.all_some, ← exists_and_right]
    refine exists_congr fun value => ?_
    have hterm : (type.queryTerm field value).toOption = some text ↔
        type.queryTerm field value = .ok text := by
      cases type.queryTerm field value <;> simp [Except.toOption]
    rw [hterm, FieldType.queryTerm_eq_ok_iff, textsOf, htype, and_assoc]
    refine and_congr_right fun _ => and_congr_left fun _ => ?_
    cases hterms : type.indexTerms field value <;> simp [hterms]

theorem holds_queryTerm {type : FieldType} {value : String} (htype : schema.fieldType? field = some type)
    (h : type.queryTerm field value = .ok text) :
    schema.holds doc ⟨field, text⟩ = schema.hasValue field text doc := by
  rw [Bool.eq_iff_iff, holds_iff, hasValue, List.contains_iff_mem, mem_fullTerms_iff, isFull, htype,
    Option.all_some, and_iff_left (FieldType.queryTerm_eq_ok_iff.1 h).2]

end Schema

end TermJoin
