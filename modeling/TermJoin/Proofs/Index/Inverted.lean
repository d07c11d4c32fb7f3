import TermJoin.Proofs.Index.Sound

/-!
# Inverted indexes

The tables of a segment are read here entry by entry: which lists of ordinals they hold, under which
fields and texts.

* `Schema.Indexes`: a document has a value in the field that is indexed under the text.
* `Segment.HasEntry`, `PendingSegment.HasEntry`: a list that stands in the tables;
  `Segment.docs?_eq_some_iff`: the lists that are found are those.
* `Inverts`: the entries are the ascending lists of the documents that are indexed there, none of them
  empty; they are what is found, and only documents of the segment are marked as deleted.
* **`Index.inverts_after`**: at every point of every history, and in every segment.
-/

namespace TermJoin

variable {schema : Schema} {documents : Array Document}

/-- Some value that the document has in the field is indexed under the text. -/
def Schema.Indexes (schema : Schema) (doc : Document) (field text : String) : Prop :=
  ∃ type, schema.fieldType? field = some type ∧
    ∃ value ∈ doc.values field, ∃ texts, type.indexTerms field value = .ok texts ∧ text ∈ texts

theorem Schema.holds_iff_indexes {doc : Document} {field text : String} :
    schema.holds doc ⟨field, text⟩ = true ↔ schema.Indexes doc field text := by
  rw [holds, Indexes]
  cases schema.fieldType? field with
  | none => simp
  | some type =>
    simp only [List.any_eq_true, Option.some.injEq, exists_eq_left']
    refine exists_congr fun value => and_congr Iff.rfl ?_
    cases type.indexTerms field value <;> simp

/-- **The list under a term is told by its elements.** There is one exactly if some document has the term. -/
theorem Schema.listed_eq_some_iff {term : Term} {docs : DocList} :
    schema.listed documents term = some docs ↔
      docs ≠ #[] ∧ docs.toList.Pairwise (· < ·) ∧
        ∀ d, d ∈ docs ↔ ∃ doc, documents[d]? = some doc ∧ schema.holds doc term = true := by
  have hascending : (schema.having documents term).Pairwise (· < ·) := List.pairwise_lt_range.filter _
  constructor
  · intro h
    have hdocs := toList_of_listed h
    refine ⟨?_, hdocs ▸ hascending, fun d => ?_⟩
    · rintro rfl
      rw [listed_eq_none_iff.2 hdocs.symm] at h
      cases h
    · rw [← Array.mem_toList_iff, hdocs, mem_having]
  · rintro ⟨hne, hpairwise, hmem⟩
    have hdocs : docs.toList = schema.having documents term := by
      refine hpairwise.eq_of_mem_iff hascending fun d => ?_
      rw [Array.mem_toList_iff, hmem, mem_having]
    rw [listed, ← hdocs, if_neg]
    simpa using hne

/-! ## Entries -/

/-- The dictionary of the field has this list under the text. -/
def Segment.HasEntry (segment : Segment) (field text : String) (docs : DocList) : Prop :=
  ∃ dict, segment.fields[field]? = some dict ∧ (text, docs) ∈ dict.entries

/-- The table of the field has this list under the text. -/
def PendingSegment.HasEntry (segment : PendingSegment) (field text : String) (docs : DocList) : Prop :=
  ∃ table, segment.terms[field]? = some table ∧ table[text]? = some docs

theorem Segment.docs?_eq_some_iff {segment : Segment} {field text : String} {docs : DocList} :
    segment.docs? field text = some docs ↔ segment.HasEntry field text docs := by
  rw [docs?, Option.bind_eq_some_iff]
  simp only [HasEntry, Dictionary.docs?_eq_some_iff]

theorem PendingSegment.docs?_eq_some_iff {segment : PendingSegment} {field text : String}
    {docs : DocList} : segment.docs? field text = some docs ↔ segment.HasEntry field text docs :=
  Option.bind_eq_some_iff

/-- The entries of a segment are those of its documents: under each text of each field stands the
ascending list of the documents that are indexed there, unless that would be empty. A list is found exactly
if it stands there, and only documents of the segment are marked as deleted. -/
structure Inverts (schema : Schema) (documents : Array Document)
    (entry : String → String → DocList → Prop) (docs? : String → String → Option DocList)
    (deleted : Bitmap) : Prop where
  entry_iff : ∀ field text docs, entry field text docs ↔
    docs ≠ #[] ∧ docs.toList.Pairwise (· < ·) ∧
      ∀ d, d ∈ docs ↔ ∃ doc, documents[d]? = some doc ∧ schema.Indexes doc field text
  found_iff : ∀ field text docs, docs? field text = some docs ↔ entry field text docs
  deleted_lt : ∀ d ∈ deleted, d < documents.size

theorem Mirrors.inverts {entry : String → String → DocList → Prop} {docs? : String → String → Option DocList}
    {deleted : Bitmap} (h : Mirrors schema documents (fun term => docs? term.field term.text) deleted)
    (hfound : ∀ {field text docs}, docs? field text = some docs ↔ entry field text docs) :
    Inverts schema documents entry docs? deleted where
  entry_iff field text docs := by
    have hdocs : docs? field text = schema.listed documents ⟨field, text⟩ := h.docs ⟨field, text⟩
    rw [← hfound, hdocs, Schema.listed_eq_some_iff]
    simp only [Schema.holds_iff_indexes]
  found_iff _ _ _ := hfound
  deleted_lt := h.deleted

/-! ## Histories -/

namespace Index

/-- **Whatever is asked of an index, its tables stay inverted documents**, in the sealed segments and in
the pending one. -/
theorem inverts_after (schema : Schema) (config : Config) (history : List Request) :
    let index := ({ schema, config : Index }).after history
    (∀ segment ∈ index.segments,
        Inverts schema segment.documents segment.HasEntry segment.docs? segment.deleted) ∧
      Inverts schema index.pending.documents index.pending.HasEntry index.pending.docs?
        index.pending.deleted := by
  intro index
  have hsound : index.Sound := (sound_empty schema config).after history
  have hschema : index.schema = schema := (settings_after _ history).1
  constructor
  · intro segment hsegment
    have h := hsound.segments segment hsegment
    rw [hschema] at h
    exact h.toMirrors.inverts Segment.docs?_eq_some_iff
  · have h := hsound.pending
    rw [hschema] at h
    exact Mirrors.inverts h PendingSegment.docs?_eq_some_iff

/-- A person of two numbers that differ in the lowest bits only, one of them written twice; another one
of a number close to these, deleted before it is sealed; and a third one, who is not sealed. -/
def closeNumbers : List Request := [
  .add (.ofList [("id", "5"), ("id", "6"), ("id", "+5")]), .add (.ofList [("id", "7")]),
  .delete 1, .commit, .add (.ofList [("id", "5")])]

/-- The numbers share a term of few bits, under which each person stands once. -/
theorem closeNumbers_inverts :
    let index := ({ schema := .familyTree : Index }).after closeNumbers
    ∃ segment, index.segments = [segment] ∧
      segment.HasEntry "id" (NumericTerm.encode 5 16) #[0, 1] ∧ ∀ d ∈ segment.deleted, d < 2 := by
  intro index
  have hdocuments : index.segments.map (·.documents) =
      [#[.ofList [("id", "5"), ("id", "6"), ("id", "+5")], .ofList [("id", "7")]]] := by
    decide +kernel
  obtain ⟨segment, hsegments, hsegment⟩ := List.map_eq_singleton_iff.1 hdocuments
  have hmem : segment ∈ index.segments := hsegments ▸ List.mem_singleton_self segment
  have h := (inverts_after .familyTree default closeNumbers).1 segment hmem
  rw [hsegment] at h
  refine ⟨segment, hsegments, (h.entry_iff _ _ _).2 ⟨by decide, by decide, fun d => ?_⟩, h.deleted_lt⟩
  constructor
  · intro hd
    have hd : d = 0 ∨ d = 1 := by simpa using hd
    rcases hd with rfl | rfl
    · exact ⟨_, rfl, Schema.holds_iff_indexes.1 (by decide +kernel)⟩
    · exact ⟨_, rfl, Schema.holds_iff_indexes.1 (by decide +kernel)⟩
  · rintro ⟨doc, hdoc, _⟩
    have hlt : d < 2 := (Array.getElem?_eq_some_iff.1 hdoc).1
    have hd : d = 0 ∨ d = 1 := by omega
    simpa using hd

end Index

end TermJoin
