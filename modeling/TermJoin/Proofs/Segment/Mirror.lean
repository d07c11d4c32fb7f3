import TermJoin.Segment.Basic
import TermJoin.Proofs.Segment.Terms

/-!
# Postings mirror documents

The postings of a segment are a second account of its documents: under each term stand exactly the
documents that have it, in ascending order, and a term without documents has no entry.

* `Schema.having`, `Schema.listed`: the documents that have a term, found by looking at all of them.
* `Mirrors`, `PendingSegment.Sound`, `Segment.Sound`: the postings are those, and marks of deletion
  stand only at documents of the segment.
* **`PendingSegment.Sound.add`**, `PendingSegment.Sound.toSegment`, `Segment.Sound.delete`,
  `Segment.Sound.deleteTerm`: the writer keeps it so.
-/

namespace TermJoin

namespace Schema

variable (schema : Schema)

/-- The ordinals of the documents that have a term, ascending. -/
def having (documents : Array Document) (term : Term) : List Nat :=
  (List.range documents.size).filter fun d => documents[d]?.any (schema.holds · term)

/-- The ordinals of the documents that have a term, if there are any. -/
def listed (documents : Array Document) (term : Term) : Option DocList :=
  if (schema.having documents term).isEmpty then none else some (schema.having documents term).toArray

variable {schema} {documents : Array Document} {term : Term}

theorem mem_having {d : Nat} :
    d ∈ schema.having documents term ↔
      ∃ doc, documents[d]? = some doc ∧ schema.holds doc term = true := by
  rw [having, List.mem_filter, List.mem_range, Option.any_eq_true]
  constructor
  · rintro ⟨_, h⟩
    exact h
  · rintro ⟨doc, hdoc, h⟩
    exact ⟨(Array.getElem?_eq_some_iff.1 hdoc).1, doc, hdoc, h⟩

theorem lt_size_of_mem_having {d : Nat} (h : d ∈ schema.having documents term) :
    d < documents.size := by
  obtain ⟨doc, hdoc, _⟩ := mem_having.1 h
  exact (Array.getElem?_eq_some_iff.1 hdoc).1

theorem having_push (doc : Document) :
    schema.having (documents.push doc) term =
      schema.having documents term ++ if schema.holds doc term = true then [documents.size] else [] := by
  rw [having, Array.size_push, List.range_succ, List.filter_append, having]
  congr 1
  · refine List.filter_congr fun d hd => ?_
    rw [Array.getElem?_push_lt (List.mem_range.1 hd),
      Array.getElem?_eq_getElem (List.mem_range.1 hd)]
  · rw [List.filter_cons, List.filter_nil, Array.getElem?_push_size, Option.any_some]

theorem listed_push_of_holds {doc : Document} (h : schema.holds doc term = true) :
    schema.listed (documents.push doc) term =
      some (schema.having documents term ++ [documents.size]).toArray := by
  rw [listed, having_push, if_pos h, if_neg (by simp)]

theorem listed_push_of_not_holds {doc : Document} (h : ¬ schema.holds doc term = true) :
    schema.listed (documents.push doc) term = schema.listed documents term := by
  rw [listed, having_push, if_neg h, List.append_nil]
  rfl

theorem listed_eq_none_iff : schema.listed documents term = none ↔ schema.having documents term = [] := by
  rw [listed]
  split <;> simp_all

theorem toList_listed :
    ((schema.listed documents term).getD #[]).toList = schema.having documents term := by
  rw [listed]
  split <;> simp_all

theorem toList_of_listed {docs : DocList} (h : schema.listed documents term = some docs) :
    docs.toList = schema.having documents term := by
  rw [← toList_listed, h, Option.getD_some]

end Schema

/-! ## Recording the terms of a document -/

namespace TermTable

theorem append_append (docs : DocList) (d : Nat) : append (append docs d) d = append docs d := by
  rw [append, if_pos]
  rw [append]
  split
  · assumption
  · simp

/-- Recording a document under some terms changes the lists of these and no others. -/
theorem docs?_foldl_record (table : TermTable) (d : Nat) (terms : List Term) (term : Term) :
    (terms.foldl (fun table term => table.record d term) table).docs? term.field term.text =
      if term ∈ terms then some (append ((table.docs? term.field term.text).getD #[]) d)
      else table.docs? term.field term.text := by
  induction terms generalizing table with
  | nil => simp
  | cons first rest ih =>
    rw [List.foldl_cons, ih, docs?_record]
    by_cases hfirst : first = term
    · subst hfirst
      simp only [if_true, Option.getD_some, append_append, List.mem_cons_self]
      split <;> rfl
    · simp [hfirst, Ne.symm hfirst]

end TermTable

/-! ## Sound segments -/

/-- The postings under each term are those of the documents, and only these can be deleted. -/
structure Mirrors (schema : Schema) (documents : Array Document) (docs? : Term → Option DocList)
    (deleted : Bitmap) : Prop where
  docs : ∀ term, docs? term = schema.listed documents term
  deleted : ∀ d ∈ deleted, d < documents.size

/-- The postings of a pending segment are those of its documents. -/
def PendingSegment.Sound (schema : Schema) (segment : PendingSegment) : Prop :=
  Mirrors schema segment.documents (fun term => segment.docs? term.field term.text) segment.deleted

/-- The postings of a segment are those of its documents, and there is a document. -/
structure Segment.Sound (schema : Schema) (segment : Segment) : Prop extends
    Mirrors schema segment.documents (fun term => segment.docs? term.field term.text)
      segment.deleted where
  pos : 0 < segment.count

theorem mem_markAll {deleted : Bitmap} {docs : DocList} {d : Nat} :
    d ∈ (markAll deleted docs).2 ↔ d ∈ deleted ∨ d ∈ docs.toList := by
  rw [markAll, Bitmap.insertAll, Std.ExtTreeSet.mem_insertMany_list, List.contains_iff_mem]

namespace Mirrors

variable {schema : Schema} {documents : Array Document} {docs? : Term → Option DocList}
  {deleted : Bitmap}

theorem insert (h : Mirrors schema documents docs? deleted) {d : Nat} (hd : d < documents.size) :
    Mirrors schema documents docs? (deleted.insert d) where
  docs := h.docs
  deleted e he := by
    rcases Std.ExtTreeSet.mem_insert.1 he with heq | he
    · rw [← Nat.compare_eq_eq.1 heq]
      exact hd
    · exact h.deleted e he

theorem markAll (h : Mirrors schema documents docs? deleted) (term : Term) {docs : DocList}
    (hdocs : docs? term = some docs) : Mirrors schema documents docs? (markAll deleted docs).2 where
  docs := h.docs
  deleted d hd := by
    rcases mem_markAll.1 hd with hd | hd
    · exact h.deleted d hd
    · rw [Schema.toList_of_listed ((h.docs term).symm.trans hdocs)] at hd
      exact Schema.lt_size_of_mem_having hd

end Mirrors

variable {schema : Schema}

namespace PendingSegment

theorem sound_empty : Sound schema {} where
  docs _ := rfl
  deleted _ hd := absurd hd Std.ExtTreeSet.not_mem_empty

variable {segment : PendingSegment}

theorem docs?_add (segment : PendingSegment) (doc : Document) (terms : List Term) (term : Term) :
    (segment.add doc terms).docs? term.field term.text =
      if term ∈ terms then
        some (TermTable.append ((segment.docs? term.field term.text).getD #[]) segment.count)
      else segment.docs? term.field term.text :=
  TermTable.docs?_foldl_record segment.terms segment.count terms term

/-- **Adding a document keeps the postings those of the documents.** -/
theorem Sound.add (h : segment.Sound schema) {doc : Document} {terms : List Term}
    (hterms : schema.termsOf doc = .ok terms) : (segment.add doc terms).Sound schema where
  docs term := by
    change _ = schema.listed (segment.documents.push doc) term
    have hdocs := h.docs term
    change segment.docs? term.field term.text = _ at hdocs
    rw [docs?_add, hdocs]
    by_cases hterm : term ∈ terms
    · -- the ordinal of the new document is in no list yet, so it is appended
      have hback : ((schema.listed segment.documents term).getD #[]).back? ≠ some segment.count := by
        intro hback
        have hmem := Array.mem_toList_iff.2 (Array.mem_of_back? hback)
        rw [Schema.toList_listed] at hmem
        exact Nat.lt_irrefl _ (Schema.lt_size_of_mem_having hmem)
      rw [if_pos hterm, Schema.listed_push_of_holds ((Schema.mem_termsOf_iff hterms term).1 hterm),
        TermTable.append, if_neg hback]
      refine congrArg some (Array.toList_inj.1 ?_)
      rw [Array.toList_push, Schema.toList_listed]
      rfl
    · rw [if_neg hterm,
        Schema.listed_push_of_not_holds (mt (Schema.mem_termsOf_iff hterms term).2 hterm)]
  deleted d hd := by
    change d < (segment.documents.push doc).size
    rw [Array.size_push]
    exact Nat.lt_succ_of_lt (h.deleted d hd)

theorem Sound.delete (h : segment.Sound schema) {d : Nat} (hd : d < segment.count) :
    (segment.delete d).2.Sound schema :=
  Mirrors.insert h hd

theorem Sound.deleteTerm (h : segment.Sound schema) (field text : String) :
    (segment.deleteTerm field text).2.Sound schema := by
  rw [PendingSegment.deleteTerm]
  cases hdocs : segment.docs? field text with
  | none => exact h
  | some docs => exact Mirrors.markAll h ⟨field, text⟩ hdocs

/-- **Sealing keeps the postings those of the documents.** -/
theorem Sound.toSegment (h : segment.Sound schema) (hpos : segment.count ≠ 0) :
    segment.toSegment.Sound schema where
  docs term := (segment.docs?_toSegment term.field term.text).trans (h.docs term)
  deleted := h.deleted
  pos := Nat.pos_of_ne_zero hpos

end PendingSegment

namespace Segment

variable {segment : Segment}

theorem Sound.delete (h : segment.Sound schema) {d : Nat} (hd : d < segment.count) :
    (segment.delete d).2.Sound schema :=
  { h.toMirrors.insert hd with pos := h.pos }

theorem Sound.deleteTerm (h : segment.Sound schema) (field text : String) :
    (segment.deleteTerm field text).2.Sound schema := by
  rw [Segment.deleteTerm]
  cases hdocs : segment.docs? field text with
  | none => exact h
  | some docs => exact { h.toMirrors.markAll ⟨field, text⟩ hdocs with pos := h.pos }

end Segment

end TermJoin
