import TermJoin.DocSet.Ascending
import TermJoin.Document
import TermJoin.Segment.Dictionary

/-!
# Segments

Documents come in segments. One is pending and takes new documents; sealing it turns its tables into
dictionaries. Ordinals are counted from the segment's base here.

* `IsListing`: a list of documents is strictly ascending and names no other documents.
* `TermTable.record`: one more document under a term; **`docs?_record`**.
* `PendingSegment.add`: one more document under its terms.
* `PendingSegment.toSegment`: the sealed segment; **`docs?_toSegment`** says it finds the same documents.
* `Segment.delete`, `Segment.deleteTerm`: marks of deletion, which hide documents and never remove
  them.
-/

namespace TermJoin

/-! ## Lists of documents -/

/-- Strictly ascending ordinals of the first `count` documents. -/
structure IsListing (docs : DocList) (count : Nat) : Prop where
  ascending : docs.toList.Pairwise (· < ·)
  lt : ∀ e ∈ docs.toList, e < count

theorem IsListing.empty (count : Nat) : IsListing #[] count := ⟨.nil, fun _ h => nomatch h⟩

theorem IsListing.mono {docs : DocList} {count count' : Nat} (h : IsListing docs count)
    (hle : count ≤ count') : IsListing docs count' :=
  ⟨h.ascending, fun e he => Nat.lt_of_lt_of_le (h.lt e he) hle⟩

/-! ## Tables of terms -/

/-- For each field, its terms with their documents. -/
abbrev TermTable := Std.ExtTreeMap String (Std.ExtTreeMap String DocList)

namespace TermTable

/-- The documents with one more at the end, unless it stands there already. -/
def append (docs : DocList) (doc : Nat) : DocList :=
  if docs.back? = some doc then docs else docs.push doc

/-- The last document can be listed again. -/
theorem isListing_append {docs : DocList} {doc : Nat} (h : IsListing docs (doc + 1)) :
    IsListing (append docs doc) (doc + 1) := by
  rw [append]
  split
  · exact h
  · rename_i hlast
    -- the last entry is the greatest, and it is another document
    have hlt : ∀ e ∈ docs.toList, e < doc := by
      intro e he
      refine Nat.lt_of_le_of_ne (Nat.le_of_lt_succ (h.lt e he)) fun heq => hlast ?_
      subst heq
      obtain ⟨before, after, hsplit⟩ := List.append_of_mem he
      have hafter : after = [] := by
        refine List.eq_nil_iff_forall_not_mem.2 fun d hd => ?_
        have hascending := h.ascending
        rw [hsplit, List.pairwise_append] at hascending
        have hbound := h.lt d (by rw [hsplit]; exact List.mem_append_right _ (.tail _ hd))
        have := List.rel_of_pairwise_cons hascending.2.1 hd
        omega
      rw [← Array.getLast?_toList, hsplit, hafter, List.getLast?_concat]
    refine ⟨?_, ?_⟩
    · rw [Array.toList_push, List.pairwise_append]
      refine ⟨h.ascending, List.pairwise_singleton _ _, fun a ha b hb => ?_⟩
      rw [List.mem_singleton.1 hb]
      exact hlt a ha
    · intro e he
      rw [Array.toList_push, List.mem_append, List.mem_singleton] at he
      rcases he with he | rfl
      · exact h.lt e he
      · exact Nat.lt_succ_self e

/-- The table with one more document under a term. -/
def record (table : TermTable) (doc : Nat) (term : Term) : TermTable :=
  table.alter term.field fun terms? =>
    some ((terms?.getD ∅).alter term.text fun docs? => some (append (docs?.getD #[]) doc))

/-- The documents under a term. -/
def docs? (table : TermTable) (field text : String) : Option DocList :=
  table[field]?.bind (·[text]?)

/-- **Recording a document changes the list of its term and no other.** -/
theorem docs?_record (table : TermTable) (doc : Nat) (term : Term) (field text : String) :
    (table.record doc term).docs? field text =
      if term = ⟨field, text⟩ then some (append ((table.docs? field text).getD #[]) doc)
      else table.docs? field text := by
  obtain ⟨f, t⟩ := term
  simp only [docs?, record, Std.ExtTreeMap.getElem?_alter, Term.mk.injEq]
  by_cases hf : f = field
  · subst hf
    by_cases ht : t = text
    · subst ht
      cases htable : table[f]? <;> simp
    · cases htable : table[f]? <;> simp [Std.ExtTreeMap.getElem?_alter, ht]
  · simp [hf]

/-- Every list of the table is one of the first `count` documents. -/
def Lists (table : TermTable) (count : Nat) : Prop :=
  ∀ field text docs, table.docs? field text = some docs → IsListing docs count

theorem lists_empty (count : Nat) : Lists ∅ count := by
  intro field text docs h
  rw [docs?, Std.ExtTreeMap.getElem?_empty] at h
  cases h

theorem Lists.record {table : TermTable} {doc : Nat} (h : table.Lists (doc + 1)) (term : Term) :
    (table.record doc term).Lists (doc + 1) := by
  intro field text docs hdocs
  rw [docs?_record] at hdocs
  split at hdocs
  · cases hdocs
    refine isListing_append ?_
    cases hold : table.docs? field text with
    | none => exact .empty _
    | some old => exact h field text old hold
  · exact h field text docs hdocs

/-- **The lists stay in order when the next document is recorded** under all its terms. -/
theorem Lists.recordAll {table : TermTable} {count : Nat} (h : table.Lists count) (terms : List Term) :
    Lists (terms.foldl (fun table term => table.record count term) table) (count + 1) := by
  have hnext : table.Lists (count + 1) :=
    fun field text docs hdocs => (h field text docs hdocs).mono (Nat.le_succ count)
  clear h
  induction terms generalizing table with
  | nil => exact hnext
  | cons term rest ih => exact ih (hnext.record term)

end TermTable

/-! ## Deletion marks -/

/-- The marks with these documents marked too, and how many of those were not marked before. -/
def markAll (deleted : Bitmap) (docs : DocList) : Nat × Bitmap :=
  let marked := deleted.insertAll docs.toList
  (marked.size - deleted.size, marked)

/-! ## Sealed segments -/

/-- A sealed segment: its documents, the dictionary of each of its fields, and the marks of the
documents deleted so far. -/
structure Segment where
  documents : Array Document
  fields : Std.ExtTreeMap String Dictionary
  deleted : Bitmap
  listed : ∀ (field text : String) (docs : DocList),
    fields[field]?.bind (·.docs? text) = some docs → IsListing docs documents.size

namespace Segment

/-- The number of documents, deleted ones included. -/
def count (segment : Segment) : Nat := segment.documents.size

/-- The documents that have a term, deleted ones included. -/
def docs? (segment : Segment) (field text : String) : Option DocList :=
  segment.fields[field]?.bind (·.docs? text)

/-- The documents that have a term, without the deleted ones. -/
def liveDocs (segment : Segment) (field text : String) : List Nat :=
  match segment.docs? field text with
  | none => []
  | some docs => docs.toList.filter (!segment.deleted.contains ·)

theorem pairwise_liveDocs (segment : Segment) (field text : String) :
    (segment.liveDocs field text).Pairwise (· < ·) := by
  rw [liveDocs]
  split
  · exact .nil
  · rename_i docs hdocs
    exact (segment.listed field text docs hdocs).ascending.filter _

theorem lt_count_of_mem_liveDocs {segment : Segment} {field text : String} {d : Nat}
    (h : d ∈ segment.liveDocs field text) : d < segment.count := by
  rw [liveDocs] at h
  split at h
  · cases h
  · rename_i docs hdocs
    exact (segment.listed field text docs hdocs).lt d (List.mem_filter.1 h).1

/-- The segment with a document marked, and whether it was not marked before. -/
def delete (segment : Segment) (doc : Nat) : Bool × Segment :=
  (!segment.deleted.contains doc, { segment with deleted := segment.deleted.insert doc })

/-- The segment with all documents of a term marked, and how many were not marked before. -/
def deleteTerm (segment : Segment) (field text : String) : Nat × Segment :=
  match segment.docs? field text with
  | none => (0, segment)
  | some docs =>
    let (fresh, deleted) := markAll segment.deleted docs
    (fresh, { segment with deleted })

end Segment

/-! ## The pending segment -/

/-- A segment that still takes documents. -/
structure PendingSegment where
  documents : Array Document := #[]
  terms : TermTable := ∅
  deleted : Bitmap := ∅
  listed : terms.Lists documents.size := by exact TermTable.lists_empty _

namespace PendingSegment

/-- No documents. -/
def empty : PendingSegment := {}

/-- The number of documents, deleted ones included. -/
def count (segment : PendingSegment) : Nat := segment.documents.size

/-- The documents that have a term, deleted ones included. -/
def docs? (segment : PendingSegment) (field text : String) : Option DocList :=
  segment.terms.docs? field text

/-- The segment with one more document under its terms. -/
def add (segment : PendingSegment) (doc : Document) (terms : List Term) : PendingSegment :=
  { segment with
    documents := segment.documents.push doc
    terms := terms.foldl (fun table term => table.record segment.count term) segment.terms
    listed := by
      rw [Array.size_push]
      exact segment.listed.recordAll terms }

/-- The segment with a document marked, and whether it was not marked before. -/
def delete (segment : PendingSegment) (doc : Nat) : Bool × PendingSegment :=
  (!segment.deleted.contains doc, { segment with deleted := segment.deleted.insert doc })

/-- The segment with all documents of a term marked, and how many were not marked before. -/
def deleteTerm (segment : PendingSegment) (field text : String) : Nat × PendingSegment :=
  match segment.docs? field text with
  | none => (0, segment)
  | some docs =>
    let (fresh, deleted) := markAll segment.deleted docs
    (fresh, { segment with deleted })

/-- The dictionaries of a table find the documents of every term. -/
theorem docs?_dictionaries (table : TermTable) (field text : String) :
    (table.map fun _ terms => Dictionary.ofMap terms)[field]?.bind (·.docs? text) = table.docs? field text := by
  rw [TermTable.docs?, Std.ExtTreeMap.getElem?_map]
  cases table[field]? <;> simp [Dictionary.docs?_ofMap]

/-- The sealed segment of the same documents. -/
def toSegment (segment : PendingSegment) : Segment where
  documents := segment.documents
  fields := segment.terms.map fun _ terms => .ofMap terms
  deleted := segment.deleted
  listed := by
    intro field text docs hdocs
    rw [docs?_dictionaries] at hdocs
    exact segment.listed field text docs hdocs

/-- **Sealing keeps the documents of every term.** -/
theorem docs?_toSegment (segment : PendingSegment) (field text : String) :
    segment.toSegment.docs? field text = segment.docs? field text :=
  docs?_dictionaries segment.terms field text

end PendingSegment

end TermJoin
