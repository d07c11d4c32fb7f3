import Mathlib.Data.List.Basic
import TermJoin.Proofs.Snapshot.Layout

/-!
# Marks of deletion across segments

Deleting a document marks it in the segment where it stands, and deleting by a term marks documents in all
segments at once. Told by global ordinals, both do what they say.

* `Segment.markAt`: the segments with the document of a global ordinal marked.
* `Segment.isMarked_append_of_lt`, `Segment.isMarked_append_of_le`: a mark stands in one of two parts;
  `Segment.isMarked_append_singleton_iff`.
* **`Segment.isMarked_markAt`**: this document is marked, and no other.
* **`Segment.isMarked_deleteTerm`**: the documents that have the term are marked, and no others.
-/

namespace TermJoin.Segment

variable {schema : Schema} {segments first second : List Segment} {segment : Segment} {d : Nat}

/-! ## Parts -/

theorem stored_append : stored (first ++ second) = stored first ++ stored second :=
  List.flatMap_append

theorem isMarked_append_of_lt (h : d < (stored first).length) :
    IsMarked (first ++ second) d ↔ IsMarked first d := by
  induction first generalizing d with
  | nil => exact absurd h (Nat.not_lt_zero d)
  | cons segment rest ih =>
    rw [length_stored, List.map_cons, total_cons, ← length_stored] at h
    rw [List.cons_append]
    by_cases hlt : d < segment.count
    · rw [isMarked_cons_of_lt hlt, isMarked_cons_of_lt hlt]
    · rw [isMarked_cons_of_le (Nat.not_lt.1 hlt), isMarked_cons_of_le (Nat.not_lt.1 hlt), ih (by omega)]

theorem isMarked_append_of_le (h : (stored first).length ≤ d) :
    IsMarked (first ++ second) d ↔ IsMarked second (d - (stored first).length) := by
  induction first generalizing d with
  | nil => exact Iff.rfl
  | cons segment rest ih =>
    rw [length_stored, List.map_cons, total_cons, ← length_stored] at h ⊢
    rw [List.cons_append, isMarked_cons_of_le (by omega), ih (by omega), Nat.sub_sub]

theorem isMarked_append_singleton_iff (h : ∀ e ∈ segment.deleted, e < segment.count) :
    IsMarked (first ++ [segment]) d ↔
      IsMarked first d ∨
        (stored first).length ≤ d ∧ d - (stored first).length ∈ segment.deleted := by
  by_cases hlt : d < (stored first).length
  · rw [isMarked_append_of_lt hlt]
    exact (or_iff_left fun ⟨hle, _⟩ => Nat.not_lt.2 hle hlt).symm
  · have hfirst : ¬ IsMarked first d := by
      rintro ⟨found, e, hplace, _⟩
      exact hlt (isSome_locate?.1 (by rw [hplace]; rfl))
    rw [isMarked_append_of_le (Nat.not_lt.1 hlt), or_iff_right hfirst, and_iff_right (Nat.not_lt.1 hlt)]
    constructor
    · intro hmarked
      by_cases he : d - (stored first).length < segment.count
      · exact (isMarked_cons_of_lt he).1 hmarked
      · exact absurd ((isMarked_cons_of_le (Nat.not_lt.1 he)).1 hmarked) not_isMarked_nil
    · exact fun he => (isMarked_cons_of_lt (h _ he)).2 he

/-! ## One document -/

/-- The segments with the document of a global ordinal marked as deleted. -/
def markAt : List Segment → Nat → List Segment
  | [], _ => []
  | segment :: rest, d =>
    if d < segment.count then (segment.delete d).2 :: rest
    else segment :: markAt rest (d - segment.count)

theorem sound_of_mem_markAt {schema : Schema} {segments : List Segment} {d : Nat}
    (h : ∀ segment ∈ segments, segment.Sound schema) :
    ∀ segment ∈ markAt segments d, segment.Sound schema := by
  induction segments generalizing d with
  | nil => exact h
  | cons first rest ih =>
    obtain ⟨hfirst, hrest⟩ := List.forall_mem_cons.1 h
    rw [markAt]
    split
    · rename_i hlt
      exact List.forall_mem_cons.2 ⟨hfirst.delete hlt, hrest⟩
    · exact List.forall_mem_cons.2 ⟨hfirst, ih hrest⟩

theorem stored_markAt : stored (markAt segments d) = stored segments := by
  induction segments generalizing d with
  | nil => rfl
  | cons segment rest ih =>
    rw [markAt]
    split
    · rfl
    · rw [stored, List.flatMap_cons, ← stored, ih, stored, stored, List.flatMap_cons]

theorem isMarked_markAt {e : Nat} :
    IsMarked (markAt segments d) e ↔ IsMarked segments e ∨ d < (stored segments).length ∧ e = d := by
  induction segments generalizing d e with
  | nil => exact iff_of_false not_isMarked_nil fun h => h.elim not_isMarked_nil (by simp [stored])
  | cons segment rest ih =>
    have hcount : (segment.delete d).2.count = segment.count := rfl
    rw [length_stored, List.map_cons, total_cons, ← length_stored, markAt]
    by_cases hd : d < segment.count
    · rw [if_pos hd]
      by_cases he : e < segment.count
      · rw [isMarked_cons_of_lt (hcount ▸ he), isMarked_cons_of_lt he]
        change e ∈ segment.deleted.insert d ↔ _
        rw [Std.ExtTreeSet.mem_insert, Nat.compare_eq_eq, or_comm, eq_comm,
          and_iff_right (Nat.lt_add_right _ hd)]
      · rw [isMarked_cons_of_le (hcount ▸ Nat.not_lt.1 he), hcount,
          isMarked_cons_of_le (Nat.not_lt.1 he)]
        refine (or_iff_left ?_).symm
        rintro ⟨_, rfl⟩
        exact he hd
    · rw [if_neg hd]
      by_cases he : e < segment.count
      · rw [isMarked_cons_of_lt he, isMarked_cons_of_lt he]
        refine (or_iff_left ?_).symm
        rintro ⟨_, rfl⟩
        exact hd he
      · rw [isMarked_cons_of_le (Nat.not_lt.1 he), isMarked_cons_of_le (Nat.not_lt.1 he), ih]
        refine or_congr_right ?_
        omega

theorem markAt_append :
    markAt (first ++ second) d =
      if d < (stored first).length then markAt first d ++ second
      else first ++ markAt second (d - (stored first).length) := by
  induction first generalizing d with
  | nil => rfl
  | cons segment rest ih =>
    rw [length_stored, List.map_cons, total_cons, ← length_stored, List.cons_append, markAt, markAt]
    by_cases hlt : d < segment.count
    · rw [if_pos hlt, if_pos hlt, if_pos (Nat.lt_add_right _ hlt), List.cons_append]
    · have hrest : d - segment.count < (stored rest).length ↔
          d < segment.count + (stored rest).length := by omega
      rw [if_neg hlt, if_neg hlt, ih, if_congr hrest rfl rfl, Nat.sub_sub]
      split <;> rfl

/-! ## All documents of a term -/

theorem documents_deleteTerm (segment : Segment) (field text : String) :
    (segment.deleteTerm field text).2.documents = segment.documents := by
  rw [deleteTerm]
  split <;> rfl

theorem stored_deleteTerm {field text : String} :
    stored (segments.map fun segment => (segment.deleteTerm field text).2) = stored segments := by
  rw [stored, List.flatMap_map, stored]
  exact List.flatMap_congr fun segment _ => by rw [documents_deleteTerm]

theorem mem_deleted_deleteTerm {schema : Schema} {segment : Segment}
    (h : Mirrors schema segment.documents (fun term => segment.docs? term.field term.text)
      segment.deleted) {field text : String} :
    d ∈ (segment.deleteTerm field text).2.deleted ↔
      d ∈ segment.deleted ∨ d ∈ schema.having segment.documents ⟨field, text⟩ := by
  have hdocs : segment.docs? field text = schema.listed segment.documents ⟨field, text⟩ :=
    h.docs ⟨field, text⟩
  rw [deleteTerm]
  cases hterm : segment.docs? field text with
  | none =>
    rw [Schema.listed_eq_none_iff.1 (hdocs.symm.trans hterm)]
    exact (or_iff_left List.not_mem_nil).symm
  | some docs =>
    change d ∈ (TermJoin.markAll segment.deleted docs).2 ↔ _
    rw [mem_markAll, Schema.toList_of_listed (hdocs.symm.trans hterm)]

theorem isMarked_deleteTerm {schema : Schema} {field text : String}
    (h : ∀ segment ∈ segments, Mirrors schema segment.documents
      (fun term => segment.docs? term.field term.text) segment.deleted) :
    IsMarked (segments.map fun segment => (segment.deleteTerm field text).2) d ↔
      IsMarked segments d ∨
        ∃ doc, (stored segments)[d]? = some doc ∧ schema.holds doc ⟨field, text⟩ = true := by
  induction segments generalizing d with
  | nil =>
    refine iff_of_false not_isMarked_nil fun h => h.elim not_isMarked_nil ?_
    rintro ⟨doc, hdoc, _⟩
    cases hdoc
  | cons segment rest ih =>
    obtain ⟨hfirst, hrest⟩ := List.forall_mem_cons.1 h
    have hcount : (segment.deleteTerm field text).2.count = segment.count :=
      congrArg Array.size (documents_deleteTerm segment field text)
    rw [List.map_cons, exists_getElem?_stored]
    by_cases hlt : d < segment.count
    · rw [isMarked_cons_of_lt (hcount.symm ▸ hlt), isMarked_cons_of_lt hlt,
        mem_deleted_deleteTerm hfirst, locate?_cons_of_lt hlt, Schema.mem_having]
      simp
    · rw [isMarked_cons_of_le (hcount.symm ▸ Nat.not_lt.1 hlt), isMarked_cons_of_le (Nat.not_lt.1 hlt),
        hcount, ih hrest, locate?_cons_of_le (Nat.not_lt.1 hlt), exists_getElem?_stored]

end TermJoin.Segment
