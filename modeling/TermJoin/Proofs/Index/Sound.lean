import TermJoin.Ledger
import TermJoin.Proofs.Index.Marks
import TermJoin.Proofs.Snapshot.Corpus

/-!
# Sound indexes

Whatever is asked of an index, the postings of each of its segments stay those of the documents there. So
every snapshot is sound.

* `Index.Sound`: all segments, the pending one included, mirror their documents, and ordinals have not run out.
* `Index.add_cases`, `Index.delete_eq`, `Index.deleteValue_cases`: all that the writer can do.
* **`Index.Sound.handle`**, **`Index.Sound.after`**: one request keeps an index sound, and so does any
  history of them.
* **`Snapshot.Reachable.sound`**: so is every snapshot that some history leads to.
-/

namespace TermJoin

namespace Index

/-! ## What the writer does -/

theorem deleteSealed_eq (segments : List Segment) (d : Nat) :
    (deleteSealed segments d).map (·.2) =
      if d < total (segments.map (·.count)) then some (Segment.markAt segments d) else none := by
  induction segments generalizing d with
  | nil => rfl
  | cons first rest ih =>
    rw [deleteSealed, List.map_cons, total_cons, Segment.markAt]
    by_cases hlt : d < first.count
    · rw [if_pos hlt, if_pos (Nat.lt_add_right _ hlt), if_pos hlt]
      rfl
    · have hsum : d < first.count + total (rest.map (·.count)) ↔
          d - first.count < total (rest.map (·.count)) := by omega
      rw [if_neg hlt, if_neg hlt, if_congr hsum rfl rfl, Option.map_map]
      have hcons := congrArg (Option.map (first :: ·)) (ih (d - first.count))
      rw [Option.map_map] at hcons
      refine hcons.trans ?_
      split <;> rfl

variable {index : Index}

/-- A document is marked where it stands, among the sealed segments or in the pending one. -/
theorem delete_eq (d : Nat) :
    (index.delete d).2 =
      if d < index.sealedCount then { index with segments := Segment.markAt index.segments d }
      else if d < index.count then
        { index with pending := (index.pending.delete (d - index.sealedCount)).2 }
      else index := by
  have hsealed := deleteSealed_eq index.segments d
  rw [delete, sealedCount]
  split
  · rename_i fresh segments heq
    rw [heq, Option.map_some] at hsealed
    split at hsealed
    · rename_i hlt
      cases hsealed
      rw [if_pos hlt]
    · cases hsealed
  · rename_i heq
    rw [heq, Option.map_none] at hsealed
    split at hsealed
    · cases hsealed
    · rename_i hlt
      rw [if_neg hlt]
      split <;> rfl

/-- A document is refused, which changes nothing, or joins the pending segment under its terms. -/
theorem add_cases (index : Index) (doc : Document) :
    (∃ fault, index.add doc = (.error fault, index)) ∨
      index.count < noMoreDocs ∧ ∃ terms, index.schema.termsOf doc = .ok terms ∧
        index.add doc = (.ok index.count, { index with pending := index.pending.add doc terms }) := by
  rw [add]
  split
  · exact .inl ⟨_, rfl⟩
  · rename_i hroom
    cases index.schema.termsOf doc with
    | error fault => exact .inl ⟨fault, rfl⟩
    | ok terms => exact .inr ⟨Nat.not_le.1 hroom, terms, rfl, rfl⟩

theorem deleteValue_cases (index : Index) (field value : String) :
    (∃ fault, index.deleteValue field value = (.error fault, index)) ∨
      ∃ text, index.deleteValue field value =
        (.ok (index.deleteTerm field text).1, (index.deleteTerm field text).2) := by
  rw [deleteValue]
  split
  · exact .inl ⟨_, rfl⟩
  · split
    · exact .inl ⟨_, rfl⟩
    · exact .inr ⟨_, rfl⟩

/-! ## How many documents there are -/

theorem sealedCount_eq : index.sealedCount = (Segment.stored index.segments).length :=
  (Segment.length_stored _).symm

theorem count_commit (index : Index) : index.commit.count = index.count := by
  rw [commit]
  split
  · rfl
  · change total ((index.segments ++ [index.pending.toSegment]).map (·.count)) = index.count
    rw [List.map_append, total_append]
    rfl

theorem count_delete (d : Nat) : (index.delete d).2.count = index.count := by
  rw [delete_eq]
  split
  · rw [count, count, sealedCount_eq, Segment.stored_markAt, ← sealedCount_eq]
  · split <;> rfl

theorem segments_deleteTerm (field text : String) :
    (index.deleteTerm field text).2.segments =
      index.segments.map fun segment => (segment.deleteTerm field text).2 :=
  List.map_map

theorem count_deleteTerm (field text : String) : (index.deleteTerm field text).2.count = index.count := by
  have hpending : (index.pending.deleteTerm field text).2.count = index.pending.count := by
    rw [PendingSegment.deleteTerm]
    split <;> rfl
  rw [count, sealedCount_eq, segments_deleteTerm, Segment.stored_deleteTerm, ← sealedCount_eq]
  exact congrArg (index.sealedCount + ·) hpending

/-! ## One request -/

/-- The segments of an index mirror their documents, the pending one included, and each document has an
ordinal. -/
structure Sound (index : Index) : Prop where
  segments : ∀ segment ∈ index.segments, segment.Sound index.schema
  pending : index.pending.Sound index.schema
  count_le : index.count ≤ noMoreDocs

theorem sound_empty (schema : Schema) (config : Config) : Sound { schema, config } where
  segments _ h := absurd h List.not_mem_nil
  pending := PendingSegment.sound_empty
  count_le := Nat.zero_le _

namespace Sound

variable (h : index.Sound)
include h

theorem addPending {doc : Document} {terms : List Term} (hroom : index.count < noMoreDocs)
    (hterms : index.schema.termsOf doc = .ok terms) :
    Sound { index with pending := index.pending.add doc terms } where
  segments := h.segments
  pending := h.pending.add hterms
  count_le := by
    change index.sealedCount + (index.pending.documents.push doc).size ≤ noMoreDocs
    rw [Array.size_push]
    exact hroom

theorem add (doc : Document) : (index.add doc).2.Sound := by
  rcases index.add_cases doc with ⟨fault, hrefused⟩ | ⟨hroom, terms, hterms, hadded⟩
  · rw [hrefused]
    exact h
  · rw [hadded]
    exact h.addPending hroom hterms

theorem commit : index.commit.Sound := by
  have hle : index.commit.count ≤ noMoreDocs := index.count_commit.trans_le h.count_le
  rw [Index.commit] at hle ⊢
  split
  · exact h
  · rename_i hcount
    rw [if_neg hcount] at hle
    refine ⟨fun segment hsegment => ?_, PendingSegment.sound_empty, hle⟩
    rcases List.mem_append.1 hsegment with hsegment | hsegment
    · exact h.segments segment hsegment
    · rw [List.mem_singleton.1 hsegment]
      exact h.pending.toSegment hcount

theorem delete (d : Nat) : (index.delete d).2.Sound := by
  have hle : (index.delete d).2.count ≤ noMoreDocs := (count_delete d).trans_le h.count_le
  rw [delete_eq] at hle ⊢
  split
  · rename_i hsealed
    rw [if_pos hsealed] at hle
    exact ⟨Segment.sound_of_mem_markAt h.segments, h.pending, hle⟩
  · split
    · rename_i hsealed hlt
      rw [if_neg hsealed, if_pos hlt] at hle
      rw [count] at hlt
      exact ⟨h.segments, h.pending.delete (by omega), hle⟩
    · exact h

theorem deleteTerm (field text : String) : (index.deleteTerm field text).2.Sound where
  segments segment hsegment := by
    rw [Index.deleteTerm] at hsegment
    obtain ⟨⟨fresh, segment⟩, hmarked, rfl⟩ := List.mem_map.1 hsegment
    obtain ⟨before, hbefore, heq⟩ := List.mem_map.1 hmarked
    have := (h.segments before hbefore).deleteTerm field text
    rw [heq] at this
    exact this
  pending := h.pending.deleteTerm field text
  count_le := (count_deleteTerm field text).trans_le h.count_le

theorem deleteValue (field value : String) : (index.deleteValue field value).2.Sound := by
  rcases index.deleteValue_cases field value with ⟨fault, hrefused⟩ | ⟨text, hdeleted⟩
  · rw [hrefused]
    exact h
  · rw [hdeleted]
    exact h.deleteTerm field text

/-- **Whatever is asked of a sound index, it stays one.** -/
theorem handle (request : Request) : (index.handle request).Sound := by
  cases request with
  | add doc => exact h.add doc
  | commit => exact h.commit
  | delete d => exact h.delete d
  | deleteValue field value => exact h.deleteValue field value
  | snapshot => exact h

theorem after (history : List Request) : (index.after history).Sound := by
  induction history generalizing index with
  | nil => exact h
  | cons request rest ih => exact ih (h.handle request)

theorem snapshot (stamp : Nat) : (index.snapshot.run stamp).1.Sound :=
  Snapshot.sound_ofSegments stamp index.config h.segments
    (Nat.le_trans (Nat.le_add_right _ _) h.count_le)

end Sound

/-! ## What no request changes -/

theorem settings_delete (d : Nat) :
    (index.delete d).2.schema = index.schema ∧ (index.delete d).2.config = index.config := by
  rw [delete_eq]
  split
  · exact ⟨rfl, rfl⟩
  · split <;> exact ⟨rfl, rfl⟩

theorem settings_handle (index : Index) (request : Request) :
    (index.handle request).schema = index.schema ∧ (index.handle request).config = index.config := by
  cases request with
  | add doc =>
    rw [handle]
    rcases index.add_cases doc with ⟨_, heq⟩ | ⟨_, _, _, heq⟩ <;> rw [heq] <;> exact ⟨rfl, rfl⟩
  | commit =>
    rw [handle, commit]
    split <;> exact ⟨rfl, rfl⟩
  | delete d => exact settings_delete d
  | deleteValue field value =>
    rw [handle]
    rcases index.deleteValue_cases field value with ⟨_, heq⟩ | ⟨_, heq⟩ <;> rw [heq] <;> exact ⟨rfl, rfl⟩
  | snapshot => exact ⟨rfl, rfl⟩

theorem settings_after (index : Index) (history : List Request) :
    (index.after history).schema = index.schema ∧ (index.after history).config = index.config := by
  induction history generalizing index with
  | nil => exact ⟨rfl, rfl⟩
  | cons request rest ih =>
    have hfirst := index.settings_handle request
    have hrest := ih (index.handle request)
    exact ⟨hrest.1.trans hfirst.1, hrest.2.trans hfirst.2⟩

end Index

namespace Snapshot

theorem reachable_afterHistory (schema : Schema) (config : Config) (stamp : Nat) (history : List Request) :
    (afterHistory schema config stamp history).Reachable :=
  ⟨schema, config, stamp, history, rfl⟩

/-- **Every snapshot that some history leads to is sound.** -/
theorem Reachable.sound {s : Snapshot} (h : s.Reachable) : s.Sound := by
  obtain ⟨schema, config, stamp, history, rfl⟩ := h
  exact ((Index.sound_empty schema config).after history).snapshot stamp

end Snapshot

end TermJoin
