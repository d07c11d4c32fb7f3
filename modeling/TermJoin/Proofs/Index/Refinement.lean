import TermJoin.Proofs.Index.Replies

/-!
# The writer refines the ledger

Nothing that an index replies, and nothing that its snapshots show, depends on more than the ledger.

* `Snapshot.Shows`: the documents, marks and segments of a snapshot are those that are sealed in a ledger;
  **`Index.Sound.shows`**.
* `Index.Follows`: all replies of an index are those of a ledger; **`Index.Sound.follows`**.
* **`Index.follows_after`**: an index follows the ledger of its history.
-/

namespace TermJoin

/-! ## What a snapshot shows -/

/-- The snapshot shows what is sealed in the ledger, each document in one of its segments. -/
structure Snapshot.Shows (s : Snapshot) (ledger : Ledger) : Prop where
  sealed_le : ledger.sealedCount ≤ ledger.count
  maxDoc : s.maxDoc = ledger.sealedCount
  deleted : ∀ d, d ∈ s.deleted ↔ d ∈ ledger.deleted ∧ d < ledger.sealedCount
  liveCount : s.liveCount + s.deleted.size = ledger.sealedCount
  tiles : SegmentView.Tiles 0 s.segments ledger.sealedCount
  segmentFor : ∀ d view,
    s.segmentFor? d = some view ↔ view ∈ s.segments ∧ view.base ≤ d ∧ d < view.base + view.count
  beyond : ∀ d, s.segmentFor? d = none ↔ ledger.sealedCount ≤ d
  document : ∀ d, s.document? d =
    if d < ledger.sealedCount ∧ d ∉ ledger.deleted then ledger.documents[d]? else none

namespace Index

variable {index : Index}

theorem maxDoc_snapshot {stamp : Nat} : (index.snapshot.run stamp).1.maxDoc = index.sealedCount := by
  rw [Snapshot.maxDoc_eq_length, sealedCount_eq, Snapshot.corpus, parts_snapshot]

namespace Sound

variable (h : index.Sound)
include h

theorem mem_deleted_snapshot {stamp d : Nat} :
    d ∈ (index.snapshot.run stamp).1.deleted ↔ d ∈ index.ledger.deleted ∧ d < index.sealedCount := by
  rw [(h.snapshot stamp).mem_deleted_iff, parts_snapshot, h.mem_deleted_ledger, sealedCount_eq, parts]
  by_cases hlt : d < (Segment.stored index.segments).length
  · rw [Segment.isMarked_append_of_lt hlt, and_iff_left hlt]
  · refine iff_of_false ?_ fun hd => hlt hd.2
    rintro ⟨segment, e, hplace, _⟩
    exact hlt (Segment.isSome_locate?.1 (by rw [hplace]; rfl))

theorem shows (stamp : Nat) : (index.snapshot.run stamp).1.Shows index.ledger where
  sealed_le := by
    rw [count_ledger]
    exact Nat.le_add_right index.sealedCount index.pending.count
  maxDoc := maxDoc_snapshot
  deleted _ := h.mem_deleted_snapshot
  liveCount := (Nat.sub_add_cancel (h.snapshot stamp).size_deleted_le).trans maxDoc_snapshot
  tiles := by
    have htiles := (h.snapshot stamp).tiles
    rwa [maxDoc_snapshot] at htiles
  segmentFor _ _ := (h.snapshot stamp).segmentFor?_eq_some_iff
  beyond d := by
    rw [(h.snapshot stamp).segmentFor?_eq_none_iff, maxDoc_snapshot]
    exact Iff.rfl
  document d := by
    have hlive : (index.snapshot.run stamp).1.corpus.isLive d = true ↔
        d < index.ledger.sealedCount ∧ d ∉ index.ledger.deleted := by
      rw [Corpus.isLive_iff, ← Snapshot.maxDoc_eq_length, maxDoc_snapshot]
      refine and_congr_right fun hlt => not_congr (h.mem_deleted_snapshot.trans (and_iff_left hlt))
    rw [(h.snapshot stamp).document?_eq, Corpus.document?]
    refine ite_congr (propext hlive) (fun hd => ?_) fun _ => rfl
    have hlt : d < (Segment.stored index.segments).length := sealedCount_eq ▸ hd.1
    rw [documents_ledger, Index.parts, Segment.stored_append, List.getElem?_append_left hlt,
      Snapshot.corpus, parts_snapshot]

end Sound

/-! ## What an index replies -/

/-- The index replies to each request as the ledger does, and is left with the ledger that this leaves.
What it refuses changes nothing. -/
structure Follows (index : Index) (schema : Schema) (ledger : Ledger) : Prop where
  account : index.ledger = ledger
  add : ∀ doc, Prod.map id Index.ledger (index.add doc) = ledger.tryAdd schema doc
  refused_add : ∀ doc fault, (index.add doc).1 = .error fault → (index.add doc).2 = index
  commit : index.commit.ledger = ledger.commit
  delete : ∀ d, Prod.map id Index.ledger (index.delete d) = ledger.tryDelete d
  deleteValue : ∀ field value,
    Prod.map id Index.ledger (index.deleteValue field value) = ledger.tryDeleteValue schema field value
  refused_deleteValue : ∀ field value fault,
    (index.deleteValue field value).1 = .error fault → (index.deleteValue field value).2 = index
  snapshot : ∀ stamp, (index.snapshot.run stamp).1.Shows ledger
  snapshot_after : (index.handle .snapshot).ledger = ledger

theorem Sound.follows (h : index.Sound) : index.Follows index.schema index.ledger where
  account := rfl
  add := h.map_add
  refused_add doc fault hfault := by
    rcases index.add_cases doc with ⟨_, hrefused⟩ | ⟨_, _, _, hadded⟩
    · rw [hrefused]
    · rw [hadded] at hfault
      cases hfault
  commit := h.ledger_commit
  delete := h.map_delete
  deleteValue := h.map_deleteValue
  refused_deleteValue field value fault hfault := by
    rcases index.deleteValue_cases field value with ⟨_, hrefused⟩ | ⟨_, hdeleted⟩
    · rw [hrefused]
    · rw [hdeleted] at hfault
      cases hfault
  snapshot := h.shows
  snapshot_after := rfl

/-- **After any history, an index follows the ledger of this history**: it gives the replies of the ledger
to whatever is asked next, and its snapshots show what is sealed there. -/
theorem follows_after (schema : Schema) (config : Config) (history : List Request) :
    (({ schema, config : Index }).after history).Follows schema (Ledger.after schema {} history) := by
  have hempty := sound_empty schema config
  have hfollows := (hempty.after history).follows
  rwa [hempty.ledger_after, ledger_empty, (settings_after { schema, config } history).1] at hfollows

end Index

end TermJoin
