import TermJoin.DocSet.Basic
import TermJoin.Segment.Basic

/-!
# Snapshots

A snapshot is what queries run against: the sealed segments of an index at one moment, laid end to
end, so that each document has one global ordinal.

* `Config`: the knobs of an index and of the joins run against it. They choose representations and code paths,
  never results, with two exceptions: beyond `maxExpansions` a query by stem is refused, and a batch too large
  for any address space (`Config.Fits`) cannot be allocated.
* `Config.minDocFreq`, `Config.maxSortedSize`, `Config.smallSetSize`: the thresholds that depend on
  the size of the index.
* `Snapshot.ofSegments`: the segments with their bases.
* `Snapshot.segmentFor?`, `Snapshot.document?`: what stands at a global ordinal.
* `Snapshot.allDocs`, `Snapshot.termDocs`: the live documents, and those that have a term.
-/

namespace TermJoin

/-! ## Tuning -/

/-- The knobs, with their default settings. -/
structure Config where
  minDocFreqFloor : Nat := 5
  minDocFreqShift : Nat := 13
  maxSortedFloor : Nat := 10
  maxSortedShift : Nat := 10
  smallSetShift : Nat := 6
  readBatchSize : Nat := 64
  termCapacity : Nat := 4096
  queryCapacity : Nat := 512
  maxExpansions : Nat := 1024
  readBatchSize_pos : 0 < readBatchSize := by decide
  readBatchSize_lt : readBatchSize < UInt64.size := by decide
deriving DecidableEq

namespace Config

instance : Inhabited Config := ⟨{}⟩

/-- The document frequency from which a term's set goes through the cache during a join. -/
def minDocFreq (config : Config) (maxDoc : Nat) : Nat :=
  max config.minDocFreqFloor (maxDoc >>> config.minDocFreqShift)

/-- The number of collected ordinals from which a join turns to a bitmap. -/
def maxSortedSize (config : Config) (maxDoc : Nat) : Nat :=
  max config.maxSortedFloor (maxDoc >>> config.maxSortedShift)

/-- The size up to which the set of a term is kept as a sorted list. -/
def smallSetSize (config : Config) (maxDoc : Nat) : Nat :=
  maxDoc >>> config.smallSetShift

/-- The settings with batches of this size, or of one ordinal instead of none. No other size is adjusted. -/
def withReadBatchSize (config : Config) (size : UInt64) : Config :=
  { config with
    readBatchSize := max 1 size.toNat
    readBatchSize_pos := by omega
    readBatchSize_lt := by
      have := size.toNat_lt
      have : UInt64.size = 2 ^ 64 := rfl
      omega }

/-- A batch can be allocated: it has four bytes for each ordinal, and those can be addressed as a signed number
of 64 bits. Whether there is as much memory left is not asked. -/
def Fits (config : Config) : Prop := 4 * config.readBatchSize < Nat.pow 2 63

instance (config : Config) : Decidable config.Fits := inferInstanceAs (Decidable (_ < _))

end Config

/-! ## Segments in their places -/

/-- A segment in its place: the snapshot it belongs to, its position there, and the global ordinal of
its first document. -/
structure SegmentView where
  stamp : Nat
  ord : Nat
  base : Nat
  segment : Segment

namespace SegmentView

/-- The number of documents of the segment, deleted ones included. -/
def count (view : SegmentView) : Nat := view.segment.count

/-- The dictionary of a field, if it has any term. -/
def dictionary? (view : SegmentView) (field : String) : Option Dictionary :=
  view.segment.fields[field]?.filter (0 < ·.size)

/-- The global ordinals of the live documents that have a term. -/
def liveDocs (view : SegmentView) (field text : String) : List Nat :=
  (view.segment.liveDocs field text).map (· + view.base)

end SegmentView

namespace SegmentView

/-- The number of documents in all segments together. -/
def countAll (views : List SegmentView) : Nat := total (views.map (·.count))

/-- The global ordinals of the deleted documents of all segments. -/
def deletedIn (views : List SegmentView) : Bitmap :=
  .ofList (views.flatMap fun view => view.segment.deleted.toList.map (· + view.base))

/-- The segments laid end to end from a base, numbered from `ord`. -/
def layOut (stamp : Nat) : Nat → Nat → List Segment → List SegmentView
  | _, _, [] => []
  | ord, base, segment :: rest =>
    ⟨stamp, ord, base, segment⟩ :: layOut stamp (ord + 1) (base + segment.count) rest

variable {stamp ord base : Nat} {segments : List Segment}

theorem map_segment_layOut (stamp ord base : Nat) (segments : List Segment) :
    (layOut stamp ord base segments).map (·.segment) = segments := by
  induction segments generalizing ord base with
  | nil => rfl
  | cons first rest ih => rw [layOut, List.map_cons, ih]

theorem base_le_of_mem_layOut {view : SegmentView} (h : view ∈ layOut stamp ord base segments) :
    base ≤ view.base := by
  induction segments generalizing ord base with
  | nil => cases h
  | cons first rest ih =>
    rcases List.mem_cons.1 h with rfl | h
    · exact Nat.le_refl _
    · exact Nat.le_trans (Nat.le_add_right _ _) (ih h)

/-- **Ordinals that ascend within each segment ascend throughout**, counted from the base of each. -/
theorem pairwise_flatMap_layOut (stamp ord base : Nat) (chosen : Segment → List Nat)
    (hascending : ∀ segment ∈ segments, (chosen segment).Pairwise (· < ·))
    (hlt : ∀ segment ∈ segments, ∀ d ∈ chosen segment, d < segment.count) :
    ((layOut stamp ord base segments).flatMap fun view =>
      (chosen view.segment).map (· + view.base)).Pairwise (· < ·) := by
  induction segments generalizing ord base with
  | nil => exact .nil
  | cons first rest ih =>
    obtain ⟨hfirst, hrest⟩ := List.forall_mem_cons.1 hascending
    obtain ⟨hltFirst, hltRest⟩ := List.forall_mem_cons.1 hlt
    rw [layOut, List.flatMap_cons, List.pairwise_append]
    refine ⟨?_, ih (ord + 1) (base + first.count) hrest hltRest, ?_⟩
    · exact hfirst.map (· + base) fun _ _ h => Nat.add_lt_add_right h base
    · intro a ha b hb
      obtain ⟨d, hd, rfl⟩ := List.mem_map.1 ha
      obtain ⟨view, hview, hb⟩ := List.mem_flatMap.1 hb
      obtain ⟨e, _, rfl⟩ := List.mem_map.1 hb
      have hlt := hltFirst d hd
      have hbase := base_le_of_mem_layOut hview
      change d + base < e + view.base
      omega

end SegmentView

/-! ## The snapshot -/

/-- The sealed segments of an index at one moment, laid end to end, with the number of their documents and the
marks of the deleted ones. Snapshots with different stamps have nothing to do with each other. -/
structure Snapshot where
  stamp : Nat
  schema : Schema
  config : Config
  segments : List SegmentView
  laidOut : segments = SegmentView.layOut stamp 0 0 (segments.map (·.segment))
  maxDoc : Nat := SegmentView.countAll segments
  deleted : Bitmap := SegmentView.deletedIn segments
  maxDoc_eq : maxDoc = SegmentView.countAll segments := by rfl
  deleted_eq : deleted = SegmentView.deletedIn segments := by rfl

namespace Snapshot

/-- The snapshot of these segments. -/
def ofSegments (stamp : Nat) (schema : Schema) (config : Config) (segments : List Segment) :
    Snapshot where
  stamp := stamp
  schema := schema
  config := config
  segments := SegmentView.layOut stamp 0 0 segments
  laidOut := by rw [SegmentView.map_segment_layOut]

variable (s : Snapshot)

/-- The number of live documents. -/
def liveCount : Nat := s.maxDoc - s.deleted.size

/-- Whether the ordinal is that of a document that is not deleted. -/
def isLive (doc : Nat) : Bool := doc < s.maxDoc && !s.deleted.contains doc

/-- The segment that holds a document: the last one that does not begin after it. -/
def segmentFor? (doc : Nat) : Option SegmentView :=
  if doc < s.maxDoc then (s.segments.takeWhile (·.base ≤ doc)).getLast? else none

/-- The live document with a global ordinal. -/
def document? (doc : Nat) : Option Document :=
  if s.isLive doc then
    (s.segmentFor? doc).bind fun view => view.segment.documents[doc - view.base]?
  else none

/-- Whether any segment has a term in the field. -/
def hasTerms (field : String) : Bool :=
  s.segments.any fun view => (view.dictionary? field).isSome

/-- The live documents. -/
def allDocs : DocSet := .bits (Bitmap.range 0 s.maxDoc \ s.deleted)

/-- Ascending ordinals in the encoding that suits their number. -/
def encode (docs : Ascending) : DocSet :=
  if s.config.smallSetSize s.maxDoc < docs.size then .bits (.ofList docs.toList) else .sorted docs

theorem pairwise_liveDocs (field text : String) :
    (s.segments.flatMap (·.liveDocs field text)).Pairwise (· < ·) := by
  rw [s.laidOut]
  exact SegmentView.pairwise_flatMap_layOut s.stamp 0 0 (·.liveDocs field text)
    (fun segment _ => segment.pairwise_liveDocs field text)
    fun segment _ d hd => Segment.lt_count_of_mem_liveDocs hd

/-- The live documents that have a term, as they come. -/
def termDocs (field text : String) : DocSet :=
  s.encode ⟨(s.segments.flatMap (·.liveDocs field text)).toArray, s.pairwise_liveDocs field text⟩

end Snapshot

end TermJoin
