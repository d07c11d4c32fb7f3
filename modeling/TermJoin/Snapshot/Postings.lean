import TermJoin.DocSet.Ascending
import TermJoin.Segment.Dictionary

/-!
# Postings

The documents of a term as they are read: in batches that go on where the last one ended, across the
segments. Deleted documents are passed over if there are flags for them.

* `SegmentPostings.readInto`: the next ordinals of one segment, put at the end of a buffer.
* `Postings.read`: the next batch, from one segment or from several.
* `Postings.unread`: what is still to be read. **`unread_read`**: a batch is the start of what was
  unread, and the rest is what stays so.
* `Postings.scan`: reads all batches into a step function until that refuses an ordinal.
-/

namespace TermJoin

/-! ## One segment -/

/-- The documents of a term in one segment, read up to a position. They are counted from the base of the
segment, and those that are flagged as deleted are passed over. -/
structure SegmentPostings where
  docs : DocList
  base : Nat
  deleted? : Option Bitmap
  position : Nat := 0

namespace SegmentPostings

/-- Whether the document with this ordinal of the segment is passed over. -/
def skips (postings : SegmentPostings) (doc : Nat) : Bool := postings.deleted?.any (·.contains doc)

/-- The buffer with up to `room` more ordinals at its end, and what is unread after them. -/
def readInto (postings : SegmentPostings) (buffer : Array Nat) (room : Nat) :
    Array Nat × SegmentPostings :=
  if h : postings.position < postings.docs.size ∧ 0 < room then
    let doc := postings.docs[postings.position]
    let rest := { postings with position := postings.position + 1 }
    if postings.skips doc then rest.readInto buffer room
    else rest.readInto (buffer.push (doc + postings.base)) (room - 1)
  else (buffer, postings)
termination_by postings.docs.size - postings.position

/-- The ordinals still to be read, counted from the start of the snapshot. -/
def unread (postings : SegmentPostings) : List Nat :=
  ((postings.docs.toList.drop postings.position).filter (!postings.skips ·)).map (· + postings.base)

variable {postings : SegmentPostings}

theorem unread_of_size_le (h : postings.docs.size ≤ postings.position) : postings.unread = [] := by
  rw [unread, List.drop_eq_nil_of_le h, List.filter_nil, List.map_nil]

theorem unread_of_lt (h : postings.position < postings.docs.size) :
    postings.unread =
      if postings.skips postings.docs[postings.position] then
        { postings with position := postings.position + 1 : SegmentPostings }.unread
      else
        (postings.docs[postings.position] + postings.base) ::
          { postings with position := postings.position + 1 : SegmentPostings }.unread := by
  rw [unread, List.drop_eq_getElem_cons h, List.filter_cons, Array.getElem_toList]
  cases hskip : postings.skips postings.docs[postings.position] <;> rfl

/-- **What is read comes from the start of what was unread.** -/
theorem readInto_eq (postings : SegmentPostings) (buffer : Array Nat) (room : Nat) :
    (postings.readInto buffer room).1.toList = buffer.toList ++ postings.unread.take room ∧
      (postings.readInto buffer room).2.unread = postings.unread.drop room := by
  fun_induction readInto postings buffer room with
  | case1 postings buffer room h doc rest hskip ih =>
    rw [unread_of_lt h.1, if_pos hskip]
    exact ih
  | case2 postings buffer room h doc rest hskip ih =>
    obtain ⟨room, rfl⟩ := Nat.exists_eq_succ_of_ne_zero (Nat.ne_of_gt h.2)
    rw [unread_of_lt h.1, if_neg hskip, List.take_succ_cons, List.drop_succ_cons]
    rw [Nat.succ_sub_one] at ih
    refine ⟨ih.1.trans ?_, ih.2⟩
    rw [Array.toList_push, List.append_assoc, List.singleton_append]
  | case3 postings buffer room h =>
    rcases Nat.lt_or_ge postings.position postings.docs.size with hlt | hge
    · obtain rfl : room = 0 := Nat.eq_zero_of_not_pos fun hroom => h ⟨hlt, hroom⟩
      simp
    · simp [unread_of_size_le hge]

theorem size_readInto (postings : SegmentPostings) (buffer : Array Nat) (room : Nat) :
    (postings.readInto buffer room).1.size = buffer.size + min room postings.unread.length := by
  rw [← Array.length_toList, (postings.readInto_eq buffer room).1, List.length_append,
    Array.length_toList, List.length_take]

end SegmentPostings

/-! ## All segments -/

/-- What is unread of a term's documents: in the one segment that has the term, or in several. -/
inductive Postings
  | single (segment : SegmentPostings)
  | multi (segments : List SegmentPostings)

namespace Postings

/-- The documents in these segments. -/
def ofSegments : List SegmentPostings → Postings
  | [segment] => single segment
  | segments => multi segments

/-- The segments that have the term. -/
def segments : Postings → List SegmentPostings
  | single segment => [segment]
  | multi segments => segments

/-- Whether a single segment has the term. -/
def isSingle : Postings → Bool
  | single _ => true
  | multi _ => false

/-- The number of segments that have the term. -/
def segmentCount (postings : Postings) : Nat := postings.segments.length

/-- The unread ordinals of all segments. -/
def unread (postings : Postings) : List Nat := postings.segments.flatMap (·.unread)

/-- The buffer filled up to `size` from one segment after the other, and the segments after that. -/
def fill (size : Nat) (buffer : Array Nat) : List SegmentPostings → Array Nat × List SegmentPostings
  | [] => (buffer, [])
  | segment :: segments =>
    let (buffer, segment) := segment.readInto buffer (size - buffer.size)
    if buffer.size = size then (buffer, segment :: segments)
    else
      let (buffer, segments) := fill size buffer segments
      (buffer, segment :: segments)

/-- The next batch of at most `size` ordinals, in place of what the buffer held, and what is unread after
it. -/
def read (postings : Postings) (buffer : Array Nat) (size : Nat) : Array Nat × Postings :=
  match postings with
  | single segment =>
    let (buffer, segment) := segment.readInto (buffer.shrink 0) size
    (buffer, single segment)
  | multi segments =>
    let (buffer, segments) := fill size (buffer.shrink 0) segments
    (buffer, multi segments)

theorem unread_single (segment : SegmentPostings) : (single segment).unread = segment.unread :=
  List.flatMap_singleton _ _

@[simp] theorem segments_ofSegments (segments : List SegmentPostings) :
    (ofSegments segments).segments = segments := by
  unfold ofSegments
  split <;> rfl

/-- **A buffer is filled from the start of what was unread**, and never beyond its size. -/
theorem fill_eq {size : Nat} {buffer : Array Nat} (h : buffer.size ≤ size)
    (segments : List SegmentPostings) :
    (fill size buffer segments).1.toList =
        buffer.toList ++ (segments.flatMap (·.unread)).take (size - buffer.size) ∧
      (fill size buffer segments).2.flatMap (·.unread) =
        (segments.flatMap (·.unread)).drop (size - buffer.size) := by
  fun_induction fill size buffer segments with
  | case1 buffer => simp
  | case2 buffer segment segments buffer' segment' hread hfull =>
    obtain ⟨htaken, hleft⟩ := segment.readInto_eq buffer (size - buffer.size)
    have hsize := segment.size_readInto buffer (size - buffer.size)
    rw [hread] at htaken hleft hsize
    -- the buffer is full, so there was enough in this segment
    have hroom : size - buffer.size ≤ segment.unread.length := by
      dsimp only at hsize
      omega
    rw [List.flatMap_cons, List.flatMap_cons, List.take_append_of_le_length hroom,
      List.drop_append_of_le_length hroom]
    exact ⟨htaken, congrArg (· ++ _) hleft⟩
  | case3 buffer segment segments buffer' segment' hread hroom buffer'' segments' hfill ih =>
    obtain ⟨htaken, hleft⟩ := segment.readInto_eq buffer (size - buffer.size)
    have hsize := segment.size_readInto buffer (size - buffer.size)
    rw [hread] at htaken hleft hsize
    dsimp only at htaken hleft hsize
    -- there is room in the buffer, so nothing is left in this segment
    have hall : segment.unread.length ≤ size - buffer.size := by omega
    rw [List.take_of_length_le hall] at htaken
    rw [List.drop_eq_nil_of_le hall] at hleft
    obtain ⟨htaken', hleft'⟩ := ih (by omega)
    rw [hfill] at htaken' hleft'
    have hrest : size - buffer'.size = size - buffer.size - segment.unread.length := by omega
    rw [List.flatMap_cons, List.flatMap_cons, List.take_append, List.drop_append,
      List.take_of_length_le hall, List.drop_eq_nil_of_le hall, ← hrest, hleft]
    exact ⟨by rw [htaken', htaken, List.append_assoc], hleft'⟩

/-- **A batch is the start of what was unread**, whatever the buffer held before. -/
theorem unread_read (postings : Postings) (buffer : Array Nat) (size : Nat) :
    (postings.read buffer size).1.toList = postings.unread.take size ∧
      (postings.read buffer size).2.unread = postings.unread.drop size := by
  cases postings with
  | single segment =>
    obtain ⟨htaken, hleft⟩ := segment.readInto_eq (buffer.shrink 0) size
    rw [unread_single]
    exact ⟨htaken.trans (by simp), (unread_single _).trans hleft⟩
  | multi segments =>
    have hroom : (buffer.shrink 0).size ≤ size := by simp
    obtain ⟨htaken, hleft⟩ := fill_eq hroom segments
    rw [Array.size_shrink, Nat.zero_min, Nat.sub_zero] at htaken hleft
    exact ⟨htaken.trans (by simp [unread, Postings.segments]), hleft⟩

/-! ## Scans -/

variable {σ : Type}

/-- The step function on each ordinal of a batch until it refuses one, and whether it refused none. -/
def visit (step : σ → Nat → σ × Bool) (state : σ) : List Nat → σ × Bool
  | [] => (state, true)
  | doc :: docs =>
    match step state doc with
    | (state, true) => visit step state docs
    | (state, false) => (state, false)

/-- The step function on each unread ordinal, batch by batch, until it refuses one, and whether it
refused none; and the buffer with the last batch. -/
def scan (size : Nat) (hsize : 0 < size) (step : σ → Nat → σ × Bool) (state : σ) (buffer : Array Nat)
    (postings : Postings) : (σ × Bool) × Array Nat :=
  let batch := (postings.read buffer size).1
  if _hbatch : batch.size = 0 then ((state, true), batch)
  else
    match visit step state batch.toList with
    | (state, true) => scan size hsize step state batch (postings.read buffer size).2
    | (state, false) => ((state, false), batch)
termination_by postings.unread.length
decreasing_by
  obtain ⟨hbatch, hleft⟩ := postings.unread_read buffer size
  have hne : postings.unread ≠ [] := fun hnil => _hbatch (by
    rw [← Array.length_toList, hbatch, hnil, List.take_nil, List.length_nil])
  have := List.length_pos_iff.2 hne
  rw [hleft, List.length_drop]
  omega

end Postings

end TermJoin
