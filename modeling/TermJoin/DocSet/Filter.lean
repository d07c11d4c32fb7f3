import TermJoin.DocSet.Basic

/-!
# Cursors and filters

A cursor runs forward over the matching documents of one segment. A filter hands each segment the part of a
set that lies there, counted from the segment's base.

* `MatchCursor.next`: to the next document.
* `MatchCursor.advance`: to the first document at or after a target, never backwards.
* `MatchCursor.rest`: the documents that are still to come; `MatchCursor.visits`: those that calls of `next`
  lead to.
* `DocSet.slice`: the members in a range of ordinals, cut out in the way that suits the encoding.
* `DocFilter.ofSet`: a hashed set is sorted first, since it is for probing only.
* `DocFilter.window`: the part of a segment, and `DocFilter.cursor?` a cursor over it.
-/

namespace TermJoin

/-! ## Cursors -/

/-- Ascending documents and the index of the current one, which is none before the first move and
the number of documents after the last. -/
structure MatchCursor where
  docs : Ascending
  position : Option Nat := none

namespace MatchCursor

/-- A cursor over nothing. -/
def empty : MatchCursor := ⟨.empty, none⟩

/-- The number of documents, visited or not. -/
def size (c : MatchCursor) : Nat := c.docs.size

/-- The current document, `noMoreDocs` before the first move and after the last. -/
def doc (c : MatchCursor) : Nat :=
  ((c.position.bind fun i => c.docs.items[i]?)).getD noMoreDocs

/-- The index after the current one. -/
def following (c : MatchCursor) : Nat :=
  match c.position with
  | none => 0
  | some i => min (i + 1) c.size

/-- On the next document. -/
def next (c : MatchCursor) : MatchCursor := { c with position := some c.following }

/-- The index from which a target is looked for. -/
def current (c : MatchCursor) : Nat := c.position.getD 0

/-- The documents from the current one on. -/
def ahead (c : MatchCursor) : Array Nat := c.docs.items.extract c.current

/-- On the first document from the current one on that is at or after the target. -/
def advance (c : MatchCursor) (target : Nat) : MatchCursor :=
  { c with position := some (c.current + partitionPoint c.ahead (· < target)) }

/-- The documents after the current one. -/
def rest (c : MatchCursor) : List Nat := c.docs.toList.drop c.following

/-- Past the last document. -/
def finish (c : MatchCursor) : MatchCursor := { c with position := some c.size }

theorem following_lt_size {c : MatchCursor} (h : c.next.doc ≠ noMoreDocs) : c.following < c.size :=
  Nat.lt_of_not_le fun hle => h (congrArg (·.getD noMoreDocs) (Array.getElem?_eq_none hle))

/-- The documents that calls of `next` lead to, up to the call that leads to none. -/
def visits (c : MatchCursor) : List Nat :=
  if c.next.doc = noMoreDocs then [] else c.next.doc :: c.next.visits
termination_by c.size - c.following
decreasing_by
  have hlt := following_lt_size ‹_›
  change c.size - min (c.following + 1) c.size < c.size - c.following
  omega

end MatchCursor

/-! ## Filters -/

/-- The members from `first` on and before `stop`: between two binary searches in an array, in a window of
flags of a bitmap, and sorted out of a hash set. -/
def DocSet.slice (set : DocSet) (first stop : Nat) : Ascending :=
  match set with
  | .sorted docs => docs.slice first stop
  | .hashed docs =>
    .ofDistinct (docs.toList.filter fun d => first ≤ d && d < stop)
      (List.filter_sublist.nodup (nodup_toList_hashed docs))
  | .bits docs => .ofBitmap (Bitmap.range first stop ∩ docs)

/-- A set that is cut at the bounds of segments. -/
structure DocFilter where
  toSet : DocSet

namespace DocFilter

/-- The filter that accepts the members of the set. -/
def ofSet : DocSet → DocFilter
  | .hashed docs => ⟨(DocSet.hashed docs).toSorted⟩
  | set => ⟨set⟩

/-- Whether the filter accepts the ordinal. -/
def accepts (filter : DocFilter) (d : Nat) : Bool := filter.toSet.contains d

/-- The accepted ordinals from `first` on and before `stop`. -/
def slice (filter : DocFilter) (first stop : Nat) : Ascending := filter.toSet.slice first stop

theorem le_of_mem_slice {filter : DocFilter} {first stop d : Nat}
    (h : d ∈ (filter.slice first stop).toList) : first ≤ d := by
  unfold slice DocSet.slice at h
  split at h
  · exact (Ascending.mem_slice.1 h).2.1
  · have hrange := (List.mem_filter.1 ((Ascending.mem_ofDistinct _).1 h)).2
    rw [Bool.and_eq_true, decide_eq_true_eq] at hrange
    exact hrange.1
  · rw [Ascending.toList_ofBitmap, Std.ExtTreeSet.mem_toList, Std.ExtTreeSet.mem_inter_iff] at h
    exact (Bitmap.mem_range.1 h.1).1

/-- The accepted documents of a segment with this base and this many documents, as ordinals of the
segment. -/
def window (filter : DocFilter) (base count : Nat) : Ascending :=
  (filter.slice base (base + count)).shiftDown base fun _ => le_of_mem_slice

/-- A cursor over the accepted documents of a segment, if there are any. -/
def cursor? (filter : DocFilter) (base count : Nat) : Option MatchCursor :=
  let docs := filter.window base count
  if docs.size = 0 then none else some ⟨docs, none⟩

end DocFilter

end TermJoin
