import TermJoin.Snapshot.Caches
import TermJoin.Snapshot.Postings

/-!
# Term cursors

A cursor goes through the terms of one field in ascending order, merged across the segments. It stands
on the least of the terms that the segments have still ahead.

* `Snapshot.termCursor?`: the cursor of a field. Its buffer is allocated at once, which a batch of a size that does
  not fit breaks off.
* `TermCursor.settle`: on the least of the terms ahead.
* `TermCursor.next`, `TermCursor.seek`: the moves, to the next term and to the first at or after a
  target, forwards or backwards.
* `TermCursor.docFreq`, `TermCursor.postings`, `TermCursor.docSet`: the documents of the current term.
* `TermCursor.stops`: the cursor on each term from the current one on. **`remaining_next_lt`** says
  why there is an end to them.
-/

namespace TermJoin

/-! ## One segment -/

/-- The terms of a field in one segment, read up to a position. -/
structure SegmentTerms where
  view : SegmentView
  dictionary : Dictionary
  position : Nat := 0

namespace SegmentTerms

/-- The first unread term with its documents. -/
def head? (terms : SegmentTerms) : Option (String × DocList) :=
  terms.dictionary.entries[terms.position]?

/-- The first unread term. -/
def headTerm? (terms : SegmentTerms) : Option String := terms.head?.map (·.1)

/-- The terms read up to the first one at or after the target. -/
def seek (terms : SegmentTerms) (target : String) : SegmentTerms :=
  { terms with position := terms.dictionary.ceil target }

/-- The terms read past this one, if it is the first unread one. -/
def skip (terms : SegmentTerms) (term : String) : SegmentTerms :=
  if terms.headTerm? = some term then { terms with position := terms.position + 1 } else terms

/-- The documents of the term, if it is the first unread one. -/
def docs? (terms : SegmentTerms) (term : String) : Option DocList :=
  match terms.head? with
  | some (found, docs) => if found = term then some docs else none
  | none => none

/-- The number of unread terms. -/
def remaining (terms : SegmentTerms) : Nat := terms.dictionary.size - terms.position

theorem remaining_skip_le (terms : SegmentTerms) (term : String) :
    (terms.skip term).remaining ≤ terms.remaining := by
  rw [skip]
  split
  · simp only [remaining]
    omega
  · exact Nat.le_refl _

theorem remaining_skip_lt {terms : SegmentTerms} {term : String}
    (h : terms.headTerm? = some term) : (terms.skip term).remaining < terms.remaining := by
  have hlt : terms.position < terms.dictionary.size := by
    simp only [headTerm?, head?, Option.map_eq_some_iff] at h
    obtain ⟨entry, hentry, _⟩ := h
    exact (Array.getElem?_eq_some_iff.1 hentry).1
  rw [skip, if_pos h, remaining, remaining]
  simp only
  omega

end SegmentTerms

/-! ## All segments -/

/-- Where a search for a term ended: on it, on the first one after it, or past all terms. -/
inductive SeekStatus
  | found
  | notFound
  | exhausted
deriving DecidableEq

/-- The least of some terms. -/
def least? : List String → Option String
  | [] => none
  | t :: ts =>
    match least? ts with
    | none => some t
    | some u => if u < t then some u else some t

theorem mem_of_least? {ts : List String} {t : String} (h : least? ts = some t) : t ∈ ts := by
  induction ts generalizing t with
  | nil => cases h
  | cons u ts ih =>
    rw [least?] at h
    split at h
    · cases h
      exact .head _
    · rename_i v hv
      split at h
      · cases h
        exact .tail _ (ih hv)
      · cases h
        exact .head _

/-- The terms of a field across the segments of a snapshot. The current term is the least of those that the
segments have ahead; there is none before the first move and past the last term. Sets of terms in at least
`threshold` documents go through the cache, and scans use the buffer. -/
structure TermCursor where
  snapshot : Snapshot
  field : String
  threshold : Nat
  segments : List SegmentTerms
  term? : Option String := none
  buffer : Array Nat := #[]
  least_eq : ∀ term, term? = some term → least? (segments.filterMap (·.headTerm?)) = some term := by
    intro term h
    cases h

/-- What a cursor of a field is made of, if any segment has a term in it: it stands before the first one. -/
def Snapshot.fieldCursor? (s : Snapshot) (field : String) (threshold : Nat) : Option TermCursor :=
  let segments := s.segments.filterMap fun view =>
    (view.dictionary? field).map fun dictionary => { view, dictionary : SegmentTerms }
  if segments.isEmpty then none else some { snapshot := s, field, threshold, segments }

/-- A cursor before the first term of a field, if any segment has one. Its buffer has room for a batch from the
start, so a batch that does not fit breaks the call off. -/
def Snapshot.termCursor? (s : Snapshot) (field : String) (threshold : Nat) :
    Except Fault (Option TermCursor) :=
  match s.fieldCursor? field threshold with
  | none => .ok none
  | some c => if s.config.Fits then .ok (some c) else .error .capacityOverflow

namespace TermCursor

variable (c : TermCursor)

/-- The cursor with these segments, on the least of the terms that they have ahead. -/
def settle (segments : List SegmentTerms) : TermCursor :=
  { c with
    segments
    term? := least? (segments.filterMap (·.headTerm?))
    least_eq := fun _ h => h }

/-- On the next term, or on the first one if no move was made. -/
def next : TermCursor :=
  match c.term? with
  | some term => c.settle (c.segments.map (·.skip term))
  | none => c.settle c.segments

/-- On the first term at or after the target. -/
def seek (target : String) : TermCursor := c.settle (c.segments.map (·.seek target))

/-- How the cursor stands to a target it was sent to. -/
def status (target : String) : SeekStatus :=
  match c.term? with
  | none => .exhausted
  | some term => if term = target then .found else .notFound

/-- The documents of the current term in each segment that has it. -/
def entries : List (SegmentView × DocList) :=
  match c.term? with
  | none => []
  | some term => c.segments.filterMap fun terms => (terms.docs? term).map (terms.view, ·)

/-- The number of documents that have the current term, deleted ones included. -/
def docFreq : Nat := total (c.entries.map (·.2.size))

/-- The documents of the current term, to be read from the start; without the deleted ones if
`liveOnly`. -/
def postings (liveOnly : Bool) : Postings :=
  .ofSegments <| c.entries.map fun (view, docs) =>
    { docs, base := view.base, deleted? := if liveOnly then some view.segment.deleted else none }

/-- The step function on each document of the current term until it refuses one, and whether it
refused none; and the cursor with its buffer as the scan leaves it. -/
def scan {σ : Type} (liveOnly : Bool) (step : σ → Nat → σ × Bool) (state : σ) :
    (σ × Bool) × TermCursor :=
  let (result, buffer) :=
    (c.postings liveOnly).scan c.snapshot.config.readBatchSize c.snapshot.config.readBatchSize_pos step
      state c.buffer
  (result, { c with buffer })

/-- The live documents of the current term, remembered if the term is frequent. -/
def docSet : Cached DocSet :=
  match c.term? with
  | none => return .empty
  | some term =>
    if c.threshold ≤ c.docFreq then c.snapshot.cachedTermDocs c.field term
    else return c.snapshot.termDocs c.field term

/-! ## Going through the terms -/

/-- The number of terms ahead, one for each segment that has it. -/
def remaining : Nat := total (c.segments.map (·.remaining))

variable {c}

/-- **A step off a term leaves fewer terms ahead.** -/
theorem remaining_next_lt {term : String} (h : c.term? = some term) :
    c.next.remaining < c.remaining := by
  have hmem : ∃ terms ∈ c.segments, terms.headTerm? = some term :=
    List.mem_filterMap.1 (mem_of_least? (c.least_eq term h))
  have hnext : c.next.remaining = total (c.segments.map fun terms => (terms.skip term).remaining) := by
    simp [next, h, settle, remaining, Function.comp_def]
  rw [hnext, remaining]
  obtain ⟨terms, hterms, hhead⟩ := hmem
  generalize c.segments = l at hterms
  clear h hnext
  have hle : ∀ l : List SegmentTerms,
      total (l.map fun terms => (terms.skip term).remaining) ≤ total (l.map (·.remaining)) := by
    intro l
    induction l with
    | nil => simp
    | cons a l ih =>
      have := a.remaining_skip_le term
      simp only [List.map_cons, total_cons]
      omega
  induction hterms with
  | head l =>
    have := SegmentTerms.remaining_skip_lt hhead
    have := hle l
    simp only [List.map_cons, total_cons]
    omega
  | tail a _ ih =>
    have := a.remaining_skip_le term
    simp only [List.map_cons, total_cons]
    omega

/-- The cursor on the current term and on each one after it, as long as the terms have a property. -/
def stops (c : TermCursor) (p : String → Bool) : List TermCursor :=
  match _h : c.term? with
  | none => []
  | some term => if p term then c :: c.next.stops p else []
termination_by c.remaining
decreasing_by exact remaining_next_lt _h

/-- The cursor past all terms. -/
def finish (c : TermCursor) : TermCursor :=
  c.settle (c.segments.map fun terms => { terms with position := terms.dictionary.size })

end TermCursor

end TermJoin
