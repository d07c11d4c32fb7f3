import TermJoin.Snapshot.TermCursor

/-!
# Joins

A join takes a set of documents and finds those that have, in a target field, a term that one of the
given ones has in a source field. It goes through the terms of the source field in order. The
documents of a rare term are read directly, those of a frequent one come from the cache; and what is
found is kept as a list of small sets until it is large enough for a bitmap.

* `HistogramLibrary`: what a run asks of a library of histograms, which is a parameter.
* `JoinStatistics`: what one run went through; `JoinStatistics.histogram` counts its sizes.
* `JoinRun.sharesTerm`: whether a term of the source field leads on.
* `Collected.absorb`: the documents of a term of the target field are added.
* `Collected.toSet`: what was found as one set; small sets are merged in ascending order.
* `JoinRun.collect`: all terms in turn, up to the end of the target field's terms.
* `Snapshot.joinDocs`: the documents found, and how they were, unless there is no room for a cursor.
-/

namespace TermJoin

/-! ## Statistics -/

/-- A library of histograms: an empty one over a range with a number of bins of equal width, one with a value
more, the number of values, and the text of all. -/
structure HistogramLibrary where
  Histogram : Type
  new : Float → Float → Nat → Histogram
  add : Histogram → Float → Histogram
  count : Histogram → Nat
  text : Histogram → String

/-- A new histogram counts nothing, and a value more counts for one. -/
structure HistogramLibrary.Counts (library : HistogramLibrary) : Prop where
  new : ∀ low high bins, library.count (library.new low high bins) = 0
  add : ∀ histogram x, library.count (library.add histogram x) = library.count histogram + 1

/-- The counters of one run: how many terms it visited on either side, how it read their documents, and the
sizes of the sets that it put together, in this order. -/
structure JoinStatistics where
  sourceTerms : Nat := 0
  sharingTerms : Nat := 0
  directScans : Nat := 0
  cachedLookups : Nat := 0
  targetTerms : Nat := 0
  bitmapMode : Bool := false
  resultSize : Nat := 0
  targetSizes : Array Nat := #[]

namespace JoinStatistics

variable (library : HistogramLibrary)

/-- The sizes, counted one after the other. -/
def histogram (stats : JoinStatistics) : library.Histogram :=
  stats.targetSizes.foldl (fun histogram size => library.add histogram (Float.ofNat size))
    (library.new 0 1024 32)

/-- The report of a run. -/
def text (stats : JoinStatistics) : String :=
  s!"From terms={stats.sourceTerms} (intersecting={stats.sharingTerms})\n" ++
    s!"Direct scans={stats.directScans} Cached lookups={stats.cachedLookups}\n" ++
    s!"To terms={stats.targetTerms} Bitset={stats.bitmapMode} Result size={stats.resultSize}\n" ++
    "To term sizes:\n" ++ library.text (stats.histogram library)

end JoinStatistics

/-! ## A run -/

/-- The documents found so far: as small sets, with the number of documents that went in, and as a
bitmap once there is one. -/
structure Collected where
  small : List DocSet := []
  total : Nat := 0
  bits? : Option Bitmap := none
  stats : JoinStatistics := {}

/-- The parts of a join that stay the same for all terms. The `probe` has the members of `selected` in
an encoding for single questions. -/
structure JoinRun where
  snapshot : Snapshot
  selected : DocSet
  probe : DocSet
  target : TermCursor

namespace JoinRun

variable (run : JoinRun)

/-- The document frequency from which a term is frequent. -/
def minDocFreq : Nat := run.snapshot.config.minDocFreq run.snapshot.maxDoc

/-- The number of documents from which a bitmap is kept. -/
def maxSortedSize : Nat := run.snapshot.config.maxSortedSize run.snapshot.maxDoc

/-- Whether a scan of the current term of the source field comes to a selected document. Deleted documents, which
are never selected, need not be left out of it. -/
def scanShares (source : TermCursor) : Bool :=
  !(source.scan false (fun _ doc => ((), !run.probe.contains doc)) ()).1.2

/-- Whether a selected document has the current term of the source field. -/
def sharesTerm (source : TermCursor) : Cached Bool :=
  if source.docFreq < run.minDocFreq then return run.scanShares source
  else return run.selected.intersects (← source.docSet)

/-- The counters after the question whether the current term of the source field leads on. -/
def countSource (source : TermCursor) (sharing : Bool) (stats : JoinStatistics) : JoinStatistics :=
  let direct := source.docFreq < run.minDocFreq
  { stats with
    sourceTerms := stats.sourceTerms + 1
    directScans := stats.directScans + if direct then 1 else 0
    cachedLookups := stats.cachedLookups + if direct then 0 else 1
    sharingTerms := stats.sharingTerms + if sharing then 1 else 0 }

end JoinRun

namespace Collected

/-- The bitmap to add the documents of a term to, if there is one or it is time to begin one: when some
small set is kept and the term's documents would make too many. -/
def bitsFor? (c : Collected) (docFreq maxSortedSize : Nat) : Option Bitmap :=
  match c.bits? with
  | some bits => some bits
  | none => if maxSortedSize < docFreq + c.total && !c.small.isEmpty then some ∅ else none

/-- The counters after the documents of a term of the target field were added. -/
def countTarget (stats : JoinStatistics) (direct : Bool) (size : Nat) : JoinStatistics :=
  { stats with
    targetTerms := stats.targetTerms + 1
    directScans := stats.directScans + if direct then 1 else 0
    targetSizes := stats.targetSizes.push size }

/-- The collected documents with a set more. A bitmap is taken as it is when none is kept yet. -/
def addSet (c : Collected) (bits? : Option Bitmap) (set : DocSet) : Collected :=
  let c :=
    { c with total := c.total + set.size, stats := countTarget c.stats false set.size }
  match bits?, set with
  | some bits, set => { c with bits? := some (set.unionInto bits) }
  | none, .bits docs => { c with bits? := some docs }
  | none, set => { c with small := c.small ++ [set] }

/-- The collected documents with the live ones of a term of the target field, scanned into a bitmap. -/
def addScan (c : Collected) (bits : Bitmap) (target : TermCursor) : Collected :=
  let (bits, size) :=
    (target.scan true (fun (state : Bitmap × Nat) doc =>
      ((state.1.insert doc, state.2 + 1), true)) (bits, 0)).1.1
  { c with bits? := some bits, total := c.total + size, stats := countTarget c.stats true size }

/-- The collected documents with the live ones of a term of the target field. -/
def absorb (run : JoinRun) (target : TermCursor) (c : Collected) : Cached Collected :=
  match c.bitsFor? target.docFreq run.maxSortedSize with
  | some bits =>
    if target.docFreq < run.minDocFreq then return c.addScan bits target
    else return c.addSet (some bits) (← target.docSet)
  | none => return c.addSet none (← target.docSet)

/-- The collected documents as one set. -/
def toSet (c : Collected) : DocSet :=
  match c.bits?, c.small with
  | some bits, small => .bits (small.foldl (fun flags set => set.unionInto flags) bits)
  | none, [] => .empty
  | none, [set] => set
  | none, small => .sorted (.mergeAll (small.map (·.toAscending)))

end Collected

/-- The terms of the source field in turn. Past the last term of the target field there is nothing left
to find. -/
def JoinRun.collect (run : JoinRun) : List TermCursor → Collected → Cached Collected
  | [], c => return c
  | source :: rest, c => do
    let sharing ← run.sharesTerm source
    let c := { c with stats := run.countSource source sharing c.stats }
    match sharing, source.term? with
    | true, some term =>
      let target := run.target.seek term
      match target.status term with
      | .exhausted => return c
      | .notFound => run.collect rest c
      | .found => run.collect rest (← c.absorb run target)
    | _, _ => run.collect rest c

namespace Snapshot

variable (s : Snapshot)

/-- The cursor on each term of the source field that stands for a full value. -/
def sourceStops (source : TermCursor) : List TermCursor :=
  match (s.schema.fieldType? source.field).bind (·.fullStem?) with
  | some stem => (source.seek stem).stops fun term => stem.toList.isPrefixOf term.toList
  | none => source.next.stops fun _ => true

/-- The members of a set, hashed if they are sorted and rare terms are to be looked up in it. -/
def probeOf (selected : DocSet) : DocSet :=
  match selected with
  | .sorted _ => if 0 < s.config.minDocFreq s.maxDoc then selected.toHashed else selected
  | _ => selected

/-- The live documents that have a term of the target cursor that a selected document has on the way of the
source cursor. -/
def joinAlong (selected : DocSet) (source target : TermCursor) : Cached (DocSet × JoinStatistics) := do
  let run : JoinRun := { snapshot := s, selected, probe := s.probeOf selected, target }
  let c ← run.collect (s.sourceStops source) {}
  let set := c.toSet.without s.deleted
  return (set, { c.stats with bitmapMode := c.bits?.isSome, resultSize := set.size })

/-- The live documents that have, in the target field, a term that a selected document has in the source
field. Both cursors are made before either field is found to have no terms. -/
def joinDocs (source target : String) (selected : DocSet) : Exec (DocSet × JoinStatistics) := do
  let threshold := s.config.minDocFreq s.maxDoc
  let source? ← ofExcept (s.termCursor? source threshold)
  let target? ← ofExcept (s.termCursor? target threshold)
  match source?, target? with
  | some source, some target => s.joinAlong selected source target
  | _, _ => return (.empty, {})

end Snapshot

end TermJoin
