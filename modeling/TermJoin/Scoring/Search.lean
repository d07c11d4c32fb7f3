import TermJoin.Scoring.Weight

/-!
# Search

A search weighs the query in its final form, scales the weight, and collects the matches of every
segment.

* `Snapshot.normalizedWeight`: the weight that a search uses.
* `Snapshot.search`: all matches with their scores, by ascending ordinal.
* `Snapshot.searchScheduled`: the same, with the segments scored in any order on the one weight.
* `Snapshot.explain`: why a document of the snapshot scores.
-/

namespace TermJoin

/-- A match: a global ordinal with its score. -/
structure Hit where
  doc : Nat
  score : Single
deriving DecidableEq

namespace Snapshot

variable (s : Snapshot)

/-- The weight of the query in its final form, scaled. -/
def normalizedWeight (q : Query) : Except Fault Weight := do
  let w := Weight.ofQuery s (← s.rewriteFully q)
  return w.normalize w.sumOfSquares.queryNorm

/-- Does something with a fresh weight and forgets the weight. -/
def withWeight {α : Type} (w : Weight) (act : Weighing α) : Exec α :=
  (act.run.run' w : Cached (Except Fault α))

/-- The matches of a segment. -/
def segmentHits (view : SegmentView) : Weighing (List Hit) := do
  let found ← Weight.scorer view
  return found.cursor.visits.map fun doc => ⟨view.base + doc, found.score⟩

/-- All matches of the query with their scores, by ascending ordinal. -/
def search (q : Query) : Exec (List Hit) := do
  let w ← ofExcept (s.normalizedWeight q)
  let hits ← withWeight w (s.segments.mapM segmentHits)
  return hits.flatten

/-- The matches of each segment in the order of the schedule, or the fault met there. -/
def scheduledHits (schedule : List SegmentView) :
    StateT Weight Cached (List (Nat × Except Fault (List Hit))) :=
  schedule.mapM fun view => do return (view.ord, ← (segmentHits view).run)

/-- All matches of the query with their scores, by ascending ordinal. The segments are scored in the
order of the schedule, on one weight; the first fault in the order of the segments counts. -/
def searchScheduled (schedule : List SegmentView) (q : Query) : Exec (List Hit) := do
  let w ← ofExcept (s.normalizedWeight q)
  let results ← ((scheduledHits schedule).run' w : Cached _)
  let hits ← s.segments.mapM fun view => ofExcept ((results.lookup view.ord).getD (.ok []))
  return hits.flatten

/-- Why the document with this global ordinal scores. A document that matches nothing is named by its
ordinal in its segment, if it is in any. -/
def explain (q : Query) (doc : Nat) : Exec Explanation := do
  let w ← ofExcept (s.normalizedWeight q)
  match s.segmentFor? doc with
  | some view => withWeight w (Weight.explain view (doc - view.base))
  | none => return Weight.noMatch w.query doc

end Snapshot

end TermJoin
