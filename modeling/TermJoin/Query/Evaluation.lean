import TermJoin.Join
import TermJoin.Query.Rewrite

/-!
# Evaluation

The live documents that a query selects, found through the dictionaries. Every query, and every part of
one that is evaluated, goes through the cache.

* `Snapshot.docSet`: the set of a query.
* `Snapshot.runJoin`: the documents of a join with its statistics, past the cache of queries.
-/

namespace TermJoin.Snapshot

/-- The bitmaps of a list by ascending size, so that what they have in common stays small. -/
def smallestFirst (sets : List Bitmap) : List Bitmap := sets.mergeSort fun a b => a.size ≤ b.size

/-- What all bitmaps of a list have in common, the first one given apart. -/
def meetAll (first : Bitmap) (rest : List Bitmap) : Bitmap :=
  match smallestFirst (first :: rest) with
  | [] => ∅
  | smallest :: others => others.foldl (· ∩ ·) smallest

/-- What the bitmaps of a list have together, the first one given apart. -/
def joinAll (first : Bitmap) (rest : List Bitmap) : Bitmap := rest.foldl (· ∪ ·) first

mutual

/-- The live documents that a query selects. Its parts go through the cache, it does not. -/
def computeDocs (s : Snapshot) : Query → Exec DocSet
  | .all => return s.allDocs
  | .term t => s.cachedTermDocs t.field t.text
  | .startsWith field stem => do
    let texts ← ofExcept (s.expand field stem)
    let sets ← texts.mapM fun text => (s.cachedTermDocs field text : Exec DocSet)
    return .bits (sets.foldl (fun flags set => set.unionInto flags) ∅)
  | .boolean [] => return .empty
  | .boolean clauses => do
    let base ←
      match ← s.clauseDocs .must clauses with
      | first :: rest => pure (meetAll first rest)
      | [] =>
        match ← s.clauseDocs .should clauses with
        | first :: rest => pure (joinAll first rest)
        | [] => pure s.allDocs.toBitmap
    let excluded ← s.clauseDocs .mustNot clauses
    return .bits (excluded.foldl (· \ ·) base)
  | .join source target sub _ => do
    let selected ← s.throughCache sub (s.computeDocs sub)
    return (← s.joinDocs source target selected).1
termination_by structural q => q

/-- The sets of the clauses of one kind, in their order. -/
def clauseDocs (s : Snapshot) (kind : Occur) : List (Occur × Query) → Exec (List Bitmap)
  | [] => return []
  | (occur, q) :: clauses => do
    if occur = kind then
      let set ← s.throughCache q (s.computeDocs q)
      return set.toBitmap :: (← s.clauseDocs kind clauses)
    else s.clauseDocs kind clauses
termination_by structural clauses => clauses

end

variable (s : Snapshot)

/-- The live documents that a query selects, through the cache. -/
def docSet (q : Query) : Exec DocSet := s.throughCache q (s.computeDocs q)

/-- The documents of a join, with its statistics. -/
def runJoin (source target : String) (sub : Query) : Exec (DocSet × JoinStatistics) := do
  let selected ← s.docSet sub
  s.joinDocs source target selected

end TermJoin.Snapshot
