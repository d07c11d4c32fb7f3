import TermJoin.Snapshot.Basic

/-!
# The index writer

An index takes documents into its pending segment and seals that at each commit. A deletion reaches
sealed and pending documents alike, and no snapshot taken before.

* `Index.add`: one more document, or the fault of its first value that does not fit, which changes nothing.
* `Index.commit`: seals the pending documents, if there are any.
* `Index.delete`, `Index.deleteValue`: deletion by ordinal, and by value.
* `Index.snapshot`: the sealed segments as they stand, under the next stamp. All indexes draw their stamps from one
  counter.
-/

namespace TermJoin

/-- An index being written. -/
structure Index where
  schema : Schema
  config : Config := {}
  segments : List Segment := []
  pending : PendingSegment := .empty

namespace Index

variable (index : Index)

/-- The number of sealed documents, deleted ones included. -/
def sealedCount : Nat := total (index.segments.map (·.count))

/-- The number of documents, deleted ones included. -/
def count : Nat := index.sealedCount + index.pending.count

/-- The ordinal of one more pending document, or why it is refused, and the index as it is then. -/
def add (doc : Document) : Except Fault Nat × Index :=
  if noMoreDocs ≤ index.count then (.error .tooManyDocuments, index)
  else
    match index.schema.termsOf doc with
    | .error fault => (.error fault, index)
    | .ok terms => (.ok index.count, { index with pending := index.pending.add doc terms })

/-- The index with its pending documents sealed. -/
def commit : Index :=
  if index.pending.count = 0 then index
  else { index with segments := index.segments ++ [index.pending.toSegment], pending := .empty }

/-- The sealed segments with a document deleted, and whether it was not deleted before. Nothing if the
document is none of theirs. -/
def deleteSealed : List Segment → Nat → Option (Bool × List Segment)
  | [], _ => none
  | segment :: rest, doc =>
    if doc < segment.count then
      let (fresh, segment) := segment.delete doc
      some (fresh, segment :: rest)
    else
      (deleteSealed rest (doc - segment.count)).map fun (fresh, rest) => (fresh, segment :: rest)

/-- The index with a document deleted, and whether there is such a document that was not deleted
before. -/
def delete (doc : Nat) : Bool × Index :=
  match deleteSealed index.segments doc with
  | some (fresh, segments) => (fresh, { index with segments })
  | none =>
    if doc < index.count then
      let (fresh, pending) := index.pending.delete (doc - index.sealedCount)
      (fresh, { index with pending })
    else (false, index)

/-- The index with all documents of a term deleted, and how many were not deleted before. -/
def deleteTerm (field text : String) : Nat × Index :=
  let marked := index.segments.map (·.deleteTerm field text)
  let (fresh, pending) := index.pending.deleteTerm field text
  (total (marked.map (·.1)) + fresh, { index with segments := marked.map (·.2), pending })

/-- How many documents of a value were not deleted before, or why it is refused, and the index with all of them
deleted. -/
def deleteValue (field value : String) : Except Fault Nat × Index :=
  match index.schema.fieldType? field with
  | none => (.error (.unknownField field), index)
  | some type =>
    match type.queryTerm field value with
    | .error cause => (.error (.query cause), index)
    | .ok text =>
      let (fresh, index) := index.deleteTerm field text
      (.ok fresh, index)

/-- The sealed segments as they stand, under the next stamp of the counter. -/
def snapshot : StateM Nat Snapshot := do
  let stamp ← getModify (· + 1)
  return .ofSegments stamp index.schema index.config index.segments

end Index

end TermJoin
