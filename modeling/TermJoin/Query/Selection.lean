import Std.Data.HashSet
import TermJoin.Query.Basic
import TermJoin.Snapshot.Basic

/-!
# Selection from stored documents

The live documents that a query selects, found by looking at every stored document. It is slow, and
needs neither dictionaries nor caches.

* `admits`: the rule of boolean queries, for one document.
* `Snapshot.select`: the ordinals of the selected documents, ascending.
-/

namespace TermJoin

/-- Whether a boolean query selects a document on which its clauses decide so. -/
def admits (verdicts : List (Occur × Bool)) : Bool :=
  let of (kind : Occur) := (verdicts.filter (·.1 == kind)).map (·.2)
  let base :=
    if !(of .must).isEmpty then (of .must).all id
    else if !(of .should).isEmpty then (of .should).any id
    else true
  !verdicts.isEmpty && base && !(of .mustNot).any id

namespace Snapshot

/-- The live documents with their ordinals. -/
def liveDocuments (s : Snapshot) : List (Nat × Document) :=
  (List.range s.maxDoc).filterMap fun d => (s.document? d).map (d, ·)

/-- The ordinals of the live documents with a property. -/
def selectBy (s : Snapshot) (p : Nat → Document → Bool) : List Nat :=
  (s.liveDocuments.filter fun (d, doc) => p d doc).map (·.1)

/-- The terms of full values that some documents have in a field. -/
def termsAmong (s : Snapshot) (docs : List Nat) (field : String) : Std.HashSet String :=
  .ofList (docs.flatMap fun d =>
    match s.document? d with
    | some doc => s.schema.fullTerms doc field
    | none => [])

mutual

/-- The ordinals of the live documents that a query selects. -/
def select (s : Snapshot) : Query → List Nat
  | .all => s.selectBy fun _ _ => true
  | .term t => s.selectBy fun _ doc => s.schema.holds doc t
  | .startsWith field stem => s.selectBy fun _ doc => s.schema.holdsStem doc field stem
  | .boolean clauses =>
    let selections := s.selectClauses clauses
    s.selectBy fun d _ => admits (selections.map fun (occur, docs) => (occur, docs.contains d))
  | .join source target sub _ =>
    let shared := s.termsAmong (s.select sub) source
    s.selectBy fun _ doc => (s.schema.fullTerms doc target).any shared.contains
termination_by structural q => q

/-- The ordinals that each clause selects. -/
def selectClauses (s : Snapshot) : List (Occur × Query) → List (Occur × List Nat)
  | [] => []
  | (occur, q) :: clauses => (occur, s.select q) :: s.selectClauses clauses
termination_by structural clauses => clauses

end

end Snapshot

end TermJoin
