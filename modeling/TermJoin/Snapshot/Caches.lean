import Std.Data.HashMap
import TermJoin.Query.Basic
import TermJoin.Snapshot.Basic

/-!
# Remembered results

A snapshot and its copies share two tables of results: the sets of terms and the sets of queries. A
table takes entries until it holds as many as it may, and never drops one.

* `Cached`, `Exec`: computations that read and fill the tables, and those that can fail too. A failure
  leaves in the tables what was entered before it.
* `Snapshot.cachedTermDocs`: the set of a term through its table.
* `Snapshot.throughCache`: the set of a query through its table.
-/

namespace TermJoin

/-- The results remembered so far. -/
structure Caches where
  terms : Std.HashMap Term DocSet := ∅
  queries : Std.HashMap Query DocSet := ∅

/-- A computation that reads and fills the caches. -/
abbrev Cached := StateM Caches

/-- A computation that reads and fills the caches, and can fail. -/
abbrev Exec := ExceptT Fault Cached

namespace Caches

/-- The caches with the set of a term, if there is room. -/
def rememberTerm (caches : Caches) (capacity : Nat) (term : Term) (set : DocSet) : Caches :=
  if caches.terms.size < capacity then { caches with terms := caches.terms.insert term set }
  else caches

/-- The caches with the set of a query, if there is room. -/
def rememberQuery (caches : Caches) (capacity : Nat) (q : Query) (set : DocSet) : Caches :=
  if caches.queries.size < capacity then { caches with queries := caches.queries.insert q set }
  else caches

end Caches

namespace Snapshot

variable (s : Snapshot)

/-- The live documents that have a term, remembered. -/
def cachedTermDocs (field text : String) : Cached DocSet := do
  match (← get).terms[Term.mk field text]? with
  | some set => return set
  | none =>
    let set := s.termDocs field text
    modify fun caches => caches.rememberTerm s.config.termCapacity ⟨field, text⟩ set
    return set

/-- The set of a query, remembered if it can be computed. The caches are left alone while it is. -/
def throughCache (q : Query) (compute : Exec DocSet) : Exec DocSet := do
  match (← get).queries[q]? with
  | some set => return set
  | none =>
    let set ← compute
    modify fun caches => caches.rememberQuery s.config.queryCapacity q set
    return set

end Snapshot

end TermJoin
