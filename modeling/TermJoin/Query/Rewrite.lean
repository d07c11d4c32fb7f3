import TermJoin.Snapshot.TermCursor

/-!
# Rewriting

Before a query is weighed, its stems are replaced by the terms of the snapshot that start with them,
and a boolean query with one clause that selects by that clause.

* `Snapshot.gather`, `Snapshot.expand`: the terms that start with a stem, one after the other, unless there
  are too many.
* `Snapshot.rewrite`: one step, nothing if the query is in its final form.
* `Snapshot.rewriteFully`: the final form. A step leads there from any query, since it brings the parts
  into their final forms first.
-/

namespace TermJoin.Snapshot

/-- The current term of a cursor and those after it, as long as they start with the stem, behind those found
before. The first one over the limit is refused. -/
def gather (field stem : String) (limit : Nat) (found : Array String) (c : TermCursor) :
    Except Fault (List String) :=
  match _h : c.term? with
  | none => .ok found.toList
  | some term =>
    if stem.toList.isPrefixOf term.toList then
      if found.size = limit then .error (.tooManyTerms field stem limit)
      else gather field stem limit (found.push term) c.next
    else .ok found.toList
termination_by c.remaining
decreasing_by exact TermCursor.remaining_next_lt _h

/-- The terms of a text field that start with the stem, ascending. -/
def expand (s : Snapshot) (field stem : String) : Except Fault (List String) :=
  if (s.schema.fieldType? field).any (·.supportsStem) then do
    match ← s.termCursor? field noMoreDocs with
    | none => .ok []
    | some c => gather field stem s.config.maxExpansions #[] (c.seek stem)
  else .ok []

/-- The query for any of the terms of a field. -/
def anyTerm (field : String) : List String → Query
  | [text] => .term ⟨field, text⟩
  | texts => .boolean (texts.map fun text => (.should, .term ⟨field, text⟩))

/-- What a boolean query becomes when its clauses are rewritten, each given with its own step. -/
def rewriteBoolean : List (Occur × Query × Option Query) → Option Query
  | [(.must, q, step)] => some (step.getD q)
  | [(.should, q, step)] => some (step.getD q)
  | steps =>
    if steps.any (·.2.2.isSome) then
      some (.boolean (steps.map fun (occur, q, step) => (occur, step.getD q)))
    else none

mutual

/-- One rewriting step, nothing if the query is in its final form. -/
def rewrite (s : Snapshot) : Query → Except Fault (Option Query)
  | .all => .ok none
  | .term _ => .ok none
  | .startsWith field stem => do
    let texts ← s.expand field stem
    return some (anyTerm field texts)
  | .boolean clauses => do
    let steps ← s.rewriteClauses clauses
    return rewriteBoolean steps
  | .join source target sub boost => do
    let step ← s.rewrite sub
    return step.map (.join source target · boost)
termination_by structural q => q

/-- The clauses, each with its own rewriting step. -/
def rewriteClauses (s : Snapshot) :
    List (Occur × Query) → Except Fault (List (Occur × Query × Option Query))
  | [] => .ok []
  | (occur, q) :: clauses => do
    let step ← s.rewrite q
    let steps ← s.rewriteClauses clauses
    return (occur, q, step) :: steps
termination_by structural clauses => clauses

end

/-- The final form of a query. -/
def rewriteFully (s : Snapshot) (q : Query) : Except Fault Query := do
  let step ← s.rewrite q
  return step.getD q

end TermJoin.Snapshot
