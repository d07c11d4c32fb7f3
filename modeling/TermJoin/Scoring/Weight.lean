import TermJoin.DocSet.Filter
import TermJoin.Query.Evaluation

/-!
# Weights and scorers

A weight is a query bound to a snapshot for one execution. Its documents are found when they are first
asked for, once and for all; every segment then gets its part of them with one and the same score.

* `Explanation`: a tree of factors, or one line for a document that does not match. `Explanation.text` is the tree
  with one factor to a line, each level two blanks further in.
* `Weight.ofQuery`, `Weight.normalize`: a fresh weight, and one whose value is scaled.
* `Weighing`: what is done with a weight. It finds the documents at most once.
* `Weight.outcome`: the documents, or the fault that stays. Only a call that broke off leaves nothing behind.
* `Weight.scorer`, `Weight.explain`: the part of a segment, and why a document of it scores. A segment
  of another snapshot is refused before anything else.
-/

namespace TermJoin

/-! ## Explanations -/

/-- A factor of a score with the factors it is made of. -/
inductive Explanation
  | node (value : Single) (isMatch : Bool) (description : String) (details : List Explanation)
deriving Inhabited

namespace Explanation

/-- A factor of a score. -/
def factor (value : Single) (description : String) (details : List Explanation) : Explanation :=
  node value true description details

/-- A document that does not match at all. -/
def noMatch (description : String) (details : List Explanation) : Explanation :=
  node .zero false description details

/-- The value of the factor. -/
def value : Explanation → Single
  | node value _ _ _ => value

/-- Whether the document matches. -/
def isMatch : Explanation → Bool
  | node _ isMatch _ _ => isMatch

/-- What the factor is. -/
def description : Explanation → String
  | node _ _ description _ => description

/-- The factors that this one is made of. -/
def details : Explanation → List Explanation
  | node _ _ _ details => details

mutual

/-- The lines of a tree that stands at a depth. -/
def textAt (depth : Nat) : Explanation → String
  | node value _ description details =>
    String.ofList (List.replicate (2 * depth) ' ') ++ value.text ++ " = " ++ description ++ "\n" ++
      textsAt (depth + 1) details
termination_by structural e => e

/-- The lines of trees that stand at a depth. -/
def textsAt (depth : Nat) : List Explanation → String
  | [] => ""
  | e :: es => textAt depth e ++ textsAt depth es
termination_by structural es => es

end

/-- The tree with one factor to a line. -/
def text (e : Explanation) : String := textAt 0 e

end Explanation

/-! ## Weights -/

/-- What a weight found: the documents, cut to segments by the filter, with statistics for a join. -/
structure Outcome where
  set : DocSet
  filter : DocFilter
  stats? : Option JoinStatistics

/-- A query bound to a snapshot. The `runs` count how often its documents were looked for. -/
structure Weight where
  query : Query
  snapshot : Snapshot
  value : Single
  norm : Single := .one
  outcome? : Option (Except Fault Outcome) := none
  runs : Nat := 0

/-- What is done with a weight: it reads and changes the weight and the caches, and can fail. -/
abbrev Weighing := ExceptT Fault (StateT Weight Cached)

/-- The documents of a segment that match, each with the same score. -/
structure Scorer where
  cursor : MatchCursor
  score : Single

namespace Weight

/-- A fresh weight of the query, whose value is its boost. -/
def ofQuery (s : Snapshot) (q : Query) : Weight :=
  { query := q, snapshot := s, value := q.boost }

/-- The square of the boost. -/
def sumOfSquares (w : Weight) : Single := w.query.boost * w.query.boost

/-- The weight with its boost scaled. -/
def normalize (w : Weight) (norm : Single) : Weight :=
  { w with norm, value := w.query.boost * norm }

/-- The statistics of a join that was run without fault. -/
def stats? (w : Weight) : Option JoinStatistics :=
  match w.outcome? with
  | some (.ok outcome) => outcome.stats?
  | _ => none

/-- Finds the documents. A join is run itself, any other query goes through the cache. -/
def find (w : Weight) : Exec Outcome :=
  match w.query with
  | .join source target sub _ => do
    let (set, stats) ← w.snapshot.runJoin source target sub
    return ⟨set, .ofSet set, some stats⟩
  | q => do
    let set ← w.snapshot.docSet q
    return ⟨set, .ofSet set, none⟩

/-- What a weight keeps of a result: anything, unless the call broke off before there was one. -/
def kept? : Except Fault Outcome → Option (Except Fault Outcome)
  | .error .capacityOverflow => none
  | result => some result

/-- The documents of the weight. They are looked for at the first call, and every later one has the
same answer. -/
def outcome : Weighing Outcome := do
  let w ← get
  match w.outcome? with
  | some result => ofExcept result
  | none =>
    let result ← (w.find.run : Cached (Except Fault Outcome))
    set { w with outcome? := kept? result, runs := w.runs + 1 }
    ofExcept result

/-- The scorer of a segment. One without matches scores zero. -/
def scorer (view : SegmentView) : Weighing Scorer := do
  if view.stamp ≠ (← get).snapshot.stamp then throw (.foreignSegment view.ord)
  let found ← outcome
  match found.filter.cursor? view.base view.count with
  | some cursor => return ⟨cursor, (← get).value⟩
  | none => return ⟨.empty, .zero⟩

/-- Says that a query does not select a document. -/
def noMatch (q : Query) (doc : Nat) : Explanation :=
  .noMatch (q.render ++ s!" doesn't match id {doc}") []

/-- Why the document with this ordinal of the segment scores. -/
def explain (view : SegmentView) (doc : Nat) : Weighing Explanation := do
  let found ← scorer view
  let w ← get
  if (found.cursor.advance doc).doc = doc then
    return .factor w.value (w.query.render ++ " , product of:")
      [.factor w.query.boost "boost" [], .factor w.norm "queryNorm" []]
  else return noMatch w.query doc

end Weight

end TermJoin
