import TermJoin.Document
import TermJoin.Single
import TermJoin.Syntax.Expression

/-!
# Queries

A query is a plain value: it selects documents of any index, and can be compared, hashed and built
from others.

* `Query.and`, `Query.or`, `Query.not`: the operators. A conjunction of a conjunction is one.
  `Query.extend` is what the first two have in common.
* `Query.boost`: the factor of a join's scores.
* `Query.terms`: the terms that the query looks up to find documents.
* `Query.render`: a query on one line. Clauses stand in parentheses, a required one behind a plus and
  an excluded one behind a minus; a join names its fields in front of its sub-query.
-/

namespace TermJoin

/-- How a clause takes part in a boolean query. -/
inductive Occur
  | must
  | should
  | mustNot
deriving DecidableEq, Hashable, Inhabited

/-- A query. A boolean one selects what all `must` clauses do, or what any `should` clause does if
there is no `must` clause, or every live document if there is neither; always without what a
`mustNot` clause selects. One without clauses selects nothing. A join selects the documents that share,
in `target`, a term with what `sub` selects, in `source`. -/
inductive Query
  | all
  | term (term : Term)
  | startsWith (field stem : String)
  | boolean (clauses : List (Occur × Query))
  | join (source target : String) (sub : Query) (boost : Single)
deriving Hashable, Inhabited

namespace Query

/-! ## Equality -/

mutual

/-- Whether two queries are the same. Boosts are compared by their bits. -/
def decEq : (p q : Query) → Decidable (p = q)
  | .all, .all => isTrue rfl
  | .term s, .term t => decidable_of_iff (s = t) (by simp)
  | .startsWith f s, .startsWith g t => decidable_of_iff (f = g ∧ s = t) (by simp)
  | .boolean cs, .boolean ds =>
    match decEqClauses cs ds with
    | isTrue h => isTrue (by rw [h])
    | isFalse h => isFalse (by simpa using h)
  | .join f g p b, .join f' g' p' b' =>
    match decEq p p' with
    | isTrue h => decidable_of_iff (f = f' ∧ g = g' ∧ b = b') (by simp [h])
    | isFalse h => isFalse (by simp [h])
  | .all, .term _ | .all, .startsWith .. | .all, .boolean _ | .all, .join ..
  | .term _, .all | .term _, .startsWith .. | .term _, .boolean _ | .term _, .join ..
  | .startsWith .., .all | .startsWith .., .term _ | .startsWith .., .boolean _
  | .startsWith .., .join .. | .boolean _, .all | .boolean _, .term _ | .boolean _, .startsWith ..
  | .boolean _, .join .. | .join .., .all | .join .., .term _ | .join .., .startsWith ..
  | .join .., .boolean _ => isFalse (by simp)
termination_by structural p => p

/-- Whether two lists of clauses are the same. -/
def decEqClauses : (cs ds : List (Occur × Query)) → Decidable (cs = ds)
  | [], [] => isTrue rfl
  | [], _ :: _ => isFalse (by simp)
  | _ :: _, [] => isFalse (by simp)
  | (o, p) :: cs, (o', q) :: ds =>
    match decEq p q, decEqClauses cs ds with
    | isTrue h, isTrue hs => decidable_of_iff (o = o') (by simp [h, hs])
    | isFalse h, _ => isFalse (by simp [h])
    | _, isFalse hs => isFalse (by simp [hs])
termination_by structural cs => cs

end

instance : DecidableEq Query := decEq

/-! ## Building queries -/

/-- Documents with this number in the field. -/
def number (field : String) (v : Int64) : Query := term ⟨field, NumericTerm.full v⟩

/-- Whether there are clauses, and all of this kind. -/
def isOnly (kind : Occur) (clauses : List (Occur × Query)) : Bool :=
  !clauses.isEmpty && clauses.all (·.1 == kind)

/-- The clauses of a boolean query that has only clauses of this kind. Any other query is the one such
clause. -/
def operands (kind : Occur) : Query → List (Occur × Query)
  | boolean clauses => if isOnly kind clauses then clauses else [(kind, boolean clauses)]
  | p => [(kind, p)]

/-- The first query with the second one as one more clause of this kind. -/
def extend (kind : Occur) (p q : Query) : Query := boolean (p.operands kind ++ [(kind, q)])

/-- The conjunction of two queries: one more `must` clause if the first has nothing else. -/
def and (p q : Query) : Query := p.extend .must q

/-- The disjunction of two queries: one more `should` clause if the first has nothing else. -/
def or (p q : Query) : Query := p.extend .should q

/-- The documents that a query does not select. -/
def not (p : Query) : Query := boolean [(.mustNot, p)]

theorem isOnly_iff {kind : Occur} {clauses : List (Occur × Query)} :
    isOnly kind clauses = true ↔ clauses ≠ [] ∧ ∀ clause ∈ clauses, clause.1 = kind := by
  simp [isOnly]

/-- The operands are clauses of the kind, and there is one. -/
theorem isOnly_operands (kind : Occur) (p : Query) : isOnly kind (p.operands kind) = true := by
  unfold operands
  split
  · split
    · assumption
    · simp [isOnly]
  · simp [isOnly]

/-- The factor of the scores. -/
def boost : Query → Single
  | join _ _ _ boost => boost
  | _ => .one

/-! ## Terms -/

mutual

/-- The terms that the query looks up, as they stand in it. What is excluded does not count, and a stem
counts only once it is replaced by terms. -/
def lookups : Query → List Term
  | .all => []
  | .startsWith .. => []
  | .term t => [t]
  | .boolean clauses => lookupsOfClauses clauses
  | .join _ _ sub _ => lookups sub
termination_by structural q => q

/-- The terms that the clauses look up, unless they exclude. -/
def lookupsOfClauses : List (Occur × Query) → List Term
  | [] => []
  | (.mustNot, _) :: clauses => lookupsOfClauses clauses
  | (.must, q) :: clauses => lookups q ++ lookupsOfClauses clauses
  | (.should, q) :: clauses => lookups q ++ lookupsOfClauses clauses
termination_by structural clauses => clauses

end

/-- The terms that the query looks up, each once, by field and text. -/
def terms (q : Query) : List Term :=
  (q.lookups.mergeSort Term.le).eraseReps

end Query

/-! ## Text -/

/-- The term as it stands in a query text. -/
def Term.render (term : Term) : String :=
  term.field ++ ":" ++ Syntax.writeValue term.text

/-- The sign in front of a clause. -/
def Occur.sigil : Occur → String
  | must => "+"
  | should => ""
  | mustNot => "-"

namespace Query

mutual

/-- The query on one line. -/
def render : Query → String
  | .all => "*:*"
  | .term t => t.render
  | .startsWith field stem => field ++ ":" ++ Syntax.writeValue stem ++ "*"
  | .boolean clauses => "(" ++ " ".intercalate (renderClauses clauses) ++ ")"
  | .join source target sub _ =>
    "\x7b!join from=" ++ source ++ " to=" ++ target ++ "\x7d" ++ render sub
termination_by structural q => q

/-- The clauses, each behind its sign. -/
def renderClauses : List (Occur × Query) → List String
  | [] => []
  | (occur, q) :: clauses => (occur.sigil ++ render q) :: renderClauses clauses
termination_by structural clauses => clauses

end

@[simp] theorem render_all : render .all = "*:*" := rfl

@[simp] theorem render_term (term : Term) : render (.term term) = term.render := rfl

@[simp] theorem render_startsWith (field stem : String) :
    render (.startsWith field stem) = field ++ ":" ++ Syntax.writeValue stem ++ "*" := rfl

@[simp] theorem render_join (source target : String) (sub : Query) (boost : Single) :
    render (.join source target sub boost) =
      "\x7b!join from=" ++ source ++ " to=" ++ target ++ "\x7d" ++ render sub := rfl

end Query

end TermJoin
