import TermJoin.Query.Basic

/-!
# Parts of queries

A query is made of queries: the clauses of a boolean one, and what a join is made from.

* `Query.parts`: a query with all that stands in it, at any depth; **`Query.mem_partsOfClauses`**.
* `Query.IsFinal`: no part is a stem, or a boolean query of one clause that includes.
* `Query.isFinal_boolean_iff`, `Query.isFinal_join_iff`: final forms, told by what they are made of.
-/

namespace TermJoin.Query

variable {clauses : List (Occur × Query)} {p : Query}

mutual

/-- The query and the queries in it, at any depth. -/
def parts : Query → List Query
  | .all => [.all]
  | .term t => [.term t]
  | .startsWith field stem => [.startsWith field stem]
  | .boolean clauses => .boolean clauses :: partsOfClauses clauses
  | .join source target sub boost => .join source target sub boost :: parts sub
termination_by structural q => q

/-- The queries in the clauses, at any depth. -/
def partsOfClauses : List (Occur × Query) → List Query
  | [] => []
  | (_, q) :: clauses => parts q ++ partsOfClauses clauses
termination_by structural clauses => clauses

end

theorem mem_parts_self (q : Query) : q ∈ q.parts := by
  cases q <;> simp [parts]

theorem mem_partsOfClauses :
    p ∈ partsOfClauses clauses ↔ ∃ clause ∈ clauses, p ∈ clause.2.parts := by
  induction clauses with
  | nil => simp [partsOfClauses]
  | cons clause rest ih =>
    obtain ⟨occur, q⟩ := clause
    rw [partsOfClauses, List.mem_append, ih]
    simp

/-! ## Final forms -/

/-- There is one clause, and it includes. -/
def IsOneIncluding (clauses : List (Occur × Query)) : Prop :=
  ∃ occur only, occur ≠ .mustNot ∧ clauses = [(occur, only)]

/-- At no depth is there a stem, or a boolean query of one clause that includes. -/
def IsFinal (q : Query) : Prop :=
  (∀ field stem, .startsWith field stem ∉ q.parts) ∧
    ∀ clauses, .boolean clauses ∈ q.parts → ¬ IsOneIncluding clauses

theorem isFinal_all : all.IsFinal := by
  simp [IsFinal, parts]

theorem isFinal_term (t : Term) : (term t).IsFinal := by
  simp [IsFinal, parts]

theorem not_isFinal_startsWith (field stem : String) : ¬ (startsWith field stem).IsFinal :=
  fun h => h.1 field stem (List.mem_singleton_self _)

theorem isFinal_boolean_iff :
    (boolean clauses).IsFinal ↔ ¬ IsOneIncluding clauses ∧ ∀ clause ∈ clauses, clause.2.IsFinal := by
  simp only [IsFinal, parts, List.mem_cons, mem_partsOfClauses]
  constructor
  · rintro ⟨hstems, hsingles⟩
    refine ⟨hsingles clauses (.inl rfl), fun clause hclause => ⟨fun field stem hmem => ?_, ?_⟩⟩
    · exact hstems field stem (.inr ⟨clause, hclause, hmem⟩)
    · exact fun inner hmem => hsingles inner (.inr ⟨clause, hclause, hmem⟩)
  · rintro ⟨hself, hclauses⟩
    constructor
    · rintro field stem (heq | ⟨clause, hclause, hmem⟩)
      · cases heq
      · exact (hclauses clause hclause).1 field stem hmem
    · rintro inner (heq | ⟨clause, hclause, hmem⟩)
      · cases heq
        exact hself
      · exact (hclauses clause hclause).2 inner hmem

theorem isFinal_join_iff {source target : String} {sub : Query} {boost : Single} :
    (join source target sub boost).IsFinal ↔ sub.IsFinal := by
  simp [IsFinal, parts]

end TermJoin.Query
