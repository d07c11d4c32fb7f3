import TermJoin.Proofs.Query.Parts
import TermJoin.Proofs.Syntax.JoinChain

/-!
# Queries that are read are well formed

Whatever text a query is read from, all of its parts fit the schema: their fields are declared, with values of
the right sort, and joins stand around boolean queries, never in them.

* `Query.Fits`: what is asked of each part of a query.
* `Query.Built`: the clauses that the operators make; **`Query.Plain.extend`**, `Query.Plain.not`: they keep
  queries free of joins and their parts fitting.
* `Value.plain_toQuery`, `Expression.plain_toQuery`: expressions, by induction.
* **`Query.fits_of_read`**: all texts, through any number of joins.
-/

namespace TermJoin

open Syntax

namespace Query

variable {schema : Schema} {kind : Occur} {clauses : List (Occur × Query)} {p q : Query}

/-- Whether the query is a join. -/
def isJoin : Query → Bool
  | join .. => true
  | _ => false

/-- Clauses as the operators make them: at least two that all must or all should match, or one that must
not. -/
def Built (clauses : List (Occur × Query)) : Prop :=
  (2 ≤ clauses.length ∧ ∀ clause ∈ clauses, clause.1 = .must) ∨
    (2 ≤ clauses.length ∧ ∀ clause ∈ clauses, clause.1 = .should) ∨
    ∃ q, clauses = [(.mustNot, q)]

/-- A query fits a schema, its parts aside: its fields are declared, a field of numbers is asked for a whole
number, and only a text field for what values start with; clauses are as the operators make them, with no
join in them; and a join is not boosted. -/
def Fits (schema : Schema) : Query → Prop
  | .all => True
  | .term t => schema.hasField t.field = true ∧
      ∀ step, schema.fieldType? t.field = some (.int64 step) → ∃ v, t.text = NumericTerm.full v
  | .startsWith field _ => schema.fieldType? field = some .text
  | .boolean clauses => Built clauses ∧ ∀ part ∈ partsOfClauses clauses, part.isJoin = false
  | .join source target _ boost =>
      schema.hasField source = true ∧ schema.hasField target = true ∧ boost = .one

/-! ## Operators -/

/-- The parts of the query fit, and none of them is a join. -/
def Plain (schema : Schema) (q : Query) : Prop := ∀ part ∈ q.parts, part.Fits schema ∧ part.isJoin = false

theorem plain_of_parts (hparts : q.parts = [q]) (hfits : q.Fits schema) (hjoin : q.isJoin = false) :
    q.Plain schema := by
  rw [Plain, hparts, List.forall_mem_singleton]
  exact ⟨hfits, hjoin⟩

theorem plain_boolean (hbuilt : Built clauses) (h : ∀ clause ∈ clauses, clause.2.Plain schema) :
    (boolean clauses).Plain schema := by
  have hparts : ∀ part ∈ partsOfClauses clauses, part.Fits schema ∧ part.isJoin = false := by
    intro part hpart
    obtain ⟨clause, hclause, hmem⟩ := mem_partsOfClauses.1 hpart
    exact h clause hclause part hmem
  intro part hpart
  rw [parts] at hpart
  rcases List.mem_cons.1 hpart with rfl | hpart
  · exact ⟨⟨hbuilt, fun part hpart => (hparts part hpart).2⟩, rfl⟩
  · exact hparts part hpart

theorem Plain.operands (h : p.Plain schema) (kind : Occur) :
    ∀ clause ∈ p.operands kind, clause.2.Plain schema := by
  have hsingle : ∀ clause ∈ [(kind, p)], clause.2.Plain schema := by
    simpa using h
  unfold Query.operands
  split
  · rename_i clauses
    split
    · intro clause hclause part hpart
      refine h part ?_
      rw [parts]
      exact .tail _ (mem_partsOfClauses.2 ⟨clause, hclause, hpart⟩)
    · exact hsingle
  · exact hsingle

/-- **One more operand of a conjunction or disjunction** keeps a query plain. -/
theorem Plain.extend (hkind : kind = .must ∨ kind = .should) (hp : p.Plain schema) (hq : q.Plain schema) :
    (p.extend kind q).Plain schema := by
  obtain ⟨hne, hall⟩ := isOnly_iff.1 (isOnly_operands kind p)
  have hlength : 2 ≤ (p.operands kind ++ [(kind, q)]).length := by
    have := List.length_pos_iff.2 hne
    rw [List.length_append, List.length_singleton]
    omega
  have hkinds : ∀ clause ∈ p.operands kind ++ [(kind, q)], clause.1 = kind :=
    List.forall_mem_append.2 ⟨hall, by simp⟩
  refine plain_boolean ?_ (List.forall_mem_append.2 ⟨hp.operands kind, by simpa using hq⟩)
  rcases hkind with rfl | rfl
  · exact .inl ⟨hlength, hkinds⟩
  · exact .inr (.inl ⟨hlength, hkinds⟩)

theorem Plain.not (h : p.Plain schema) : p.not.Plain schema :=
  plain_boolean (.inr (.inr ⟨p, rfl⟩)) (by simpa using h)

end Query

/-! ## Expressions -/

open Query (Plain)

variable {schema : Schema} {q : Query}

theorem Syntax.Value.plain_toQuery {field : String} {value : Value} (h : value.toQuery schema field = .ok q) :
    q.Plain schema := by
  unfold Value.toQuery at h
  split at h
  · cases h
  · rename_i type htype
    cases value with
    | exact text =>
      obtain ⟨term, hterm, h⟩ := exists_of_bind_eq_ok h
      cases h
      refine Query.plain_of_parts rfl ⟨by simp [Schema.hasField, htype], fun step hstep => ?_⟩ rfl
      cases htype.symm.trans hstep
      obtain ⟨v, -, hv⟩ := exists_of_bind_eq_ok hterm
      exact ⟨v, (Except.ok.inj hv).symm⟩
    | startsWith stem =>
      cases type with
      | int64 step => cases h
      | text =>
        cases h
        exact Query.plain_of_parts rfl htype rfl

theorem Syntax.Expression.plain_toQuery {e : Expression} (h : e.toQuery schema = .ok q) : q.Plain schema := by
  induction e generalizing q with
  | all =>
    cases h
    exact Query.plain_of_parts rfl trivial rfl
  | leaf field value => exact Value.plain_toQuery h
  | not operand ih =>
    obtain ⟨p, hp, h⟩ := exists_of_bind_eq_ok h
    cases h
    exact (ih hp).not
  | link connective left right ihl ihr =>
    obtain ⟨p, hp, h⟩ := exists_of_bind_eq_ok h
    obtain ⟨q', hq', h⟩ := exists_of_bind_eq_ok h
    cases connective with
    | and =>
      cases h
      exact (ihl hp).extend (.inl rfl) (ihr hq')
    | or =>
      cases h
      exact (ihl hp).extend (.inr rfl) (ihr hq')

/-! ## Texts -/

namespace Query

theorem plain_of_readStandard {text : List Char} (h : readStandard schema text = .ok q) : q.Plain schema := by
  unfold readStandard at h
  split at h
  · cases h
  · exact Expression.plain_toQuery h

theorem hasField_of_readJoinFields {params : LocalParams} {source target : String}
    (h : readJoinFields schema params = .ok (source, target)) :
    schema.hasField source = true ∧ schema.hasField target = true := by
  unfold readJoinFields at h
  split at h
  · cases h
  · cases h
  · split at h
    · cases h
    · rename_i hsource
      split at h
      · cases h
      · rename_i htarget
        cases h
        exact ⟨by simpa using hsource, by simpa using htarget⟩

theorem get?_of_readJoinFields {params : LocalParams} {source target : String}
    (h : readJoinFields schema params = .ok (source, target)) :
    params.get? "from" = some source ∧ params.get? "to" = some target := by
  unfold readJoinFields at h
  split at h
  · cases h
  · cases h
  · rename_i source' target' hfrom hto
    split at h
    · cases h
    · split at h
      · cases h
      · cases h
        exact ⟨hfrom, hto⟩

theorem Plain.fits (h : q.Plain schema) : ∀ part ∈ q.parts, part.Fits schema := fun part hpart =>
  (h part hpart).1

/-- By induction on the parameters in front of the text: a join stands around what is read behind them, and
the standard syntax ends them. -/
theorem fits_of_readChars {text : List Char} (h : readChars schema text = .ok q) :
    ∀ part ∈ q.parts, part.Fits schema := by
  fun_induction readChars schema text generalizing q with
  | case1 => cases h
  | case2 =>
    rename_i ih
    obtain ⟨⟨source, target⟩, hfields, h⟩ := exists_of_bind_eq_ok h
    obtain ⟨sub, hsub, h⟩ := exists_of_bind_eq_ok h
    cases h
    obtain ⟨hsource, htarget⟩ := hasField_of_readJoinFields hfields
    rw [parts]
    exact List.forall_mem_cons.2 ⟨⟨hsource, htarget, rfl⟩, ih hsub⟩
  | case3 => exact (plain_of_readStandard h).fits
  | case4 => cases h
  | case5 => exact (plain_of_readStandard h).fits

/-- **Every query that is read from a text fits the schema, and so do all its parts.** -/
theorem fits_of_read {text : String} (h : Query.read schema text = .ok q) : ∀ part ∈ q.parts, part.Fits schema :=
  fits_of_readChars h

/-- A join around a conjunction: the number below the negation is a whole one. -/
theorem familyTree_fits_of_read :
    ∃ q, Query.read .familyTree "\x7b!join from=id to=parent\x7d*:* AND NOT id:3" = .ok q ∧
      .number "id" 3 ∈ q.parts ∧ ∀ part ∈ q.parts, part.Fits .familyTree := by
  have hspace : Text.Blank [' '] := by decide
  have hleaf : Written .primary (.leaf "id" (.exact "3")) _ :=
    .leaf (by decide) Text.blank_nil Text.blank_nil (.exact (.bare (by decide) (List.all_eq_true.1 rfl)))
  have hnot : Written .negation (.not (.leaf "id" (.exact "3"))) _ :=
    .not hspace (.ofPrimary hleaf) (.inl (by decide))
  have hand : Written (.chain .and) (.link .and .all (.not (.leaf "id" (.exact "3")))) _ :=
    .link (c := .and) hspace hspace (.ofOperand (c := .and) (.ofPrimary .all)) hnot (.inl (by decide))
      (.inl (by decide))
  have hexpression : Expression.read? "*:* AND NOT id:3".toList = _ :=
    Written.read?_append Text.blank_nil Text.blank_nil (.ofOperand (c := .or) hand)
  have hstart : Text.Stops Text.isBlank "*:* AND NOT id:3".toList := Text.stops_cons (by decide)
  have hsub : readChars .familyTree "*:* AND NOT id:3".toList = .ok (Query.all.and (Query.number "id" 3).not) := by
    rw [readChars_standard hstart rfl, readStandard, hexpression]
    rfl
  have hjoin : readChars .familyTree (joinText "id".toList "parent".toList "*:* AND NOT id:3".toList) = _ :=
    readChars_joinText (by decide) (by decide) (by decide) (by decide) _
  rw [hsub] at hjoin
  have hread : Query.read .familyTree "\x7b!join from=id to=parent\x7d*:* AND NOT id:3" =
      .ok (.join "id" "parent" (Query.all.and (Query.number "id" 3).not) .one) := hjoin
  refine ⟨_, hread, ?_, fits_of_read hread⟩
  simp [parts, partsOfClauses, Query.and, Query.extend, operands, Query.not, Query.number]

end Query

end TermJoin
