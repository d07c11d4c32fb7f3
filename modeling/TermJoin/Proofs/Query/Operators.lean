import TermJoin.Proofs.DocSet.Encodings
import TermJoin.Proofs.Query.Rewriting
import TermJoin.Proofs.Syntax.ReadBack
import TermJoin.Syntax.QueryText

/-!
# Operators are set algebra

A conjunction finds the intersection of what its operands find, a disjunction the union, and a negation the
other live documents, whatever the operands are. So a text finds what its expression says, read as sets.

* `Corpus.gathers`: the rule of a boolean query whose clauses are all of one kind;
  **`Corpus.members_ofKind`**.
* `Corpus.members_operands`: taking a query as the operands of a conjunction or disjunction keeps its answer.
* **`Corpus.members_and`**, **`Corpus.members_or`**, **`Corpus.members_not`**: the operators.
* `Expression.denote`: an expression as an operation on the sets of its leaves;
  `Expression.members_toQuery` by induction on the expression.
* **`Snapshot.Reachable.found_operators`**: what the dictionaries find, after any calls.
-/

namespace TermJoin

open Syntax

/-! ## Clauses of one kind -/

namespace Corpus

variable {corpus : Corpus} {kind : Occur} {clauses : List (Occur × Query)}

variable (corpus) in
/-- The ordinals of the documents that are not deleted. -/
def live : Finset Nat := (Finset.range corpus.documents.length).filter fun d => corpus.isLive d = true

variable (corpus) in
/-- The answer to a query, as a finite set. -/
def members (q : Query) : Except Fault (Finset Nat) := (corpus.answer q).map List.toFinset

/-- Whether clauses of one kind, which are all there are, let a document in. -/
def gathers (kind : Occur) (lists : List (List Nat)) (d : Nat) : Bool :=
  match kind with
  | .must => lists.all (·.contains d)
  | .should => lists.any (·.contains d)
  | .mustNot => !lists.any (·.contains d)

theorem mem_live {d : Nat} : d ∈ corpus.live ↔ corpus.isLive d = true := by
  rw [live, Finset.mem_filter, Finset.mem_range, and_iff_right_of_imp]
  intro h
  exact (isLive_iff.1 h).1

theorem toFinset_selectBy (p : Nat → Bool) :
    (corpus.selectBy fun d _ => p d).toFinset = corpus.live.filter fun d => p d = true := by
  ext d
  rw [List.mem_toFinset, mem_selectBy, Finset.mem_filter, mem_live]
  constructor
  · rintro ⟨doc, hdoc, h⟩
    exact ⟨(document?_eq_some_iff.1 hdoc).1, h⟩
  · rintro ⟨hlive, h⟩
    obtain ⟨doc, hdoc⟩ := exists_document?_of_isLive hlive
    exact ⟨doc, hdoc, h⟩

theorem toFinset_subset_live {q : Query} {docs : List Nat} (h : corpus.answer q = .ok docs) :
    docs.toFinset ⊆ corpus.live := by
  intro d hd
  exact mem_live.2 (isLive_of_mem_answer h (List.mem_toFinset.1 hd))

theorem answerClauses_append (kind : Occur) (first second : List (Occur × Query)) :
    corpus.answerClauses kind (first ++ second) = (do
      let lists ← corpus.answerClauses kind first
      return lists ++ (← corpus.answerClauses kind second)) := by
  induction first with
  | nil =>
    rw [List.nil_append, answerClauses]
    cases corpus.answerClauses kind second <;> rfl
  | cons clause rest ih =>
    obtain ⟨occur, q⟩ := clause
    rw [List.cons_append, answerClauses, answerClauses]
    split
    · rw [ih]
      simp only [bind_assoc, pure_bind, List.cons_append]
    · exact ih

theorem answerClauses_of_ne (h : ∀ clause ∈ clauses, clause.1 ≠ kind) :
    corpus.answerClauses kind clauses = .ok [] := by
  induction clauses with
  | nil => rfl
  | cons clause rest ih =>
    obtain ⟨hclause, hrest⟩ := List.forall_mem_cons.1 h
    obtain ⟨occur, q⟩ := clause
    rw [answerClauses, if_neg hclause, ih hrest]

/-- **Clauses of one kind decide by the rule of that kind.** -/
theorem answer_ofKind (h : Query.isOnly kind clauses = true) :
    corpus.answer (.boolean clauses) =
      (corpus.answerClauses kind clauses).map fun lists =>
        corpus.selectBy fun d _ => gathers kind lists d := by
  obtain ⟨hne, hkind⟩ := Query.isOnly_iff.1 h
  have hother : ∀ other, other ≠ kind → corpus.answerClauses other clauses = .ok [] :=
    fun other hother => answerClauses_of_ne fun clause hclause heq =>
      hother (heq.symm.trans (hkind clause hclause))
  have hsome : ∀ {lists}, corpus.answerClauses kind clauses = .ok lists → lists.isEmpty = false := by
    intro lists hlists
    obtain ⟨clause, rest, rfl⟩ := List.exists_cons_of_ne_nil hne
    simp [isEmpty_of_answerClauses hlists, hkind clause (.head _)]
  rw [answer_boolean hne]
  cases kind with
  | must =>
    rw [hother .mustNot (by decide)]
    cases hlists : corpus.answerClauses .must clauses with
    | error fault => rfl
    | ok lists => simp [bind, Except.bind, pure, Except.pure, Except.map, includes, gathers, hsome hlists]
  | should =>
    rw [hother .must (by decide), hother .mustNot (by decide)]
    cases hlists : corpus.answerClauses .should clauses with
    | error fault => rfl
    | ok lists => simp [bind, Except.bind, pure, Except.pure, Except.map, includes, gathers, hsome hlists]
  | mustNot =>
    rw [hother .must (by decide), hother .should (by decide)]
    cases corpus.answerClauses .mustNot clauses with
    | error fault => rfl
    | ok lists => simp [bind, Except.bind, pure, Except.pure, Except.map, includes, gathers]

theorem members_ofKind (h : Query.isOnly kind clauses = true) :
    corpus.members (.boolean clauses) =
      (corpus.answerClauses kind clauses).map fun lists =>
        corpus.live.filter fun d => gathers kind lists d = true := by
  rw [members, answer_ofKind h]
  cases corpus.answerClauses kind clauses with
  | error fault => rfl
  | ok lists => exact congrArg Except.ok (toFinset_selectBy _)

/-! ## Operators -/

theorem members_one (hkind : kind ≠ .mustNot) (q : Query) :
    corpus.members (.boolean [(kind, q)]) = corpus.members q := by
  rw [members, answer_one hkind, members]

/-- **A query finds what its operands find together**, be they its own clauses or the query as one. -/
theorem members_operands (hkind : kind ≠ .mustNot) (p : Query) :
    corpus.members (.boolean (p.operands kind)) = corpus.members p := by
  unfold Query.operands
  split
  · split
    · rfl
    · exact members_one hkind _
  · exact members_one hkind _

theorem members_extend (hkind : kind ≠ .mustNot) {op : Finset Nat → Finset Nat → Finset Nat}
    (hop : ∀ lists docs, docs.toFinset ⊆ corpus.live →
      (corpus.live.filter fun d => gathers kind (lists ++ [docs]) d = true) =
        op (corpus.live.filter fun d => gathers kind lists d = true) docs.toFinset) (p q : Query) :
    corpus.members (p.extend kind q) = (do
      let found ← corpus.members p
      return op found (← corpus.members q)) := by
  have hp := Query.isOnly_operands kind p
  have hall : Query.isOnly kind (p.operands kind ++ [(kind, q)]) = true := by
    refine Query.isOnly_iff.2 ⟨by simp, fun clause hclause => ?_⟩
    rcases List.mem_append.1 hclause with hclause | hclause
    · exact (Query.isOnly_iff.1 hp).2 clause hclause
    · rw [List.mem_singleton.1 hclause]
  rw [Query.extend, members_ofKind hall, answerClauses_append, ← members_operands hkind p, members_ofKind hp]
  cases corpus.answerClauses kind (p.operands kind) with
  | error fault => rfl
  | ok lists =>
    rw [answerClauses, if_pos rfl, members]
    cases hq : corpus.answer q with
    | error fault => rfl
    | ok docs => exact congrArg Except.ok (hop lists docs (toFinset_subset_live hq))

theorem members_and (p q : Query) :
    corpus.members (p.and q) = (do
      let found ← corpus.members p
      return found ∩ (← corpus.members q)) := by
  refine members_extend (by decide) (fun lists docs hdocs => ?_) p q
  ext d
  simp [gathers, and_assoc]

theorem members_or (p q : Query) :
    corpus.members (p.or q) = (do
      let found ← corpus.members p
      return found ∪ (← corpus.members q)) := by
  refine members_extend (by decide) (fun lists docs hdocs => ?_) p q
  ext d
  have hlive : d ∈ docs → d ∈ corpus.live := fun hd => hdocs (List.mem_toFinset.2 hd)
  simp only [gathers, Finset.mem_filter, Finset.mem_union, List.any_append, List.mem_toFinset]
  simp [and_or_left, and_iff_right_of_imp hlive]

theorem members_not (p : Query) :
    corpus.members p.not = (do return corpus.live \ (← corpus.members p)) := by
  have honly : Query.isOnly .mustNot [(.mustNot, p)] = true := rfl
  rw [Query.not, members_ofKind honly, answerClauses, if_pos rfl, members]
  cases corpus.answer p with
  | error fault => rfl
  | ok docs =>
    refine congrArg Except.ok ?_
    ext d
    simp [gathers]

end Corpus

/-! ## Expressions -/

namespace Syntax.Expression

/-- The parts without connectives, from left to right. -/
def leaves : Expression → List Expression
  | .all => [.all]
  | .leaf field value => [.leaf field value]
  | .not operand => operand.leaves
  | .link _ left right => left.leaves ++ right.leaves

/-- The set that an expression says, from the sets of its leaves: complements in the live documents,
intersections and unions. -/
def denote (live : Finset Nat) (sets : Expression → Finset Nat) : Expression → Finset Nat
  | .all => sets .all
  | .leaf field value => sets (.leaf field value)
  | .not operand => live \ operand.denote live sets
  | .link .and left right => left.denote live sets ∩ right.denote live sets
  | .link .or left right => left.denote live sets ∪ right.denote live sets

/-- **The query of an expression finds what the expression says**, if the leaves are found. -/
theorem members_toQuery {corpus : Corpus} {schema : Schema} {sets : Expression → Finset Nat} {e : Expression}
    {q : Query} (h : e.toQuery schema = .ok q)
    (hleaves : ∀ leaf ∈ e.leaves, ∃ p, leaf.toQuery schema = .ok p ∧ corpus.members p = .ok (sets leaf)) :
    corpus.members q = .ok (e.denote corpus.live sets) := by
  induction e generalizing q with
  | all =>
    obtain ⟨p, hp, hfound⟩ := hleaves .all (.head _)
    cases hp.symm.trans h
    exact hfound
  | leaf field value =>
    obtain ⟨p, hp, hfound⟩ := hleaves (.leaf field value) (.head _)
    cases hp.symm.trans h
    exact hfound
  | not operand ih =>
    obtain ⟨p, hp, h⟩ := exists_of_bind_eq_ok h
    cases h
    rw [Corpus.members_not, ih hp hleaves]
    rfl
  | link connective left right ihl ihr =>
    obtain ⟨p, hp, h⟩ := exists_of_bind_eq_ok h
    obtain ⟨q', hq', h⟩ := exists_of_bind_eq_ok h
    obtain ⟨hleft, hright⟩ := List.forall_mem_append.1 hleaves
    cases connective with
    | and =>
      cases h
      rw [Corpus.members_and, ihl hp hleft, ihr hq' hright]
      rfl
    | or =>
      cases h
      rw [Corpus.members_or, ihl hp hleft, ihr hq' hright]
      rfl

end Syntax.Expression

/-- The part of a text in the standard syntax, unless the text is a join or its local parameters are
malformed. -/
def Query.standardText? (text : List Char) : Option (List Char) :=
  if hasParams (Text.skipBlanks text) then
    match LocalParams.read? (Text.skipBlanks text) with
    | none => none
    | some params => if params.kind = "lucene" then some params.queryText.toList else none
  else some (Text.skipBlanks text)

theorem Query.readChars_of_standardText? {schema : Schema} {text standard : List Char}
    (h : standardText? text = some standard) : readChars schema text = readStandard schema standard := by
  unfold standardText? at h
  rw [readChars]
  split at h
  · rename_i hparams
    rw [if_pos hparams]
    split at h
    · cases h
    · rename_i params hread
      split at h
      · rename_i hkind
        cases h
        split
        · rename_i hnone
          cases hread.symm.trans hnone
        · rename_i params' hread'
          cases hread.symm.trans hread'
          rw [if_neg (by rw [hkind]; decide), if_pos hkind]
      · cases h
  · rename_i hparams
    cases h
    rw [if_neg hparams]

/-! ## Snapshots -/

namespace Snapshot

variable {s : Snapshot}

variable (s) in
/-- The ordinals of the documents that are not deleted. -/
def live : Finset Nat := (Finset.range s.maxDoc).filter fun d => s.isLive d = true

variable (s) in
/-- The members of the set of a query that is asked for after some calls. -/
def found (calls : List Call) (q : Query) : Except Fault (Finset Nat) :=
  (s.resultAfter calls (s.docSet q)).map DocSet.members

theorem live_eq (s : Snapshot) : s.live = s.corpus.live := by
  rw [live, Corpus.live, s.maxDoc_eq_length]
  simp only [s.isLive_eq]

theorem Sound.found_eq (hs : s.Sound) (calls : List Call) (q : Query) :
    s.found calls q = s.corpus.members q := by
  have hagrees : s.Agrees q (s.resultAfter calls (s.docSet q)) :=
    hs.resultAfter_of_settles (hs.settles_docSet q) calls
  rw [found, Corpus.members, ← hagrees]
  cases s.resultAfter calls (s.docSet q) with
  | error fault => rfl
  | ok set =>
    refine congrArg Except.ok ?_
    rw [DocSet.toSortedList_eq_sort, Finset.sort_toFinset]

/-- **The operators on queries are set algebra**, whatever the operands are and whatever was asked before each
query: a conjunction finds the intersection, a disjunction the union, a negation the other live documents; and
they fail exactly if an operand does, as the first one that does. So a text in the standard syntax finds what
its expression says of the sets of its leaves. -/
theorem Reachable.found_operators (h : s.Reachable) (asked : Query → List Call) :
    let found := fun q => s.found (asked q) q
    (∀ p q, found (p.and q) = do return (← found p) ∩ (← found q)) ∧
    (∀ p q, found (p.or q) = do return (← found p) ∪ (← found q)) ∧
    (∀ p, found p.not = do return s.live \ (← found p)) ∧
    ∀ (schema : Schema) (text : String) (standard : List Char) (q : Query),
      Query.standardText? text.toList = some standard → Query.read schema text = .ok q →
        ∃ e, Expression.read? standard = some e ∧ ∀ sets : Expression → Finset Nat,
          (∀ leaf ∈ e.leaves, ∃ p, leaf.toQuery schema = .ok p ∧ found p = .ok (sets leaf)) →
            found q = .ok (e.denote s.live sets) := by
  intro found
  have hs := h.sound
  have hfound : ∀ q, found q = s.corpus.members q := fun q => hs.found_eq (asked q) q
  simp only [hfound, s.live_eq]
  refine ⟨Corpus.members_and, Corpus.members_or, Corpus.members_not, ?_⟩
  intro schema text standard q hstandard hq
  rw [Query.read, Query.readChars_of_standardText? hstandard, Query.readStandard] at hq
  split at hq
  · cases hq
  · rename_i e he
    exact ⟨e, he, fun sets hleaves => Expression.members_toQuery hq hleaves⟩

/-- The family without its children, from a text. -/
theorem familySnapshot_found :
    ∃ q, Query.read .familyTree "*:* AND NOT kind:child" = .ok q ∧
      familySnapshot.found [.search q] q = .ok {0} := by
  have hs : familySnapshot.Sound := (reachable_afterHistory _ _ _ _).sound
  have hspace : Text.Blank [' '] := by decide
  have hchild : Written .primary (.leaf "kind" (.exact "child")) _ :=
    .leaf (by decide) Text.blank_nil Text.blank_nil (.exact (.bare (by decide) (List.all_eq_true.1 rfl)))
  have hnot : Written .negation (.not (.leaf "kind" (.exact "child"))) _ :=
    .not hspace (.ofPrimary hchild) (.inl (by decide))
  have hand : Written (.chain .and) (.link .and .all (.not (.leaf "kind" (.exact "child")))) _ :=
    .link (c := .and) hspace hspace (.ofOperand (c := .and) (.ofPrimary .all)) hnot (.inl (by decide))
      (.inl (by decide))
  have hread : Expression.read? "*:* AND NOT kind:child".toList = _ :=
    Written.read?_append Text.blank_nil Text.blank_nil (.ofOperand (c := .or) hand)
  have hstandard : Query.standardText? "*:* AND NOT kind:child".toList =
      some "*:* AND NOT kind:child".toList := by decide
  have hquery : Query.read .familyTree "*:* AND NOT kind:child" =
      .ok (Query.all.and (.not (.term ⟨"kind", "child"⟩))) := by
    rw [Query.read, Query.readChars_of_standardText? hstandard, Query.readStandard, hread]
    rfl
  refine ⟨_, hquery, ?_⟩
  obtain ⟨-, -, -, htext⟩ := Reachable.found_operators (s := familySnapshot) (reachable_afterHistory _ _ _ _)
    fun q => [.search q]
  obtain ⟨e, he, hfound⟩ := htext .familyTree _ _ _ hstandard hquery
  cases hread.symm.trans he
  refine (hfound (fun leaf => if leaf = .all then {0, 2} else {2}) fun leaf hleaf => ?_).trans
    (congrArg Except.ok (by decide +kernel))
  have hleaf : leaf = .all ∨ leaf = .leaf "kind" (.exact "child") := by
    simpa [Expression.leaves] using hleaf
  simp only [hs.found_eq]
  rcases hleaf with rfl | rfl
  · exact ⟨.all, rfl, congrArg Except.ok (by decide +kernel)⟩
  · exact ⟨.term ⟨"kind", "child"⟩, rfl, congrArg Except.ok (by decide +kernel)⟩

end Snapshot

end TermJoin
