import Mathlib.Data.List.Forall2
import TermJoin.Proofs.Query.Answer
import TermJoin.Proofs.Query.Parts

/-!
# Final forms

A rewriting step brings the parts of a query into their final forms before the query itself. So one step is
enough: to what it leads to, no other applies.

* `Snapshot.stepped`: some clauses after their steps; `Snapshot.rewriteBoolean_one`,
  `Snapshot.rewriteBoolean_many`: what becomes of a boolean query.
* **`Snapshot.rewrite_getD`**: what a step leads to is a final form, by induction on the query.
* `Snapshot.rewrite_boolean_eq_none_iff`, **`Snapshot.rewrite_eq_none_iff`**: which queries are final forms,
  told by their parts.
-/

namespace TermJoin.Snapshot

variable {s : Snapshot}

/-! ## Boolean queries -/

/-- The clauses after their steps. -/
def stepped (steps : List (Occur × Query × Option Query)) : List (Occur × Query) :=
  steps.map fun (occur, q, step) => (occur, step.getD q)

/-- The clauses after their steps, none of which has another one. -/
def settled (steps : List (Occur × Query × Option Query)) : List (Occur × Query × Option Query) :=
  steps.map fun (occur, q, step) => (occur, step.getD q, none)

variable {occur : Occur} {q : Query} {step : Option Query} {steps : List (Occur × Query × Option Query)}

theorem rewriteBoolean_one (h : occur ≠ .mustNot) :
    rewriteBoolean [(occur, q, step)] = some (step.getD q) := by
  cases occur with
  | must => rfl
  | should => rfl
  | mustNot => exact absurd rfl h

theorem rewriteBoolean_many (h : ∀ occur q step, occur ≠ .mustNot → steps ≠ [(occur, q, step)]) :
    rewriteBoolean steps =
      if steps.any (·.2.2.isSome) then some (.boolean (stepped steps)) else none := by
  rw [rewriteBoolean, stepped]
  · intro q step heq
    exact h .must q step (by decide) heq
  · intro q step heq
    exact h .should q step (by decide) heq

theorem rewriteBoolean_settled (h : ∀ occur q step, occur ≠ .mustNot → steps ≠ [(occur, q, step)]) :
    rewriteBoolean (settled steps) = none := by
  have hany : (settled steps).any (·.2.2.isSome) = false := by
    rw [settled, List.any_map, List.any_eq_false]
    intro clause _
    exact Bool.false_ne_true
  rw [rewriteBoolean_many, hany, if_neg Bool.false_ne_true]
  intro occur q step hoccur heq
  obtain ⟨clause, rfl, hclause⟩ := List.map_eq_singleton_iff.1 heq
  cases hclause
  exact h _ _ _ hoccur rfl

theorem rewriteClauses_singleton_iff {step : Option Query} :
    s.rewriteClauses [(occur, q)] = .ok [(occur, q, step)] ↔ s.rewrite q = .ok step := by
  rw [rewriteClauses, rewriteClauses]
  cases s.rewrite q with
  | error fault => exact iff_of_false (fun h => nomatch h) fun h => nomatch h
  | ok step' =>
    show Except.ok [(occur, q, step')] = Except.ok [(occur, q, step)] ↔ _
    simp only [Except.ok.injEq, List.cons.injEq, Prod.mk.injEq, true_and, and_true]

/-! ## What a step leads to -/

theorem rewriteClauses_terms (field : String) (texts : List String) :
    s.rewriteClauses (texts.map fun text => (.should, .term ⟨field, text⟩)) =
      .ok (texts.map fun text => (.should, .term ⟨field, text⟩, none)) := by
  induction texts with
  | nil => rfl
  | cons text rest ih =>
    rw [List.map_cons, rewriteClauses, rewrite, ih]
    rfl

theorem rewrite_anyTerm (field : String) (texts : List String) :
    s.rewrite (anyTerm field texts) = .ok none := by
  unfold anyTerm
  split
  · rw [rewrite]
  · rename_i hmany
    have hsettled : (texts.map fun text => (Occur.should, Query.term ⟨field, text⟩, none)) =
        settled (texts.map fun text => (Occur.should, Query.term ⟨field, text⟩, none)) := by
      rw [settled, List.map_map]
      rfl
    rw [rewrite, rewriteClauses_terms, hsettled]
    refine congrArg Except.ok (rewriteBoolean_settled fun occur q step _ heq => ?_)
    obtain ⟨text, rfl, _⟩ := List.map_eq_singleton_iff.1 heq
    exact hmany text rfl

mutual

/-- **A step leads to a final form.** -/
theorem rewrite_getD : ∀ (q : Query) (step : Option Query), s.rewrite q = .ok step →
    s.rewrite (step.getD q) = .ok none
  | .all, step, h => by
    rw [rewrite] at h
    cases h
    rw [Option.getD_none, rewrite]
  | .term t, step, h => by
    rw [rewrite] at h
    cases h
    rw [Option.getD_none, rewrite]
  | .startsWith field stem, step, h => by
    rw [rewrite] at h
    obtain ⟨texts, _, h⟩ := exists_of_bind_eq_ok h
    cases h
    exact rewrite_anyTerm field texts
  | .boolean clauses, step, h => by
    have hself := h
    rw [rewrite] at h
    obtain ⟨steps, hsteps, h⟩ := exists_of_bind_eq_ok h
    have hstepped := rewriteClauses_stepped clauses steps hsteps
    -- one clause that includes gives way to its own final form; others stay, and are not one afterwards
    by_cases hone : ∃ occur q step, occur ≠ Occur.mustNot ∧ steps = [(occur, q, step)]
    · obtain ⟨occur, q, step', hoccur, rfl⟩ := hone
      cases (rewriteBoolean_one hoccur).symm.trans (Except.ok.inj h)
      exact rewriteClauses_singleton_iff.1 hstepped
    · have hmany : ∀ occur q step, occur ≠ Occur.mustNot → steps ≠ [(occur, q, step)] :=
        fun occur q step hoccur heq => hone ⟨occur, q, step, hoccur, heq⟩
      have hstep := (rewriteBoolean_many hmany).symm.trans (Except.ok.inj h)
      split at hstep
      · cases hstep
        rw [Option.getD_some, rewrite, hstepped]
        exact congrArg Except.ok (rewriteBoolean_settled hmany)
      · cases hstep
        exact hself
  | .join source target sub boost, step, h => by
    rw [rewrite] at h
    obtain ⟨step', hstep', h⟩ := exists_of_bind_eq_ok h
    cases h
    have hsub : ((step'.map (Query.join source target · boost)).getD (.join source target sub boost)) =
        .join source target (step'.getD sub) boost := by
      cases step' <;> rfl
    rw [hsub, rewrite, rewrite_getD sub step' hstep']
    rfl
termination_by structural q => q

theorem rewriteClauses_stepped : ∀ (clauses : List (Occur × Query))
    (steps : List (Occur × Query × Option Query)), s.rewriteClauses clauses = .ok steps →
    s.rewriteClauses (stepped steps) = .ok (settled steps)
  | [], steps, h => by
    rw [rewriteClauses] at h
    cases h
    exact rewriteClauses.eq_1 s
  | (occur, q) :: clauses, steps, h => by
    rw [rewriteClauses] at h
    obtain ⟨step, hstep, h⟩ := exists_of_bind_eq_ok h
    obtain ⟨rest, hrest, h⟩ := exists_of_bind_eq_ok h
    cases h
    rw [stepped, List.map_cons, rewriteClauses, rewrite_getD q step hstep, ← stepped,
      rewriteClauses_stepped clauses rest hrest]
    rfl
termination_by structural clauses => clauses

end

theorem rewriteFully_of_rewrite {q : Query} {step : Option Query} (h : s.rewrite q = .ok step) :
    s.rewriteFully q = .ok (step.getD q) := by
  rw [rewriteFully, h]
  rfl

/-! ## Queries without a step -/

theorem rewriteClauses_eq_ok_iff {clauses : List (Occur × Query)} :
    s.rewriteClauses clauses = .ok steps ↔
      List.Forall₂ (fun clause step => (step.1, step.2.1) = clause ∧ s.rewrite clause.2 = .ok step.2.2)
        clauses steps := by
  induction clauses generalizing steps with
  | nil =>
    rw [rewriteClauses, List.forall₂_nil_left_iff, Except.ok.injEq, eq_comm]
  | cons clause clauses ih =>
    obtain ⟨occur, q⟩ := clause
    rw [rewriteClauses, List.forall₂_cons_left_iff]
    constructor
    · intro h
      obtain ⟨step, hstep, h⟩ := exists_of_bind_eq_ok h
      obtain ⟨rest, hrest, h⟩ := exists_of_bind_eq_ok h
      cases h
      exact ⟨_, rest, ⟨rfl, hstep⟩, ih.1 hrest, rfl⟩
    · rintro ⟨⟨occur', q', step⟩, rest, ⟨heq, hstep⟩, hrest, rfl⟩
      cases heq
      rw [hstep, ih.2 hrest]
      rfl

theorem rewrite_eq_none_of_steps {clauses : List (Occur × Query)}
    (h : List.Forall₂ (fun clause step => (step.1, step.2.1) = clause ∧ s.rewrite clause.2 = .ok step.2.2)
      clauses steps) (hsettled : ∀ step ∈ steps, step.2.2 = none) :
    ∀ clause ∈ clauses, s.rewrite clause.2 = .ok none := by
  induction h with
  | nil => exact fun _ hmem => absurd hmem List.not_mem_nil
  | cons hfirst _ ih =>
    rw [List.forall_mem_cons] at hsettled ⊢
    exact ⟨hsettled.1 ▸ hfirst.2, ih hsettled.2⟩

theorem rewrite_boolean_eq_none_iff {clauses : List (Occur × Query)} :
    s.rewrite (.boolean clauses) = .ok none ↔
      ¬ Query.IsOneIncluding clauses ∧ ∀ clause ∈ clauses, s.rewrite clause.2 = .ok none := by
  rw [rewrite]
  constructor
  · intro h
    obtain ⟨steps, hsteps, h⟩ := exists_of_bind_eq_ok h
    have hnone : rewriteBoolean steps = none := Except.ok.inj h
    rw [rewriteClauses_eq_ok_iff] at hsteps
    have hmany : ∀ occur q step, occur ≠ Occur.mustNot → steps ≠ [(occur, q, step)] := by
      rintro occur q step hoccur rfl
      exact Option.some_ne_none _ ((rewriteBoolean_one hoccur).symm.trans hnone)
    constructor
    · rintro ⟨occur, only, hoccur, rfl⟩
      obtain ⟨⟨occur', q, step⟩, rest, ⟨heq, -⟩, hrest, rfl⟩ := List.forall₂_cons_left_iff.1 hsteps
      obtain ⟨rfl, rfl⟩ := Prod.mk.inj heq
      cases hrest
      exact hmany _ _ step hoccur rfl
    · rw [rewriteBoolean_many hmany, ite_eq_right_iff] at hnone
      refine rewrite_eq_none_of_steps hsteps fun step hstep => ?_
      refine Option.not_isSome_iff_eq_none.1 fun hsome => ?_
      exact Option.some_ne_none _ (hnone (List.any_eq_true.2 ⟨step, hstep, hsome⟩))
  · rintro ⟨hmany, hclauses⟩
    have hsteps : s.rewriteClauses clauses =
        .ok (settled (clauses.map fun clause => (clause.1, clause.2, none))) := by
      rw [rewriteClauses_eq_ok_iff, settled, List.map_map, List.forall₂_map_right_iff, List.forall₂_same]
      exact fun clause hclause => ⟨rfl, hclauses clause hclause⟩
    rw [hsteps]
    refine congrArg Except.ok (rewriteBoolean_settled fun occur q step hoccur heq => hmany ?_)
    obtain ⟨clause, rfl, hclause⟩ := List.map_eq_singleton_iff.1 heq
    cases hclause
    exact ⟨_, _, hoccur, rfl⟩

theorem rewrite_join_eq_none_iff {source target : String} {sub : Query} {boost : Single} :
    s.rewrite (.join source target sub boost) = .ok none ↔ s.rewrite sub = .ok none := by
  rw [rewrite]
  cases s.rewrite sub with
  | error fault => exact iff_of_false (fun h => nomatch h) fun h => nomatch h
  | ok step =>
    cases step with
    | none => exact iff_of_true rfl rfl
    | some next =>
      exact iff_of_false (fun h => Option.some_ne_none _ (Except.ok.inj h)) fun h => nomatch h

mutual

/-- **No step applies exactly to final forms.** -/
theorem rewrite_eq_none_iff : ∀ q : Query, s.rewrite q = .ok none ↔ q.IsFinal
  | .all => iff_of_true (by rw [rewrite]) Query.isFinal_all
  | .term t => iff_of_true (by rw [rewrite]) (Query.isFinal_term t)
  | .startsWith field stem => by
    refine iff_of_false (fun h => ?_) (Query.not_isFinal_startsWith field stem)
    rw [rewrite] at h
    obtain ⟨texts, _, h⟩ := exists_of_bind_eq_ok h
    cases h
  | .boolean clauses => by
    rw [rewrite_boolean_eq_none_iff, Query.isFinal_boolean_iff]
    exact and_congr_right fun _ => forall₂_congr (rewrite_eq_none_iff_of_mem clauses)
  | .join source target sub boost => by
    rw [rewrite_join_eq_none_iff, Query.isFinal_join_iff]
    exact rewrite_eq_none_iff sub
termination_by structural q => q

theorem rewrite_eq_none_iff_of_mem : ∀ (clauses : List (Occur × Query)), ∀ clause ∈ clauses,
    s.rewrite clause.2 = .ok none ↔ clause.2.IsFinal
  | [], clause, h => absurd h List.not_mem_nil
  | (occur, q) :: clauses, clause, h => by
    rcases List.mem_cons.1 h with rfl | h
    · exact rewrite_eq_none_iff q
    · exact rewrite_eq_none_iff_of_mem clauses clause h
termination_by structural clauses => clauses

end

end TermJoin.Snapshot
