import TermJoin.Proofs.Join.Members
import TermJoin.Proofs.Query.FinalForm

/-!
# Rewriting comes to an end

Full rewriting takes one step after the other, and a step on a single clause rewrites that fully on its way.
Nothing here gets smaller: a stem becomes many terms. The loop ends because the first step already leads to
a final form, and no step applies to those.

* `Snapshot.Steps`, `Snapshot.ClauseSteps`, `Snapshot.Runs`: the steps and the loop as they are run, up to a
  result. A run that goes on for ever has none.
* `Snapshot.rewrite_boolean_one`, `Snapshot.rewrite_boolean_many`, `Snapshot.afterClauses_cons`: rewriting obeys
  the same rules.
* **`Snapshot.Steps.eq`**, `Snapshot.Runs.eq`: so there is no other result than that of rewriting, by induction on
  the run.
* `Snapshot.steps_of_endSingles`: steps come to an end, by induction on the query, up to the loops they run.
* **`Snapshot.steps_rewrite`**, `Snapshot.runs_rewriteFully`: and so do the loops, since their second step starts
  from a final form, which runs none.
* **`Snapshot.rewriting_terminates`**: the loop ends with a final form, and at once on one.
-/

namespace TermJoin.Snapshot

open Query

variable {s : Snapshot} {q next only : Query} {occur : Occur} {clauses rewritten : List (Occur × Query)}
  {changed : Bool}

/-! ## Steps as they are taken -/

mutual

/-- One step of a query ends with this result: what the step leads to, nothing if there is none to take, or a
fault. -/
inductive Steps (s : Snapshot) : Query → Except Fault (Option Query) → Prop
  | all : Steps s .all (.ok none)
  | term (t : Term) : Steps s (.term t) (.ok none)
  | startsWith (field stem : String) :
      Steps s (.startsWith field stem) ((s.expand field stem).map fun texts => some (anyTerm field texts))
  /-- One clause that includes leads to all that its query is rewritten to. -/
  | one {occur : Occur} {only : Query} {result : Except Fault Query} (h : occur ≠ .mustNot)
      (hrun : Runs s only result) : Steps s (.boolean [(occur, only)]) (result.map some)
  | many {clauses : List (Occur × Query)} {result : Except Fault (Bool × List (Occur × Query))}
      (h : ¬ IsOneIncluding clauses) (hsteps : ClauseSteps s false [] clauses result) :
      Steps s (.boolean clauses) (result.map fun c => if c.1 then some (.boolean c.2) else none)
  | join (source target : String) {sub : Query} (boost : Single) {result : Except Fault (Option Query)}
      (hsub : Steps s sub result) :
      Steps s (.join source target sub boost) (result.map (·.map (.join source target · boost)))

/-- One step of each clause in turn, behind the clauses rewritten before, ends with this result: whether there
was a step to take, and all clauses after it. -/
inductive ClauseSteps (s : Snapshot) : Bool → List (Occur × Query) → List (Occur × Query) →
    Except Fault (Bool × List (Occur × Query)) → Prop
  | nil (changed : Bool) (rewritten : List (Occur × Query)) :
      ClauseSteps s changed rewritten [] (.ok (changed, rewritten))
  | fail {changed : Bool} {rewritten : List (Occur × Query)} {occur : Occur} {q : Query}
      {clauses : List (Occur × Query)} {fault : Fault} (hq : Steps s q (.error fault)) :
      ClauseSteps s changed rewritten ((occur, q) :: clauses) (.error fault)
  | kept {changed : Bool} {rewritten : List (Occur × Query)} {occur : Occur} {q : Query}
      {clauses : List (Occur × Query)} {result : Except Fault (Bool × List (Occur × Query))}
      (hq : Steps s q (.ok none)) (hrest : ClauseSteps s changed (rewritten ++ [(occur, q)]) clauses result) :
      ClauseSteps s changed rewritten ((occur, q) :: clauses) result
  | changed {changed : Bool} {rewritten : List (Occur × Query)} {occur : Occur} {q next : Query}
      {clauses : List (Occur × Query)} {result : Except Fault (Bool × List (Occur × Query))}
      (hq : Steps s q (.ok (some next)))
      (hrest : ClauseSteps s true (rewritten ++ [(occur, next)]) clauses result) :
      ClauseSteps s changed rewritten ((occur, q) :: clauses) result

/-- The loop, which takes step after step until there is none to take, ends with this result. -/
inductive Runs (s : Snapshot) : Query → Except Fault Query → Prop
  | fail {current : Query} {fault : Fault} (h : Steps s current (.error fault)) :
      Runs s current (.error fault)
  | done {current : Query} (h : Steps s current (.ok none)) : Runs s current (.ok current)
  | next {current next : Query} {result : Except Fault Query} (h : Steps s current (.ok (some next)))
      (hrest : Runs s next result) : Runs s current result

end

/-! ## The rules of rewriting -/

theorem isFinal_of_rewriteFully {r : Query} (h : s.rewriteFully q = .ok r) : r.IsFinal := by
  rw [rewriteFully] at h
  obtain ⟨step, hstep, h⟩ := exists_of_bind_eq_ok h
  cases h
  exact (rewrite_eq_none_iff _).1 (rewrite_getD q step hstep)

theorem rewriteFully_of_isFinal (h : q.IsFinal) : s.rewriteFully q = .ok q :=
  rewriteFully_of_rewrite ((rewrite_eq_none_iff q).2 h)

theorem rewriteFully_of_error {fault : Fault} (h : s.rewrite q = .error fault) :
    s.rewriteFully q = .error fault := by
  rw [rewriteFully, h]
  rfl

theorem rewriteFully_of_some (h : s.rewrite q = .ok (some next)) :
    s.rewriteFully q = s.rewriteFully next := by
  have hfull := rewriteFully_of_rewrite h
  rw [hfull]
  exact (rewriteFully_of_isFinal (isFinal_of_rewriteFully hfull)).symm

theorem rewrite_boolean_one (h : occur ≠ .mustNot) :
    s.rewrite (.boolean [(occur, only)]) = (s.rewriteFully only).map some := by
  rw [rewrite, rewriteClauses, rewriteClauses, rewriteFully]
  cases s.rewrite only with
  | error fault => rfl
  | ok step => exact congrArg Except.ok (rewriteBoolean_one h)

/-- The clauses after one step each, behind those rewritten before, and whether there was a step to take. -/
def afterClauses (s : Snapshot) (changed : Bool) (rewritten clauses : List (Occur × Query)) :
    Except Fault (Bool × List (Occur × Query)) :=
  (s.rewriteClauses clauses).map fun steps =>
    (changed || steps.any (·.2.2.isSome), rewritten ++ stepped steps)

theorem afterClauses_nil : s.afterClauses changed rewritten [] = .ok (changed, rewritten) := by
  rw [afterClauses, rewriteClauses]
  simp [Except.map, stepped]

theorem afterClauses_of_error {fault : Fault} (h : s.rewrite q = .error fault) :
    s.afterClauses changed rewritten ((occur, q) :: clauses) = .error fault := by
  rw [afterClauses, rewriteClauses, h]
  rfl

theorem afterClauses_cons {step : Option Query} (h : s.rewrite q = .ok step) :
    s.afterClauses changed rewritten ((occur, q) :: clauses) =
      s.afterClauses (changed || step.isSome) (rewritten ++ [(occur, step.getD q)]) clauses := by
  rw [afterClauses, afterClauses, rewriteClauses, h]
  cases s.rewriteClauses clauses with
  | error fault => rfl
  | ok rest =>
    show Except.ok _ = Except.ok _
    simp [stepped, Bool.or_assoc]

theorem rewrite_boolean_many (h : ¬ IsOneIncluding clauses) :
    s.rewrite (.boolean clauses) =
      (s.afterClauses false [] clauses).map fun c => if c.1 then some (.boolean c.2) else none := by
  rw [rewrite, afterClauses]
  cases hsteps : s.rewriteClauses clauses with
  | error fault => rfl
  | ok steps =>
    have hmany : ∀ occur q step, occur ≠ Occur.mustNot → steps ≠ [(occur, q, step)] := by
      rintro occur q step hoccur rfl
      obtain ⟨⟨occur', only⟩, rest, ⟨heq, -⟩, hrest, rfl⟩ :=
        List.forall₂_cons_right_iff.1 (rewriteClauses_eq_ok_iff.1 hsteps)
      cases heq
      cases hrest
      exact h ⟨_, _, hoccur, rfl⟩
    show Except.ok (rewriteBoolean steps) = Except.ok (if (false || steps.any (·.2.2.isSome)) = true then
      some (.boolean ([] ++ stepped steps)) else none)
    rw [rewriteBoolean_many hmany, Bool.false_or, List.nil_append]

theorem rewrite_join (source target : String) (sub : Query) (boost : Single) :
    s.rewrite (.join source target sub boost) =
      (s.rewrite sub).map (·.map (.join source target · boost)) := by
  rw [rewrite]
  cases s.rewrite sub <;> rfl

theorem rewrite_startsWith (field stem : String) :
    s.rewrite (.startsWith field stem) =
      (s.expand field stem).map fun texts => some (anyTerm field texts) := by
  rw [rewrite]
  cases s.expand field stem <;> rfl

/-! ## No other result -/

mutual

/-- **A step has no other result than that of rewriting.** -/
theorem Steps.eq {q : Query} {result : Except Fault (Option Query)} :
    s.Steps q result → s.rewrite q = result
  | .all => by rw [rewrite]
  | .term t => by rw [rewrite]
  | .startsWith field stem => rewrite_startsWith field stem
  | .one h hrun => by rw [rewrite_boolean_one h, hrun.eq]
  | .many h hsteps => by rw [rewrite_boolean_many h, hsteps.eq]
  | .join source target boost hsub => by rw [rewrite_join, hsub.eq]

theorem ClauseSteps.eq {changed : Bool} {rewritten clauses : List (Occur × Query)}
    {result : Except Fault (Bool × List (Occur × Query))} :
    s.ClauseSteps changed rewritten clauses result → s.afterClauses changed rewritten clauses = result
  | .nil changed rewritten => afterClauses_nil
  | .fail hq => afterClauses_of_error hq.eq
  | .kept hq hrest => by
    rw [afterClauses_cons hq.eq, ← hrest.eq, Option.isSome_none, Bool.or_false, Option.getD_none]
  | .changed hq hrest => by
    rw [afterClauses_cons hq.eq, ← hrest.eq, Option.isSome_some, Bool.or_true, Option.getD_some]

theorem Runs.eq {q : Query} {result : Except Fault Query} : s.Runs q result → s.rewriteFully q = result
  | .fail h => rewriteFully_of_error h.eq
  | .done h => rewriteFully_of_rewrite h.eq
  | .next h hrest => by rw [rewriteFully_of_some h.eq, hrest.eq]

end

/-! ## One result -/

theorem clauseSteps_afterClauses (h : ∀ clause ∈ clauses, s.Steps clause.2 (s.rewrite clause.2)) :
    s.ClauseSteps changed rewritten clauses (s.afterClauses changed rewritten clauses) := by
  induction clauses generalizing changed rewritten with
  | nil =>
    rw [afterClauses_nil]
    exact .nil changed rewritten
  | cons clause clauses ih =>
    obtain ⟨occur, q⟩ := clause
    obtain ⟨hq, hclauses⟩ := List.forall_mem_cons.1 h
    cases hstep : s.rewrite q with
    | error fault =>
      rw [afterClauses_of_error hstep]
      exact .fail (hstep ▸ hq)
    | ok step =>
      rw [afterClauses_cons hstep]
      cases step with
      | none =>
        rw [Option.isSome_none, Bool.or_false, Option.getD_none]
        exact .kept (hstep ▸ hq) (ih hclauses)
      | some next =>
        rw [Option.isSome_some, Bool.or_true, Option.getD_some]
        exact .changed (hstep ▸ hq) (ih hclauses)

theorem steps_boolean_many (hmany : ¬ IsOneIncluding clauses)
    (h : ∀ clause ∈ clauses, s.Steps clause.2 (s.rewrite clause.2)) :
    s.Steps (.boolean clauses) (s.rewrite (.boolean clauses)) := by
  rw [rewrite_boolean_many hmany]
  exact .many hmany (clauseSteps_afterClauses h)

theorem steps_join (source target : String) {sub : Query} (boost : Single)
    (h : s.Steps sub (s.rewrite sub)) :
    s.Steps (.join source target sub boost) (s.rewrite (.join source target sub boost)) := by
  rw [rewrite_join]
  exact .join source target boost h

/-- Where one of these queries has one clause that includes, its step comes to an end if that clause's does. -/
def EndSingles (s : Snapshot) (queries : List Query) : Prop :=
  ∀ occur only, occur ≠ .mustNot → .boolean [(occur, only)] ∈ queries → s.Steps only (s.rewrite only) →
    s.Steps (.boolean [(occur, only)]) (s.rewrite (.boolean [(occur, only)]))

theorem EndSingles.mono {queries more : List Query} (h : s.EndSingles more) (hsub : queries ⊆ more) :
    s.EndSingles queries :=
  fun occur only hoccur hmem => h occur only hoccur (hsub hmem)

mutual

/-- A step comes to an end if those do that run a loop of their own. -/
theorem steps_of_endSingles : ∀ q : Query, s.EndSingles q.parts → s.Steps q (s.rewrite q)
  | .all, _ => by
    rw [rewrite]
    exact .all
  | .term t, _ => by
    rw [rewrite]
    exact .term t
  | .startsWith field stem, _ => by
    rw [rewrite_startsWith]
    exact .startsWith field stem
  | .boolean clauses, h => by
    have hclauses := steps_of_endSingles_of_mem clauses (h.mono (List.subset_cons_self _ _))
    by_cases hone : IsOneIncluding clauses
    · obtain ⟨occur, only, hoccur, rfl⟩ := hone
      exact h occur only hoccur List.mem_cons_self
        (hclauses (occur, only) (List.mem_singleton_self _))
    · exact steps_boolean_many hone hclauses
  | .join source target sub boost, h =>
    steps_join source target boost (steps_of_endSingles sub (h.mono (List.subset_cons_self _ _)))
termination_by structural q => q

theorem steps_of_endSingles_of_mem : ∀ (clauses : List (Occur × Query)),
    s.EndSingles (partsOfClauses clauses) → ∀ clause ∈ clauses, s.Steps clause.2 (s.rewrite clause.2)
  | [], _, _, hmem => absurd hmem List.not_mem_nil
  | (occur, q) :: clauses, h, clause, hmem => by
    rcases List.mem_cons.1 hmem with rfl | hmem
    · exact steps_of_endSingles q (h.mono (List.subset_append_left _ _))
    · exact steps_of_endSingles_of_mem clauses (h.mono (List.subset_append_right _ _)) clause hmem
termination_by structural clauses => clauses

end

theorem steps_rewrite_of_isFinal (h : q.IsFinal) : s.Steps q (s.rewrite q) :=
  steps_of_endSingles q fun occur only hoccur hmem _ => absurd ⟨occur, only, hoccur, rfl⟩ (h.2 _ hmem)

theorem runs_of_isFinal (h : q.IsFinal) : s.Runs q (.ok q) :=
  .done ((rewrite_eq_none_iff q).2 h ▸ steps_rewrite_of_isFinal h)

/-- **The loop comes to an end if its first step does**: a second one starts from a final form. -/
theorem runs_of_steps (h : s.Steps q (s.rewrite q)) : s.Runs q (s.rewriteFully q) := by
  cases hstep : s.rewrite q with
  | error fault =>
    rw [rewriteFully_of_error hstep]
    exact .fail (hstep ▸ h)
  | ok step =>
    have hfull := rewriteFully_of_rewrite hstep
    rw [hfull]
    cases step with
    | none => exact .done (hstep ▸ h)
    | some next => exact .next (hstep ▸ h) (runs_of_isFinal (isFinal_of_rewriteFully hfull))

/-- **A step comes to an end**, with the result of rewriting. -/
theorem steps_rewrite (q : Query) : s.Steps q (s.rewrite q) := by
  refine steps_of_endSingles q fun occur only hoccur _ h => ?_
  rw [rewrite_boolean_one hoccur]
  exact .one hoccur (runs_of_steps h)

theorem runs_rewriteFully (q : Query) : s.Runs q (s.rewriteFully q) := runs_of_steps (steps_rewrite q)

/-- **Full rewriting ends with a final form.** Whatever the snapshot, the step and the loop of every query end,
with one result each. What the loop ends with has no stem and no single clause that includes, at any depth; no
step applies to it, and it is rewritten to itself. And the queries to which no step applies are those that look
like this from the start. -/
theorem rewriting_terminates (s : Snapshot) (q : Query) :
    ((∀ result, s.Steps q result ↔ s.rewrite q = result) ∧
      ∀ result, s.Runs q result ↔ s.rewriteFully q = result) ∧
    (∀ r, s.rewriteFully q = .ok r →
      r.IsFinal ∧ s.rewrite r = .ok none ∧ s.rewriteFully r = .ok r) ∧
    (s.rewrite q = .ok none ↔ q.IsFinal) ∧
    (q.IsFinal → s.rewriteFully q = .ok q) := by
  refine ⟨⟨fun result => ⟨Steps.eq, ?_⟩, fun result => ⟨Runs.eq, ?_⟩⟩, fun r hr => ?_, rewrite_eq_none_iff q,
    rewriteFully_of_isFinal⟩
  · rintro rfl
    exact steps_rewrite q
  · rintro rfl
    exact runs_rewriteFully q
  · have hfinal := isFinal_of_rewriteFully hr
    exact ⟨hfinal, (rewrite_eq_none_iff r).2 hfinal, rewriteFully_of_isFinal hfinal⟩

/-- A stem of two terms as the only clause of a clause, and one of no terms below two exclusions. -/
def nestedStems : Query :=
  .boolean [(.should, .boolean [(.must, .startsWith "kind" "")]),
    (.mustNot, .boolean [(.mustNot, .startsWith "kind" "x")])]

/-- The inner clause gives way to both terms, and the exclusions stay. -/
theorem familySnapshot_nestedStems :
    let r := Query.boolean
      [(.should, .boolean [(.should, .term ⟨"kind", "child"⟩), (.should, .term ⟨"kind", "parent"⟩)]),
        (.mustNot, .boolean [(.mustNot, .boolean [])])]
    ¬ nestedStems.IsFinal ∧ familySnapshot.Runs nestedStems (.ok r) ∧ r.IsFinal ∧
      familySnapshot.Runs r (.ok r) := by
  intro r
  obtain ⟨⟨-, hruns⟩, hfinal, hnone, -⟩ := familySnapshot.rewriting_terminates nestedStems
  have hfull : familySnapshot.rewriteFully nestedStems = .ok r := by decide +kernel
  have hstep : familySnapshot.rewrite nestedStems ≠ .ok none := by decide +kernel
  obtain ⟨hr, -, -⟩ := hfinal r hfull
  obtain ⟨⟨-, hruns'⟩, -, -, hself⟩ := familySnapshot.rewriting_terminates r
  exact ⟨fun h => hstep (hnone.2 h), (hruns _).2 hfull, hr, (hruns' _).2 (hself hr)⟩

end TermJoin.Snapshot
