import TermJoin.Proofs.Scoring.Agreement

/-!
# When a query succeeds

A query fails for one reason, as long as there is room for batches of postings: a stem stands for more terms than
the configuration allows. A search replaces all stems of its query before it looks for documents. The set of a
query comes only to the stems that have a say in it: a clause that should match has none beside one that must.

* `Query.stems`, `Query.idleStems`: the stems of a query, and those that its set never comes to.
* `Snapshot.Expands`: the terms of a stem can be listed.
* **`Snapshot.rewrite_succeeds_iff`**: rewriting succeeds exactly if all stems expand.
* **`Snapshot.Sound.expands_of_answer`**: if the corpus answers, all stems expand that are not idle.
* **`Snapshot.Reachable.search_succeeds_iff`**: a search succeeds exactly if the set of the query does and all
  idle stems expand.
* `tightSnapshot`: a search that fails for an idle stem.
-/

namespace TermJoin

/-! ## Stems -/

namespace Query

mutual

/-- The stems of the query at any depth, each behind its field. -/
def stems : Query → List (String × String)
  | .all => []
  | .term _ => []
  | .startsWith field stem => [(field, stem)]
  | .boolean clauses => stemsOfClauses clauses
  | .join _ _ sub _ => stems sub
termination_by structural q => q

/-- The stems of the clauses at any depth. -/
def stemsOfClauses : List (Occur × Query) → List (String × String)
  | [] => []
  | (_, q) :: clauses => stems q ++ stemsOfClauses clauses
termination_by structural clauses => clauses

end

mutual

/-- The stems that have no say: those of clauses that should match beside one that must, at any depth. -/
def idleStems : Query → List (String × String)
  | .all => []
  | .term _ => []
  | .startsWith .. => []
  | .boolean clauses => idleStemsOfClauses (clauses.any (·.1 == .must)) clauses
  | .join _ _ sub _ => idleStems sub
termination_by structural q => q

/-- The stems of the clauses that have no say, given whether clauses that must match decide. -/
def idleStemsOfClauses (decided : Bool) : List (Occur × Query) → List (String × String)
  | [] => []
  | (occur, q) :: clauses =>
    (if decided && occur == .should then stems q else idleStems q) ++ idleStemsOfClauses decided clauses
termination_by structural clauses => clauses

end

mutual

theorem mem_stems_of_mem_idleStems {stem : String × String} : ∀ q : Query,
    stem ∈ q.idleStems → stem ∈ q.stems
  | .all, h => by simp [idleStems] at h
  | .term _, h => by simp [idleStems] at h
  | .startsWith _ _, h => by simp [idleStems] at h
  | .boolean clauses, h => by
    rw [idleStems] at h
    rw [stems]
    exact mem_stemsOfClauses_of_mem_idle _ clauses h
  | .join _ _ sub _, h => by
    rw [idleStems] at h
    rw [stems]
    exact mem_stems_of_mem_idleStems sub h
termination_by structural q => q

theorem mem_stemsOfClauses_of_mem_idle {stem : String × String} (decided : Bool) :
    ∀ clauses : List (Occur × Query),
      stem ∈ idleStemsOfClauses decided clauses → stem ∈ stemsOfClauses clauses
  | [], h => by simp [idleStemsOfClauses] at h
  | (occur, q) :: clauses, h => by
    rw [idleStemsOfClauses, List.mem_append] at h
    rw [stemsOfClauses, List.mem_append]
    refine h.imp (fun h => ?_) (mem_stemsOfClauses_of_mem_idle decided clauses)
    split at h
    · exact h
    · exact mem_stems_of_mem_idleStems q h
termination_by structural clauses => clauses

end

end Query

namespace Snapshot

variable {s : Snapshot}

/-- The terms that start with the stem, given behind its field, can be listed. -/
def Expands (s : Snapshot) (stem : String × String) : Prop :=
  ∃ texts, s.expand stem.1 stem.2 = .ok texts

/-! ## Rewriting -/

mutual

/-- **Rewriting succeeds exactly if all stems expand.** -/
theorem rewrite_succeeds_iff : ∀ q : Query,
    (∃ step, s.rewrite q = .ok step) ↔ ∀ stem ∈ q.stems, s.Expands stem
  | .all => by simp [rewrite, Query.stems]
  | .term _ => by simp [rewrite, Query.stems]
  | .startsWith field stem => by
    simp only [rewrite, Query.stems, List.mem_singleton, forall_eq, Expands]
    cases s.expand field stem <;> simp [bind, Except.bind, pure, Except.pure]
  | .boolean clauses => by
    rw [Query.stems, ← rewriteClauses_succeeds_iff clauses, rewrite]
    cases s.rewriteClauses clauses <;> simp [bind, Except.bind, pure, Except.pure]
  | .join source target sub boost => by
    rw [Query.stems, ← rewrite_succeeds_iff sub, rewrite]
    cases s.rewrite sub <;> simp [bind, Except.bind, pure, Except.pure]
termination_by structural q => q

theorem rewriteClauses_succeeds_iff : ∀ clauses : List (Occur × Query),
    (∃ steps, s.rewriteClauses clauses = .ok steps) ↔
      ∀ stem ∈ Query.stemsOfClauses clauses, s.Expands stem
  | [] => by simp [rewriteClauses, Query.stemsOfClauses]
  | (occur, q) :: clauses => by
    simp only [Query.stemsOfClauses, List.mem_append, or_imp, forall_and]
    rw [← rewrite_succeeds_iff q, ← rewriteClauses_succeeds_iff clauses, rewriteClauses]
    cases s.rewrite q with
    | error fault => simp [bind, Except.bind]
    | ok step => cases s.rewriteClauses clauses <;> simp [bind, Except.bind, pure, Except.pure]
termination_by structural clauses => clauses

end

theorem rewriteFully_succeeds_iff {q : Query} :
    (∃ r, s.rewriteFully q = .ok r) ↔ ∀ stem ∈ q.stems, s.Expands stem := by
  rw [← rewrite_succeeds_iff q, rewriteFully]
  cases s.rewrite q <;> simp [bind, Except.bind, pure, Except.pure]

end Snapshot

/-! ## Evaluation -/

namespace Corpus

variable {corpus : Corpus} {kind : Occur} {clauses : List (Occur × Query)} {lists : List (List Nat)}

theorem exists_answer_of_mem (h : corpus.answerClauses kind clauses = .ok lists) {q : Query}
    (hq : (kind, q) ∈ clauses) : ∃ docs, corpus.answer q = .ok docs := by
  induction clauses generalizing lists with
  | nil => cases hq
  | cons clause clauses ih =>
    obtain ⟨occur, p⟩ := clause
    rw [answerClauses] at h
    split at h
    · obtain ⟨docs, hdocs, h⟩ := exists_of_bind_eq_ok h
      obtain ⟨rest, hrest, -⟩ := exists_of_bind_eq_ok h
      rcases List.mem_cons.1 hq with heq | hq
      · cases heq
        exact ⟨docs, hdocs⟩
      · exact ih hrest hq
    · rename_i hkind
      rcases List.mem_cons.1 hq with heq | hq
      · cases heq
        exact absurd rfl hkind
      · exact ih h hq

/-- A clause of an answered boolean query has an answer, unless it should match beside one that must. -/
theorem exists_answer_of_answer_boolean {docs : List Nat} (h : corpus.answer (.boolean clauses) = .ok docs)
    {occur : Occur} {q : Query} (hq : (occur, q) ∈ clauses)
    (hasked : (clauses.any (·.1 == .must) && occur == .should) = false) :
    ∃ docs, corpus.answer q = .ok docs := by
  rw [answer_boolean (List.ne_nil_of_mem hq)] at h
  obtain ⟨musts, hmusts, h⟩ := exists_of_bind_eq_ok h
  obtain ⟨shoulds, hshoulds, h⟩ := exists_of_bind_eq_ok h
  obtain ⟨excluded, hexcluded, -⟩ := exists_of_bind_eq_ok h
  cases occur with
  | must => exact exists_answer_of_mem hmusts hq
  | mustNot => exact exists_answer_of_mem hexcluded hq
  | should =>
    have hnone : musts.isEmpty = true := by
      rw [isEmpty_of_answerClauses hmusts]
      simpa using hasked
    rw [if_pos hnone] at hshoulds
    exact exists_answer_of_mem hshoulds hq

end Corpus

namespace Snapshot

variable {s : Snapshot}

mutual

/-- **If the corpus answers, all stems expand that are not idle.** So if those do too, all stems expand. -/
theorem Sound.expands_of_answer (hs : s.Sound) : ∀ (q : Query) (docs : List Nat),
    s.corpus.answer q = .ok docs → (∀ stem ∈ q.idleStems, s.Expands stem) →
      ∀ stem ∈ q.stems, s.Expands stem
  | .all, _, _, _ => by simp [Query.stems]
  | .term _, _, _, _ => by simp [Query.stems]
  | .startsWith field stem, docs, h, _ => by
    rw [Corpus.answer] at h
    obtain ⟨texts, htexts, -⟩ := exists_of_bind_eq_ok h
    rw [Query.stems, List.forall_mem_singleton]
    exact ⟨texts, (hs.expand_eq field stem).trans htexts⟩
  | .boolean clauses, docs, h, hidle => by
    rw [Query.idleStems] at hidle
    rw [Query.stems]
    exact hs.expands_of_answers _ clauses
      (fun occur q hq hasked => Corpus.exists_answer_of_answer_boolean h hq hasked) hidle
  | .join source target sub boost, docs, h, hidle => by
    rw [Corpus.answer] at h
    obtain ⟨selected, hselected, -⟩ := exists_of_bind_eq_ok h
    rw [Query.idleStems] at hidle
    rw [Query.stems]
    exact hs.expands_of_answer sub selected hselected hidle
termination_by structural q => q

theorem Sound.expands_of_answers (hs : s.Sound) (decided : Bool) : ∀ clauses : List (Occur × Query),
    (∀ occur q, (occur, q) ∈ clauses → (decided && occur == .should) = false →
      ∃ docs, s.corpus.answer q = .ok docs) →
    (∀ stem ∈ Query.idleStemsOfClauses decided clauses, s.Expands stem) →
      ∀ stem ∈ Query.stemsOfClauses clauses, s.Expands stem
  | [], _, _ => by simp [Query.stemsOfClauses]
  | (occur, q) :: clauses, hanswers, hidle => by
    rw [Query.idleStemsOfClauses, List.forall_mem_append] at hidle
    rw [Query.stemsOfClauses, List.forall_mem_append]
    obtain ⟨hfirst, hrest⟩ := hidle
    refine ⟨?_, hs.expands_of_answers decided clauses
      (fun occur q hq => hanswers occur q (.tail _ hq)) hrest⟩
    split at hfirst
    · exact hfirst
    · rename_i hasked
      obtain ⟨docs, hdocs⟩ := hanswers occur q (.head _) (Bool.eq_false_iff.2 hasked)
      exact hs.expands_of_answer q docs hdocs hfirst
termination_by structural clauses => clauses

end

/-! ## Searches and sets -/

theorem Sound.search_succeeds_iff_rewriteFully (hs : s.Sound) {q : Query} (calls : List Call) :
    (∃ hits, s.resultAfter calls (s.search q) = .ok hits) ↔
      ∃ r, s.rewriteFully q = .ok r ∧ ∃ docs, s.corpus.answer r = .ok docs := by
  constructor
  · rintro ⟨hits, hhits⟩
    cases hfull : s.rewriteFully q with
    | error fault =>
      have hfails : s.resultAfter calls (s.search q) = .error fault := resultAfter_weigh hfull calls _
      rw [hfails] at hhits
      cases hhits
    | ok r =>
      refine ⟨r, rfl, ?_⟩
      have hmatches : s.matches? q = .ok hits :=
        (hs.resultAfter_of_settles (hs.settles_search q) calls).symm.trans hhits
      rw [matches?, hfull] at hmatches
      change (if s.corpus.documents.isEmpty then _ else _) = _ at hmatches
      split at hmatches
      · -- a search of nothing asks for nothing, but there is an answer
        rename_i hempty
        obtain ⟨hfinal, hroom⟩ := hs.answer_of_rewriteFully hfull
        rw [hfinal]
        exact hroom.exists_ok (.inr (List.isEmpty_iff.1 hempty))
      · cases hanswer : s.corpus.answer r with
        | ok docs => exact ⟨docs, rfl⟩
        | error fault =>
          rw [hanswer] at hmatches
          cases hmatches
  · rintro ⟨r, hfull, docs, hdocs⟩
    exact ⟨_, hs.resultAfter_of_settles (hs.settles_searchOk hfull hdocs) calls⟩

theorem Sound.docSet_succeeds_iff (hs : s.Sound) {q : Query} (calls : List Call) :
    (∃ set, s.resultAfter calls (s.docSet q) = .ok set) ↔ ∃ docs, s.corpus.answer q = .ok docs := by
  have hcaches := hs.faithful_cachesAfter calls
  constructor
  · rintro ⟨set, hset⟩
    exact ⟨_, hs.answer_eq_of_docSet hcaches hset⟩
  · rintro ⟨docs, hdocs⟩
    obtain ⟨set, hset, -⟩ := hs.exists_docSet hcaches hdocs
    exact ⟨set, hset⟩

/-- **A search succeeds exactly if the set of its query does and all idle stems expand**, whatever was asked
before of either. -/
theorem Reachable.search_succeeds_iff (h : s.Reachable) (q : Query) (calls calls' : List Call) :
    (∃ hits, s.resultAfter calls (s.search q) = .ok hits) ↔
      (∃ set, s.resultAfter calls' (s.docSet q) = .ok set) ∧ ∀ stem ∈ q.idleStems, s.Expands stem := by
  have hs := h.sound
  rw [hs.search_succeeds_iff_rewriteFully, hs.docSet_succeeds_iff]
  constructor
  · rintro ⟨r, hfull, docs, hdocs⟩
    have hall := rewriteFully_succeeds_iff.1 ⟨r, hfull⟩
    rw [(hs.answer_of_rewriteFully hfull).1] at hdocs
    exact ⟨⟨docs, hdocs⟩, fun stem hstem => hall stem (q.mem_stems_of_mem_idleStems hstem)⟩
  · rintro ⟨⟨docs, hdocs⟩, hidle⟩
    obtain ⟨r, hfull⟩ := rewriteFully_succeeds_iff.2 (hs.expands_of_answer q docs hdocs hidle)
    exact ⟨r, hfull, docs, (hs.answer_of_rewriteFully hfull).1.trans hdocs⟩

/-- One document, and a configuration that allows a stem no term at all. -/
def tightSnapshot : Snapshot :=
  afterHistory ⟨[("a", .text)]⟩ { (default : Config) with maxExpansions := 0 } 0
    [.add (.ofList [("a", "x")]), .commit]

/-- A clause that should match has no say beside one that must. -/
def allOrStem (stem : String) : Query := .boolean [(.must, .all), (.should, .startsWith "a" stem)]

/-- A stem of no terms is in nobody's way, idle or not. -/
theorem tightSnapshot_search_allOrStem :
    (∃ set, tightSnapshot.resultAfter [.search .all] (tightSnapshot.docSet (allOrStem "y")) = .ok set) ∧
      (∀ stem ∈ (allOrStem "y").idleStems, tightSnapshot.Expands stem) ∧
      ∃ hits, tightSnapshot.resultAfter [] (tightSnapshot.search (allOrStem "y")) = .ok hits := by
  have hreachable : tightSnapshot.Reachable := reachable_afterHistory _ _ _ _
  have hanswer : tightSnapshot.corpus.answer (allOrStem "y") = .ok [0] := by decide +kernel
  have hset := (hreachable.sound.docSet_succeeds_iff [.search .all]).2 ⟨_, hanswer⟩
  have hidle : ∀ stem ∈ (allOrStem "y").idleStems, tightSnapshot.Expands stem := by
    have hstems : (allOrStem "y").idleStems = [("a", "y")] := by decide +kernel
    rw [hstems, List.forall_mem_singleton]
    exact ⟨[], by decide +kernel⟩
  exact ⟨hset, hidle, (hreachable.search_succeeds_iff _ _ _).2 ⟨hset, hidle⟩⟩

/-- An idle stem of one term too many fails the search. The set of the query never comes to it. -/
theorem tightSnapshot_search_fails :
    tightSnapshot.Reachable ∧
      (∃ set, tightSnapshot.resultAfter [] (tightSnapshot.docSet (allOrStem "x")) = .ok set ∧
        set.toSortedList = [0]) ∧
      tightSnapshot.resultAfter [] (tightSnapshot.search (allOrStem "x")) =
        .error (.tooManyTerms "a" "x" 0) := by
  have hreachable : tightSnapshot.Reachable := reachable_afterHistory _ _ _ _
  have hs := hreachable.sound
  have hanswer : tightSnapshot.corpus.answer (allOrStem "x") = .ok [0] := by decide +kernel
  have hfull : tightSnapshot.rewriteFully (allOrStem "x") = .error (.tooManyTerms "a" "x" 0) := by
    decide +kernel
  exact ⟨hreachable, hs.exists_docSet (hs.faithful_cachesAfter []) hanswer, resultAfter_weigh hfull [] _⟩

end Snapshot

end TermJoin
