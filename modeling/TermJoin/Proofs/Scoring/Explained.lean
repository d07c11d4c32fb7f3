import TermJoin.Proofs.Index.Refinement
import TermJoin.Proofs.Scoring.JoinWeight

/-!
# What a weight explains

A weight explains a document by sending a fresh scorer to it. That tells the documents of the scorer from all
others, with one exception: past its last document the scorer stands at `noMoreDocs`, so that ordinal is
explained as a match, though no document has it.

* `Snapshot.Sound.exists_outcome`, `Snapshot.Sound.replies_of_outcome`: what a weight found, and what it
  replies from then on.
* `Weight.enumerates_scorerOf_iff`: the documents that the scorer of a segment leads to.
* **`Snapshot.Reachable.isMatch_explain_iff`**: which ordinals of a segment are explained as matches.
* `Snapshot.loneSnapshot_explains_noMoreDocs`: a match without a document.
-/

namespace TermJoin

namespace Weight

variable {w : Weight} {view : SegmentView} {value : Single} {outcome : Outcome} {doc : Nat}

theorem mem_cursor_scorerOf (hfilter : outcome.filter = .ofSet outcome.set) :
    doc ∈ (scorerOf view value outcome).cursor.docs.toList ↔
      doc < view.count ∧ view.base + doc ∈ outcome.set := by
  rw [cursor_scorerOf, DocFilter.mem_window, hfilter, DocFilter.mem_toSet_ofSet, and_comm]

theorem enumerates_scorerOf_iff (hcount : view.count ≤ noMoreDocs)
    (hfilter : outcome.filter = .ofSet outcome.set) :
    (scorerOf view value outcome).cursor.Enumerates doc ↔
      doc < view.count ∧ view.base + doc ∈ outcome.set := by
  have hrest : (scorerOf view value outcome).cursor.rest =
      (scorerOf view value outcome).cursor.docs.toList := by
    rw [cursor_scorerOf]
    rfl
  have hlt : ∀ d ∈ (scorerOf view value outcome).cursor.docs.toList, d < noMoreDocs := by
    intro d hd
    exact Nat.lt_of_lt_of_le ((mem_cursor_scorerOf hfilter).1 hd).1 hcount
  rw [MatchCursor.enumerates_iff hlt, hrest, mem_cursor_scorerOf hfilter]

/-- What is explained as a match is a document of the scorer, or no document at all. -/
theorem isMatch_explanationOf_iff_enumerates (hcount : view.count ≤ noMoreDocs) :
    (w.explanationOf view doc outcome).isMatch = true ↔
      (scorerOf view w.value outcome).cursor.Enumerates doc ∨ doc = noMoreDocs := by
  have hlt : ∀ d ∈ (outcome.filter.window view.base view.count).toList, d < noMoreDocs := by
    intro d hd
    exact Nat.lt_of_lt_of_le (DocFilter.mem_window.1 hd).2 hcount
  rw [isMatch_explanationOf, cursor_scorerOf, MatchCursor.doc_advance_eq_iff hlt,
    MatchCursor.enumerates_iff hlt]
  rfl

theorem value_explanationOf_of_not_isMatch (h : (w.explanationOf view doc outcome).isMatch = false) :
    (w.explanationOf view doc outcome).value = .zero := by
  rw [explanationOf] at h ⊢
  split at h
  · cases h
  · rw [if_neg ‹_›]
    rfl

end Weight

namespace Snapshot

variable {s : Snapshot} {q : Query} {before : List Call} {earlier : List WeightCall} {set : DocSet}
  {view : SegmentView} {outcome : Outcome}

namespace Sound

variable (hs : s.Sound)
include hs

theorem exists_outcome (hset : s.replyAfter q before earlier .docSet = .docs (.ok set)) :
    ∃ outcome, s.Settles (Weight.ofQuery s q).find.run (· = .ok outcome) ∧ outcome.set = set ∧
      outcome.filter = .ofSet outcome.set := by
  obtain ⟨found, ⟨-, hfilter⟩, hfind⟩ := (hs.settles_find (w := Weight.ofQuery s q) rfl).exists_eq
  rw [hs.replyAfter_eq hfind] at hset
  cases found with
  | error fault => cases hset
  | ok outcome =>
    cases hset
    exact ⟨outcome, hfind, rfl, hfilter outcome rfl⟩

theorem exists_replyAfter_docSet {docs : List Nat} (hdocs : s.corpus.answer q = .ok docs) (before : List Call)
    (earlier : List WeightCall) :
    ∃ set, s.replyAfter q before earlier .docSet = .docs (.ok set) ∧ set.toSortedList = docs := by
  obtain ⟨found, hfound, hfind⟩ := (hs.settles_find (w := Weight.ofQuery s q) rfl).exists_eq
  obtain ⟨outcome, rfl, hlist, -⟩ := hfound.exists_outcome hdocs
  exact ⟨outcome.set, hs.replyAfter_eq hfind before earlier .docSet, hlist⟩

theorem replies_of_outcome (hfind : s.Settles (Weight.ofQuery s q).find.run (· = .ok outcome))
    (hview : view ∈ s.segments) (before : List Call) (earlier : List WeightCall) :
    let w := (Weight.ofQuery s q).after (.ok outcome) earlier
    s.replyAfter q before earlier (.scorer view) = .scorer (.ok (Weight.scorerOf view w.value outcome)) ∧
      ∀ doc, s.replyAfter q before earlier (.explain view doc) =
        .explanation (.ok (w.explanationOf view doc outcome)) := by
  intro w
  have hstamp : view.stamp = w.snapshot.stamp := stamp_of_mem_segments hview
  refine ⟨?_, fun doc => ?_⟩
  · rw [hs.replyAfter_eq hfind]
    exact if_pos hstamp
  · rw [hs.replyAfter_eq hfind]
    exact if_pos hstamp

end Sound

/-- **A weight explains what it scores, and the end of it.** If the documents of a weight can be computed, be it
one of a join or of another query, then at any time an ordinal of an own segment is explained as a match exactly
if the scorer of the segment leads to it or it is `noMoreDocs`, which no document has. Everything else is
explained as a non-match of value zero. -/
theorem Reachable.isMatch_explain_iff (h : s.Reachable)
    (hset : s.replyAfter q before earlier .docSet = .docs (.ok set)) (hview : view ∈ s.segments) :
    view.count ≤ noMoreDocs ∧
    ∃ scorer, s.replyAfter q before earlier (.scorer view) = .scorer (.ok scorer) ∧
      (∀ doc, scorer.cursor.Enumerates doc ↔ doc < view.count ∧ view.base + doc ∈ set) ∧
      ∀ doc, ∃ explanation, s.replyAfter q before earlier (.explain view doc) = .explanation (.ok explanation) ∧
        (explanation.isMatch = true ↔ scorer.cursor.Enumerates doc ∨ doc = noMoreDocs) ∧
        (explanation.isMatch = false → explanation.value = .zero) := by
  obtain ⟨outcome, hfind, rfl, hfilter⟩ := h.sound.exists_outcome hset
  obtain ⟨hscorer, hexplain⟩ := h.sound.replies_of_outcome hfind hview before earlier
  have hcount := h.sound.count_le hview
  refine ⟨hcount, _, hscorer, fun doc => Weight.enumerates_scorerOf_iff hcount hfilter, fun doc => ?_⟩
  exact ⟨_, hexplain doc, Weight.isMatch_explanationOf_iff_enumerates hcount,
    Weight.value_explanationOf_of_not_isMatch⟩

/-- The child of the second segment is no match in the first one, though its ordinal comes next there. -/
theorem familySnapshot_explained :
    let ask := familySnapshot.replyAfter (.startsWith "kind" "") [] [.normalize .zero]
    ∃ view ∈ familySnapshot.segments, view.base = 0 ∧ view.count = 2 ∧
      (∃ explanation, ask (.explain view 0) = .explanation (.ok explanation) ∧ explanation.isMatch = true) ∧
      ∃ explanation, ask (.explain view 2) = .explanation (.ok explanation) ∧ explanation.isMatch = false ∧
        explanation.value = .zero := by
  intro ask
  have hreachable : familySnapshot.Reachable := reachable_afterHistory _ _ _ _
  have hs := hreachable.sound
  have hanswer : familySnapshot.corpus.answer (.startsWith "kind" "") = .ok [0, 2] := by
    decide +kernel
  have hplace : (familySnapshot.segmentFor? 0).map (fun view => (view.base, view.count)) = some (0, 2) := by
    decide +kernel
  obtain ⟨view, hfor, hsize⟩ := Option.map_eq_some_iff.1 hplace
  obtain ⟨hbase, hcount⟩ := Prod.mk.inj hsize
  have hview := (hs.segmentFor?_eq_some_iff.1 hfor).1
  obtain ⟨set, hset, hlist⟩ := hs.exists_replyAfter_docSet hanswer [] [.normalize .zero]
  obtain ⟨-, scorer, -, hscored, hexplained⟩ := hreachable.isMatch_explain_iff hset hview
  rw [hbase, hcount] at hscored
  refine ⟨view, hview, hbase, hcount, ?_, ?_⟩
  · obtain ⟨explanation, hreply, hmatch, -⟩ := hexplained 0
    refine ⟨explanation, hreply, hmatch.2 (.inl ((hscored 0).2 ⟨Nat.two_pos, ?_⟩))⟩
    rw [← DocSet.mem_toSortedList, hlist]
    exact .head _
  · obtain ⟨explanation, hreply, hmatch, hvalue⟩ := hexplained 2
    have hnot : explanation.isMatch = false := by
      rw [← Bool.not_eq_true, hmatch, hscored]
      exact fun h => h.elim (fun h => Nat.lt_irrefl 2 h.1) (by decide)
    exact ⟨explanation, hreply, hnot, hvalue hnot⟩

/-- One document in one segment. -/
def loneSnapshot : Snapshot :=
  afterHistory ⟨[("a", .text)]⟩ default 0 [.add (.ofList [("a", "x")]), .commit]

/-- Sent past its only document, a scorer stands where a match is expected, and no document is there. -/
theorem loneSnapshot_explains_noMoreDocs :
    ∃ view ∈ loneSnapshot.segments, ∃ scorer explanation,
      loneSnapshot.replyAfter .all [] [] (.scorer view) = .scorer (.ok scorer) ∧
      ¬ scorer.cursor.Enumerates noMoreDocs ∧
      loneSnapshot.replyAfter .all [] [] (.explain view noMoreDocs) = .explanation (.ok explanation) ∧
      explanation.isMatch = true ∧ explanation.value = .one := by
  have hreachable : loneSnapshot.Reachable := reachable_afterHistory _ _ _ _
  have hs := hreachable.sound
  have hanswer : loneSnapshot.corpus.answer .all = .ok [0] := by
    decide +kernel
  obtain ⟨view, hfor⟩ : ∃ view, loneSnapshot.segmentFor? 0 = some view :=
    Option.isSome_iff_exists.1 (by decide +kernel)
  have hview := (hs.segmentFor?_eq_some_iff.1 hfor).1
  obtain ⟨set, hset, -⟩ := hs.exists_replyAfter_docSet hanswer [] []
  obtain ⟨outcome, hfind, -, -⟩ := hs.exists_outcome hset
  obtain ⟨hscorer, hexplain⟩ := hs.replies_of_outcome hfind hview [] []
  let w := (Weight.ofQuery loneSnapshot .all).after (.ok outcome) []
  have hmatch : (w.explanationOf view noMoreDocs outcome).isMatch = true :=
    (Weight.isMatch_explanationOf_iff_enumerates (hs.count_le hview)).2 (.inr rfl)
  exact ⟨view, hview, _, _, hscorer, fun h => h.1 rfl, hexplain noMoreDocs, hmatch,
    Weight.value_explanationOf hmatch⟩

end Snapshot

end TermJoin
