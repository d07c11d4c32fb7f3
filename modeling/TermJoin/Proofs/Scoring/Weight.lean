import TermJoin.Proofs.DocSet.Filter
import TermJoin.Proofs.Query.Evaluation
import TermJoin.Scoring.Search

/-!
# Weights on remembered results

A weight finds its documents at most once, and keeps what it found. On faithful caches all that is done with
it settles.

* `Settles.bindWeight`: steps on a weight, one after the other.
* `Snapshot.Found`, **`Snapshot.Sound.settles_find`**: what there is to find is what the corpus answers.
* `Weight.Ready`: the weight that was made, with nothing found yet or with something that may be found.
* **`Weight.Ready.settles_outcome`**, **`Weight.Ready.settles_scorer`**: the documents, and the part of a
  segment.
-/

namespace TermJoin

/-! ## Steps on a weight -/

namespace Weight

variable {α β : Type}

theorem run_get_bind (next : Weight → Weighing β) (w : Weight) :
    (get >>= next : Weighing β).run.run w = (next w).run.run w := rfl

theorem run_set_bind (next : PUnit → Weighing β) (w w' : Weight) :
    (set w' >>= next : Weighing β).run.run w = (next ⟨⟩).run.run w' := rfl

theorem run_lift_bind (act : Cached α) (next : α → Weighing β) (w : Weight) :
    ((liftM act : Weighing α) >>= next).run.run w = act >>= fun a => (next a).run.run w := by
  rw [ExceptT.run_bind, StateT.run_bind]
  rfl

theorem run_ofExcept (result : Except Fault α) (w : Weight) :
    (ofExcept result : Weighing α).run.run w = pure (result, w) := by
  cases result <;> rfl

end Weight

namespace Snapshot.Settles

variable {s : Snapshot} {α β : Type} {w : Weight} {act : Weighing α}
  {P : Except Fault α × Weight → Prop}

theorem bindWeight {next : α → Weighing β} {R : Except Fault β × Weight → Prop}
    (h : s.Settles (act.run.run w) P)
    (hok : ∀ a w', P (.ok a, w') → s.Settles ((next a).run.run w') R)
    (herror : ∀ fault w', P (.error fault, w') → R (.error fault, w')) :
    s.Settles ((act >>= next).run.run w) R := by
  rw [ExceptT.run_bind, StateT.run_bind]
  refine Settles.bind h fun r hr => ?_
  obtain ⟨result, w'⟩ := r
  cases result with
  | ok a => exact hok a w' hr
  | error fault => exact .pure (herror fault w' hr)

end Snapshot.Settles

/-! ## What a weight finds -/

namespace Snapshot

/-- The documents found are those that the corpus answers, with a filter that accepts them. -/
def Found (s : Snapshot) (q : Query) (result : Except Fault Outcome) : Prop :=
  s.Agrees q (result.map (·.set)) ∧ ∀ outcome, result = .ok outcome → outcome.filter = .ofSet outcome.set

/-- **A weight finds what the corpus answers**, whether it runs a join or asks for the set of its query. -/
theorem Sound.settles_find {s : Snapshot} (hs : s.Sound) {w : Weight} (hw : w.snapshot = s) :
    s.Settles w.find.run (s.Found w.query) := by
  rw [Weight.find, hw]
  split
  · rename_i source target sub boost hquery
    rw [hquery]
    refine (hs.settles_joinOf source target boost (hs.settles_computeDocs sub)).bindExec
      (fun result hresult => .ok ⟨hresult, ?_⟩) fun fault hfault => ⟨hfault, fun _ h => nomatch h⟩
    rintro outcome houtcome
    cases houtcome
    rfl
  · refine (hs.settles_docSet w.query).bindExec (fun set hset => .ok ⟨hset, ?_⟩)
      fun fault hfault => ⟨hfault, fun _ h => nomatch h⟩
    rintro outcome houtcome
    cases houtcome
    rfl

theorem Found.exists_outcome {s : Snapshot} {q : Query} {result : Except Fault Outcome}
    (h : s.Found q result) {docs : List Nat} (hdocs : s.corpus.answer q = .ok docs) :
    ∃ outcome, result = .ok outcome ∧ outcome.set.toSortedList = docs ∧
      outcome.filter = .ofSet outcome.set := by
  obtain ⟨hagrees, hfilter⟩ := h
  rw [Agrees, hdocs] at hagrees
  cases result with
  | error fault => cases hagrees
  | ok outcome => exact ⟨outcome, rfl, Except.ok.inj hagrees, hfilter outcome rfl⟩

end Snapshot

namespace Weight

/-! ## What a weight keeps -/

theorem eq_of_kept? {result kept : Except Fault Outcome} (h : kept? result = some kept) : kept = result := by
  unfold kept? at h
  split at h
  · cases h
  · exact (Option.some.inj h).symm

/-- The weight that was made, with nothing found yet or with something that may be found. -/
structure Ready (made w : Weight) (found : Except Fault Outcome → Prop) : Prop where
  same : w = { made with outcome? := w.outcome?, runs := w.runs }
  right : ∀ result, w.outcome? = some result → found result

variable {s : Snapshot} {made w : Weight} {found : Except Fault Outcome → Prop}

theorem ready_self (h : made.outcome? = none) : Ready made made found where
  same := rfl
  right result hresult := by
    rw [h] at hresult
    cases hresult

namespace Ready

variable (h : Ready made w found)
include h

theorem find_eq : w.find = made.find := by
  rw [h.same]
  rfl

theorem snapshot_eq : w.snapshot = made.snapshot := by
  rw [h.same]

theorem value_eq : w.value = made.value := by
  rw [h.same]

/-- **A weight finds what may be found, and keeps it.** -/
theorem settles_outcome (hfind : s.Settles made.find.run found) :
    s.Settles (outcome.run.run w) fun r => found r.1 ∧ Ready made r.2 found := by
  rw [outcome, run_get_bind]
  cases hw : w.outcome? with
  | some result =>
    dsimp only
    rw [run_ofExcept]
    exact .pure ⟨h.right result hw, h⟩
  | none =>
    dsimp only
    rw [run_lift_bind, h.find_eq]
    refine hfind.bind fun result hresult => ?_
    rw [run_set_bind, run_ofExcept]
    refine .pure ⟨hresult, ?_, ?_⟩
    · rw [h.same]
    · intro kept hkept
      rw [eq_of_kept? hkept]
      exact hresult

end Ready

end Weight

/-! ## Scorers -/

/-- The matches that a scorer goes through in its segment. -/
def Scorer.hits (scorer : Scorer) (view : SegmentView) : List Hit :=
  scorer.cursor.visits.map fun doc => ⟨view.base + doc, scorer.score⟩

namespace Weight

variable {s : Snapshot} {made w : Weight} {found : Except Fault Outcome → Prop}

/-- The scorer of a segment for what was found. -/
def scorerOf (view : SegmentView) (value : Single) (outcome : Outcome) : Scorer :=
  match outcome.filter.cursor? view.base view.count with
  | some cursor => ⟨cursor, value⟩
  | none => ⟨.empty, .zero⟩

theorem run_scorer_of_ne {view : SegmentView} (h : view.stamp ≠ w.snapshot.stamp) :
    (scorer view).run.run w = pure (.error (.foreignSegment view.ord), w) := by
  rw [scorer, run_get_bind, if_pos h]
  rfl

/-- **A segment of the snapshot gets its part of what was found.** -/
theorem Ready.settles_scorer (h : Ready made w found) (hfind : s.Settles made.find.run found)
    {view : SegmentView} (hview : view.stamp = made.snapshot.stamp) :
    s.Settles ((scorer view).run.run w) fun r => Ready made r.2 found ∧
      ∃ result, found result ∧ r.1 = result.map (scorerOf view made.value) := by
  rw [scorer, run_get_bind, if_neg (by rw [h.snapshot_eq, hview]; exact fun hne => hne rfl)]
  refine (h.settles_outcome hfind).bindWeight (fun outcome w' hw' => ?_) fun fault w' hw' => ?_
  · obtain ⟨hfound, hready⟩ := hw'
    split
    · rename_i cursor hcursor
      rw [run_get_bind]
      refine .pure ⟨hready, _, hfound, congrArg Except.ok ?_⟩
      rw [scorerOf, hcursor, hready.value_eq]
    · rename_i hcursor
      refine .pure ⟨hready, _, hfound, congrArg Except.ok ?_⟩
      rw [scorerOf, hcursor]
  · exact ⟨hw'.2, _, hw'.1, rfl⟩

theorem cursor_scorerOf (view : SegmentView) (value : Single) (outcome : Outcome) :
    (scorerOf view value outcome).cursor = ⟨outcome.filter.window view.base view.count, none⟩ := by
  rw [scorerOf]
  split
  · rename_i cursor hcursor
    exact DocFilter.eq_of_cursor? hcursor
  · rename_i hcursor
    rw [DocFilter.cursor?_eq_none_iff.1 hcursor]
    rfl

theorem hits_scorerOf {view : SegmentView} (hcount : view.count ≤ noMoreDocs) (value : Single)
    (outcome : Outcome) :
    (scorerOf view value outcome).hits view =
      (outcome.filter.slice view.base (view.base + view.count)).toList.map (⟨·, value⟩) := by
  rw [Scorer.hits, ← DocFilter.map_window, List.map_map, scorerOf]
  have hvisits := outcome.filter.visits_window view.base hcount
  split
  · rename_i cursor hcursor
    rw [DocFilter.eq_of_cursor? hcursor, hvisits]
    rfl
  · rename_i hcursor
    rw [DocFilter.cursor?_eq_none_iff.1 hcursor] at hvisits ⊢
    change (MatchCursor.visits ⟨.empty, none⟩).map _ = _
    rw [hvisits]
    rfl

end Weight

end TermJoin
