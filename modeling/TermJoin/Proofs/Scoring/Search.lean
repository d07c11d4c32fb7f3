import TermJoin.Proofs.Scoring.Weight

/-!
# Matches of a search

A search has what the corpus answers to the query in its final form, with one score for all, wherever the
segments are cut.

* `Snapshot.hitsIn`: the matches of a segment; **`Snapshot.flatten_hitsIn`**: all segments have all matches.
* `Snapshot.Sound.settles_scorers`: the scorers of a weight, for segments in any order.
* `Snapshot.matches?`: the matches of a query, told by the corpus.
* **`Snapshot.Sound.settles_search`**: a search has those.
-/

namespace TermJoin

namespace Snapshot

open Weight (Ready)

variable {s : Snapshot} {α β : Type} {w made : Weight}

/-! ## One segment after the other -/

namespace Settles

variable {f : β → Weighing α} {g : β → α} {Q : Weight → Prop} {l : List β}

theorem mapMWeight {R : β → α → Prop} (hw : Q w)
    (h : ∀ b ∈ l, ∀ w, Q w →
      s.Settles ((f b).run.run w) fun r => (∃ a, r.1 = .ok a ∧ R b a) ∧ Q r.2) :
    s.Settles ((l.mapM f).run.run w) fun r => (∃ as, r.1 = .ok as ∧ List.Forall₂ R l as) ∧ Q r.2 := by
  induction l generalizing w with
  | nil => exact .pure ⟨⟨[], rfl, .nil⟩, hw⟩
  | cons b rest ih =>
    obtain ⟨hb, hrest⟩ := List.forall_mem_cons.1 h
    rw [List.mapM_cons]
    refine (hb w hw).bindWeight (fun a w' ha => ?_) fun fault w' ⟨⟨_, hfault, _⟩, _⟩ => nomatch hfault
    obtain ⟨⟨_, heq, hrel⟩, hw'⟩ := ha
    cases heq
    refine (ih hw' hrest).bindWeight (fun as w'' has => ?_)
      fun fault w'' ⟨⟨_, hfault, _⟩, _⟩ => nomatch hfault
    obtain ⟨⟨_, heq, hrels⟩, hw''⟩ := has
    cases heq
    exact .pure ⟨⟨_, rfl, .cons hrel hrels⟩, hw''⟩

theorem mapMWeight_ok (hw : Q w)
    (h : ∀ b ∈ l, ∀ w, Q w → s.Settles ((f b).run.run w) fun r => r.1 = .ok (g b) ∧ Q r.2) :
    s.Settles ((l.mapM f).run.run w) fun r => r.1 = .ok (l.map g) ∧ Q r.2 := by
  have hall : ∀ b ∈ l, ∀ w, Q w →
      s.Settles ((f b).run.run w) fun r => (∃ a, r.1 = .ok a ∧ g b = a) ∧ Q r.2 :=
    fun b hb w hw => (h b hb w hw).mono fun r hr => ⟨⟨g b, hr.1, rfl⟩, hr.2⟩
  refine (mapMWeight hw hall).mono fun r hr => ?_
  obtain ⟨⟨as, has, hrels⟩, hr⟩ := hr
  have heq : List.Forall₂ (· = ·) (l.map g) as := List.forall₂_map_left_iff.2 hrels
  rw [List.forall₂_eq_eq_eq] at heq
  exact ⟨heq ▸ has, hr⟩

theorem mapMWeight_error {fault : Fault} (hw : Q w) (hl : l ≠ [])
    (h : ∀ b ∈ l, ∀ w, Q w → s.Settles ((f b).run.run w) fun r => r.1 = .error fault ∧ Q r.2) :
    s.Settles ((l.mapM f).run.run w) fun r => r.1 = .error fault ∧ Q r.2 := by
  cases l with
  | nil => exact absurd rfl hl
  | cons b rest =>
    rw [List.mapM_cons]
    refine (h b (.head _) w hw).bindWeight (fun a w' ha => nomatch ha.1) fun fault' w' hfault => ?_
    cases hfault.1
    exact ⟨rfl, hfault.2⟩

theorem withWeight {act : Weighing α} {P : Except Fault α → Prop}
    (h : s.Settles (act.run.run w) fun r => P r.1) : s.Settles (withWeight w act).run P :=
  h.map fun _ hr => hr

end Settles

/-- The matches of a segment among these documents. -/
def hitsIn (value : Single) (docs : List Nat) (view : SegmentView) : List Hit :=
  (docs.filter fun d => view.base ≤ d && d < view.base + view.count).map (⟨·, value⟩)

theorem Sound.settles_scorerHits (hs : s.Sound) (hmade : made.snapshot = s)
    (h : Ready made w (s.Found made.query)) {view : SegmentView} (hview : view ∈ s.segments) :
    s.Settles ((Weight.scorer view).run.run w) fun r =>
      r.1.map (·.hits view) = (s.corpus.answer made.query).map (hitsIn made.value · view) ∧
        Ready made r.2 (s.Found made.query) := by
  have hstamp : view.stamp = made.snapshot.stamp := (stamp_of_mem_segments hview).trans (hmade ▸ rfl)
  refine (h.settles_scorer (hs.settles_find hmade) hstamp).mono fun r hr => ?_
  obtain ⟨hready, result, hfound, hresult⟩ := hr
  refine ⟨?_, hready⟩
  rw [hresult, ← hfound.1]
  cases result with
  | error fault => rfl
  | ok outcome =>
    refine congrArg Except.ok ((Weight.hits_scorerOf (hs.count_le hview) made.value outcome).trans ?_)
    rw [hfound.2 outcome rfl, DocFilter.slice_ofSet]
    rfl

/-- **The matches of a segment are its documents among those that the corpus answers.** -/
theorem Sound.settles_segmentHits (hs : s.Sound) (hmade : made.snapshot = s)
    (h : Ready made w (s.Found made.query)) {view : SegmentView} (hview : view ∈ s.segments) :
    s.Settles ((segmentHits view).run.run w) fun r =>
      r.1 = (s.corpus.answer made.query).map (hitsIn made.value · view) ∧
        Ready made r.2 (s.Found made.query) :=
  (hs.settles_scorerHits hmade h hview).bindWeight (fun _ _ hw' => .pure hw') fun _ _ hw' => hw'

theorem flatMap_filter_layOut {docs : List Nat} (hdocs : docs.Pairwise (· < ·)) (stamp ord base : Nat)
    (segments : List Segment) :
    ((SegmentView.layOut stamp ord base segments).flatMap fun view =>
      docs.filter fun d => view.base ≤ d && d < view.base + view.count) =
        docs.filter fun d => base ≤ d && d < base + (Segment.stored segments).length := by
  induction segments generalizing ord base with
  | nil =>
    refine (List.filter_eq_nil_iff.2 fun d _ hd => ?_).symm
    rw [Bool.and_eq_true, decide_eq_true_eq, decide_eq_true_eq] at hd
    exact Nat.not_lt.2 hd.1 hd.2
  | cons first rest ih =>
    rw [SegmentView.layOut, List.flatMap_cons, ih]
    refine (filter_range_append hdocs (Nat.le_add_right _ _) (Nat.le_add_right _ _)).trans ?_
    rw [Segment.length_stored, Segment.length_stored, List.map_cons, total_cons, Nat.add_assoc]
    rfl

theorem flatMap_filter (s : Snapshot) {docs : List Nat} (hdocs : docs.Pairwise (· < ·))
    (hlt : ∀ d ∈ docs, d < s.maxDoc) :
    (s.segments.flatMap fun view => docs.filter fun d => view.base ≤ d && d < view.base + view.count) = docs := by
  rw [s.segments_eq, flatMap_filter_layOut hdocs]
  refine List.filter_eq_self.2 fun d hd => ?_
  rw [Bool.and_eq_true, decide_eq_true_eq, decide_eq_true_eq, Nat.zero_add]
  exact ⟨Nat.zero_le d, s.maxDoc_eq_length ▸ hlt d hd⟩

/-- **The segments together have all matches**, in ascending order. -/
theorem flatten_hitsIn (s : Snapshot) (value : Single) (p : Nat → Document → Bool) :
    (s.segments.map (hitsIn value (s.corpus.selectBy p))).flatten =
      (s.corpus.selectBy p).map (⟨·, value⟩) := by
  have hlt : ∀ d ∈ s.corpus.selectBy p, d < s.maxDoc := by
    intro d hd
    rw [s.maxDoc_eq_length]
    exact List.mem_range.1 (List.mem_filter.1 hd).1
  rw [← List.flatMap_def, ← congrArg (List.map _) (s.flatMap_filter (s.corpus.pairwise_selectBy p) hlt),
    List.map_flatMap]
  rfl

/-! ## Searches -/

/-- The score of the matches of a query in its final form. -/
def scoreOf (q : Query) : Single := q.boost * (q.boost * q.boost).queryNorm

/-- The matches of a query, told by the corpus. Without documents there is nothing to ask it. -/
def matches? (s : Snapshot) (q : Query) : Except Fault (List Hit) :=
  (s.rewriteFully q).bind fun q =>
    if s.corpus.documents.isEmpty then .ok []
    else (s.corpus.answer q).map fun docs => docs.map (⟨·, scoreOf q⟩)

theorem Sound.isEmpty_documents (hs : s.Sound) : s.corpus.documents.isEmpty = s.segments.isEmpty := by
  have hparts : s.segments.isEmpty = s.parts.isEmpty := List.isEmpty_map.symm
  rw [hparts, Bool.eq_iff_iff, List.isEmpty_iff, List.isEmpty_iff]
  refine ⟨fun hnil => List.eq_nil_iff_forall_not_mem.2 fun segment hmem => ?_, fun hnil => ?_⟩
  · have hdocuments := List.flatMap_eq_nil_iff.1 hnil segment hmem
    have hpos := (hs.parts segment hmem).pos
    rw [Segment.count, ← Array.length_toList, hdocuments] at hpos
    exact Nat.lt_irrefl _ hpos
  · change Segment.stored s.parts = []
    rw [hnil]
    rfl

theorem Sound.settles_matches (hs : s.Sound) (hmade : made.snapshot = s) (hfresh : made.outcome? = none) :
    s.Settles (withWeight made (s.segments.mapM segmentHits)).run fun r =>
      r.map List.flatten = if s.corpus.documents.isEmpty then .ok []
        else (s.corpus.answer made.query).map fun docs => docs.map (⟨·, made.value⟩) := by
  have hready : Ready made made (s.Found made.query) := Weight.ready_self hfresh
  have hsegment : ∀ view ∈ s.segments, ∀ w, Ready made w (s.Found made.query) →
      s.Settles ((segmentHits view).run.run w) fun r =>
        r.1 = (s.corpus.answer made.query).map (hitsIn made.value · view) ∧
          Ready made r.2 (s.Found made.query) :=
    fun view hview w hw => hs.settles_segmentHits hmade hw hview
  rw [hs.isEmpty_documents]
  cases hempty : s.segments with
  | nil => exact .withWeight (.pure rfl)
  | cons first rest =>
    rw [← hempty]
    have hne : s.segments ≠ [] := by
      rw [hempty]
      exact List.cons_ne_nil first rest
    rw [if_neg (by rw [List.isEmpty_iff]; exact hne)]
    cases hanswer : s.corpus.answer made.query with
    | ok docs =>
      rw [hanswer] at hsegment
      refine .withWeight ((Settles.mapMWeight_ok hready hsegment).mono fun r hr => ?_)
      obtain ⟨p, rfl⟩ := Corpus.exists_selectBy_of_answer hanswer
      rw [hr.1]
      exact congrArg Except.ok (s.flatten_hitsIn made.value p)
    | error fault =>
      rw [hanswer] at hsegment
      refine .withWeight ((Settles.mapMWeight_error hready hne hsegment).mono fun r hr => ?_)
      rw [hr.1]
      rfl

/-- **A search has the matches that the corpus tells**, or fails as the corpus does. -/
theorem Sound.settles_search (hs : s.Sound) (q : Query) :
    s.Settles (s.search q).run (· = s.matches? q) := by
  rw [search, matches?, normalizedWeight]
  refine (Settles.ofExcept _).bindExec (fun made hmade => ?_) fun fault hfault => ?_
  · cases hq : s.rewriteFully q with
    | error fault =>
      rw [hq] at hmade
      cases hmade
    | ok q' =>
      rw [hq] at hmade
      cases hmade
      exact (hs.settles_matches rfl rfl).bindExec (fun hits hhits => .ok hhits) fun fault hfault => hfault
  · cases hq : s.rewriteFully q with
    | error fault =>
      rw [hq] at hfault
      cases hfault
      rfl
    | ok q' =>
      rw [hq] at hfault
      cases hfault

end Snapshot

end TermJoin
