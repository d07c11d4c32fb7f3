import TermJoin.Proofs.Snapshot.Postings
import TermJoin.Proofs.Snapshot.TermCursor

/-!
# Stops of a term cursor

A cursor that goes through its terms stops on each of them once, in ascending order, with the documents of
the term at hand.

* `TermCursor.OnTerm`: the cursor stands on a term, with its documents in every segment.
* **`OnTerm.mem_unread_iff`**, **`OnTerm.mem_unread_live_iff`**: the documents read there;
  **`OnTerm.unread_eq_docsWith`**: in which order.
* **`TermCursor.Ahead.mem_stopTerms_iff`**: the terms visited, as long as they have a property that no term
  after one without it has; `TermCursor.Ahead.pairwise_stopTerms`.
* `isPrefixOf_of_le`: the terms that start with a stem stand together.
-/

namespace TermJoin

namespace TermCursor

/-- The cursor stands on a term of a field, with the documents of the term at hand. -/
structure OnTerm (c : TermCursor) (s : Snapshot) (field text : String) : Prop where
  snapshot_eq : c.snapshot = s
  field_eq : c.field = field
  term?_eq : c.term? = some text
  entries_eq : c.entries = s.entriesOf field text

variable {c : TermCursor} {s : Snapshot} {field text : String} {cut : String → Prop}

/-- **The documents at hand are those of the current term.** -/
theorem Ahead.onTerm (h : c.Ahead s field cut) (hterm : c.term? = some text) :
    c.OnTerm s field text where
  snapshot_eq := h.snapshot_eq
  field_eq := h.field_eq
  term?_eq := hterm
  entries_eq := by
    rw [entries, hterm, Snapshot.entriesOf_eq, ← h.dictionaries_eq, List.filterMap_map]
    refine List.filterMap_congr fun terms hterms => ?_
    rw [Function.comp_apply, (h.ahead terms hterms).docs?_eq ((h.isLeast hterm).2 terms hterms)]

/-! ## Documents of a term -/

namespace OnTerm

variable (h : c.OnTerm s field text)
include h

theorem unread_eq (liveOnly : Bool) :
    (c.postings liveOnly).unread = s.segments.flatMap fun view =>
      (((view.segment.docs? field text).getD #[]).toList.filter fun d =>
        !(liveOnly && view.segment.deleted.contains d)).map (· + view.base) := by
  rw [Postings.unread, postings, Postings.segments_ofSegments, h.entries_eq, Snapshot.entriesOf]
  induction s.segments with
  | nil => rfl
  | cons view rest ih =>
    rw [List.filterMap_cons, List.flatMap_cons, ← ih]
    cases view.segment.docs? field text with
    | none => rfl
    | some docs => cases liveOnly <;> rfl

theorem mem_unread_iff (hs : s.Sound) {d : Nat} :
    d ∈ (c.postings false).unread ↔ s.corpus.Has d ⟨field, text⟩ := by
  have hviews := s.exists_mem_segments_iff
    (fun segment e => e ∈ s.schema.having segment.documents ⟨field, text⟩) d
  rw [Snapshot.has_corpus_iff, ← hviews, h.unread_eq, List.mem_flatMap]
  refine exists_congr fun view => and_congr_right fun hview => ?_
  have hpostings : ((view.segment.docs? field text).getD #[]).toList.filter
      (fun e => !(false && view.segment.deleted.contains e)) =
        s.schema.having view.segment.documents ⟨field, text⟩ := by
    rw [← Schema.toList_listed, ← hs.docs?_eq hview ⟨field, text⟩]
    exact List.filter_true _
  rw [hpostings, List.mem_map]
  refine exists_congr fun e => ?_
  exact (and_iff_right_of_imp fun he => Schema.lt_size_of_mem_having he.1).symm

theorem unread_live : (c.postings true).unread = s.segments.flatMap (·.liveDocs field text) := by
  rw [h.unread_eq]
  refine List.flatMap_congr fun view _ => ?_
  rw [SegmentView.liveDocs, Segment.liveDocs]
  cases view.segment.docs? field text <;> rfl

theorem mem_unread_live_iff (hs : s.Sound) {d : Nat} :
    d ∈ (c.postings true).unread ↔ s.corpus.isLive d = true ∧ s.corpus.Has d ⟨field, text⟩ := by
  rw [h.unread_live, hs.mem_flatMap_liveDocs_iff]

/-- **The documents are read in ascending order**, deleted ones included or not. -/
theorem unread_eq_docsWith (hs : s.Sound) (liveOnly : Bool) :
    (c.postings liveOnly).unread = s.corpus.docsWith liveOnly ⟨field, text⟩ := by
  have hlisted : ∀ segment ∈ s.parts, ((segment.docs? field text).getD #[]).toList =
      s.schema.having segment.documents ⟨field, text⟩ := by
    intro segment hmem
    rw [(hs.parts segment hmem).docs ⟨field, text⟩, Schema.toList_listed]
  have hascending : (c.postings liveOnly).unread.Pairwise (· < ·) := by
    rw [h.unread_eq, s.segments_eq]
    refine SegmentView.pairwise_flatMap_layOut s.stamp 0 0
      (fun segment => ((segment.docs? field text).getD #[]).toList.filter fun d =>
        !(liveOnly && segment.deleted.contains d)) (fun segment hmem => ?_) fun segment hmem d hd => ?_
    · rw [hlisted segment hmem]
      exact (List.pairwise_lt_range.filter _).filter _
    · rw [hlisted segment hmem] at hd
      exact Schema.lt_size_of_mem_having (List.mem_filter.1 hd).1
  refine hascending.eq_of_mem_iff (Corpus.pairwise_docsWith _ _) fun d => ?_
  rw [Corpus.mem_docsWith]
  cases liveOnly with
  | false => rw [h.mem_unread_iff hs, and_iff_left (by simp)]
  | true => rw [h.mem_unread_live_iff hs, and_comm, forall_prop_of_true rfl]

end OnTerm

/-! ## Terms on the way -/

/-- The terms on which the cursor stops, as long as they have a property. -/
def stopTerms (c : TermCursor) (p : String → Bool) : List String := (c.stops p).filterMap (·.term?)

variable {p : String → Bool}

theorem stopTerms_of_none (h : c.term? = none) : c.stopTerms p = [] := by
  rw [stopTerms, stops]
  split
  · rfl
  · rename_i heq
    cases h.symm.trans heq

theorem stopTerms_of_some (h : c.term? = some text) :
    c.stopTerms p = if p text = true then text :: c.next.stopTerms p else [] := by
  rw [stopTerms, stops]
  split
  · rename_i heq
    cases h.symm.trans heq
  · rename_i heq
    cases h.symm.trans heq
    split
    · rw [List.filterMap_cons_some h, stopTerms]
    · rfl

theorem Ahead.onTerm_of_mem_stops (h : c.Ahead s field cut) :
    ∀ stop ∈ c.stops p, ∃ t, stop.OnTerm s field t := by
  fun_induction stops c p generalizing cut with
  | case1 c hnone => exact fun _ hmem => absurd hmem List.not_mem_nil
  | case2 c t hterm hp ih =>
    exact List.forall_mem_cons.2 ⟨⟨t, h.onTerm hterm⟩, ih (h.next hterm)⟩
  | case3 c t hterm hp => exact fun _ hmem => absurd hmem List.not_mem_nil

/-- **The terms on the way are those of the cut that have the property**, if no term without it comes
before one with it. -/
theorem Ahead.mem_stopTerms_iff (h : c.Ahead s field cut)
    (hp : ∀ t u, cut t → t ≤ u → p u = true → p t = true) :
    text ∈ c.stopTerms p ↔ s.Knows field text ∧ cut text ∧ p text = true := by
  rw [stopTerms]
  fun_induction stops c p generalizing cut with
  | case1 c hnone =>
    refine iff_of_false List.not_mem_nil fun ⟨hknows, hcut, _⟩ => ?_
    exact h.term?_eq_none_iff.1 hnone text hknows hcut
  | case2 c t hterm hpt ih =>
    obtain ⟨⟨hknows, hcut⟩, hleast⟩ := h.term?_eq_some_iff.1 hterm
    have hcut' : ∀ u, t < u → cut u := fun u hlt => h.upward t u hcut (le_of_lt hlt)
    rw [List.filterMap_cons_some hterm, List.mem_cons,
      ih (h.next hterm) fun u v hlt => hp u v (hcut' u hlt)]
    constructor
    · rintro (rfl | ⟨hknows', hlt, hp'⟩)
      · exact ⟨hknows, hcut, hpt⟩
      · exact ⟨hknows', hcut' text hlt, hp'⟩
    · rintro ⟨hknows', hcut'', hp'⟩
      rcases eq_or_lt_of_le (hleast text hknows' hcut'') with rfl | hlt
      · exact .inl rfl
      · exact .inr ⟨hknows', hlt, hp'⟩
  | case3 c t hterm hpt =>
    obtain ⟨⟨_, hcut⟩, hleast⟩ := h.term?_eq_some_iff.1 hterm
    refine iff_of_false List.not_mem_nil fun ⟨hknows', hcut', hp'⟩ => hpt ?_
    exact hp t text hcut (hleast text hknows' hcut') hp'

theorem Ahead.pairwise_stopTerms (h : c.Ahead s field cut) : (c.stopTerms p).Pairwise (· < ·) := by
  have hlater : ∀ {c : TermCursor} {cut}, c.Ahead s field cut → ∀ t ∈ c.stopTerms p, cut t := by
    intro c cut h t
    rw [stopTerms]
    fun_induction stops c p generalizing cut with
    | case1 c hnone => exact fun hmem => absurd hmem List.not_mem_nil
    | case2 c u hterm hp ih =>
      rw [List.filterMap_cons_some hterm, List.mem_cons]
      rintro (rfl | hmem)
      · exact (h.term?_eq_some_iff.1 hterm).1.2
      · exact h.upward u t (h.term?_eq_some_iff.1 hterm).1.2 (le_of_lt (ih (h.next hterm) hmem))
    | case3 c u hterm hp => exact fun hmem => absurd hmem List.not_mem_nil
  rw [stopTerms]
  fun_induction stops c p generalizing cut with
  | case1 c hnone => exact .nil
  | case2 c t hterm hp ih =>
    rw [List.filterMap_cons_some hterm]
    exact .cons (hlater (h.next hterm)) (ih (h.next hterm))
  | case3 c t hterm hp => exact .nil

end TermCursor

/-! ## Stems -/

theorem prefix_of_not_lt {stem a b : List Char} (hstem : ¬ a < stem) (hab : ¬ b < a) (hb : stem <+: b) :
    stem <+: a := by
  induction stem generalizing a b with
  | nil => exact List.nil_prefix
  | cons c stem ih =>
    obtain ⟨rest, rfl⟩ := hb
    cases a with
    | nil => exact absurd (List.nil_lt_cons c stem) hstem
    | cons d a =>
      rw [List.cons_append, List.cons_lt_cons_iff, not_or] at hab
      rw [List.cons_lt_cons_iff, not_or] at hstem
      obtain rfl : c = d := le_antisymm (not_lt.1 hstem.1) (not_lt.1 hab.1)
      rw [List.cons_prefix_cons]
      exact ⟨rfl, ih (fun h => hstem.2 ⟨rfl, h⟩) (fun h => hab.2 ⟨rfl, h⟩) (List.prefix_append stem rest)⟩

theorem isPrefixOf_of_le {stem t u : String} (hstem : stem ≤ t) (htu : t ≤ u)
    (hu : stem.toList.isPrefixOf u.toList = true) : stem.toList.isPrefixOf t.toList = true := by
  rw [List.isPrefixOf_iff_prefix] at hu ⊢
  exact prefix_of_not_lt hstem htu hu

theorem le_of_isPrefixOf {stem t : String} (h : stem.toList.isPrefixOf t.toList = true) : stem ≤ t :=
  List.IsPrefix.le (List.isPrefixOf_iff_prefix.1 h)

end TermJoin
