import TermJoin.Proofs.Scoring.Explained

/-!
# Shares of a filter

Each segment of a snapshot gets its share of a filter from a cursor. No member of the set gets lost between two
segments, and none is handed out twice.

* `DocFilter.share`: what the cursor over a segment leads to.
* `DocFilter.cursor?_eq_none_iff_forall`, `DocFilter.pairwise_visits`, `DocFilter.mem_visits_iff`: when there
  is a cursor, and what it leads to.
* **`Snapshot.Reachable.filter_shared_out`**: the shares make up the set.
-/

namespace TermJoin

namespace DocFilter

variable {filter : DocFilter} {base count : Nat} {c : MatchCursor}

/-- The accepted documents that the cursor over a segment leads to, by their global ordinals. -/
def share (filter : DocFilter) (view : SegmentView) : List Nat :=
  ((filter.cursor? view.base view.count).elim [] (·.visits)).map (view.base + ·)

theorem cursor?_eq_none_iff_forall :
    filter.cursor? base count = none ↔ ∀ d ∈ filter.toSet, ¬ (base ≤ d ∧ d < base + count) := by
  have hempty : filter.window base count = .empty ↔ (filter.slice base (base + count)).toList = [] := by
    rw [← map_window, List.map_eq_nil_iff]
    refine ⟨fun h => by rw [h]; rfl, fun h => Ascending.eq_empty_of_size_eq_zero ?_⟩
    rw [← Ascending.length_toList, h]
    rfl
  rw [cursor?_eq_none_iff, hempty, List.eq_nil_iff_forall_not_mem]
  refine forall_congr' fun d => ?_
  rw [mem_slice, not_and]

section

variable (hcount : count ≤ noMoreDocs) (h : filter.cursor? base count = some c)
include hcount h

theorem visits_eq_window : c.visits = (filter.window base count).toList := by
  rw [eq_of_cursor? h, visits_window filter base hcount]

theorem pairwise_visits : c.visits.Pairwise (· < ·) := by
  rw [visits_eq_window hcount h]
  exact Ascending.pairwise_toList _

theorem mem_visits_iff {e : Nat} : e ∈ c.visits ↔ e < count ∧ base + e ∈ filter.toSet := by
  rw [visits_eq_window hcount h, mem_window, and_comm]

end

/-- The share of a segment is the part of the set that lies there. -/
theorem share_eq {view : SegmentView} (hcount : view.count ≤ noMoreDocs) :
    filter.share view = (filter.slice view.base (view.base + view.count)).toList := by
  rw [share, ← map_window]
  cases hcursor : filter.cursor? view.base view.count with
  | none => rw [cursor?_eq_none_iff.1 hcursor]; rfl
  | some c => rw [Option.elim_some, visits_eq_window hcount hcursor]

end DocFilter

namespace Snapshot

variable {s : Snapshot} {set : DocSet}

/-- **The segments share a filter out.** Let the members of a set be ordinals of the snapshot, in any encoding,
and let it be cut as a filter holds it or as it is. There is a cursor over a segment exactly if a member lies
there, and it leads to the members there in ascending order, counted from the base. The shares of all segments,
one after the other, are the ascending list of the set, and what the filter accepts are its members. -/
theorem Reachable.filter_shared_out (h : s.Reachable) (hset : ∀ d ∈ set, d < s.maxDoc) {filter : DocFilter}
    (hfilter : filter = .ofSet set ∨ filter = ⟨set⟩) :
    (∀ view ∈ s.segments,
      (filter.cursor? view.base view.count = none ↔
        ∀ d ∈ set, ¬ (view.base ≤ d ∧ d < view.base + view.count)) ∧
      ∀ c, filter.cursor? view.base view.count = some c →
        c.visits.Pairwise (· < ·) ∧ ∀ e, e ∈ c.visits ↔ e < view.count ∧ view.base + e ∈ set) ∧
    s.segments.flatMap filter.share = set.toSortedList ∧
    ∀ d, filter.accepts d = set.contains d := by
  have hmem : ∀ d, d ∈ filter.toSet ↔ d ∈ set := by
    rcases hfilter with rfl | rfl
    · exact fun d => DocFilter.mem_toSet_ofSet
    · exact fun d => Iff.rfl
  refine ⟨fun view hview => ⟨?_, fun c hc => ?_⟩, ?_, fun d => ?_⟩
  · simp only [DocFilter.cursor?_eq_none_iff_forall, hmem]
  · have hcount := h.sound.count_le hview
    refine ⟨DocFilter.pairwise_visits hcount hc, fun e => ?_⟩
    rw [DocFilter.mem_visits_iff hcount hc, hmem]
  · have hshare : ∀ view ∈ s.segments, filter.share view =
        set.toSortedList.filter fun d => view.base ≤ d && d < view.base + view.count := by
      intro view hview
      rw [DocFilter.share_eq (h.sound.count_le hview)]
      refine (Ascending.pairwise_toList _).eq_of_mem_iff (set.pairwise_toSortedList.filter _) fun d => ?_
      rw [DocFilter.mem_slice, hmem, List.mem_filter, DocSet.mem_toSortedList, Bool.and_eq_true,
        decide_eq_true_eq, decide_eq_true_eq]
    rw [List.flatMap_congr hshare]
    exact s.flatMap_filter set.pairwise_toSortedList fun d hd => hset d (DocSet.mem_toSortedList.1 hd)
  · rw [Bool.eq_iff_iff, DocFilter.accepts, DocSet.contains_iff, DocSet.contains_iff, hmem]

/-- A hashed set with the first document of each of two segments: the second one gets its share at its own
ordinal 0. -/
theorem familySnapshot_filter_shared_out :
    let set : DocSet := .hashed (.ofList [2, 0])
    let filter := DocFilter.ofSet set
    familySnapshot.segments.flatMap filter.share = [0, 2] ∧ filter.accepts 1 = false ∧
      ∃ view ∈ familySnapshot.segments, view.base = 2 ∧
        ∃ c, filter.cursor? view.base view.count = some c ∧ 0 ∈ c.visits := by
  intro set filter
  have hreachable : familySnapshot.Reachable := reachable_afterHistory _ _ _ _
  have hmem : ∀ d, d ∈ set ↔ d = 2 ∨ d = 0 := by
    intro d
    rw [DocSet.mem_hashed, Std.HashSet.mem_ofList, List.contains_iff_mem, List.mem_cons, List.mem_singleton]
  have hset : ∀ d ∈ set, d < familySnapshot.maxDoc := by
    have hmax : familySnapshot.maxDoc = 3 := by decide +kernel
    intro d hd
    rcases (hmem d).1 hd with rfl | rfl <;> omega
  have hfilter : filter = .ofSet set ∨ filter = ⟨set⟩ := .inl rfl
  obtain ⟨hcursors, hshares, haccepts⟩ := hreachable.filter_shared_out hset hfilter
  have hplace : (familySnapshot.segmentFor? 2).map (fun view => (view.base, view.count)) = some (2, 1) := by
    decide +kernel
  obtain ⟨view, hfor, hsize⟩ := Option.map_eq_some_iff.1 hplace
  obtain ⟨hbase, hcount⟩ := Prod.mk.inj hsize
  have hview := (hreachable.sound.segmentFor?_eq_some_iff.1 hfor).1
  obtain ⟨hnone, hsome⟩ := hcursors view hview
  refine ⟨?_, ?_, view, hview, hbase, ?_⟩
  · rw [hshares]
    exact DocSet.toSortedList_eq_of_mem_iff (by decide) fun d => by simp [hmem, or_comm]
  · rw [haccepts, ← Bool.not_eq_true, DocSet.contains_iff, hmem]
    decide
  · rw [hbase, hcount] at hnone hsome ⊢
    cases hcursor : filter.cursor? 2 1 with
    | none => exact absurd ⟨by decide, by decide⟩ (hnone.1 hcursor 2 ((hmem 2).2 (.inl rfl)))
    | some c => exact ⟨c, rfl, ((hsome c hcursor).2 0).2 ⟨by decide, (hmem 2).2 (.inl rfl)⟩⟩

end Snapshot

end TermJoin
