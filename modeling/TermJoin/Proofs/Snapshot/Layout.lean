import TermJoin.Snapshot.Basic
import TermJoin.Proofs.Segment.Mirror

/-!
# Segments laid end to end

A global ordinal stands for one document of one segment.

* `Segment.stored`: the documents of some segments, in order.
* `Segment.locate?`: the segment that holds a document, with the document's ordinal there;
  **`getElem?_stored`** says that it is the document at this place of the list.
* `Segment.IsMarked`: whether the document with an ordinal is marked as deleted.
* **`SegmentView.exists_mem_layOut_iff`**: going through the segments in their places finds the same
  documents as locating each ordinal.
* `SegmentView.mem_deletedIn_layOut`, `SegmentView.size_deletedIn_layOut`: which ordinals are marked as
  deleted, and how many.
-/

namespace TermJoin

namespace Segment

/-- The documents of all segments, deleted ones included. -/
def stored (segments : List Segment) : List Document :=
  segments.flatMap (·.documents.toList)

/-- The segment that holds a document, with the document's ordinal there. -/
def locate? : List Segment → Nat → Option (Segment × Nat)
  | [], _ => none
  | segment :: rest, d =>
    if d < segment.count then some (segment, d) else locate? rest (d - segment.count)

variable {segments : List Segment} {segment : Segment}

theorem locate?_cons_of_lt {d : Nat} (h : d < segment.count) :
    locate? (segment :: segments) d = some (segment, d) := by
  rw [locate?, if_pos h]

theorem locate?_cons_of_le {d : Nat} (h : segment.count ≤ d) :
    locate? (segment :: segments) d = locate? segments (d - segment.count) := by
  rw [locate?, if_neg (Nat.not_lt.2 h)]

/-- **The located document is the one at this place of the list.** -/
theorem getElem?_stored (segments : List Segment) (d : Nat) :
    (stored segments)[d]? = (locate? segments d).bind fun place => place.1.documents[place.2]? := by
  induction segments generalizing d with
  | nil => rfl
  | cons first rest ih =>
    rw [stored, List.flatMap_cons, ← stored]
    have hlength : first.documents.toList.length = first.count := Array.length_toList
    by_cases h : d < first.count
    · rw [List.getElem?_append_left (hlength ▸ h), locate?_cons_of_lt h, Option.bind_some,
        Array.getElem?_toList]
    · rw [List.getElem?_append_right (by omega), locate?_cons_of_le (Nat.not_lt.1 h), hlength, ← ih]

theorem length_stored (segments : List Segment) :
    (stored segments).length = total (segments.map (·.count)) := by
  rw [stored, List.length_flatMap]
  rfl

theorem isSome_locate? {d : Nat} : (locate? segments d).isSome ↔ d < (stored segments).length := by
  induction segments generalizing d with
  | nil => simp [locate?, stored]
  | cons first rest ih =>
    rw [length_stored, List.map_cons, total_cons]
    by_cases h : d < first.count
    · rw [locate?_cons_of_lt h]
      exact iff_of_true rfl (by omega)
    · rw [locate?_cons_of_le (Nat.not_lt.1 h), ih, length_stored]
      omega

theorem exists_locate? {d : Nat} (h : d < (stored segments).length) :
    ∃ segment e, locate? segments d = some (segment, e) := by
  obtain ⟨⟨segment, e⟩, hplace⟩ := Option.isSome_iff_exists.1 (isSome_locate?.2 h)
  exact ⟨segment, e, hplace⟩

/-- Whether the document with this ordinal is marked as deleted. -/
def IsMarked (segments : List Segment) (d : Nat) : Prop :=
  ∃ segment e, locate? segments d = some (segment, e) ∧ e ∈ segment.deleted

theorem not_isMarked_nil {d : Nat} : ¬ IsMarked [] d := by
  rintro ⟨_, _, h, _⟩
  cases h

theorem isMarked_cons_of_lt {d : Nat} (h : d < segment.count) :
    IsMarked (segment :: segments) d ↔ d ∈ segment.deleted := by
  rw [IsMarked, locate?_cons_of_lt h]
  constructor
  · rintro ⟨_, _, heq, hd⟩
    cases heq
    exact hd
  · exact fun hd => ⟨segment, d, rfl, hd⟩

theorem isMarked_cons_of_le {d : Nat} (h : segment.count ≤ d) :
    IsMarked (segment :: segments) d ↔ IsMarked segments (d - segment.count) := by
  rw [IsMarked, locate?_cons_of_le h, IsMarked]

theorem exists_getElem?_stored {p : Document → Prop} {d : Nat} :
    (∃ doc, (stored segments)[d]? = some doc ∧ p doc) ↔
      ∃ segment e, locate? segments d = some (segment, e) ∧
        ∃ doc, segment.documents[e]? = some doc ∧ p doc := by
  rw [getElem?_stored]
  cases locate? segments d with
  | none => simp
  | some place =>
    obtain ⟨segment, e⟩ := place
    constructor
    · rintro ⟨doc, hdoc, hp⟩
      exact ⟨segment, e, rfl, doc, hdoc, hp⟩
    · rintro ⟨_, _, heq, doc, hdoc, hp⟩
      cases heq
      exact ⟨doc, hdoc, hp⟩

end Segment

namespace SegmentView

variable {stamp ord base : Nat} {segments : List Segment}

theorem countAll_layOut (stamp ord base : Nat) (segments : List Segment) :
    countAll (layOut stamp ord base segments) = (Segment.stored segments).length := by
  rw [countAll, Segment.length_stored, ← map_segment_layOut stamp ord base segments, List.map_map,
    map_segment_layOut]
  rfl

theorem stamp_of_mem_layOut {view : SegmentView} (h : view ∈ layOut stamp ord base segments) :
    view.stamp = stamp := by
  induction segments generalizing ord base with
  | nil => cases h
  | cons first rest ih =>
    rcases List.mem_cons.1 h with rfl | h
    · rfl
    · exact ih h

/-- **A global ordinal is that of a document of some segment in its place exactly if it is located
there.** -/
theorem exists_mem_layOut_iff (stamp ord base : Nat) (segments : List Segment)
    (p : Segment → Nat → Prop) (d : Nat) :
    (∃ view ∈ layOut stamp ord base segments, ∃ e, e < view.count ∧ p view.segment e ∧
      e + view.base = d) ↔
      base ≤ d ∧ ∃ segment e, Segment.locate? segments (d - base) = some (segment, e) ∧
        p segment e := by
  induction segments generalizing ord base with
  | nil => simp [layOut, Segment.locate?]
  | cons first rest ih =>
    simp only [layOut, List.mem_cons, exists_eq_or_imp]
    rw [ih]
    by_cases hlt : d - base < first.count
    · rw [Segment.locate?_cons_of_lt hlt]
      constructor
      · rintro (⟨e, he, hp, rfl⟩ | ⟨hle, _⟩)
        · have hd : e + base - base = e := by omega
          exact ⟨by omega, first, e, by rw [hd], hp⟩
        · omega
      · rintro ⟨hle, segment, e, heq, hp⟩
        cases heq
        exact .inl ⟨d - base, hlt, hp, Nat.sub_add_cancel hle⟩
    · rw [Segment.locate?_cons_of_le (Nat.not_lt.1 hlt), Nat.sub_sub]
      constructor
      · rintro (⟨e, he, _, rfl⟩ | ⟨hle, h⟩)
        · rw [Nat.add_sub_cancel] at hlt
          exact absurd he hlt
        · exact ⟨by omega, h⟩
      · rintro ⟨hle, h⟩
        exact .inr ⟨by omega, h⟩

theorem mem_deletedIn_layOut (hmarks : ∀ segment ∈ segments, ∀ d ∈ segment.deleted, d < segment.count)
    {d : Nat} : d ∈ deletedIn (layOut stamp 0 0 segments) ↔ Segment.IsMarked segments d := by
  rw [deletedIn, Std.ExtTreeSet.mem_ofList, List.contains_iff_mem]
  have h := exists_mem_layOut_iff stamp 0 0 segments (fun segment e => e ∈ segment.deleted) d
  simp only [Nat.zero_le, Nat.sub_zero, true_and] at h
  rw [Segment.IsMarked, ← h]
  simp only [List.mem_flatMap, List.mem_map, Std.ExtTreeSet.mem_toList]
  refine exists_congr fun view => and_congr_right fun hview => exists_congr fun e => ?_
  have hmem : view.segment ∈ segments := by
    rw [← map_segment_layOut stamp 0 0 segments]
    exact List.mem_map_of_mem hview
  exact ⟨fun h => ⟨hmarks _ hmem _ h.1, h⟩, fun h => h.2⟩

theorem size_deletedIn_layOut
    (hmarks : ∀ segment ∈ segments, ∀ d ∈ segment.deleted, d < segment.count) :
    (deletedIn (layOut stamp ord base segments)).size = total (segments.map (·.deleted.size)) := by
  have hascending := pairwise_flatMap_layOut stamp ord base (·.deleted.toList)
    (fun segment _ => segment.deleted.pairwise_toList)
    fun segment hmem d hd => hmarks segment hmem d (Std.ExtTreeSet.mem_toList.1 hd)
  have hlength : ∀ view : SegmentView,
      (view.segment.deleted.toList.map (· + view.base)).length = view.segment.deleted.size := by
    intro view
    rw [List.length_map, Std.ExtTreeSet.length_toList]
  rw [deletedIn, Std.ExtTreeSet.size_ofList (hascending.imp fun h => by
    rw [Nat.compare_eq_eq]
    exact Nat.ne_of_lt h), List.length_flatMap]
  simp only [hlength]
  rw [← map_segment_layOut stamp ord base segments, List.map_map, map_segment_layOut]
  rfl

end SegmentView

end TermJoin
