import TermJoin.Proofs.Snapshot.Layout

/-!
# Segments tile the ordinals

Segments that are laid end to end fill a range of ordinals, and if none of them is empty, every ordinal of the
range lies in exactly one.

* `SegmentView.Tiles`: the segments fill a range of ordinals without gap or overlap.
* **`SegmentView.tiles_layOut`**: segments that are laid out do.
* **`SegmentView.Tiles.getLast?_takeWhile`**: the last segment that begins at or before an ordinal is the one
  that has it.
-/

namespace TermJoin

namespace SegmentView

/-- The segments stand end to end from `first` to `stop`, and none of them is empty. -/
def Tiles : Nat → List SegmentView → Nat → Prop
  | first, [], stop => first = stop
  | first, view :: views, stop =>
    view.base = first ∧ 0 < view.count ∧ Tiles (view.base + view.count) views stop

theorem tiles_layOut (stamp ord base : Nat) {segments : List Segment}
    (h : ∀ segment ∈ segments, 0 < segment.count) :
    Tiles base (layOut stamp ord base segments) (base + (Segment.stored segments).length) := by
  induction segments generalizing ord base with
  | nil => simp [layOut, Tiles, Segment.stored]
  | cons segment rest ih =>
    obtain ⟨hpos, hrest⟩ := List.forall_mem_cons.1 h
    have hlength : (Segment.stored (segment :: rest)).length =
        segment.count + (Segment.stored rest).length := by
      simp [Segment.length_stored]
    rw [hlength, ← Nat.add_assoc]
    exact ⟨rfl, hpos, ih (ord + 1) (base + segment.count) hrest⟩

namespace Tiles

variable {first stop d : Nat} {views : List SegmentView} {view : SegmentView}

theorem le (h : Tiles first views stop) : first ≤ stop := by
  induction views generalizing first with
  | nil => exact Nat.le_of_eq h
  | cons view rest ih =>
    obtain ⟨hbase, _, hrest⟩ := h
    have := ih hrest
    omega

theorem le_base (h : Tiles first views stop) (hview : view ∈ views) : first ≤ view.base := by
  induction views generalizing first with
  | nil => cases hview
  | cons head rest ih =>
    obtain ⟨hbase, _, hrest⟩ := h
    rcases List.mem_cons.1 hview with rfl | hview
    · omega
    · have := ih hrest hview
      omega

theorem base_add_count_le (h : Tiles first views stop) (hview : view ∈ views) :
    view.base + view.count ≤ stop := by
  induction views generalizing first with
  | nil => cases hview
  | cons head rest ih =>
    obtain ⟨_, _, hrest⟩ := h
    rcases List.mem_cons.1 hview with rfl | hview
    · exact hrest.le
    · exact ih hrest hview

theorem exists_mem (h : Tiles first views stop) (hfirst : first ≤ d) (hstop : d < stop) :
    ∃ view ∈ views, view.base ≤ d ∧ d < view.base + view.count := by
  induction views generalizing first with
  | nil =>
    have : first = stop := h
    omega
  | cons head rest ih =>
    obtain ⟨hbase, _, hrest⟩ := h
    by_cases hd : d < head.base + head.count
    · exact ⟨head, .head _, by omega, hd⟩
    · obtain ⟨view, hview, hin⟩ := ih hrest (by omega)
      exact ⟨view, .tail _ hview, hin⟩

/-- **The last segment that begins at or before an ordinal is the one that has it.** -/
theorem getLast?_takeWhile (h : Tiles first views stop) (hview : view ∈ views) (hbase : view.base ≤ d)
    (hend : d < view.base + view.count) : (views.takeWhile (·.base ≤ d)).getLast? = some view := by
  induction views generalizing first with
  | nil => cases hview
  | cons head rest ih =>
    have hhead : head.base ≤ d := by
      have := h.1
      have := h.le_base hview
      omega
    obtain ⟨_, _, hrest⟩ := h
    rw [List.takeWhile_cons, if_pos (by simpa using hhead), List.getLast?_cons]
    rcases List.mem_cons.1 hview with rfl | hview
    · -- all later segments begin after the ordinal
      have hnil : rest.takeWhile (·.base ≤ d) = [] := by
        cases rest with
        | nil => rfl
        | cons next rest =>
          have := hrest.1
          rw [List.takeWhile_cons, if_neg (by rw [decide_eq_true_eq]; omega)]
      rw [hnil]
      rfl
    · rw [ih hrest hview, Option.getD_some]

end Tiles

end SegmentView

end TermJoin
