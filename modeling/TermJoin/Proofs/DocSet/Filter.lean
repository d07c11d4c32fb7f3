import TermJoin.Proofs.DocSet.Membership

/-!
# Filters cut a set without loss

The part of a filter that lies in a range has the members of its set there, in ascending order.

* `DocFilter.slice_ofSet`, `DocFilter.map_window`: the part of a range, and the window of a segment counted
  from the start again; `DocFilter.eq_of_cursor?`, `DocFilter.cursor?_eq_none_iff`: the cursor over a window.
* **`MatchCursor.doc_advance_iff`**: a fresh cursor finds a document exactly if it is there;
  `MatchCursor.doc_advance_eq_iff`: what it seems to find.
* **`MatchCursor.enumerates_iff`**: repeated steps lead to all that is ahead; `MatchCursor.visits_eq_rest`: in
  order, until none is left.
* **`filter_range_append`**: the parts of two ranges that meet are the part of both.
-/

namespace TermJoin

theorem DocSet.mem_slice {set : DocSet} {first stop d : Nat} :
    d ∈ (set.slice first stop).toList ↔ d ∈ set ∧ first ≤ d ∧ d < stop := by
  cases set with
  | sorted docs => exact Ascending.mem_slice
  | hashed docs =>
    rw [slice, Ascending.mem_ofDistinct, List.mem_filter, Bool.and_eq_true, decide_eq_true_eq, decide_eq_true_eq,
      mem_def, toList]
  | bits docs =>
    rw [slice, Ascending.toList_ofBitmap, Std.ExtTreeSet.mem_toList, Std.ExtTreeSet.mem_inter_iff,
      Bitmap.mem_range, mem_bits, and_comm]

namespace DocFilter

variable {filter : DocFilter} {set : DocSet} {d : Nat}

theorem mem_slice {first stop : Nat} :
    d ∈ (filter.slice first stop).toList ↔ d ∈ filter.toSet ∧ first ≤ d ∧ d < stop :=
  DocSet.mem_slice

theorem mem_toSet_ofSet : d ∈ (ofSet set).toSet ↔ d ∈ set := by
  cases set with
  | sorted docs => exact Iff.rfl
  | bits docs => exact Iff.rfl
  | hashed docs => exact DocSet.mem_toAscending

theorem slice_ofSet (set : DocSet) (first stop : Nat) :
    ((ofSet set).slice first stop).toList =
      set.toSortedList.filter fun d => first ≤ d && d < stop := by
  refine (Ascending.pairwise_toList _).eq_of_mem_iff (set.pairwise_toSortedList.filter _) fun d => ?_
  rw [mem_slice, mem_toSet_ofSet, List.mem_filter, DocSet.mem_toSortedList, Bool.and_eq_true,
    decide_eq_true_eq, decide_eq_true_eq]

theorem map_window (filter : DocFilter) (base count : Nat) :
    (filter.window base count).toList.map (base + ·) = (filter.slice base (base + count)).toList := by
  rw [window, Ascending.toList_shiftDown, List.map_map]
  refine (List.map_congr_left fun d hd => ?_).trans (List.map_id _)
  exact Nat.add_sub_cancel' (mem_slice.1 hd).2.1

theorem mem_window {base count e : Nat} :
    e ∈ (filter.window base count).toList ↔ base + e ∈ filter.toSet ∧ e < count := by
  have hinjective : e ∈ (filter.window base count).toList ↔
      base + e ∈ (filter.window base count).toList.map (base + ·) := by
    rw [List.mem_map]
    exact ⟨fun he => ⟨e, he, rfl⟩, fun ⟨_, he, heq⟩ => Nat.add_left_cancel heq ▸ he⟩
  rw [hinjective, map_window, mem_slice]
  exact and_congr_right fun _ => by omega

theorem eq_of_cursor? {base count : Nat} {c : MatchCursor} (h : filter.cursor? base count = some c) :
    c = ⟨filter.window base count, none⟩ := by
  rw [cursor?] at h
  split at h
  · cases h
  · exact (Option.some.inj h).symm

theorem cursor?_eq_none_iff {base count : Nat} :
    filter.cursor? base count = none ↔ filter.window base count = .empty := by
  rw [cursor?]
  split
  · rename_i hsize
    exact iff_of_true rfl (Ascending.eq_empty_of_size_eq_zero hsize)
  · rename_i hsize
    refine iff_of_false (Option.some_ne_none _) fun hempty => hsize ?_
    rw [hempty]
    rfl

end DocFilter

theorem MatchCursor.advance_start (docs : Ascending) (target : Nat) :
    (⟨docs, none⟩ : MatchCursor).advance target = ⟨docs, some (partitionPoint docs.items (· < target))⟩ := by
  rw [advance, ahead, current, Option.getD_none, Nat.zero_add, Array.extract_size]

theorem MatchCursor.doc_advance_iff {docs : Ascending} {e : Nat} (he : e < noMoreDocs) :
    ((⟨docs, none⟩ : MatchCursor).advance e).doc = e ↔ e ∈ docs.toList := by
  rw [← Ascending.contains_iff, Ascending.contains, beq_iff_eq, advance_start, doc, Option.bind_some]
  cases docs.items[partitionPoint docs.items (· < e)]? with
  | none =>
    rw [Option.getD_none]
    exact iff_of_false (Nat.ne_of_gt he) (Option.some_ne_none e).symm
  | some d => rw [Option.getD_some, Option.some.injEq]

namespace MatchCursor

/-- Past its last document a cursor stands at `noMoreDocs`, and so a fresh one that is sent there seems to find
it. -/
theorem doc_advance_eq_iff {docs : Ascending} (hdocs : ∀ d ∈ docs.toList, d < noMoreDocs) {e : Nat} :
    ((⟨docs, none⟩ : MatchCursor).advance e).doc = e ↔ e ∈ docs.toList ∨ e = noMoreDocs := by
  rcases Nat.lt_or_ge e noMoreDocs with hlt | hge
  · rw [doc_advance_iff hlt, or_iff_left (Nat.ne_of_lt hlt)]
  · have hpast : docs.items.size ≤ partitionPoint docs.items (· < e) := by
      by_contra hbefore
      have hmem := hdocs _ (Array.mem_toList_iff.2 (Array.getElem_mem (Nat.not_le.1 hbefore)))
      have hlt := lt_partitionPoint_iff (docs.mono_lt e) _ (Nat.not_le.1 hbefore)
      rw [decide_eq_true_iff] at hlt
      exact Nat.lt_irrefl _ (hlt.2 (Nat.lt_of_lt_of_le hmem hge))
    have hnot : e ∉ docs.toList := fun he => Nat.not_le.2 (hdocs e he) hge
    rw [or_iff_right hnot, advance_start, doc, Option.bind_some, Array.getElem?_eq_none hpast, Option.getD_none,
      eq_comm]

/-- Repeated calls of `next` lead to the document. -/
def Enumerates (c : MatchCursor) (d : Nat) : Prop := d ≠ noMoreDocs ∧ ∃ n, (next^[n + 1] c).doc = d

theorem doc_iterate_next (c : MatchCursor) (n : Nat) :
    (next^[n + 1] c).doc = c.rest[n]?.getD noMoreDocs := by
  induction n generalizing c with
  | zero =>
    rw [rest, List.getElem?_drop, Ascending.toList, Array.getElem?_toList]
    rfl
  | succ n ih =>
    have hrest : c.next.rest[n]? = c.rest[n + 1]? := by
      rw [rest, rest, List.getElem?_drop, List.getElem?_drop]
      change c.docs.toList[min (c.following + 1) c.size + n]? = c.docs.toList[c.following + (n + 1)]?
      rcases Nat.le_total (c.following + 1) c.size with hle | hle
      · rw [Nat.min_eq_left hle, Nat.add_right_comm, Nat.add_assoc]
      · have hlength : c.docs.toList.length = c.size := c.docs.length_toList
        rw [List.getElem?_eq_none (by omega), List.getElem?_eq_none (by omega)]
    rw [Function.iterate_succ_apply, ih, hrest]

/-- **A cursor enumerates what it has ahead.** -/
theorem enumerates_iff {c : MatchCursor} (hdocs : ∀ d ∈ c.docs.toList, d < noMoreDocs) {d : Nat} :
    c.Enumerates d ↔ d ∈ c.rest := by
  rw [Enumerates]
  simp only [doc_iterate_next]
  constructor
  · rintro ⟨hne, n, rfl⟩
    cases hget : c.rest[n]? with
    | none =>
      rw [hget] at hne
      exact absurd rfl hne
    | some e => exact List.mem_of_getElem? hget
  · intro hd
    obtain ⟨n, hn⟩ := List.mem_iff_getElem?.1 hd
    refine ⟨Nat.ne_of_lt (hdocs d (List.mem_of_mem_drop hd)), n, ?_⟩
    rw [hn, Option.getD_some]

theorem visits_eq_rest {c : MatchCursor} (hdocs : ∀ d ∈ c.docs.toList, d < noMoreDocs) : c.visits = c.rest := by
  fun_induction visits c with
  | case1 c hend =>
    cases hrest : c.rest with
    | nil => rfl
    | cons d rest =>
      have hd : d = noMoreDocs := by
        rw [← hend, ← Function.iterate_one next, ← Nat.zero_add 1, doc_iterate_next, hrest]
        rfl
      have hmem : d ∈ c.rest := by rw [hrest]; exact .head _
      exact absurd hd (Nat.ne_of_lt (hdocs d (List.mem_of_mem_drop hmem)))
  | case2 c hmore ih =>
    have hlt := following_lt_size hmore
    have hitem : c.next.doc = c.docs.items[c.following] :=
      congrArg (·.getD noMoreDocs) (Array.getElem?_eq_getElem hlt)
    have hrest : c.next.rest = c.docs.toList.drop (c.following + 1) :=
      congrArg c.docs.toList.drop (Nat.min_eq_left hlt)
    have hlength : c.following < c.docs.toList.length := Nat.lt_of_lt_of_eq hlt c.docs.length_toList.symm
    rw [ih hdocs, hitem, hrest, rest, List.drop_eq_getElem_cons hlength]
    rfl

end MatchCursor

theorem DocFilter.visits_window (filter : DocFilter) (base : Nat) {count : Nat} (hcount : count ≤ noMoreDocs) :
    (⟨filter.window base count, none⟩ : MatchCursor).visits = (filter.window base count).toList :=
  MatchCursor.visits_eq_rest fun _ hd => Nat.lt_of_lt_of_le (mem_window.1 hd).2 hcount

theorem filter_range_append {docs : List Nat} (hdocs : docs.Pairwise (· < ·)) {first middle stop : Nat}
    (h : first ≤ middle) (h' : middle ≤ stop) :
    (docs.filter fun d => first ≤ d && d < middle) ++ (docs.filter fun d => middle ≤ d && d < stop) =
      docs.filter fun d => first ≤ d && d < stop := by
  have hascending : ((docs.filter fun d => first ≤ d && d < middle) ++
      docs.filter fun d => middle ≤ d && d < stop).Pairwise (· < ·) := by
    refine List.pairwise_append.2 ⟨hdocs.filter _, hdocs.filter _, fun a ha b hb => ?_⟩
    have := (List.mem_filter.1 ha).2
    have := (List.mem_filter.1 hb).2
    simp only [Bool.and_eq_true, decide_eq_true_eq] at *
    omega
  refine hascending.eq_of_mem_iff (hdocs.filter _) fun d => ?_
  simp only [List.mem_append, List.mem_filter, Bool.and_eq_true, decide_eq_true_eq, ← and_or_left]
  refine and_congr_right fun _ => ?_
  omega

end TermJoin
