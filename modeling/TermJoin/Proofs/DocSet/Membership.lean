import Mathlib.Data.List.Sort
import TermJoin.DocSet.Filter

/-!
# Members of a set of documents

What the operations on sets of documents do to the members, whatever the encoding.

* `d ∈ set`: the ordinal is one of `set.toList`; `mem_sorted`, `mem_hashed`, `mem_bits`.
* **`contains_iff`**, **`intersects_iff`**: questions about members are answered right.
* `mem_unionInto`, `mem_toBitmap`, `mem_toHashed`, `mem_without`: the members of what is made of a set.
-/

namespace TermJoin

namespace Bitmap

theorem mem_insertAll {bits : Bitmap} {docs : List Nat} {d : Nat} :
    d ∈ bits.insertAll docs ↔ d ∈ bits ∨ d ∈ docs := by
  rw [insertAll, Std.ExtTreeSet.mem_insertMany_list, List.contains_iff_mem]

theorem not_contains_iff {bits : Bitmap} {d : Nat} : (!bits.contains d) = true ↔ d ∉ bits := by
  rw [Bool.not_eq_true', ← Bool.not_eq_true, Std.ExtTreeSet.contains_iff_mem]

theorem size_insertAll {bits : Bitmap} {docs : List Nat} (h : docs.Pairwise (· < ·)) :
    (bits.insertAll docs).size = bits.size + (docs.filter (!bits.contains ·)).length := by
  have hsame : bits.insertAll docs = bits.insertAll (docs.filter (!bits.contains ·)) := by
    refine Std.ExtTreeSet.ext_mem fun d => ?_
    rw [mem_insertAll, mem_insertAll, List.mem_filter, not_contains_iff]
    by_cases hd : d ∈ bits <;> simp [hd]
  rw [hsame, insertAll]
  refine Std.ExtTreeSet.size_insertMany_list ((h.filter _).imp fun hlt => ?_) fun d hd => ?_
  · rw [Nat.compare_eq_eq]
    exact Nat.ne_of_lt hlt
  · rw [← Bool.not_eq_true, List.contains_iff_mem, List.mem_filter, not_contains_iff]
    exact fun hnew => hnew.2 hd

end Bitmap

namespace DocSet

instance : Membership Nat DocSet := ⟨fun set d => d ∈ set.toList⟩

variable {set a b : DocSet} {d : Nat}

theorem mem_def : d ∈ set ↔ d ∈ set.toList := Iff.rfl

@[simp] theorem mem_sorted {docs : Ascending} : d ∈ sorted docs ↔ d ∈ docs.toList := Iff.rfl

@[simp] theorem mem_hashed {docs : Std.HashSet Nat} : d ∈ hashed docs ↔ d ∈ docs := by
  rw [mem_def, toList, Std.HashSet.mem_toList]

@[simp] theorem mem_bits {docs : Bitmap} : d ∈ bits docs ↔ d ∈ docs := by
  rw [mem_def, toList, Std.ExtTreeSet.mem_toList]

theorem not_mem_empty : d ∉ empty := by
  rw [empty, mem_sorted, Ascending.toList_empty]
  exact List.not_mem_nil

@[simp] theorem mem_ofList {docs : List Nat} : d ∈ ofList docs ↔ d ∈ docs := by
  rw [ofList, mem_sorted, Ascending.mem_ofList]

theorem contains_iff : set.contains d = true ↔ d ∈ set := by
  cases set with
  | sorted docs => rw [contains, Ascending.contains_iff, mem_sorted]
  | hashed docs => rw [contains, Std.HashSet.contains_iff_mem, mem_hashed]
  | bits docs => rw [contains, Std.ExtTreeSet.contains_iff_mem, mem_bits]

/-- Walking two ascending lists at once finds a shared element exactly if there is one. -/
theorem meet_iff {as bs : List Nat} (has : as.Pairwise (· < ·)) (hbs : bs.Pairwise (· < ·)) :
    meet as bs = true ↔ ∃ d, d ∈ as ∧ d ∈ bs := by
  fun_induction meet as bs with
  | case1 a as b bs hlt ih =>
    -- `a` is before all of `b :: bs`, so it can be shared by none of them
    rw [ih has.of_cons hbs]
    have ha : a ∉ b :: bs := by
      intro h
      rcases List.mem_cons.1 h with rfl | h
      · omega
      · have := List.rel_of_pairwise_cons hbs h
        omega
    refine exists_congr fun d => ⟨fun h => ⟨.tail _ h.1, h.2⟩, fun h => ⟨?_, h.2⟩⟩
    exact (List.mem_cons.1 h.1).resolve_left fun e => ha (e ▸ h.2)
  | case2 a as b bs _ hlt ih =>
    rw [ih has hbs.of_cons]
    have hb : b ∉ a :: as := by
      intro h
      rcases List.mem_cons.1 h with rfl | h
      · omega
      · have := List.rel_of_pairwise_cons has h
        omega
    refine exists_congr fun d => ⟨fun h => ⟨h.1, .tail _ h.2⟩, fun h => ⟨h.1, ?_⟩⟩
    exact (List.mem_cons.1 h.2).resolve_left fun e => hb (e ▸ h.1)
  | case3 a as b bs h1 h2 =>
    have : a = b := by omega
    subst this
    exact ⟨fun _ => ⟨a, .head _, .head _⟩, fun _ => rfl⟩
  | case4 as bs hne =>
    refine ⟨fun h => absurd h (by simp), ?_⟩
    rintro ⟨d, ha, hb⟩
    obtain ⟨a, as, rfl⟩ := List.exists_cons_of_ne_nil (List.ne_nil_of_mem ha)
    obtain ⟨b, bs, rfl⟩ := List.exists_cons_of_ne_nil (List.ne_nil_of_mem hb)
    exact absurd rfl (hne a as b bs rfl)

theorem any_contains_iff : a.toList.any b.contains = true ↔ ∃ d, d ∈ a ∧ d ∈ b := by
  rw [List.any_eq_true]
  exact exists_congr fun d => and_congr Iff.rfl contains_iff

theorem overlaps_iff {flags : Bitmap} : set.overlaps flags = true ↔ ∃ d, d ∈ set ∧ d ∈ flags := by
  rw [overlaps, List.any_eq_true]
  exact exists_congr fun d => and_congr Iff.rfl Std.ExtTreeSet.contains_iff_mem

theorem intersects_iff : a.intersects b = true ↔ ∃ d, d ∈ a ∧ d ∈ b := by
  have walk : (if a.size ≤ b.size then a.toList.any b.contains else b.toList.any a.contains) = true ↔
      ∃ d, d ∈ a ∧ d ∈ b := by
    split
    · exact any_contains_iff
    · rw [any_contains_iff]
      exact exists_congr fun d => and_comm
  cases a with
  | sorted as =>
    cases b with
    | sorted bs => exact meet_iff as.pairwise_toList bs.pairwise_toList
    | hashed bs => exact walk
    | bits bs => exact walk
  | hashed as => exact walk
  | bits as =>
    cases b with
    | sorted bs => exact walk
    | hashed bs => exact walk
    | bits bs =>
      rw [intersects, overlaps_iff]
      simp only [mem_bits]

/-! ## Sets made of others -/

theorem mem_toAscending : d ∈ set.toAscending.toList ↔ d ∈ set := by
  cases set with
  | sorted docs => rfl
  | hashed docs => rw [toAscending, Ascending.mem_ofDistinct, mem_def, toList]
  | bits docs => rw [toAscending, Ascending.toList_ofBitmap, mem_def, toList]

theorem mem_toSortedList : d ∈ set.toSortedList ↔ d ∈ set := mem_toAscending

theorem pairwise_toSortedList (set : DocSet) : set.toSortedList.Pairwise (· < ·) :=
  set.toAscending.pairwise_toList

theorem toSortedList_eq_of_mem_iff {docs : List Nat} (hdocs : docs.Pairwise (· < ·))
    (h : ∀ d, d ∈ set ↔ d ∈ docs) : set.toSortedList = docs :=
  set.pairwise_toSortedList.eq_of_mem_iff hdocs fun d => mem_toSortedList.trans (h d)

theorem mem_unionInto {flags : Bitmap} : d ∈ set.unionInto flags ↔ d ∈ flags ∨ d ∈ set := by
  cases set with
  | sorted docs => exact Bitmap.mem_insertAll
  | hashed docs => exact Bitmap.mem_insertAll
  | bits docs => rw [unionInto, Std.ExtTreeSet.mem_union_iff, mem_bits]

theorem mem_toBitmap : d ∈ set.toBitmap ↔ d ∈ set := by
  have h : d ∈ set.unionInto ∅ ↔ d ∈ set := by
    rw [mem_unionInto]
    exact or_iff_right Std.ExtTreeSet.not_mem_empty
  cases set with
  | sorted docs => exact h
  | hashed docs => exact h
  | bits docs => exact mem_bits.symm

theorem mem_toHashed : d ∈ set.toHashed ↔ d ∈ set := by
  have h : d ∈ hashed (.ofList set.toList) ↔ d ∈ set := by
    rw [mem_hashed, Std.HashSet.mem_ofList, List.contains_iff_mem]
    rfl
  cases set with
  | sorted docs => exact h
  | hashed docs => rfl
  | bits docs => exact h

theorem mem_without {removed : Bitmap} : d ∈ set.without removed ↔ d ∈ set ∧ d ∉ removed := by
  unfold without
  split
  · rename_i hkept
    refine (and_iff_left_of_imp fun hd hremoved => ?_).symm
    rcases Bool.or_eq_true_iff.1 hkept with hempty | hdisjoint
    · rw [Std.ExtTreeSet.isEmpty_iff.1 hempty] at hremoved
      exact Std.ExtTreeSet.not_mem_empty hremoved
    · rw [Bool.not_eq_true', ← Bool.not_eq_true, overlaps_iff] at hdisjoint
      exact hdisjoint ⟨d, hd, hremoved⟩
  · cases set with
    | sorted docs =>
      rw [mem_sorted, Ascending.toList_filter, List.mem_filter, mem_sorted, Bitmap.not_contains_iff]
    | hashed docs =>
      rw [mem_hashed, Std.HashSet.mem_filter, mem_hashed, ← Bitmap.not_contains_iff]
      simp
    | bits docs => rw [mem_bits, Std.ExtTreeSet.mem_diff_iff, mem_bits]

end DocSet

end TermJoin
