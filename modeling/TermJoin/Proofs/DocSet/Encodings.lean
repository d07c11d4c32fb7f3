import Mathlib.Data.Finset.Sort
import TermJoin.Proofs.DocSet.Membership

/-!
# Encodings are interchangeable

A set of documents stands for a finite set of ordinals, and every operation on the former is one on the
latter: which encoding a set has shows only in `DocSet.encoding` and in the cost.

* `DocSet.members`: the finite set. `toList_sorted`: in a sorted set they are kept in ascending order.
* `size_eq_card`, `intersects_comm`, `beq_iff`: questions about members.
* `members_unionInto`, `members_toSorted`, `members_without` and others: the members of what is made of
  a set; `encoding_without`: taking away members keeps the encoding.
* **`encodings_interchangeable`**: all of it at once.
-/

namespace TermJoin.DocSet

variable {set a b : DocSet} {flags : Bitmap} {docs : List Nat} {d : Nat}

/-- The ordinals that the set stands for. -/
def members (set : DocSet) : Finset Nat := set.toList.toFinset

@[simp] theorem mem_members : d ∈ set.members ↔ d ∈ set := by
  rw [members, List.mem_toFinset, mem_def]

theorem members_eq_iff : a.members = b.members ↔ ∀ d, d ∈ a ↔ d ∈ b := by
  simp only [Finset.ext_iff, mem_members]

theorem nodup_toList (set : DocSet) : set.toList.Nodup := by
  cases set with
  | sorted docs => exact docs.pairwise_toList.imp Nat.ne_of_lt
  | hashed docs => exact nodup_toList_hashed docs
  | bits docs => exact docs.pairwise_toList.imp Nat.ne_of_lt

theorem length_toList (set : DocSet) : set.toList.length = set.size := by
  cases set with
  | sorted docs => exact docs.length_toList
  | hashed docs => exact Std.HashSet.length_toList
  | bits docs => exact Std.ExtTreeSet.length_toList

theorem size_eq_card (set : DocSet) : set.size = set.members.card := by
  rw [members, List.toFinset_card_of_nodup set.nodup_toList, length_toList]

theorem toSortedList_eq_sort (set : DocSet) : set.toSortedList = set.members.sort (· ≤ ·) := by
  refine toSortedList_eq_of_mem_iff set.members.sortedLT_sort.pairwise fun d => ?_
  rw [Finset.mem_sort, mem_members]

theorem length_toSortedList (set : DocSet) : set.toSortedList.length = set.size := by
  rw [toSortedList_eq_sort, Finset.length_sort, size_eq_card]

theorem toList_sorted (docs : Ascending) : (sorted docs).toList = (sorted docs).members.sort (· ≤ ·) :=
  toSortedList_eq_sort (sorted docs)

/-! ## Questions -/

theorem contains_eq : a.contains d = decide (d ∈ a.members) := by
  rw [Bool.eq_iff_iff, contains_iff, decide_eq_true_iff, mem_members]

theorem intersects_iff_inter_nonempty : a.intersects b = true ↔ (a.members ∩ b.members).Nonempty := by
  rw [intersects_iff]
  refine exists_congr fun d => ?_
  rw [Finset.mem_inter, mem_members, mem_members]

theorem intersects_comm : a.intersects b = b.intersects a := by
  rw [Bool.eq_iff_iff, intersects_iff_inter_nonempty, intersects_iff_inter_nonempty, Finset.inter_comm]

/-- One set is only walked one way: with as many members as the other and all of them in the other, it
has all of the other's. -/
theorem beq_iff : (a == b) = true ↔ a.members = b.members := by
  have hall : a.toList.all b.contains = true ↔ a.members ⊆ b.members := by
    rw [List.all_eq_true, Finset.subset_iff]
    simp only [contains_iff, mem_members, mem_def]
  change (a.size == b.size && a.toList.all b.contains) = true ↔ a.members = b.members
  rw [Bool.and_eq_true_iff, beq_iff_eq, hall, size_eq_card, size_eq_card]
  constructor
  · rintro ⟨hcard, hsub⟩
    exact Finset.eq_of_subset_of_card_le hsub hcard.ge
  · intro h
    rw [h]
    exact ⟨rfl, Finset.Subset.refl _⟩

/-! ## Sets made of others -/

theorem members_empty : empty.members = ∅ := by
  rw [Finset.eq_empty_iff_forall_notMem]
  intro d hd
  exact not_mem_empty (mem_members.1 hd)

theorem members_ofList (docs : List Nat) : (ofList docs).members = docs.toFinset := by
  ext d
  simp

theorem members_unionInto : (bits (a.unionInto flags)).members = (bits flags).members ∪ a.members := by
  ext d
  simp [mem_unionInto]

theorem members_toSorted : a.toSorted.members = a.members :=
  members_eq_iff.2 fun _ => mem_toAscending

theorem members_toHashed : a.toHashed.members = a.members :=
  members_eq_iff.2 fun _ => mem_toHashed

theorem members_toBits : a.toBits.members = a.members :=
  members_eq_iff.2 fun _ => mem_bits.trans mem_toBitmap

theorem members_without : (a.without flags).members = a.members \ (bits flags).members := by
  ext d
  simp [mem_without]

theorem size_le_length {docs : List Nat} (h : ∀ d ∈ a, d ∈ docs) : a.size ≤ docs.length := by
  rw [size_eq_card]
  exact (Finset.card_le_card fun d hd => List.mem_toFinset.2 (h d (mem_members.1 hd))).trans
    (List.toFinset_card_le docs)

theorem size_without_le (set : DocSet) (removed : Bitmap) : (set.without removed).size ≤ set.size := by
  rw [size_eq_card, size_eq_card, members_without]
  exact Finset.card_le_card Finset.sdiff_subset

theorem encoding_toHashed : a.toHashed.encoding = .hashed := by
  cases a <;> rfl

theorem encoding_without : (a.without flags).encoding = a.encoding := by
  unfold without
  split
  · rfl
  · cases a <;> rfl

/-! ## All operations -/

/-- **The three encodings are interchangeable.** Whatever the encodings of `a` and `b`, the answers to
questions and the members of what is made of the two depend on their members alone; and members are
listed once, in ascending order by a sorted set. -/
theorem encodings_interchangeable (a b : DocSet) (flags : Bitmap) (docs : List Nat)
    (items : Ascending) (d : Nat) :
    (a.toList.Nodup ∧ a.toSortedList = a.members.sort (· ≤ ·) ∧
      (sorted items).toList = (sorted items).members.sort (· ≤ ·)) ∧
    (a.size = a.members.card ∧ a.contains d = decide (d ∈ a.members) ∧
      (a.intersects b = true ↔ ∃ d, d ∈ a.members ∧ d ∈ b.members) ∧
      a.intersects b = b.intersects a ∧
      ((a == b) = true ↔ a.members = b.members)) ∧
    (empty.members = ∅ ∧ (ofList docs).members = docs.toFinset ∧
      (bits (a.unionInto flags)).members = (bits flags).members ∪ a.members) ∧
    (a.toSorted.members = a.members ∧ a.toSorted.encoding = .sorted ∧
      a.toHashed.members = a.members ∧ a.toHashed.encoding = .hashed ∧
      a.toBits.members = a.members ∧ a.toBits.encoding = .bits) ∧
    (a.without flags).members = a.members \ (bits flags).members ∧
    (a.without flags).encoding = a.encoding := by
  refine ⟨⟨a.nodup_toList, a.toSortedList_eq_sort, toList_sorted items⟩,
    ⟨a.size_eq_card, contains_eq, ?_, intersects_comm, beq_iff⟩,
    ⟨members_empty, members_ofList docs, members_unionInto⟩,
    ⟨members_toSorted, rfl, members_toHashed, encoding_toHashed, members_toBits, rfl⟩,
    members_without, encoding_without⟩
  simp only [intersects_iff, mem_members]

end TermJoin.DocSet
