import Std.Data.ExtTreeSet
import TermJoin.Sorted

/-!
# Ascending ordinals

Documents are numbered from zero in the order in which they are indexed, below `noMoreDocs`. A small set of
ordinals is an array in strictly ascending order, and a large one a bitmap.

* `total`: the counts of several parts added up.
* `dropRepeats`: what sorting leaves to do; **`pairwise_dropRepeats`**.
* `Ascending.ofBitmap`, `Ascending.ofDistinct`, `Ascending.ofList`: the ordinals of a bitmap, or of a list in
  any order.
* `Ascending.mergeAll`: the ordinals of several arrays, each once; **`mem_mergeAll`**.
* `Ascending.contains`: membership by binary search; **`contains_iff`** says it is sound.
* `Ascending.slice`: the ordinals of a half-open range; **`mem_slice`**.
* `Ascending.filter`, `Ascending.shiftDown`: some of the ordinals, and all counted from another
  base.
-/

namespace TermJoin

/-- Where a cursor stands before its first document and after its last. -/
def noMoreDocs : Nat := 4294967295

/-- All counts together. -/
def total (counts : List Nat) : Nat := counts.foldr (· + ·) 0

@[simp] theorem total_nil : total [] = 0 := rfl

@[simp] theorem total_cons (count : Nat) (counts : List Nat) :
    total (count :: counts) = count + total counts := rfl

@[simp] theorem total_append (first second : List Nat) :
    total (first ++ second) = total first + total second := by
  induction first with
  | nil => exact (Nat.zero_add _).symm
  | cons count counts ih => rw [List.cons_append, total_cons, total_cons, ih, Nat.add_assoc]

/-! ## Bitmaps -/

/-- One flag for each ordinal. The flags that are set are kept in an ordered tree. -/
abbrev Bitmap := Std.ExtTreeSet Nat

namespace Bitmap

/-- The flags of the ordinals from `first` on and before `stop`. -/
def range (first stop : Nat) : Bitmap :=
  Std.ExtTreeSet.ofList (List.range' first (stop - first))

/-- The bitmap with the flags of these ordinals set too. -/
def insertAll (bits : Bitmap) (docs : List Nat) : Bitmap :=
  bits.insertMany docs

theorem mem_range {first stop d : Nat} : d ∈ range first stop ↔ first ≤ d ∧ d < stop := by
  rw [range, Std.ExtTreeSet.mem_ofList, List.contains_iff_mem, List.mem_range'_1]
  omega

theorem pairwise_toList (bits : Bitmap) : bits.toList.Pairwise (· < ·) :=
  bits.ordered_toList.imp fun h => Nat.compare_eq_lt.1 h

end Bitmap

/-! ## Sorting -/

/-- A list without the elements that repeat the one before them. -/
def dropRepeats : List Nat → List Nat
  | a :: b :: rest => if a = b then dropRepeats (b :: rest) else a :: dropRepeats (b :: rest)
  | as => as

theorem mem_dropRepeats {d : Nat} {as : List Nat} : d ∈ dropRepeats as ↔ d ∈ as := by
  fun_induction dropRepeats as with
  | case1 b rest ih => simpa using ih
  | case2 a b rest h ih => rw [List.mem_cons, ih, ← List.mem_cons]
  | case3 => rfl

/-- **In an ascending list repeats stand together**, so none is left. -/
theorem pairwise_dropRepeats {as : List Nat} (h : as.Pairwise (· ≤ ·)) :
    (dropRepeats as).Pairwise (· < ·) := by
  fun_induction dropRepeats as with
  | case1 b rest ih => exact ih h.of_cons
  | case2 a b rest hab ih =>
    refine List.pairwise_cons.2 ⟨fun d hd => ?_, ih h.of_cons⟩
    have hle : a ≤ b := List.rel_of_pairwise_cons h (.head _)
    rcases List.mem_cons.1 (mem_dropRepeats.1 hd) with rfl | hd
    · omega
    · have : b ≤ d := List.rel_of_pairwise_cons h.of_cons hd
      omega
  | case3 as hshort =>
    match as, hshort with
    | [], _ => exact .nil
    | [a], _ => exact List.pairwise_singleton _ a
    | a :: b :: rest, hshort => exact absurd rfl (hshort a b rest)

theorem pairwise_mergeSort_le (docs : List Nat) :
    (docs.mergeSort fun a b => a ≤ b).Pairwise (· ≤ ·) := by
  have h : (docs.mergeSort fun a b => a ≤ b).Pairwise fun a b => decide (a ≤ b) = true :=
    List.pairwise_mergeSort (by simp only [decide_eq_true_eq]; omega) (by simp; omega) docs
  exact h.imp of_decide_eq_true

theorem pairwise_mergeSort_of_nodup {docs : List Nat} (h : docs.Nodup) :
    (docs.mergeSort fun a b => a ≤ b).Pairwise (· < ·) := by
  have hnodup := (List.mergeSort_perm docs fun a b => a ≤ b).nodup_iff.2 h
  exact (pairwise_mergeSort_le docs).imp₂ (fun _ _ => Nat.lt_of_le_of_ne) hnodup

/-- Several lists merged: the least of the elements that stand first comes next. -/
def mergeLists (lists : List (List Nat)) : List Nat :=
  lists.foldr (fun docs merged => docs.merge merged fun a b => a ≤ b) []

theorem mem_mergeLists {d : Nat} {lists : List (List Nat)} :
    d ∈ mergeLists lists ↔ ∃ docs ∈ lists, d ∈ docs := by
  induction lists with
  | nil => simp [mergeLists]
  | cons docs rest ih =>
    rw [mergeLists, List.foldr_cons, List.mem_merge, ← mergeLists, ih]
    simp only [List.mem_cons, or_and_right, exists_or, exists_eq_left]

/-- **Ascending lists merge into an ascending one.** -/
theorem pairwise_mergeLists {lists : List (List Nat)} (h : ∀ docs ∈ lists, docs.Pairwise (· < ·)) :
    (mergeLists lists).Pairwise (· ≤ ·) := by
  induction lists with
  | nil => exact .nil
  | cons docs rest ih =>
    obtain ⟨hdocs, hrest⟩ := List.forall_mem_cons.1 h
    have hle : docs.Pairwise fun a b => decide (a ≤ b) = true :=
      hdocs.imp fun hlt => decide_eq_true (Nat.le_of_lt hlt)
    have hmerged : (mergeLists rest).Pairwise fun a b => decide (a ≤ b) = true :=
      (ih hrest).imp decide_eq_true
    have hmerge := List.pairwise_merge (by simp only [decide_eq_true_eq]; omega) (by simp; omega) docs
      (mergeLists rest) hle hmerged
    exact hmerge.imp of_decide_eq_true

/-- Ordinals in strictly ascending order. -/
structure Ascending where
  items : Array Nat
  ascending : items.toList.Pairwise (· < ·)

namespace Ascending

/-- The ordinals, ascending. -/
def toList (docs : Ascending) : List Nat := docs.items.toList

theorem pairwise_toList (docs : Ascending) : docs.toList.Pairwise (· < ·) := docs.ascending

/-- No ordinal. -/
def empty : Ascending := ⟨#[], .nil⟩

instance : Inhabited Ascending := ⟨empty⟩

/-- The ordinals whose flags are set. -/
def ofBitmap (bits : Bitmap) : Ascending :=
  ⟨bits.toList.toArray, bits.pairwise_toList⟩

/-- The ordinals of a list in any order, none of them twice. -/
def ofDistinct (docs : List Nat) (h : docs.Nodup) : Ascending :=
  ⟨(docs.mergeSort fun a b => a ≤ b).toArray, pairwise_mergeSort_of_nodup h⟩

/-- The ordinals of a list in any order, each once. -/
def ofList (docs : List Nat) : Ascending :=
  ⟨(dropRepeats (docs.mergeSort fun a b => a ≤ b)).toArray, pairwise_dropRepeats (pairwise_mergeSort_le docs)⟩

/-- The ordinals of several ascending arrays, merged as they come, each once. -/
def mergeAll (sets : List Ascending) : Ascending :=
  ⟨(dropRepeats (mergeLists (sets.map (·.toList)))).toArray,
    pairwise_dropRepeats <| pairwise_mergeLists fun docs hdocs => by
      obtain ⟨set, -, rfl⟩ := List.mem_map.1 hdocs
      exact set.pairwise_toList⟩

/-- The number of ordinals. -/
def size (docs : Ascending) : Nat := docs.items.size

@[simp] theorem toList_empty : empty.toList = [] := rfl

@[simp] theorem toList_ofBitmap (bits : Bitmap) : (ofBitmap bits).toList = bits.toList := rfl

theorem mem_ofDistinct {docs : List Nat} (h : docs.Nodup) {d : Nat} :
    d ∈ (ofDistinct docs h).toList ↔ d ∈ docs :=
  List.mem_mergeSort

theorem mem_ofList {docs : List Nat} {d : Nat} : d ∈ (ofList docs).toList ↔ d ∈ docs :=
  mem_dropRepeats.trans List.mem_mergeSort

theorem mem_mergeAll {sets : List Ascending} {d : Nat} :
    d ∈ (mergeAll sets).toList ↔ ∃ set ∈ sets, d ∈ set.toList := by
  refine mem_dropRepeats.trans (mem_mergeLists.trans ?_)
  constructor
  · rintro ⟨_, hdocs, hd⟩
    obtain ⟨set, hset, rfl⟩ := List.mem_map.1 hdocs
    exact ⟨set, hset, hd⟩
  · rintro ⟨set, hset, hd⟩
    exact ⟨_, List.mem_map_of_mem hset, hd⟩

theorem length_toList (docs : Ascending) : docs.toList.length = docs.size := by
  simp [toList, size]

theorem eq_empty_of_size_eq_zero {docs : Ascending} (h : docs.size = 0) : docs = empty := by
  cases docs with
  | mk items ascending =>
    cases Array.eq_empty_of_size_eq_zero h
    rfl

/-! ## Binary search -/

/-- Whether the ordinal is one of these, by binary search. -/
def contains (docs : Ascending) (d : Nat) : Bool :=
  docs.items[partitionPoint docs.items (· < d)]? == some d

theorem mono_lt (docs : Ascending) (d : Nat) :
    docs.items.toList.Pairwise fun a b => decide (b < d) = true → decide (a < d) = true :=
  docs.ascending.imp fun h => by
    simp only [decide_eq_true_eq]
    exact fun hb => Nat.lt_trans h hb

/-- **Binary search finds exactly the ordinals of the array.** -/
theorem contains_iff {docs : Ascending} {d : Nat} :
    docs.contains d = true ↔ d ∈ docs.toList := by
  rw [contains, beq_iff_eq]
  constructor
  · intro h
    exact Array.mem_toList_iff.2 (Array.mem_of_getElem? h)
  · intro h
    obtain ⟨i, hi, rfl⟩ := Array.mem_iff_getElem.1 (Array.mem_toList_iff.1 h)
    have := partitionPoint_eq_of (docs.mono_lt docs.items[i]) i hi (by simp) fun j hj => by
      have := List.pairwise_iff_getElem.1 docs.ascending j i (by simp; omega) (by simpa) hj
      simpa using this
    rw [this, Array.getElem?_eq_getElem hi]

/-! ## Parts -/

/-- The ordinals with a property. -/
def filter (docs : Ascending) (p : Nat → Bool) : Ascending :=
  ⟨docs.items.filter p, by simpa using docs.ascending.filter p⟩

@[simp] theorem toList_filter (docs : Ascending) (p : Nat → Bool) :
    (docs.filter p).toList = docs.toList.filter p := by
  simp [filter, toList]

/-- The ordinals from `first` on and before `stop`, found by two binary searches. -/
def slice (docs : Ascending) (first stop : Nat) : Ascending :=
  ⟨docs.items.extract (partitionPoint docs.items (· < first))
      (partitionPoint docs.items (· < stop)),
    docs.ascending.sublist (by
      rw [Array.toList_extract, List.extract_eq_take_drop]
      exact (List.take_sublist _ _).trans (List.drop_sublist _ _))⟩

/-- **A slice holds the ordinals of its range.** -/
theorem mem_slice {docs : Ascending} {first stop d : Nat} :
    d ∈ (docs.slice first stop).toList ↔ d ∈ docs.toList ∧ first ≤ d ∧ d < stop := by
  rw [toList, slice, Array.mem_toList_iff, Array.mem_extract_iff_getElem, toList,
    Array.mem_toList_iff, Array.mem_iff_getElem]
  constructor
  · rintro ⟨i, hi, rfl⟩
    have hstop := (lt_partitionPoint_iff (docs.mono_lt stop) (partitionPoint docs.items (· < first) + i)
      (by omega)).1 (by omega)
    have hfirst := mt (lt_partitionPoint_iff (docs.mono_lt first)
      (partitionPoint docs.items (· < first) + i) (by omega)).2 (by omega)
    exact ⟨⟨_, _, rfl⟩, by simpa using hfirst, by simpa using hstop⟩
  · rintro ⟨⟨i, hi, rfl⟩, hfirst, hstop⟩
    have h1 := mt (lt_partitionPoint_iff (docs.mono_lt first) i hi).1 (by simpa using hfirst)
    have h2 := (lt_partitionPoint_iff (docs.mono_lt stop) i hi).2 (by simpa using hstop)
    exact ⟨i - partitionPoint docs.items (· < first), by omega, by congr 1; omega⟩

/-- The ordinals counted from another base, which is at or before all of them. -/
def shiftDown (docs : Ascending) (base : Nat) (h : ∀ d ∈ docs.toList, base ≤ d) : Ascending :=
  ⟨docs.items.map (· - base), by
    rw [Array.toList_map, List.pairwise_map]
    exact docs.ascending.imp_of_mem fun ha hb hlt => by
      have := h _ ha
      omega⟩

@[simp] theorem toList_shiftDown (docs : Ascending) (base : Nat)
    (h : ∀ d ∈ docs.toList, base ≤ d) :
    (docs.shiftDown base h).toList = docs.toList.map (· - base) := by
  simp [shiftDown, toList]

end Ascending

end TermJoin
