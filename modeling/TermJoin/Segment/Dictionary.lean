import Std.Data.ExtTreeMap
import TermJoin.Sorted

/-!
# Term dictionaries

The terms of one field in a sealed segment, in ascending order, each with its documents.

* `Dictionary.ofMap`: the dictionary of an ordered map.
* `Dictionary.ceil`: where the terms at or after a text begin, by binary search.
* `Dictionary.docs?`: the documents of a term; **`docs?_ofMap`** says they are those of the map.
-/

namespace TermJoin

/-- The ordinals of the documents that have a term, ascending, counted from the segment's base. -/
abbrev DocList := Array Nat

/-- The terms of a field in ascending order, with their documents. -/
structure Dictionary where
  entries : Array (String × DocList)
  ascending : entries.toList.Pairwise fun s t => s.1 < t.1

namespace Dictionary

/-- The dictionary of an ordered map. -/
def ofMap (terms : Std.ExtTreeMap String DocList) : Dictionary :=
  ⟨terms.toList.toArray, terms.ordered_keys_toList.imp fun h => compareOfLessAndEq_eq_lt.1 h⟩

/-- The number of terms. -/
def size (dict : Dictionary) : Nat := dict.entries.size

/-- The index of the first term at or after the target, the number of terms if there is none. -/
def ceil (dict : Dictionary) (target : String) : Nat :=
  partitionPoint dict.entries fun entry => entry.1 < target

/-- The documents of a term. -/
def docs? (dict : Dictionary) (term : String) : Option DocList :=
  match dict.entries[dict.ceil term]? with
  | some (found, docs) => if found = term then some docs else none
  | none => none

/-! ## Lookup -/

theorem mono_lt (dict : Dictionary) (target : String) :
    dict.entries.toList.Pairwise fun s t =>
      decide (t.1 < target) = true → decide (s.1 < target) = true :=
  dict.ascending.imp fun h => by
    simp only [decide_eq_true_eq]
    exact fun ht => String.lt_trans h ht

/-- An index lies before the ceiling exactly if its term is before the target. -/
theorem lt_ceil_iff {dict : Dictionary} {target : String} {i : Nat} (h : i < dict.entries.size) :
    i < dict.ceil target ↔ dict.entries[i].1 < target := by
  simpa [ceil] using lt_partitionPoint_iff (dict.mono_lt target) i h

/-- A term is found exactly with the documents of its entry. -/
theorem docs?_eq_some_iff {dict : Dictionary} {term : String} {docs : DocList} :
    dict.docs? term = some docs ↔ (term, docs) ∈ dict.entries := by
  rw [docs?]
  constructor
  · intro h
    split at h
    · rename_i found docs' hget
      split at h
      · rename_i hterm
        cases h
        exact hterm ▸ Array.mem_of_getElem? hget
      · cases h
    · cases h
  · intro h
    obtain ⟨i, hi, hget⟩ := Array.mem_iff_getElem.1 h
    have : dict.ceil term = i :=
      partitionPoint_eq_of (dict.mono_lt term) i hi (by simp [hget]) fun j hj => by
        have := List.pairwise_iff_getElem.1 dict.ascending j i (by simp; omega) (by simpa) hj
        simpa [hget] using this
    simp [this, Array.getElem?_eq_getElem hi, hget]

/-- **The dictionary of a map finds what the map holds.** -/
theorem docs?_ofMap (terms : Std.ExtTreeMap String DocList) (term : String) :
    (ofMap terms).docs? term = terms[term]? := by
  ext docs
  rw [docs?_eq_some_iff, ← Std.ExtTreeMap.mem_toList_iff_getElem?_eq_some]
  simp [ofMap]

end Dictionary

end TermJoin
