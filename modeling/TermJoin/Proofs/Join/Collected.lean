import TermJoin.Join
import TermJoin.Proofs.DocSet.Membership

/-!
# What a join has collected

The documents found so far are spread over small sets and at most one bitmap. Whichever they went into, they
are the members of the set that the join hands out.

* `Collected.Has`: a document was found.
* `Collected.mem_of_bitsFor?`: a bitmap that is added to is the one kept, or a new one.
* **`Collected.has_addSet`**, `Collected.has_flagged`: adding the documents of a term adds them and loses
  none.
* **`Collected.mem_toSet`**: the set handed out has what was found.
-/

namespace TermJoin.Collected

/-- The document stands in the bitmap. -/
def InBits (c : Collected) (d : Nat) : Prop := ∃ bits, c.bits? = some bits ∧ d ∈ bits

/-- The document was found: it stands in the bitmap or in a small set. -/
def Has (c : Collected) (d : Nat) : Prop := c.InBits d ∨ ∃ set ∈ c.small, d ∈ set

variable {c : Collected} {d : Nat}

theorem not_has_empty : ¬ Has {} d := by
  rintro (⟨bits, hbits, _⟩ | ⟨docs, hdocs, _⟩)
  · cases hbits
  · cases hdocs

theorem has_stats (c : Collected) (stats : JoinStatistics) : Has { c with stats } d ↔ c.Has d := Iff.rfl

theorem mem_of_bitsFor? {bits : Bitmap} {docFreq limit : Nat}
    (h : c.bitsFor? docFreq limit = some bits) : d ∈ bits ↔ c.InBits d := by
  rw [bitsFor?] at h
  rw [InBits]
  split at h
  · rename_i kept hkept
    cases h
    rw [hkept]
    simp only [Option.some.injEq, exists_eq_left']
  · rename_i hnone
    split at h
    · cases h
      rw [hnone]
      refine iff_of_false Std.ExtTreeSet.not_mem_empty ?_
      rintro ⟨bits, hbits, _⟩
      cases hbits
    · cases h

theorem bits?_eq_none_of_bitsFor? {docFreq limit : Nat} (h : c.bitsFor? docFreq limit = none) :
    c.bits? = none := by
  rw [bitsFor?] at h
  split at h
  · cases h
  · assumption

/-- A bitmap that takes over from the one kept loses nothing. -/
theorem has_flagged (found : Nat → Prop) {bits : Bitmap} (total : Nat) (stats : JoinStatistics)
    (hbits : ∀ d, d ∈ bits ↔ c.InBits d ∨ found d) :
    Has { c with bits? := some bits, total, stats } d ↔ c.Has d ∨ found d := by
  have hflags : InBits { c with bits? := some bits, total, stats } d ↔ d ∈ bits := by
    simp only [InBits, Option.some.injEq, exists_eq_left']
  rw [Has, hflags, hbits, Has, or_right_comm]

theorem has_append (total : Nat) (stats : JoinStatistics) (set : DocSet) :
    Has { c with small := c.small ++ [set], total, stats } d ↔ c.Has d ∨ d ∈ set := by
  rw [Has, Has]
  change c.InBits d ∨ (∃ kept ∈ c.small ++ [set], d ∈ kept) ↔ _
  rw [or_assoc]
  refine or_congr_right ?_
  simp only [List.mem_append, List.mem_singleton, or_and_right, exists_or, exists_eq_left]

theorem has_addSet (docFreq limit : Nat) (set : DocSet) :
    (c.addSet (c.bitsFor? docFreq limit) set).Has d ↔ c.Has d ∨ d ∈ set := by
  cases hbits : c.bitsFor? docFreq limit with
  | some bits =>
    have hkept : ∀ d, d ∈ bits ↔ c.InBits d := fun d => mem_of_bitsFor? hbits
    exact has_flagged (· ∈ set) _ _ fun d => DocSet.mem_unionInto.trans (or_congr_left (hkept d))
  | none =>
    cases set with
    | bits docs =>
      refine has_flagged (· ∈ DocSet.bits docs) _ _ fun d => ?_
      rw [DocSet.mem_bits]
      refine (or_iff_right ?_).symm
      rintro ⟨bits, hsome, _⟩
      rw [bits?_eq_none_of_bitsFor? hbits] at hsome
      cases hsome
    | sorted docs => exact has_append _ _ _
    | hashed docs => exact has_append _ _ _

/-- **The set handed out has exactly the documents found.** -/
theorem mem_toSet : d ∈ c.toSet ↔ c.Has d := by
  have hfold : ∀ (small : List DocSet) (bits : Bitmap),
      d ∈ small.foldl (fun flags set => set.unionInto flags) bits ↔
        d ∈ bits ∨ ∃ set ∈ small, d ∈ set := by
    intro small
    induction small with
    | nil => exact fun bits => (or_iff_left (by simp)).symm
    | cons set rest ih =>
      intro bits
      rw [List.foldl_cons, ih, DocSet.mem_unionInto, or_assoc]
      simp only [List.mem_cons, or_and_right, exists_or, exists_eq_left]
  rw [toSet, Has, InBits]
  split
  · rename_i bits small hbits
    rw [DocSet.mem_bits, hfold, hbits]
    simp only [Option.some.injEq, exists_eq_left']
  · rename_i hbits hsmall
    rw [hbits, hsmall]
    refine iff_of_false DocSet.not_mem_empty ?_
    simp
  · rename_i set hbits hsmall
    rw [hbits, hsmall]
    simp
  · rename_i hbits _ _
    rw [hbits, DocSet.mem_sorted, Ascending.mem_mergeAll]
    simp [DocSet.mem_toAscending]

end TermJoin.Collected
