import TermJoin.Proofs.DocSet.Encodings
import TermJoin.Proofs.Join.Members
import TermJoin.Proofs.Snapshot.TermDocs

/-!
# Statistics of a run

The counters of a join go up in several places of one loop with two ways out. At any point they fit each other,
and as long as there is no bitmap they also tell the small sets that are kept: how many there are, that they are
sorted, and that together they stay within the limit.

* `HistogramLibrary.Counts.count_histogram`: each size is counted once.
* `JoinStatistics.Consistent`: the counters fit each other. `Collected.Listed`: and the small sets.
* `Collected.Accounted`: what holds at any point of a run; **`Collected.Accounted.addSet`**,
  `Collected.Accounted.countSource`: it is kept by what one term does.
* **`JoinRun.accounted_collected`**: so it holds in the end.
* `JoinStatistics.Describes`: statistics that fit a result; **`Snapshot.Reachable.statistics_describe`**: those
  of every join do.
-/

namespace TermJoin

open Snapshot (Settles)

/-! ## Sizes -/

/-- **A library that counts what it is given counts each size once.** -/
theorem HistogramLibrary.Counts.count_histogram {library : HistogramLibrary} (h : library.Counts)
    (stats : JoinStatistics) : library.count (stats.histogram library) = stats.targetSizes.size := by
  have hfold : ∀ (sizes : List Nat) (histogram : library.Histogram),
      library.count (sizes.foldl (fun histogram size => library.add histogram (Float.ofNat size)) histogram) =
        library.count histogram + sizes.length := by
    intro sizes
    induction sizes with
    | nil => exact fun _ => rfl
    | cons size rest ih =>
      intro histogram
      rw [List.foldl_cons, ih, h.add, List.length_cons, Nat.add_right_comm, Nat.add_assoc]
  rw [JoinStatistics.histogram, ← Array.foldl_toList, hfold, h.new, Array.length_toList, Nat.zero_add]

/-! ## Counters -/

/-- The counters fit each other: terms of the target field are found for terms that lead on, each term of the
source field is read in one way, and each of the target field at most once more. -/
structure JoinStatistics.Consistent (stats : JoinStatistics) : Prop where
  targetTerms_le : stats.targetTerms ≤ stats.sharingTerms
  sharingTerms_le : stats.sharingTerms ≤ stats.sourceTerms
  sourceTerms_le : stats.sourceTerms ≤ stats.directScans + stats.cachedLookups
  reads_le : stats.directScans + stats.cachedLookups ≤ stats.sourceTerms + stats.targetTerms
  size_targetSizes : stats.targetSizes.size = stats.targetTerms

/-- The small sets fit the counters: nothing was read in the target field but through the cache, each set is
that of one term there, and only a first one may be too large. -/
structure Collected.Listed (c : Collected) (limit : Nat) : Prop where
  reads_eq : c.stats.directScans + c.stats.cachedLookups = c.stats.sourceTerms
  length_small : c.small.length = c.stats.targetTerms
  sorted : ∀ set ∈ c.small, set.encoding = .sorted
  total_eq : c.total = TermJoin.total (c.small.map DocSet.size)
  total_le : 2 ≤ c.small.length → c.total ≤ limit

/-- The counters fit what was collected, which is told by the small sets until there is a bitmap. -/
structure Collected.Accounted (c : Collected) (limit : Nat) : Prop where
  consistent : c.stats.Consistent
  listed : c.bits? = none → c.Listed limit

namespace JoinStatistics.Consistent

variable {stats : JoinStatistics} (h : stats.Consistent)
include h

theorem countSource (run : JoinRun) (source : TermCursor) (sharing : Bool) :
    (run.countSource source sharing stats).Consistent := by
  obtain ⟨htarget, hsharing, hsource, hreads, hsizes⟩ := h
  unfold JoinRun.countSource
  by_cases hdirect : source.docFreq < run.minDocFreq <;> cases sharing <;>
    constructor <;> simp [hdirect] <;> omega

theorem countTarget (hroom : stats.targetTerms < stats.sharingTerms) (direct : Bool) (size : Nat) :
    (Collected.countTarget stats direct size).Consistent := by
  obtain ⟨htarget, hsharing, hsource, hreads, hsizes⟩ := h
  unfold Collected.countTarget
  cases direct <;> constructor <;> simp <;> omega

end JoinStatistics.Consistent

/-! ## One term -/

namespace Collected.Accounted

variable {c : Collected} {limit : Nat}

theorem empty (limit : Nat) : Accounted {} limit where
  consistent := by constructor <;> decide
  listed _ := by constructor <;> simp

variable (h : c.Accounted limit)
include h

theorem countSource (run : JoinRun) (source : TermCursor) (sharing : Bool) :
    Accounted { c with stats := run.countSource source sharing c.stats } limit where
  consistent := h.consistent.countSource run source sharing
  listed hnone := by
    have hlisted := h.listed hnone
    refine ⟨?_, hlisted.length_small, hlisted.sorted, hlisted.total_eq, hlisted.total_le⟩
    have hreads := hlisted.reads_eq
    unfold JoinRun.countSource
    by_cases hdirect : source.docFreq < run.minDocFreq <;> simp [hdirect] <;> omega

/-- After a term that leads on, there is room for one that is found. -/
theorem targetTerms_lt (run : JoinRun) (source : TermCursor) :
    (run.countSource source true c.stats).targetTerms <
      (run.countSource source true c.stats).sharingTerms := by
  have hle := h.consistent.targetTerms_le
  unfold JoinRun.countSource
  simp
  omega

theorem flagged (hroom : c.stats.targetTerms < c.stats.sharingTerms) (bits : Bitmap) (total : Nat)
    (direct : Bool) (size : Nat) :
    Accounted { c with bits? := some bits, total, stats := countTarget c.stats direct size } limit where
  consistent := h.consistent.countTarget hroom direct size
  listed hnone := nomatch hnone

/-- **A small set that is kept beside others stays within the limit**: otherwise there were a bitmap. -/
theorem appended (hroom : c.stats.targetTerms < c.stats.sharingTerms) {docFreq : Nat}
    (hnone : c.bitsFor? docFreq limit = none) {set : DocSet} (hsorted : set.encoding = .sorted)
    (hle : set.size ≤ docFreq) :
    Accounted { c with
      small := c.small ++ [set], total := c.total + set.size
      stats := countTarget c.stats false set.size } limit where
  consistent := h.consistent.countTarget hroom false set.size
  listed _ := by
    have hlisted := h.listed (bits?_eq_none_of_bitsFor? hnone)
    have hfits : c.small ≠ [] → docFreq + c.total ≤ limit := by
      intro hne
      rw [bitsFor?, bits?_eq_none_of_bitsFor? hnone] at hnone
      by_contra hover
      simp [hne, Nat.not_le.1 hover] at hnone
    refine ⟨?_, ?_, ?_, ?_, fun htwo => ?_⟩
    · exact hlisted.reads_eq
    · show (c.small ++ [set]).length = c.stats.targetTerms + 1
      rw [List.length_append, List.length_singleton, hlisted.length_small]
    · exact List.forall_mem_append.2 ⟨hlisted.sorted, List.forall_mem_singleton.2 hsorted⟩
    · rw [List.map_append, total_append, ← hlisted.total_eq]
      rfl
    · have hne : c.small ≠ [] := by
        rintro hnil
        simp [hnil] at htwo
      have := hfits hne
      show c.total + set.size ≤ limit
      omega

theorem addSet (hroom : c.stats.targetTerms < c.stats.sharingTerms) {docFreq : Nat} {set : DocSet}
    (hhashed : set.encoding ≠ .hashed) (hle : set.size ≤ docFreq) :
    (c.addSet (c.bitsFor? docFreq limit) set).Accounted limit := by
  cases hbits : c.bitsFor? docFreq limit with
  | some bits => exact h.flagged hroom _ _ _ _
  | none =>
    cases set with
    | sorted docs => exact h.appended hroom hbits rfl hle
    | hashed docs => exact absurd rfl hhashed
    | bits docs => exact h.flagged hroom _ _ _ _

end Collected.Accounted

/-! ## All terms -/

theorem TermCursor.OnTerm.size_termDocs_le {c : TermCursor} {s : Snapshot} {field text : String}
    (h : c.OnTerm s field text) (hs : s.Sound) : (s.termDocs field text).size ≤ c.docFreq := by
  rw [← DocSet.length_toSortedList, hs.toSortedList_termDocs, TermCursor.docFreq_eq, h.unread_eq_docsWith hs]
  exact (List.monotone_filter_right _ fun d => by simp +contextual).length_le

namespace Snapshot

variable {s : Snapshot} {field text : String}

theorem encoding_termDocs_ne : (s.termDocs field text).encoding ≠ .hashed := by
  unfold termDocs encode
  split <;> (rintro ⟨⟩)

end Snapshot

namespace JoinRun

variable {run : JoinRun} {source target : TermCursor} {field text : String}

/-- **A term of the target field keeps the account.** Its live documents are no more than all of them. -/
theorem accounted_absorbed (hs : run.snapshot.Sound) (h : target.OnTerm run.snapshot field text)
    {c : Collected} (hc : c.Accounted run.maxSortedSize)
    (hroom : c.stats.targetTerms < c.stats.sharingTerms) :
    (run.absorbed target c).Accounted run.maxSortedSize := by
  have hadd : (c.addSet (c.bitsFor? target.docFreq run.maxSortedSize) target.liveSet).Accounted
      run.maxSortedSize := by
    rw [h.liveSet_eq]
    exact hc.addSet hroom Snapshot.encoding_termDocs_ne (h.size_termDocs_le hs)
  rw [absorbed]
  split
  · rename_i bits hbits
    rw [hbits] at hadd
    split
    · exact hc.flagged hroom _ _ _ _
    · exact hadd
  · rename_i hbits
    rw [hbits] at hadd
    exact hadd

/-- **A run keeps the account**, wherever it ends. -/
theorem accounted_collected (run : JoinRun) (hs : run.snapshot.Sound) {targetField : String}
    (htarget : run.target.Reads run.snapshot targetField)
    {sources : List TermCursor} (hsources : ∀ source ∈ sources, ∃ t, source.OnTerm run.snapshot field t)
    {c : Collected} (hc : c.Accounted run.maxSortedSize) :
    (run.collected sources c).Accounted run.maxSortedSize := by
  induction sources generalizing c with
  | nil => exact hc
  | cons source rest ih =>
    obtain ⟨⟨t, ht⟩, hrest⟩ := List.forall_mem_cons.1 hsources
    have hcounted := hc.countSource run source (run.shares source)
    rw [collected, ht.term?_eq]
    dsimp only
    cases hsharing : run.shares source with
    | false => exact ih hrest (hsharing ▸ hcounted)
    | true =>
      rw [hsharing] at hcounted
      have hseek := htarget.seek t
      dsimp only
      rw [TermCursor.status]
      cases hterm : (run.target.seek t).term? with
      | none => exact hcounted
      | some u =>
        dsimp only
        by_cases hu : u = t
        · rw [if_pos hu]
          exact ih hrest (accounted_absorbed hs (hseek.onTerm hterm) hcounted (hc.targetTerms_lt run source))
        · rw [if_neg hu]
          exact ih hrest hcounted

end JoinRun

/-! ## The result -/

/-- The statistics fit the set that a join found, and the limit up to which it kept small sets. -/
structure JoinStatistics.Describes (stats : JoinStatistics) (set : DocSet) (limit : Nat) : Prop where
  targetTerms_le : stats.targetTerms ≤ stats.sharingTerms
  sharingTerms_le : stats.sharingTerms ≤ stats.sourceTerms
  sourceTerms_le : stats.sourceTerms ≤ stats.directScans + stats.cachedLookups
  reads_le : stats.directScans + stats.cachedLookups ≤ stats.sourceTerms + stats.targetTerms
  reads_eq : stats.bitmapMode = false → stats.directScans + stats.cachedLookups = stats.sourceTerms
  count_histogram : ∀ library : HistogramLibrary, library.Counts →
    library.count (stats.histogram library) = stats.targetTerms
  resultSize_eq : stats.resultSize = set.toSortedList.length
  encoding_eq : set.encoding = if stats.bitmapMode then .bits else .sorted
  resultSize_le : stats.bitmapMode = false → 2 ≤ stats.targetTerms → stats.resultSize ≤ limit

theorem DocSet.length_flatMap_toList (sets : List DocSet) :
    (sets.flatMap (·.toList)).length = total (sets.map size) := by
  induction sets with
  | nil => rfl
  | cons set rest ih =>
    rw [List.flatMap_cons, List.length_append, ih, length_toList, List.map_cons, total_cons]

namespace Collected

variable {c : Collected} {limit : Nat}

theorem Accounted.encoding_toSet (h : c.Accounted limit) :
    c.toSet.encoding = if c.bits?.isSome then .bits else .sorted := by
  rw [toSet]
  split
  · rename_i bits small hbits
    rw [hbits]
    rfl
  · rename_i hbits hsmall
    rw [hbits]
    rfl
  · rename_i set hbits hsmall
    rw [hbits]
    exact (h.listed hbits).sorted set (hsmall ▸ List.mem_singleton_self set)
  · rename_i hbits _ _
    rw [hbits]
    rfl

theorem Listed.size_toSet_le (h : c.Listed limit) (hnone : c.bits? = none) (htwo : 2 ≤ c.small.length) :
    c.toSet.size ≤ limit := by
  have hmem : ∀ d ∈ c.toSet, d ∈ c.small.flatMap (·.toList) := by
    intro d hd
    rcases mem_toSet.1 hd with ⟨bits, hbits, -⟩ | ⟨set, hset, hd⟩
    · rw [hnone] at hbits
      cases hbits
    · exact List.mem_flatMap.2 ⟨set, hset, DocSet.mem_def.1 hd⟩
  calc c.toSet.size ≤ (c.small.flatMap (·.toList)).length := DocSet.size_le_length hmem
    _ = c.total := (DocSet.length_flatMap_toList _).trans h.total_eq.symm
    _ ≤ limit := h.total_le htwo

/-- **What was accounted for describes the result**, also without the documents deleted since. -/
theorem Accounted.describes (h : c.Accounted limit) (deleted : Bitmap) :
    JoinStatistics.Describes { c.stats with
      bitmapMode := c.bits?.isSome, resultSize := (c.toSet.without deleted).size }
      (c.toSet.without deleted) limit where
  targetTerms_le := h.consistent.targetTerms_le
  sharingTerms_le := h.consistent.sharingTerms_le
  sourceTerms_le := h.consistent.sourceTerms_le
  reads_le := h.consistent.reads_le
  reads_eq hmode := (h.listed (Option.isNone_iff_eq_none.1 (Option.isSome_eq_false_iff.1 hmode))).reads_eq
  count_histogram _ hcounts := (hcounts.count_histogram _).trans h.consistent.size_targetSizes
  resultSize_eq := (DocSet.length_toSortedList _).symm
  encoding_eq := DocSet.encoding_without.trans h.encoding_toSet
  resultSize_le hmode htwo := by
    have hnone := Option.isNone_iff_eq_none.1 (Option.isSome_eq_false_iff.1 hmode)
    have hlisted := h.listed hnone
    refine (DocSet.size_without_le _ _).trans (hlisted.size_toSet_le hnone ?_)
    rw [hlisted.length_small]
    exact htwo

end Collected

namespace Snapshot

variable {s : Snapshot} {source target : String} {selected : DocSet}

theorem Sound.describes_joinedDocs (hs : s.Sound) {set : DocSet} {stats : JoinStatistics}
    (h : s.joinedDocs source target selected = .ok (set, stats)) :
    stats.Describes set (s.config.maxSortedSize s.maxDoc) := by
  have hempty : JoinStatistics.Describes {} .empty (s.config.maxSortedSize s.maxDoc) :=
    (Collected.Accounted.empty _).describes ∅
  obtain ⟨source?, hsource, h⟩ := exists_of_bind_eq_ok h
  obtain ⟨target?, htarget, h⟩ := exists_of_bind_eq_ok h
  split at h
  · obtain ⟨hreads, hnext⟩ := reads_of_fieldCursor? (termCursor?_eq_some_iff.1 hsource).2
    obtain ⟨hreads', -⟩ := reads_of_fieldCursor? (termCursor?_eq_some_iff.1 htarget).2
    obtain ⟨start, cut, p, hstart, hstops, -, -⟩ := exists_sourceStops hreads hnext
    cases h
    have hcollected := JoinRun.accounted_collected ⟨s, selected, s.probeOf selected, _⟩ hs hreads'
      (hstart.onTerm_of_mem_stops (p := p)) (Collected.Accounted.empty _)
    rw [← hstops] at hcollected
    exact hcollected.describes s.deleted
  · cases h
    exact hempty

theorem Sound.settles_joinDocs_describes (hs : s.Sound) (source target : String) (selected : DocSet) :
    s.Settles (s.joinDocs source target selected).run fun result => ∀ set stats, result = .ok (set, stats) →
      stats.Describes set (s.config.maxSortedSize s.maxDoc) := by
  refine (settles_joinDocs s source target selected).mono ?_
  rintro result hresult set stats rfl
  exact hs.describes_joinedDocs hresult.symm

theorem Sound.settles_runJoin_describes (hs : s.Sound) (source target : String) (sub : Query) :
    s.Settles (s.runJoin source target sub).run fun result => ∀ set stats, result = .ok (set, stats) →
      stats.Describes set (s.config.maxSortedSize s.maxDoc) := by
  rw [runJoin]
  refine (hs.settles_docSet sub).bindExec (fun selected _ => hs.settles_joinDocs_describes source target selected)
    fun fault _ set stats hresult => ?_
  cases hresult

/-- **The statistics of every join fit what was found**, of a join of any set and of one of what a query
selects, whatever was asked before. -/
theorem Reachable.statistics_describe (h : s.Reachable) (calls : List Call) (source target : String) :
    (∀ (selected set : DocSet) (stats : JoinStatistics),
      s.resultAfter calls (s.joinDocs source target selected) = .ok (set, stats) →
        stats.Describes set (s.config.maxSortedSize s.maxDoc)) ∧
    ∀ (sub : Query) (set : DocSet) (stats : JoinStatistics),
      s.resultAfter calls (s.runJoin source target sub) = .ok (set, stats) →
        stats.Describes set (s.config.maxSortedSize s.maxDoc) := by
  have hs := h.sound
  constructor
  · exact fun selected => hs.resultAfter_of_settles (hs.settles_joinDocs_describes source target selected) calls
  · exact fun sub => hs.resultAfter_of_settles (hs.settles_runJoin_describes source target sub) calls

/-- A library whose histograms keep the values, the last one first. -/
def valuesKept : HistogramLibrary where
  Histogram := List Float
  new _ _ _ := []
  add values x := x :: values
  count := List.length
  text values := toString values

theorem counts_valuesKept : valuesKept.Counts := ⟨fun _ _ _ => rfl, fun _ _ => rfl⟩

/-- Two terms lead from the first document on, and two documents frequently have one of them. Sets of terms are
small enough to stay sorted. -/
def countedSnapshot : Snapshot :=
  afterHistory ⟨[("a", .text), ("b", .text)]⟩
    { (default : Config) with minDocFreqFloor := 2, smallSetShift := 0 } 0 [
    .add (.ofList [("a", "w"), ("a", "x")]),
    .add (.ofList [("a", "x"), ("a", "y"), ("b", "x")]), .commit,
    .add (.ofList [("b", "w")]), .commit]

/-- All three terms are visited, the frequent one through the cache, and the two that lead on are found. -/
theorem countedSnapshot_statistics_describe :
    ∃ set stats, countedSnapshot.resultAfter [.search .all]
        (countedSnapshot.joinDocs "a" "b" (.bits (.ofList [0]))) = .ok (set, stats) ∧
      stats.Describes set 10 ∧ set.toSortedList = [1, 2] ∧ stats.resultSize = 2 ∧
      stats.sourceTerms = 3 ∧ stats.sharingTerms = 2 ∧ stats.directScans = 2 ∧ stats.cachedLookups = 1 ∧
      stats.targetTerms = 2 ∧ stats.bitmapMode = false ∧
      valuesKept.count (stats.histogram valuesKept) = 2 := by
  have hreachable : countedSnapshot.Reachable := reachable_afterHistory _ _ _ _
  have hlimit : countedSnapshot.config.maxSortedSize countedSnapshot.maxDoc = 10 := by decide +kernel
  have hresult := hreachable.sound.resultAfter_of_settles
    (settles_joinDocs countedSnapshot "a" "b" (.bits (.ofList [0]))) [.search .all]
  have hdescribes := (hreachable.statistics_describe [.search .all] "a" "b").1 (.bits (.ofList [0]))
  rw [hlimit, hresult] at hdescribes
  rw [hresult]
  have hcounters : (countedSnapshot.joinedDocs "a" "b" (.bits (.ofList [0]))).map (fun result =>
      ([result.2.sourceTerms, result.2.sharingTerms, result.2.directScans, result.2.cachedLookups,
        result.2.targetTerms], result.2.bitmapMode)) = .ok ([3, 2, 2, 1, 2], false) := by
    decide +kernel
  have hlive : ∀ e ∈ DocSet.bits (.ofList [0]), countedSnapshot.corpus.isLive e = true := by
    intro e he
    rw [DocSet.mem_bits, Std.ExtTreeSet.mem_ofList, List.contains_iff_mem, List.mem_singleton] at he
    rw [he]
    decide +kernel
  cases hrun : countedSnapshot.joinedDocs "a" "b" (.bits (.ofList [0])) with
  | error fault =>
    rw [hrun] at hcounters
    cases hcounters
  | ok result =>
    obtain ⟨set, stats⟩ := result
    rw [hrun] at hcounters
    have hfits := hdescribes set stats hrun
    simp only [Except.map, Except.ok.injEq, Prod.mk.injEq, List.cons.injEq, and_true] at hcounters
    obtain ⟨⟨hsource, hsharing, hdirect, hcached, htarget⟩, hmode⟩ := hcounters
    have hlist : set.toSortedList = [1, 2] := by
      rw [hreachable.sound.toSortedList_joinedDocs hrun hlive]
      decide +kernel
    refine ⟨set, stats, rfl, hfits, hlist, ?_, hsource, hsharing, hdirect, hcached, htarget, hmode, ?_⟩
    · rw [hfits.resultSize_eq, hlist]
      rfl
    · rw [hfits.count_histogram valuesKept counts_valuesKept, htarget]

end Snapshot

end TermJoin
