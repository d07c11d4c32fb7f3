import TermJoin.Proofs.Join.Collected
import TermJoin.Proofs.Schema.FullTerms
import TermJoin.Proofs.Snapshot.Caches

/-!
# Runs of a join

A join goes through the terms of the source field. What it comes to does not depend on what is remembered, and so
a run is first told without caches. Whatever way the documents of a term are read, and in whatever form those
found are kept, it finds exactly the documents that share a term.

* `JoinRun.shares`, `JoinRun.absorbed`, `JoinRun.collected`: a run with nothing remembered.
* **`JoinRun.settles_collect`**, **`Snapshot.settles_joinDocs`**: a run with caches comes to the same.
* `JoinRun.Leads`: a selected document has the current term of the source field.
* **`JoinRun.shares_iff`**, **`JoinRun.has_absorbed`**: what one term does, on either side.
* **`JoinRun.has_collected`**: what all terms do, by induction on those still to come; past the last term
  of the target field nothing is left to find.
* **`Snapshot.Sound.mem_joinedDocs`**: the members of a join.
-/

namespace TermJoin

open Snapshot (Settles)

/-! ## With nothing remembered -/

namespace JoinRun

/-- Whether a selected document has the current term of the source field. -/
def shares (run : JoinRun) (source : TermCursor) : Bool :=
  if source.docFreq < run.minDocFreq then run.scanShares source
  else run.selected.intersects source.liveSet

/-- The collected documents with the live ones of a term of the target field. -/
def absorbed (run : JoinRun) (target : TermCursor) (c : Collected) : Collected :=
  match c.bitsFor? target.docFreq run.maxSortedSize with
  | some bits =>
    if target.docFreq < run.minDocFreq then c.addScan bits target
    else c.addSet (some bits) target.liveSet
  | none => c.addSet none target.liveSet

/-- What is collected from the terms of the source field. -/
def collected (run : JoinRun) : List TermCursor → Collected → Collected
  | [], c => c
  | source :: rest, c =>
    let sharing := run.shares source
    let c := { c with stats := run.countSource source sharing c.stats }
    match sharing, source.term? with
    | true, some term =>
      let target := run.target.seek term
      match target.status term with
      | .exhausted => c
      | .notFound => run.collected rest c
      | .found => run.collected rest (run.absorbed target c)
    | _, _ => run.collected rest c

variable {run : JoinRun} {source target : TermCursor} {field text : String}

theorem settles_sharesTerm (h : source.snapshot = run.snapshot) :
    run.snapshot.Settles (run.sharesTerm source) (· = run.shares source) := by
  rw [sharesTerm, shares]
  split
  · exact .pure rfl
  · refine (TermCursor.settles_docSet h).bind fun set hset => .pure ?_
    rw [hset]

theorem settles_absorb (h : target.snapshot = run.snapshot) (c : Collected) :
    run.snapshot.Settles (c.absorb run target) (· = run.absorbed target c) := by
  have hset := TermCursor.settles_docSet h
  rw [Collected.absorb, absorbed]
  cases c.bitsFor? target.docFreq run.maxSortedSize with
  | none => exact hset.bind fun set heq => .pure (by rw [heq])
  | some bits =>
    dsimp only
    split
    · exact .pure rfl
    · exact hset.bind fun set heq => .pure (by rw [heq])

/-- **A run comes to the same from the caches and without them.** -/
theorem settles_collect (run : JoinRun) (htarget : ∀ term, (run.target.seek term).snapshot = run.snapshot)
    {sources : List TermCursor} (hsources : ∀ source ∈ sources, source.snapshot = run.snapshot)
    (c : Collected) : run.snapshot.Settles (run.collect sources c) (· = run.collected sources c) := by
  induction sources generalizing c with
  | nil => exact .pure rfl
  | cons source rest ih =>
    obtain ⟨hsource, hrest⟩ := List.forall_mem_cons.1 hsources
    rw [collect, collected]
    refine (settles_sharesTerm hsource).bind fun sharing hsharing => ?_
    rw [hsharing]
    cases run.shares source with
    | false => exact ih hrest _
    | true =>
      cases source.term? with
      | none => exact ih hrest _
      | some term =>
        dsimp only
        cases (run.target.seek term).status term with
        | exhausted => exact .pure rfl
        | notFound => exact ih hrest _
        | found =>
          refine (settles_absorb (htarget term) _).bind fun c' hc' => ?_
          rw [hc']
          exact ih hrest _

/-! ## One term -/

/-- A selected document has the term on which the source cursor stands. For a frequent term only the live
documents count. -/
def Leads (run : JoinRun) (source : TermCursor) (term : Term) : Prop :=
  ∃ d ∈ run.selected, run.snapshot.corpus.Has d term ∧
    (run.minDocFreq ≤ source.docFreq → run.snapshot.corpus.isLive d = true)

theorem leads_iff {run : JoinRun} {source : TermCursor} {term : Term}
    (h : ∀ d ∈ run.selected, run.snapshot.corpus.isLive d = true) :
    run.Leads source term ↔ ∃ d ∈ run.selected, run.snapshot.corpus.Has d term :=
  exists_congr fun _ => and_congr_right fun hd => and_iff_left fun _ => h _ hd

theorem shares_iff (hs : run.snapshot.Sound) (hprobe : ∀ d, d ∈ run.probe ↔ d ∈ run.selected)
    (h : source.OnTerm run.snapshot field text) :
    run.shares source = true ↔ run.Leads source ⟨field, text⟩ := by
  rw [shares]
  split
  · rename_i hrare
    rw [scanShares, TermCursor.scan, Postings.scan_eq, Postings.visit_refuse, Bool.not_not, List.any_eq_true]
    refine exists_congr fun d => ?_
    rw [h.mem_unread_iff hs, DocSet.contains_iff, hprobe, and_comm,
      and_iff_left (fun hle => absurd hrare (Nat.not_lt.2 hle))]
  · rename_i hfrequent
    rw [h.liveSet_eq, DocSet.intersects_iff]
    refine exists_congr fun d => and_congr_right fun _ => ?_
    rw [hs.mem_termDocs_iff, and_comm, forall_prop_of_true (Nat.not_lt.1 hfrequent)]

theorem has_absorbed (hs : run.snapshot.Sound) (h : target.OnTerm run.snapshot field text)
    (c : Collected) (d : Nat) :
    (run.absorbed target c).Has d ↔
      c.Has d ∨ run.snapshot.corpus.isLive d = true ∧ run.snapshot.corpus.Has d ⟨field, text⟩ := by
  have hadd : (c.addSet (c.bitsFor? target.docFreq run.maxSortedSize) target.liveSet).Has d ↔ c.Has d ∨
      run.snapshot.corpus.isLive d = true ∧ run.snapshot.corpus.Has d ⟨field, text⟩ := by
    rw [Collected.has_addSet, h.liveSet_eq, hs.mem_termDocs_iff]
  rw [absorbed]
  split
  · rename_i bits hbits
    rw [hbits] at hadd
    split
    · refine Collected.has_flagged (fun d => run.snapshot.corpus.isLive d = true ∧
        run.snapshot.corpus.Has d ⟨field, text⟩) _ _ fun d => ?_
      rw [TermCursor.scan, Postings.scan_eq, Postings.visit_insert, Collected.mem_of_bitsFor? hbits,
        h.mem_unread_live_iff hs]
    · exact hadd
  · rename_i hbits
    rw [hbits] at hadd
    exact hadd

/-! ## All terms -/

/-- A term on the way leads from a selected document to this one. -/
def Finds (run : JoinRun) (field targetField : String) (sources : List TermCursor) (d : Nat) : Prop :=
  ∃ source ∈ sources, ∃ text, source.term? = some text ∧ run.Leads source ⟨field, text⟩ ∧
    run.snapshot.corpus.isLive d = true ∧ run.snapshot.corpus.Has d ⟨targetField, text⟩

theorem finds_cons {targetField : String} {rest : List TermCursor} {d : Nat}
    (h : source.OnTerm run.snapshot field text) :
    run.Finds field targetField (source :: rest) d ↔
      (run.Leads source ⟨field, text⟩ ∧
        run.snapshot.corpus.isLive d = true ∧ run.snapshot.corpus.Has d ⟨targetField, text⟩) ∨
        run.Finds field targetField rest d := by
  simp only [Finds, List.mem_cons, or_and_right, exists_or, exists_eq_left, h.term?_eq, Option.some.injEq,
    exists_eq_left']

/-- Past the last term of the target field, nothing is left to find. -/
theorem not_finds_of_past (hs : run.snapshot.Sound) {targetField : String}
    (hpast : ∀ u, run.snapshot.Knows targetField u → ¬ text ≤ u) {sources : List TermCursor}
    (hsources : ∀ u ∈ sources.filterMap (·.term?), text ≤ u) (d : Nat) :
    ¬ run.Finds field targetField sources d := by
  rintro ⟨source, hsource, u, hu, _, _, hd⟩
  exact hpast u (hs.knows_iff.2 ⟨d, hd⟩) (hsources u (List.mem_filterMap.2 ⟨source, hsource, hu⟩))

/-- **A run adds the documents that share a term, and no others.** -/
theorem has_collected (run : JoinRun) (hs : run.snapshot.Sound)
    (hprobe : ∀ d, d ∈ run.probe ↔ d ∈ run.selected) {targetField : String}
    (htarget : run.target.Reads run.snapshot targetField)
    {sources : List TermCursor} (hsources : ∀ source ∈ sources, ∃ t, source.OnTerm run.snapshot field t)
    (hascending : (sources.filterMap (·.term?)).Pairwise (· < ·)) (c : Collected) (d : Nat) :
    (run.collected sources c).Has d ↔ c.Has d ∨ run.Finds field targetField sources d := by
  induction sources generalizing c with
  | nil =>
    refine (or_iff_left ?_).symm
    rintro ⟨source, hmem, _⟩
    cases hmem
  | cons source rest ih =>
    obtain ⟨⟨t, ht⟩, hrest⟩ := List.forall_mem_cons.1 hsources
    rw [List.filterMap_cons_some ht.term?_eq, List.pairwise_cons] at hascending
    obtain ⟨hlater, hascending⟩ := hascending
    have hleads := shares_iff hs hprobe ht
    rw [collected, ht.term?_eq]
    dsimp only
    cases hsharing : run.shares source with
    | false =>
      -- the term does not lead on
      have hnot := hleads.not.1 (hsharing ▸ Bool.false_ne_true)
      rw [ih hrest hascending, Collected.has_stats, finds_cons ht]
      exact or_congr_right (or_iff_right fun h => hnot h.1).symm
    | true =>
      have hseek := htarget.seek t
      dsimp only
      rw [TermCursor.status]
      cases hterm : (run.target.seek t).term? with
      | none =>
        have hpast := hseek.term?_eq_none_iff.1 hterm
        refine (or_iff_left (not_finds_of_past hs hpast ?_ d)).symm
        rw [List.filterMap_cons_some ht.term?_eq, List.forall_mem_cons]
        exact ⟨le_refl t, fun u hu => le_of_lt (hlater u hu)⟩
      | some u =>
        dsimp only
        by_cases hu : u = t
        · cases hu
          rw [if_pos rfl]
          dsimp only
          rw [ih hrest hascending, has_absorbed hs (hseek.onTerm hterm), Collected.has_stats, finds_cons ht,
            and_iff_right (hleads.1 hsharing), or_assoc]
        · -- the target field has another term where this one would stand
          rw [if_neg hu]
          dsimp only
          rw [ih hrest hascending, Collected.has_stats, finds_cons ht]
          refine or_congr_right (or_iff_right ?_).symm
          rintro ⟨_, _, hd⟩
          obtain ⟨⟨_, hle⟩, hleast⟩ := hseek.term?_eq_some_iff.1 hterm
          exact hu (le_antisymm (hleast t (hs.knows_iff.2 ⟨d, hd⟩) (le_refl t)) hle)

end JoinRun

/-! ## The members of a join -/

namespace Snapshot

variable {s : Snapshot} {source target : String} {selected : DocSet}

theorem mem_probeOf {d : Nat} : d ∈ s.probeOf selected ↔ d ∈ selected := by
  cases selected with
  | sorted docs =>
    rw [probeOf]
    split
    · exact DocSet.mem_toHashed
    · exact Iff.rfl
  | hashed docs => exact Iff.rfl
  | bits docs => exact Iff.rfl

theorem exists_sourceStops {c : TermCursor} (h : c.Reads s source)
    (hnext : c.next.Ahead s source fun _ => True) :
    ∃ (start : TermCursor) (cut : String → Prop) (p : String → Bool), start.Ahead s source cut ∧
      s.sourceStops c = start.stops p ∧ (∀ t u, cut t → t ≤ u → p u = true → p t = true) ∧
        ∀ t, cut t ∧ p t = true ↔ s.schema.isFull source t = true := by
  rw [sourceStops, h.field_eq]
  simp only [Schema.isFull_iff]
  split
  · rename_i stem hstem
    refine ⟨_, _, _, h.seek stem, rfl, fun t u => isPrefixOf_of_le, fun t => ?_⟩
    rw [hstem]
    simp only [Option.some.injEq, forall_eq']
    exact and_iff_right_of_imp le_of_isPrefixOf
  · rename_i hnone
    refine ⟨_, _, _, hnext, rfl, fun _ _ _ _ _ => rfl, fun t => ?_⟩
    rw [hnone]
    exact iff_of_true ⟨trivial, rfl⟩ fun stem h => nomatch h

/-- What a run along two cursors comes to. -/
def joinedAlong (s : Snapshot) (selected : DocSet) (source target : TermCursor) : DocSet × JoinStatistics :=
  let run : JoinRun := { snapshot := s, selected, probe := s.probeOf selected, target }
  let c := run.collected (s.sourceStops source) {}
  let set := c.toSet.without s.deleted
  (set, { c.stats with bitmapMode := c.bits?.isSome, resultSize := set.size })

/-- What a join comes to. -/
def joinedDocs (s : Snapshot) (source target : String) (selected : DocSet) :
    Except Fault (DocSet × JoinStatistics) := do
  let threshold := s.config.minDocFreq s.maxDoc
  let source? ← s.termCursor? source threshold
  let target? ← s.termCursor? target threshold
  match source?, target? with
  | some source, some target => return s.joinedAlong selected source target
  | _, _ => return (.empty, {})

theorem settles_joinAlong {sourceTerms targetTerms : TermCursor} (hsource : sourceTerms.Reads s source)
    (hnext : sourceTerms.next.Ahead s source fun _ => True) (htarget : targetTerms.Reads s target) :
    s.Settles (s.joinAlong selected sourceTerms targetTerms)
      (· = s.joinedAlong selected sourceTerms targetTerms) := by
  obtain ⟨start, cut, p, hstart, hstops, -, -⟩ := exists_sourceStops hsource hnext
  have hsources : ∀ stop ∈ s.sourceStops sourceTerms, stop.snapshot = s := by
    rw [hstops]
    intro stop hstop
    obtain ⟨t, ht⟩ := hstart.onTerm_of_mem_stops stop hstop
    exact ht.snapshot_eq
  have hcollect := JoinRun.settles_collect ⟨s, selected, s.probeOf selected, targetTerms⟩
    (fun term => (htarget.seek term).snapshot_eq) hsources {}
  rw [joinAlong, joinedAlong]
  refine hcollect.bind fun c hc => .pure ?_
  rw [hc]

/-- **A join comes to the same from the caches and without them.** -/
theorem settles_joinDocs (s : Snapshot) (source target : String) (selected : DocSet) :
    s.Settles (s.joinDocs source target selected).run (· = s.joinedDocs source target selected) := by
  rw [joinDocs, joinedDocs]
  refine (Settles.ofExcept _).bindExec (fun source? hsource => ?_) fun fault hfault => ?_
  · rw [← hsource]
    refine (Settles.ofExcept _).bindExec (fun target? htarget => ?_) fun fault hfault => ?_
    · rw [← htarget]
      cases source? with
      | none => exact .ok rfl
      | some sourceTerms =>
        cases target? with
        | none => exact .ok rfl
        | some targetTerms =>
          obtain ⟨hreads, hnext⟩ := reads_of_fieldCursor? (termCursor?_eq_some_iff.1 hsource.symm).2
          obtain ⟨hreads', -⟩ := reads_of_fieldCursor? (termCursor?_eq_some_iff.1 htarget.symm).2
          exact (settles_joinAlong hreads hnext hreads').lift fun result hresult => congrArg Except.ok hresult
    · rw [← hfault]
      rfl
  · rw [← hfault]
    rfl

theorem Sound.mem_joinedAlong (hs : s.Sound) {sourceTerms targetTerms : TermCursor}
    (hsource : sourceTerms.Reads s source) (hnext : sourceTerms.next.Ahead s source fun _ => True)
    (htarget : targetTerms.Reads s target) (hlive : ∀ e ∈ selected, s.corpus.isLive e = true) {d : Nat} :
    d ∈ (s.joinedAlong selected sourceTerms targetTerms).1 ↔
      ∃ e ∈ selected, ∃ text, s.schema.isFull source text = true ∧
        s.corpus.Has e ⟨source, text⟩ ∧ s.corpus.isLive d = true ∧ s.corpus.Has d ⟨target, text⟩ := by
  obtain ⟨start, cut, p, hstart, hstops, hp, hfull⟩ := exists_sourceStops hsource hnext
  rw [joinedAlong, hstops, DocSet.mem_without, Collected.mem_toSet,
    JoinRun.has_collected ⟨s, selected, s.probeOf selected, targetTerms⟩ hs (fun d => mem_probeOf) htarget
      (hstart.onTerm_of_mem_stops (p := p)) hstart.pairwise_stopTerms,
    or_iff_right Collected.not_has_empty]
  constructor
  · rintro ⟨⟨stop, hstop, t, hterm, hleads, hd⟩, _⟩
    obtain ⟨e, he, het⟩ := (JoinRun.leads_iff hlive).1 hleads
    have hmem := (hstart.mem_stopTerms_iff hp).1 (List.mem_filterMap.2 ⟨stop, hstop, hterm⟩)
    exact ⟨e, he, t, (hfull t).1 hmem.2, het, hd⟩
  · rintro ⟨e, he, t, ht, het, hd⟩
    have hmem := (hstart.mem_stopTerms_iff hp).2 ⟨hs.knows_iff.2 ⟨e, het⟩, (hfull t).2 ht⟩
    obtain ⟨stop, hstop, hterm⟩ := List.mem_filterMap.1 hmem
    refine ⟨⟨stop, hstop, t, hterm, (JoinRun.leads_iff hlive).2 ⟨e, he, het⟩, hd⟩, ?_⟩
    exact (Corpus.isLive_iff.1 hd.1).2

/-- A join comes to a result unless there is no room for one of its cursors. -/
theorem Sound.map_joinedDocs (hs : s.Sound) (source target : String) (selected : DocSet) :
    (s.joinedDocs source target selected).map (fun _ => ()) =
      (s.corpus.opens source >>= fun _ => s.corpus.opens target) := by
  rw [joinedDocs]
  rcases hs.termCursor?_cases source (s.config.minDocFreq s.maxDoc) with
    ⟨hsource, hopens, _⟩ | ⟨hsource, hopens⟩ | ⟨_, hsource, hopens, _⟩ <;>
  rcases hs.termCursor?_cases target (s.config.minDocFreq s.maxDoc) with
    ⟨htarget, hopens', _⟩ | ⟨htarget, hopens'⟩ | ⟨_, htarget, hopens', _⟩ <;>
  rw [hsource, htarget, hopens, hopens'] <;> rfl

/-- **The members of a join of live documents are the live documents that share a full term with one of
them.** -/
theorem Sound.mem_joinedDocs (hs : s.Sound) {set : DocSet} {stats : JoinStatistics}
    (h : s.joinedDocs source target selected = .ok (set, stats))
    (hlive : ∀ e ∈ selected, s.corpus.isLive e = true) {d : Nat} :
    d ∈ set ↔
      ∃ e ∈ selected, ∃ text, s.schema.isFull source text = true ∧
        s.corpus.Has e ⟨source, text⟩ ∧ s.corpus.isLive d = true ∧ s.corpus.Has d ⟨target, text⟩ := by
  have hunknown : ∀ {field threshold}, s.termCursor? field threshold = .ok none →
      ∀ {t d}, ¬ s.corpus.Has d ⟨field, t⟩ := by
    intro field threshold hnone t d hd
    have hsome : (s.fieldCursor? field threshold).isSome :=
      isSome_fieldCursor?_iff.2 ⟨t, hs.knows_iff.2 ⟨d, hd⟩⟩
    rw [termCursor?_eq_none_iff.1 hnone] at hsome
    cases hsome
  obtain ⟨source?, hsource, h⟩ := exists_of_bind_eq_ok h
  obtain ⟨target?, htarget, h⟩ := exists_of_bind_eq_ok h
  cases source? with
  | none =>
    cases h
    refine iff_of_false DocSet.not_mem_empty ?_
    rintro ⟨e, _, t, _, he, _⟩
    exact hunknown hsource he
  | some sourceTerms =>
    cases target? with
    | none =>
      cases h
      refine iff_of_false DocSet.not_mem_empty ?_
      rintro ⟨e, _, t, _, _, _, hd⟩
      exact hunknown htarget hd
    | some targetTerms =>
      obtain ⟨hreads, hnext⟩ := reads_of_fieldCursor? (termCursor?_eq_some_iff.1 hsource).2
      obtain ⟨hreads', -⟩ := reads_of_fieldCursor? (termCursor?_eq_some_iff.1 htarget).2
      rw [← hs.mem_joinedAlong hreads hnext hreads' hlive, Except.ok.inj h]

end Snapshot

end TermJoin
