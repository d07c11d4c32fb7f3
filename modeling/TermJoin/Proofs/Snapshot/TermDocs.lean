import TermJoin.Proofs.Snapshot.CursorCalls

/-!
# The documents of a term

A cursor on a term gives its documents in batches, to a callback, or as a set, and a snapshot gives the set
without a cursor, remembered or not. All of them give the same documents, in ascending order where there is one.

* `TermCursor.term?_of_reply`, `Snapshot.docsAt_of_term?`: the documents at hand are those of the corpus that
  have the term.
* **`Snapshot.Reachable.batches_partition`**: batches of any sizes, from one segment or from several.
* **`Snapshot.Reachable.term_routes_agree`**: scans and sets.
-/

namespace TermJoin

namespace TermCursor

variable {c : TermCursor} {s : Snapshot} {field text : String} {threshold : Nat} {earlier : List CursorCall}

theorem term?_of_reply (hs : s.Sound) (hc : s.termCursor? field threshold = .ok (some c))
    (hterm : c.replyAfter earlier .term = .term (some text)) :
    (Place.afterAll (s.corpus.texts field) earlier).term? = some text :=
  CursorReply.term.inj ((replyAfter_eq hs hc earlier .term).symm.trans hterm)

end TermCursor

namespace Snapshot

variable {s : Snapshot} {field text : String} {place : Place}

theorem docsAt_of_term? (h : place.term? = some text) (liveOnly : Bool) :
    s.docsAt field place liveOnly = s.corpus.docsWith liveOnly ⟨field, text⟩ := by
  rw [docsAt, h]

theorem setAt_of_term? (h : place.term? = some text) : s.setAt field place = s.termDocs field text := by
  rw [setAt, h]

theorem Sound.toSortedList_termDocs (hs : s.Sound) :
    (s.termDocs field text).toSortedList = s.corpus.docsWith true ⟨field, text⟩ := by
  refine DocSet.toSortedList_eq_of_mem_iff (Corpus.pairwise_docsWith _ _) fun d => ?_
  rw [hs.mem_termDocs_iff, Corpus.mem_docsWith, and_comm, forall_prop_of_true rfl]

theorem length_entriesAt (h : place.term? = some text) :
    (s.entriesAt field place).length =
      (s.segments.filter fun view => (view.segment.docs? field text).isSome).length := by
  rw [entriesAt, h]
  change (s.entriesOf field text).length = _
  rw [entriesOf]
  induction s.segments with
  | nil => rfl
  | cons view rest ih =>
    rw [List.filterMap_cons, List.filter_cons]
    cases view.segment.docs? field text with
    | none => exact ih
    | some docs => exact congrArg Nat.succ ih

variable {threshold : Nat} {c : TermCursor} {earlier : List CursorCall}

/-! ## Batches -/

/-- **Batches lose nothing and repeat nothing.** Whatever the sizes, and whatever the buffer held before, what
is read of a term goes on in the ascending list of its documents, or of the live ones, where the last batch
ended. A batch is as large as it was asked to be, unless there is less to read, so one that was not asked to be
empty is empty exactly if all was read. It makes no difference whether one segment has the term or several. -/
theorem Reachable.batches_partition (h : s.Reachable) (hc : s.termCursor? field threshold = .ok (some c))
    (hterm : c.replyAfter earlier .term = .term (some text)) (liveOnly : Bool) (buffer : Array Nat)
    (sizes : List Nat) :
    let docs := s.corpus.docsWith liveOnly ⟨field, text⟩
    (docs.Pairwise (· < ·) ∧
      ∀ d, d ∈ docs ↔ s.corpus.Has d ⟨field, text⟩ ∧ (liveOnly = true → s.corpus.isLive d = true)) ∧
    ∃ isSingle batches, c.replyAfter earlier (.postings liveOnly buffer sizes) = .batches isSingle batches ∧
      (isSingle = true ↔
        (s.segments.filter fun view => (view.segment.docs? field text).isSome).length = 1) ∧
      batches.length = sizes.length ∧ batches.flatten <+: docs ∧
      ∀ i size batch, sizes[i]? = some size → batches[i]? = some batch →
        let before := (batches.take i).flatten
        batch.length = min size (docs.length - before.length) ∧ (0 < size → (batch = [] ↔ before = docs)) := by
  intro docs
  have hs := h.sound
  have hplace := TermCursor.term?_of_reply hs hc hterm
  refine ⟨⟨Corpus.pairwise_docsWith _ _, fun d => Corpus.mem_docsWith⟩, _, _,
    TermCursor.replyAfter_eq hs hc _ _, ?_⟩
  rw [docsAt_of_term? hplace, length_entriesAt hplace, decide_eq_true_iff]
  refine ⟨Iff.rfl, Postings.length_cut docs sizes, Postings.flatten_cut_prefix docs sizes, ?_⟩
  intro i size batch hsize hbatch before
  have hprefix : before <+: docs := by
    have hbefore := Postings.flatten_cut_prefix docs (sizes.take i)
    rwa [← Postings.take_cut] at hbefore
  rw [Postings.getElem?_cut, hsize, Option.map_some, Option.some.injEq] at hbatch
  have hlength : batch.length = min size (docs.length - before.length) := by
    rw [← hbatch, List.length_take, List.length_drop]
  refine ⟨hlength, fun hpos => ?_⟩
  -- a prefix is the whole list exactly if it is as long
  rw [← List.length_eq_zero_iff, hlength]
  constructor
  · intro hzero
    exact hprefix.eq_of_length_le (by omega)
  · intro hall
    rw [hall, Nat.sub_self, Nat.min_zero]

theorem familySnapshot_seek_child :
    ∃ c, familySnapshot.termCursor? "kind" 0 = .ok (some c) ∧
      c.replyAfter [.seek "ch"] .term = .term (some "child") := by
  have hs : familySnapshot.Sound := (reachable_afterHistory _ _ _ _).sound
  have hchild : "child" ∈ familySnapshot.corpus.texts "kind" := by
    rw [familySnapshot_kinds]
    exact .head _
  have hsome : (familySnapshot.fieldCursor? "kind" 0).isSome :=
    isSome_fieldCursor?_iff.2 ⟨"child", hs.knows_iff.2 (Corpus.mem_texts.1 hchild)⟩
  obtain ⟨c, hfield⟩ := Option.isSome_iff_exists.1 hsome
  have hc : familySnapshot.termCursor? "kind" 0 = .ok (some c) :=
    termCursor?_eq_some_iff.2 ⟨by decide +kernel, hfield⟩
  refine ⟨c, hc, (TermCursor.replyAfter_eq hs hc _ _).trans ?_⟩
  rw [familySnapshot_kinds]
  rfl

/-- Each child stands in a segment of its own, and a batch can span both. -/
theorem familySnapshot_batches :
    ∃ c, familySnapshot.termCursor? "kind" 0 = .ok (some c) ∧
      ∃ batches, c.replyAfter [.seek "ch"] (.postings false #[7] [0, 3, 1]) = .batches false batches ∧
        batches.flatten <+: [1, 2] ∧ ∃ first second third, batches = [first, second, third] ∧
          first.length = 0 ∧ second.length = min 3 (2 - first.length) ∧
          (third = [] ↔ first ++ second = [1, 2]) := by
  have hreachable : familySnapshot.Reachable := reachable_afterHistory _ _ _ _
  obtain ⟨c, hc, hterm⟩ := familySnapshot_seek_child
  obtain ⟨-, isSingle, batches, hreply, hsingle, hlength, hprefix, hbatches⟩ :=
    hreachable.batches_partition hc hterm false #[7] [0, 3, 1]
  have hdocs : familySnapshot.corpus.docsWith false ⟨"kind", "child"⟩ = [1, 2] := by
    decide +kernel
  have hseveral : ¬ (familySnapshot.segments.filter fun view =>
      (view.segment.docs? "kind" "child").isSome).length = 1 := by
    decide +kernel
  have hshape : isSingle = false := Bool.eq_false_iff.2 fun h => hseveral (hsingle.1 h)
  rw [hdocs] at hprefix hbatches
  obtain ⟨first, second, third, rfl⟩ := List.length_eq_three.1 hlength
  refine ⟨c, hc, _, hshape ▸ hreply, hprefix, first, second, third, rfl, ?_, ?_, ?_⟩
  · exact (hbatches 0 0 first rfl rfl).1
  · exact (hbatches 1 3 second rfl rfl).1.trans (by simp)
  · simpa using (hbatches 2 1 third rfl rfl).2 Nat.one_pos

/-! ## All routes -/

/-- **All routes to the documents of a term agree.** On a term, whatever was asked before, a scan visits its
documents in ascending order, or the live ones, and so do the sets of the cursor and of the snapshot, remembered
or not. A scan with a callback that refuses an ordinal ends there, says so, and is not noticed later. -/
theorem Reachable.term_routes_agree (h : s.Reachable) (hc : s.termCursor? field threshold = .ok (some c))
    (hterm : c.replyAfter earlier .term = .term (some text)) :
    let reply := c.replyAfter earlier
    let docs := fun liveOnly => s.corpus.docsWith liveOnly ⟨field, text⟩
    (∀ liveOnly, (docs liveOnly).Pairwise (· < ·) ∧ ∀ d, d ∈ docs liveOnly ↔
      s.corpus.Has d ⟨field, text⟩ ∧ (liveOnly = true → s.corpus.isLive d = true)) ∧
    (∀ liveOnly, reply (.scan liveOnly fun _ _ => true) = .scanned (docs liveOnly) true) ∧
    reply .docFreq = .docFreq (docs false).length ∧
    (s.termDocs field text).toSortedList = docs true ∧
    (∃ set, reply (.snapshot (.termDocs field text)) = .answer (.docs (.ok set)) ∧
      set.toSortedList = docs true) ∧
    (∃ set, reply .docSet = .docs set ∧ set.toSortedList = docs true) ∧
    ∀ liveOnly accepts,
      (∃ visited completed, reply (.scan liveOnly accepts) = .scanned visited completed ∧
        Postings.Visits accepts (docs liveOnly) visited completed) ∧
      ∀ later, c.replyAfter (earlier ++ .scan liveOnly accepts :: later) = c.replyAfter (earlier ++ later) := by
  intro reply docs
  have hs := h.sound
  have hreply := TermCursor.replyAfter_eq hs hc
  have hplace := TermCursor.term?_of_reply hs hc hterm
  have hdocs : ∀ liveOnly, s.docsAt field (.afterAll (s.corpus.texts field) earlier) liveOnly = docs liveOnly :=
    docsAt_of_term? hplace
  have hscan : ∀ liveOnly accepts, ∃ visited completed,
      reply (.scan liveOnly accepts) = .scanned visited completed ∧
        Postings.Visits accepts (docs liveOnly) visited completed := by
    intro liveOnly accepts
    refine ⟨_, _, hreply earlier _, ?_⟩
    rw [hdocs]
    exact Postings.visits_record accepts (docs liveOnly)
  have hsorted : (s.termDocs field text).toSortedList = docs true := hs.toSortedList_termDocs
  refine ⟨fun liveOnly => ⟨Corpus.pairwise_docsWith _ _, fun d => Corpus.mem_docsWith⟩, fun liveOnly => ?_,
    ?_, hsorted, ?_, ?_, fun liveOnly accepts => ⟨hscan liveOnly accepts, fun later => funext fun call => ?_⟩⟩
  · obtain ⟨visited, completed, hvisited, hvisits⟩ := hscan liveOnly fun _ _ => true
    obtain rfl := hvisits.completed_iff.2 fun _ _ _ _ => rfl
    rw [hvisited, hvisits.whole rfl]
  · rw [← hdocs]
    exact hreply earlier .docFreq
  · have hremembered : s.Settles (s.serve (.termDocs field text))
        (· = .docs (.ok (s.termDocs field text))) :=
      (Settles.cachedTermDocs field text).map fun set hset => by rw [hset]
    refine ⟨s.termDocs field text, (hreply earlier _).trans ?_, hsorted⟩
    exact congrArg CursorReply.answer (hremembered.result faithful_empty)
  · refine ⟨s.termDocs field text, (hreply earlier _).trans ?_, hsorted⟩
    exact congrArg CursorReply.docs (setAt_of_term? hplace)
  · rw [hreply, hreply, Place.afterAll_append_cons rfl]

/-- The deleted child is scanned with the other one, and is in no set. -/
theorem familySnapshot_term_routes :
    ∃ c, familySnapshot.termCursor? "kind" 0 = .ok (some c) ∧
      let reply := c.replyAfter [.seek "ch"]
      reply (.scan false fun _ _ => true) = .scanned [1, 2] true ∧ reply .docFreq = .docFreq 2 ∧
      reply (.scan true fun _ _ => true) = .scanned [2] true ∧
      ∃ set, reply .docSet = .docs set ∧ set.toSortedList = [2] := by
  have hreachable : familySnapshot.Reachable := reachable_afterHistory _ _ _ _
  obtain ⟨c, hc, hterm⟩ := familySnapshot_seek_child
  obtain ⟨-, hscan, hcount, -, -, hset, -⟩ := hreachable.term_routes_agree hc hterm
  have hall : familySnapshot.corpus.docsWith false ⟨"kind", "child"⟩ = [1, 2] := by
    decide +kernel
  have hlive : familySnapshot.corpus.docsWith true ⟨"kind", "child"⟩ = [2] := by
    decide +kernel
  dsimp only at hscan hcount hset
  rw [hlive] at hset
  rw [hall] at hcount
  exact ⟨c, hc, hall ▸ hscan false, hcount, hlive ▸ hscan true, hset⟩

end Snapshot

end TermJoin
