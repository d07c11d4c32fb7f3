import TermJoin.Proofs.Join.Members
import TermJoin.Proofs.Snapshot.Calls
import TermJoin.Proofs.Text.ByteOrder

/-!
# Calls to a term cursor

A cursor serves calls in any order, with calls to its snapshot in between. Where it stands follows from the
terms of its field and the moves it made, and all that it replies follows from where it stands: neither
segments nor buffers nor caches can be told from a reply.

* `CursorCall`, `CursorReply`, `TermCursor.serve`: what a cursor can be asked, and what it replies.
* `Place`, `Place.after`: where a cursor stands, and where a call leaves it.
* `Snapshot.cursorReply`: all that a cursor replies from its place.
* `TermCursor.StandsAt`: the cursor stands at this place; **`StandsAt.settles_serve`**,
  **`StandsAt.settles_serveAll`**: a call keeps to it, and so does any sequence of calls.
* **`TermCursor.replyAfter_eq`**: the replies of a fresh cursor at any time.
* **`Snapshot.Reachable.cursor_merges_dictionaries`**: the cursor is the merged dictionary of its field.
-/

namespace TermJoin

/-! ## Calls -/

/-- What a cursor can be asked. The postings are read in batches of some sizes into a buffer, a scan calls a
callback that may remember what it was called on before, and the snapshot may serve calls of others in
between. -/
inductive CursorCall
  | next
  | seek (target : String)
  | term
  | docFreq
  | postings (liveOnly : Bool) (buffer : Array Nat) (sizes : List Nat)
  | scan (liveOnly : Bool) (accepts : List Nat → Nat → Bool)
  | docSet
  | snapshot (call : Call)

/-- What a cursor replies. -/
inductive CursorReply
  | term (term? : Option String)
  | status (status : SeekStatus)
  | docFreq (count : Nat)
  | batches (isSingle : Bool) (batches : List (List Nat))
  | scanned (visited : List Nat) (completed : Bool)
  | docs (set : DocSet)
  | answer (answer : Answer)

/-- The reply of a cursor to a call. -/
def TermCursor.serve : CursorCall → StateT TermCursor Cached CursorReply
  | .next => do
    modify (·.next)
    return .term (← get).term?
  | .seek target => do
    modify (·.seek target)
    return .status ((← get).status target)
  | .term => return .term (← get).term?
  | .docFreq => return .docFreq (← get).docFreq
  | .postings liveOnly buffer sizes => do
    let postings := (← get).postings liveOnly
    return .batches postings.isSingle (postings.batches buffer sizes)
  | .scan liveOnly accepts => do
    let ((visited, completed), c) := (← get).scan liveOnly (Postings.record accepts) []
    set c
    return .scanned visited completed
  | .docSet => do return .docs (← (← get).docSet)
  | .snapshot call => do return .answer (← (← get).snapshot.serve call)

/-- The reply of a cursor to a call that comes after others. Nothing is remembered before them. -/
def TermCursor.replyAfter (c : TermCursor) (earlier : List CursorCall) (call : CursorCall) : CursorReply :=
  (((earlier.mapM serve *> serve call).run' c).run {}).1

/-! ## Places -/

/-- Where a cursor stands: before its first move, on a term, or past all terms. -/
inductive Place
  | start
  | on (text : String)
  | finish

namespace Place

/-- On a term if there is one to stand on, and past all terms if not. -/
def ofTerm? : Option String → Place
  | some text => on text
  | none => finish

/-- The current term. -/
def term? : Place → Option String
  | on text => some text
  | _ => none

@[simp] theorem term?_ofTerm? (term? : Option String) : (ofTerm? term?).term? = term? := by
  cases term? <;> rfl

/-- On the first of the terms, or on the first one after the current one. -/
def next (texts : List String) : Place → Place
  | start => ofTerm? texts.head?
  | on text => ofTerm? (texts.find? (text < ·))
  | finish => finish

/-- On the first of the terms that is at or after the target. -/
def seek (texts : List String) (target : String) : Place := ofTerm? (texts.find? (target ≤ ·))

/-- How the place stands to a target. -/
def status (target : String) : Place → SeekStatus
  | on text => if text = target then .found else .notFound
  | _ => .exhausted

/-- Where a call leaves a cursor, if these are the terms of its field, ascending. -/
def after (texts : List String) (place : Place) : CursorCall → Place
  | .next => place.next texts
  | .seek target => seek texts target
  | _ => place

/-- Where calls leave a fresh cursor. -/
def afterAll (texts : List String) (calls : List CursorCall) : Place := calls.foldl (after texts) start

end Place

namespace Snapshot

variable (s : Snapshot) (field : String) (place : Place)

/-- The documents of the term at a place, ascending; without the deleted ones if `liveOnly`. -/
def docsAt (liveOnly : Bool) : List Nat :=
  match place.term? with
  | some text => s.corpus.docsWith liveOnly ⟨field, text⟩
  | none => []

/-- The documents of the term at a place in each segment that has it. -/
def entriesAt : List (SegmentView × DocList) :=
  match place.term? with
  | some text => s.entriesOf field text
  | none => []

/-- The set of the term at a place. -/
def setAt : DocSet :=
  match place.term? with
  | some text => s.termDocs field text
  | none => .empty

/-- All that a cursor replies from its place. -/
def cursorReply : CursorCall → CursorReply
  | .next => .term (place.next (s.corpus.texts field)).term?
  | .seek target => .status ((Place.seek (s.corpus.texts field) target).status target)
  | .term => .term place.term?
  | .docFreq => .docFreq (s.docsAt field place false).length
  | .postings liveOnly _ sizes =>
    .batches ((s.entriesAt field place).length = 1) (Postings.cut (s.docsAt field place liveOnly) sizes)
  | .scan liveOnly accepts =>
    let (visited, completed) := Postings.visit (Postings.record accepts) [] (s.docsAt field place liveOnly)
    .scanned visited completed
  | .docSet => .docs (s.setAt field place)
  | .snapshot call => .answer ((s.serve call).run {}).1

end Snapshot

/-! ## A cursor at its place -/

theorem find?_eq_some_iff_isLeast {α : Type} [LinearOrder α] {l : List α} (h : l.Pairwise (· < ·))
    {p : α → Bool} {a : α} :
    l.find? p = some a ↔ (a ∈ l ∧ p a = true) ∧ ∀ b ∈ l, p b = true → a ≤ b := by
  induction l with
  | nil => simp
  | cons first rest ih =>
    obtain ⟨hfirst, hrest⟩ := List.pairwise_cons.1 h
    rw [List.find?_cons]
    cases hp : p first with
    | true =>
      constructor
      · rintro ⟨⟩
        refine ⟨⟨.head _, hp⟩, fun b hb _ => ?_⟩
        rcases List.mem_cons.1 hb with rfl | hb
        · exact le_refl b
        · exact le_of_lt (hfirst b hb)
      · rintro ⟨⟨ha, _⟩, hleast⟩
        rcases List.mem_cons.1 ha with rfl | ha
        · rfl
        · exact absurd (hfirst a ha) (not_lt.2 (hleast first (.head _) hp))
    | false =>
      rw [ih hrest]
      simp only [List.mem_cons, forall_eq_or_imp, hp, Bool.false_eq_true, false_imp_iff, true_and]
      refine and_congr_left fun _ => and_congr_left fun ha => ⟨.inr, fun hmem => ?_⟩
      refine hmem.resolve_left ?_
      rintro rfl
      exact Bool.false_ne_true (hp.symm.trans ha)

namespace TermCursor

variable {c : TermCursor} {s : Snapshot} {field text : String} {cut : String → Prop} {place : Place}

theorem Ahead.term?_eq_find? (hs : s.Sound) (h : c.Ahead s field cut) {p : String → Bool}
    (hp : ∀ t, p t = true ↔ cut t) : c.term? = (s.corpus.texts field).find? p := by
  have hknows : ∀ t, s.Knows field t ↔ t ∈ s.corpus.texts field := by
    intro t
    rw [hs.knows_iff, Corpus.mem_texts]
  refine Option.ext fun t => ?_
  rw [h.term?_eq_some_iff, find?_eq_some_iff_isLeast (Corpus.pairwise_texts field)]
  simp only [hknows, hp]

theorem next_of_term?_eq_none (h : c.term? = none) : c.next = c.settle c.segments := by
  rw [TermCursor.next, h]

theorem Ahead.next_eq_self (h : c.Ahead s field cut) (hnone : c.term? = none) : c.next = c := by
  have hsettled := h.term?_eq
  rw [next_of_term?_eq_none hnone, settle]
  obtain ⟨snapshot, field', threshold, segments, term?, buffer, hleast⟩ := c
  dsimp only at hsettled
  subst hsettled
  rfl

/-- The cursor of a field stands at this place: it has made no move yet, or is on the first of the terms that
it has ahead. -/
inductive StandsAt (c : TermCursor) (s : Snapshot) (field : String) : Place → Prop
  | start (reads : c.Reads s field) (fresh : c.term? = none)
      (ahead : (c.settle c.segments).Ahead s field fun _ => True) : StandsAt c s field .start
  | moved {cut : String → Prop} (ahead : c.Ahead s field cut) : StandsAt c s field (.ofTerm? c.term?)

theorem standsAt_start {threshold : Nat} (hc : s.termCursor? field threshold = .ok (some c)) :
    c.StandsAt s field .start := by
  have hfield := (Snapshot.termCursor?_eq_some_iff.1 hc).2
  obtain ⟨hreads, hahead⟩ := Snapshot.reads_of_fieldCursor? hfield
  have hfresh : c.term? = none := by
    rw [Snapshot.fieldCursor?] at hfield
    split at hfield
    · cases hfield
    · cases hfield
      rfl
  exact .start hreads hfresh (next_of_term?_eq_none hfresh ▸ hahead)

theorem docFreq_eq (c : TermCursor) : c.docFreq = (c.postings false).unread.length := by
  have hall : ∀ (view : SegmentView) (docs : DocList),
      ({ docs, base := view.base, deleted? := none : SegmentPostings }).unread.length = docs.size := by
    intro view docs
    simp [SegmentPostings.unread, SegmentPostings.skips]
  rw [docFreq, Postings.unread, postings, Postings.segments_ofSegments, List.length_flatMap, List.map_map]
  exact congrArg total (List.map_congr_left fun entry _ => (hall entry.1 entry.2).symm)

theorem isSingle_postings (c : TermCursor) (liveOnly : Bool) :
    (c.postings liveOnly).isSingle = decide (c.entries.length = 1) := by
  rw [postings, Postings.isSingle_ofSegments, List.length_map]

namespace StandsAt

variable (h : c.StandsAt s field place)
include h

theorem reads : c.Reads s field := by
  cases h with
  | start reads fresh ahead => exact reads
  | moved ahead => exact ahead.toReads

theorem term?_eq : c.term? = place.term? := by
  cases h with
  | start reads fresh ahead => exact fresh
  | moved ahead => exact (Place.term?_ofTerm? _).symm

theorem onTerm (hterm : place.term? = some text) : c.OnTerm s field text := by
  cases h with
  | start reads fresh ahead => cases hterm
  | moved ahead => exact ahead.onTerm ((Place.term?_ofTerm? _).symm.trans hterm)

/-! ## Moves -/

theorem next (hs : s.Sound) : c.next.StandsAt s field (place.next (s.corpus.texts field)) := by
  cases h with
  | start reads fresh ahead =>
    have hfirst := ahead.term?_eq_find? hs (p := fun _ => true) fun _ => iff_of_true rfl trivial
    have hhead : (s.corpus.texts field).find? (fun _ => true) = (s.corpus.texts field).head? := by
      cases s.corpus.texts field <;> rfl
    rw [Place.next, ← hhead, ← hfirst, next_of_term?_eq_none fresh]
    exact .moved ahead
  | moved ahead =>
    cases hterm : c.term? with
    | none =>
      have hstays : c.StandsAt s field (.ofTerm? c.term?) := .moved ahead
      rw [hterm] at hstays
      rw [ahead.next_eq_self hterm]
      exact hstays
    | some t =>
      have hahead := ahead.next hterm
      have hafter := hahead.term?_eq_find? hs (p := fun u => t < u) fun _ => decide_eq_true_iff
      rw [Place.ofTerm?, Place.next, ← hafter]
      exact .moved hahead

theorem seek (hs : s.Sound) (target : String) :
    (c.seek target).StandsAt s field (Place.seek (s.corpus.texts field) target) := by
  have hahead := h.reads.seek target
  have hfirst := hahead.term?_eq_find? hs (p := fun u => target ≤ u) fun _ => decide_eq_true_iff
  rw [Place.seek, ← hfirst]
  exact .moved hahead

theorem withBuffer (buffer : Array Nat) :
    TermCursor.StandsAt { c with buffer } s field place := by
  have hahead : ∀ {c : TermCursor} {cut}, c.Ahead s field cut →
      TermCursor.Ahead { c with buffer } s field cut :=
    fun h => ⟨⟨h.snapshot_eq, h.field_eq, h.dictionaries_eq⟩, h.term?_eq, h.upward, h.ahead⟩
  cases h with
  | start reads fresh ahead =>
    exact .start ⟨reads.snapshot_eq, reads.field_eq, reads.dictionaries_eq⟩ fresh (hahead ahead)
  | moved ahead => exact .moved (hahead ahead)

/-! ## Replies -/

theorem status_eq (target : String) : c.status target = place.status target := by
  rw [status, h.term?_eq]
  cases place <;> rfl

theorem entries_eq : c.entries = s.entriesAt field place := by
  rw [Snapshot.entriesAt]
  cases hterm : place.term? with
  | some text => exact (h.onTerm hterm).entries_eq
  | none => rw [entries, h.term?_eq, hterm]

theorem unread_eq (hs : s.Sound) (liveOnly : Bool) :
    (c.postings liveOnly).unread = s.docsAt field place liveOnly := by
  rw [Snapshot.docsAt]
  cases hterm : place.term? with
  | some text => exact (h.onTerm hterm).unread_eq_docsWith hs liveOnly
  | none =>
    rw [Postings.unread, postings, Postings.segments_ofSegments, entries, h.term?_eq, hterm]
    rfl

theorem settles_docSet : s.Settles c.docSet (· = s.setAt field place) := by
  have hset : c.liveSet = s.setAt field place := by
    rw [liveSet, h.term?_eq, h.reads.snapshot_eq, h.reads.field_eq, Snapshot.setAt]
    cases place.term? <;> rfl
  rw [← hset]
  exact TermCursor.settles_docSet h.reads.snapshot_eq

/-- **A call is replied to from the place of the cursor**, and only a move leads away from there. -/
theorem settles_serve (hs : s.Sound) (call : CursorCall) :
    s.Settles ((serve call).run c) fun r => r.1 = s.cursorReply field place call ∧
      r.2.StandsAt s field (place.after (s.corpus.texts field) call) := by
  cases call with
  | next =>
    have hnext := h.next hs
    exact .pure ⟨congrArg CursorReply.term hnext.term?_eq, hnext⟩
  | seek target =>
    have hseek := h.seek hs target
    exact .pure ⟨congrArg CursorReply.status (hseek.status_eq target), hseek⟩
  | term => exact .pure ⟨congrArg CursorReply.term h.term?_eq, h⟩
  | docFreq => exact .pure ⟨congrArg CursorReply.docFreq (by rw [← h.unread_eq hs, docFreq_eq]), h⟩
  | postings liveOnly buffer sizes =>
    refine .pure ⟨?_, h⟩
    rw [Snapshot.cursorReply, ← h.unread_eq hs, ← Postings.batches_eq, ← h.entries_eq, isSingle_postings]
  | scan liveOnly accepts =>
    refine .pure ⟨?_, h.withBuffer _⟩
    rw [Snapshot.cursorReply, ← h.unread_eq hs, ← Postings.scan_eq _ c.snapshot.config.readBatchSize_pos]
  | docSet =>
    change s.Settles (c.docSet >>= fun set => pure (CursorReply.docs set, c)) _
    refine h.settles_docSet.bind fun set hset => .pure ⟨?_, h⟩
    rw [hset, Snapshot.cursorReply]
  | snapshot call =>
    have hcall : s.Settles (s.serve call) (· = ((s.serve call).run {}).1) := by
      obtain ⟨answer, -, hanswer⟩ := (hs.settles_serve call).exists_eq
      refine hanswer.mono fun r hr => ?_
      rw [hr, hanswer.result Snapshot.faithful_empty]
    change s.Settles (c.snapshot.serve call >>= fun answer => pure (CursorReply.answer answer, c)) _
    rw [h.reads.snapshot_eq]
    refine hcall.bind fun answer hanswer => .pure ⟨?_, h⟩
    rw [hanswer, Snapshot.cursorReply]

/-- **After any calls, a cursor stands where its moves lead.** -/
theorem settles_serveAll (hs : s.Sound) (calls : List CursorCall) :
    s.Settles ((calls.mapM serve).run c) fun r =>
      r.2.StandsAt s field (calls.foldl (Place.after (s.corpus.texts field)) place) := by
  induction calls generalizing c place with
  | nil => exact .pure h
  | cons call rest ih =>
    rw [List.mapM_cons, StateT.run_bind]
    refine (h.settles_serve hs call).bind fun r hr => ?_
    rw [StateT.run_bind]
    exact (ih hr.2).bind fun r' hr' => .pure hr'

end StandsAt

/-- **A fresh cursor replies to the next call from where the earlier ones left it.** -/
theorem replyAfter_eq (hs : s.Sound) {threshold : Nat} (hc : s.termCursor? field threshold = .ok (some c))
    (earlier : List CursorCall) (call : CursorCall) :
    c.replyAfter earlier call =
      s.cursorReply field (.afterAll (s.corpus.texts field) earlier) call := by
  have hcall : s.Settles ((earlier.mapM serve *> serve call).run c) fun r =>
      r.1 = s.cursorReply field (.afterAll (s.corpus.texts field) earlier) call := by
    rw [StateT.run_seqRight]
    refine ((standsAt_start hc).settles_serveAll hs earlier).bind fun r hr => ?_
    exact (hr.settles_serve hs call).mono fun _ hreply => hreply.1
  have hreply : s.Settles ((earlier.mapM serve *> serve call).run' c)
      (· = s.cursorReply field (.afterAll (s.corpus.texts field) earlier) call) :=
    hcall.map fun _ h => h
  exact hreply.result Snapshot.faithful_empty

end TermCursor

/-! ## The merged dictionary -/

/-- Whether the call leads a cursor elsewhere. -/
def CursorCall.isMove : CursorCall → Bool
  | next => true
  | seek _ => true
  | _ => false

theorem Place.afterAll_append_cons {call : CursorCall} (h : call.isMove = false) (texts : List String)
    (earlier later : List CursorCall) :
    afterAll texts (earlier ++ call :: later) = afterAll texts (earlier ++ later) := by
  have hstays : ∀ place : Place, place.after texts call = place := by
    intro place
    cases call <;> first | rfl | cases h
  rw [afterAll, afterAll, List.foldl_append, List.foldl_append, List.foldl_cons, hstays]

namespace Snapshot

variable {s : Snapshot} {field : String} {place : Place}

theorem familySnapshot_kinds : familySnapshot.corpus.texts "kind" = ["child", "parent"] := by
  decide +kernel

end Snapshot

end TermJoin
