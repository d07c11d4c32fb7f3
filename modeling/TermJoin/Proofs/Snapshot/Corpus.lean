import Mathlib.Data.List.Perm.Subperm
import TermJoin.Proofs.DocSet.Membership
import TermJoin.Proofs.Snapshot.Tiling
import TermJoin.Query.Selection

/-!
# What a snapshot holds

Told without segments, a snapshot is a list of documents with marks of deletion: its corpus. All that
queries answer can be read off the corpus.

* `Corpus`: the documents, the deleted ordinals, and the settings that matter to an answer.
* `Corpus.selectBy`: the live documents with a property; `Corpus.Has`: a document has a term;
  `Corpus.docsWith`: all the documents that have it, or all the live ones.
* `Snapshot.corpus`, and `Snapshot.Sound`: the segments mirror their documents.
* `Snapshot.Overflows`: two fields cannot both be read for want of room; `Snapshot.OkIfRoom`: nothing but that makes
  a result a failure.
* **`Snapshot.Sound.tiles`**, **`Snapshot.Sound.segmentFor?_eq_some_iff`**: the segments tile the ordinals, and
  an ordinal is looked up in the right one.
* **`Snapshot.Sound.mem_termDocs_iff`**: the postings find the live documents of the corpus that have the
  term.
-/

namespace TermJoin

/-! ## Corpora -/

/-- The documents of a snapshot in order, with the ordinals of the deleted ones, the limit on expanded stems, and
whether a batch can be allocated. -/
structure Corpus where
  schema : Schema
  documents : List Document
  deleted : Bitmap
  maxExpansions : Nat
  fits : Bool

namespace Corpus

variable (corpus : Corpus)

/-- Whether the ordinal is that of a document that is not deleted. -/
def isLive (d : Nat) : Bool := d < corpus.documents.length && !corpus.deleted.contains d

/-- The live document with an ordinal. -/
def document? (d : Nat) : Option Document :=
  if corpus.isLive d then corpus.documents[d]? else none

/-- The ordinals of the live documents with a property. -/
def selectBy (p : Nat → Document → Bool) : List Nat :=
  (List.range corpus.documents.length).filter fun d => (corpus.document? d).any (p d)

/-- The document with this ordinal, deleted or not, has the term. -/
def Has (d : Nat) (term : Term) : Prop :=
  ∃ doc, corpus.documents[d]? = some doc ∧ corpus.schema.holds doc term = true

/-- The ordinals of the documents that have a term, ascending; without the deleted ones if `liveOnly`. -/
def docsWith (liveOnly : Bool) (term : Term) : List Nat :=
  (List.range corpus.documents.length).filter fun d =>
    corpus.documents[d]?.any (corpus.schema.holds · term) && (!liveOnly || corpus.isLive d)

/-- Whether any document, deleted or not, has a term in the field. -/
def hasTerms (field : String) : Bool :=
  corpus.documents.any fun doc => !(corpus.schema.textsIn doc field).isEmpty

/-- What a cursor for the field comes to: it needs a batch if there are terms. -/
def opens (field : String) : Except Fault Unit :=
  if corpus.hasTerms field = true ∧ corpus.fits = false then .error .capacityOverflow else .ok ()

variable {corpus}

theorem isLive_iff {d : Nat} :
    corpus.isLive d = true ↔ d < corpus.documents.length ∧ d ∉ corpus.deleted := by
  rw [isLive, Bool.and_eq_true, decide_eq_true_eq, Bitmap.not_contains_iff]

theorem document?_eq_some_iff {d : Nat} {doc : Document} :
    corpus.document? d = some doc ↔ corpus.isLive d = true ∧ corpus.documents[d]? = some doc := by
  rw [document?]
  split
  · rename_i h
    exact (and_iff_right h).symm
  · rename_i h
    exact iff_of_false (by simp) fun hdoc => h hdoc.1

theorem mem_selectBy {p : Nat → Document → Bool} {d : Nat} :
    d ∈ corpus.selectBy p ↔ ∃ doc, corpus.document? d = some doc ∧ p d doc = true := by
  rw [selectBy, List.mem_filter, Option.any_eq_true, and_iff_right_of_imp]
  rintro ⟨doc, hdoc, _⟩
  exact List.mem_range.2 (isLive_iff.1 (document?_eq_some_iff.1 hdoc).1).1

theorem pairwise_selectBy (p : Nat → Document → Bool) : (corpus.selectBy p).Pairwise (· < ·) :=
  List.pairwise_lt_range.filter _

theorem selectBy_congr {p q : Nat → Document → Bool}
    (h : ∀ d doc, corpus.documents[d]? = some doc → p d doc = q d doc) :
    corpus.selectBy p = corpus.selectBy q := by
  refine List.filter_congr fun d _ => ?_
  cases hdoc : corpus.document? d with
  | none => rfl
  | some doc => exact h d doc (document?_eq_some_iff.1 hdoc).2

theorem selectBy_false : corpus.selectBy (fun _ _ => false) = [] := by
  refine List.eq_nil_iff_forall_not_mem.2 fun d hd => ?_
  obtain ⟨doc, _, hfalse⟩ := mem_selectBy.1 hd
  exact Bool.false_ne_true hfalse

theorem exists_document?_iff {d : Nat} {p : Document → Prop} :
    (∃ doc, corpus.document? d = some doc ∧ p doc) ↔
      corpus.isLive d = true ∧ ∃ doc, corpus.documents[d]? = some doc ∧ p doc := by
  simp only [document?_eq_some_iff, and_assoc, exists_and_left]

theorem exists_document?_of_isLive {d : Nat} (h : corpus.isLive d = true) :
    ∃ doc, corpus.document? d = some doc :=
  ⟨_, document?_eq_some_iff.2 ⟨h, List.getElem?_eq_getElem (isLive_iff.1 h).1⟩⟩

theorem mem_docsWith {liveOnly : Bool} {term : Term} {d : Nat} :
    d ∈ corpus.docsWith liveOnly term ↔ corpus.Has d term ∧ (liveOnly = true → corpus.isLive d = true) := by
  have hhas : corpus.documents[d]?.any (corpus.schema.holds · term) = true ↔ corpus.Has d term := by
    rw [Option.any_eq_true, Has]
  rw [docsWith, List.mem_filter, Bool.and_eq_true, hhas, Bool.or_eq_true, Bool.not_eq_true',
    ← Bool.not_eq_true, ← imp_iff_not_or, List.mem_range, and_iff_right_of_imp]
  rintro ⟨⟨doc, hdoc, _⟩, _⟩
  exact (List.getElem?_eq_some_iff.1 hdoc).1

theorem has_iff {d : Nat} {field text : String} :
    corpus.Has d ⟨field, text⟩ ↔
      ∃ doc, corpus.documents[d]? = some doc ∧ text ∈ corpus.schema.textsIn doc field :=
  exists_congr fun _ => and_congr_right fun _ => Schema.holds_iff

theorem hasTerms_iff {field : String} :
    corpus.hasTerms field = true ↔ ∃ text d, corpus.Has d ⟨field, text⟩ := by
  rw [hasTerms, List.any_eq_true]
  simp only [has_iff, Bool.not_eq_true', List.isEmpty_eq_false_iff]
  constructor
  · rintro ⟨doc, hdoc, hne⟩
    obtain ⟨d, hd⟩ := List.mem_iff_getElem?.1 hdoc
    obtain ⟨text, htext⟩ := List.exists_mem_of_ne_nil _ hne
    exact ⟨text, d, doc, hd, htext⟩
  · rintro ⟨text, d, doc, hd, htext⟩
    exact ⟨doc, List.mem_of_getElem? hd, List.ne_nil_of_mem htext⟩

theorem opens_of_fits (h : corpus.fits = true) (field : String) : corpus.opens field = .ok () :=
  if_neg fun hover => Bool.false_ne_true (hover.2.symm.trans h)

theorem opens_eq_error_iff {field : String} {fault : Fault} :
    corpus.opens field = .error fault ↔
      fault = .capacityOverflow ∧ corpus.hasTerms field = true ∧ corpus.fits = false := by
  rw [opens]
  split
  · rename_i hover
    rw [Except.error.injEq, and_iff_left hover, eq_comm]
  · rename_i hroom
    exact iff_of_false (fun h => nomatch h) fun h => hroom h.2

theorem pairwise_docsWith (liveOnly : Bool) (term : Term) :
    (corpus.docsWith liveOnly term).Pairwise (· < ·) :=
  List.pairwise_lt_range.filter _

end Corpus

/-! ## The corpus of a snapshot -/

namespace Snapshot

/-- The segments, out of their places. -/
def parts (s : Snapshot) : List Segment := s.segments.map (·.segment)

/-- The documents of all segments, with the marks of the deleted ones. -/
def corpus (s : Snapshot) : Corpus where
  schema := s.schema
  documents := Segment.stored s.parts
  deleted := s.deleted
  maxExpansions := s.config.maxExpansions
  fits := s.config.Fits

/-- The postings of each segment are those of its documents, and no document lacks an ordinal. -/
structure Sound (s : Snapshot) : Prop where
  parts : ∀ segment ∈ s.parts, segment.Sound s.schema
  maxDoc_le : s.maxDoc ≤ noMoreDocs

theorem parts_ofSegments (stamp : Nat) (schema : Schema) (config : Config) (segments : List Segment) :
    (ofSegments stamp schema config segments).parts = segments :=
  SegmentView.map_segment_layOut stamp 0 0 segments

variable {s : Snapshot}

/-- There is no room for a batch of postings, and a document, deleted or not, has a term to read in one of the
fields. -/
def Overflows (s : Snapshot) (source target : String) : Prop :=
  ¬ s.config.Fits ∧ (s.corpus.hasTerms source = true ∨ s.corpus.hasTerms target = true)

theorem Overflows.opens_eq {source target : String} (h : s.Overflows source target) :
    (s.corpus.opens source >>= fun _ => s.corpus.opens target) = .error .capacityOverflow := by
  have hfull : s.corpus.fits = false := decide_eq_false h.1
  rw [Corpus.opens, Corpus.opens, hfull]
  cases hsource : s.corpus.hasTerms source with
  | true => rfl
  | false =>
    rw [(h.2.resolve_left (hsource ▸ Bool.false_ne_true))]
    rfl

theorem opens_eq_of_not_overflows {source target : String} (h : ¬ s.Overflows source target) :
    s.corpus.opens source = .ok () ∧ s.corpus.opens target = .ok () := by
  have hfull : s.corpus.fits = false → ¬ s.config.Fits := decide_eq_false_iff_not.1
  exact ⟨if_neg fun hover => h ⟨hfull hover.2, .inl hover.1⟩, if_neg fun hover => h ⟨hfull hover.2, .inr hover.1⟩⟩

/-- The result is no failure, unless there are documents and no room to read their postings. -/
def OkIfRoom {α : Type} (s : Snapshot) (result : Except Fault α) : Prop :=
  ∀ fault, result = .error fault →
    fault = .capacityOverflow ∧ ¬ s.config.Fits ∧ s.corpus.documents ≠ []

namespace OkIfRoom

variable {s : Snapshot} {α β : Type}

theorem ok (a : α) : s.OkIfRoom (.ok a) := fun _ h => nomatch h

theorem bind {result : Except Fault α} {next : α → Except Fault β} (h : s.OkIfRoom result)
    (hnext : ∀ a, s.OkIfRoom (next a)) : s.OkIfRoom (result >>= next) := by
  cases result with
  | ok a => exact hnext a
  | error fault =>
    intro fault' heq
    exact h fault' (congrArg Except.error (Except.error.inj heq))

theorem opens (field : String) : s.OkIfRoom (s.corpus.opens field) := by
  intro fault h
  obtain ⟨rfl, hterms, hfull⟩ := Corpus.opens_eq_error_iff.1 h
  refine ⟨rfl, decide_eq_false_iff_not.1 hfull, fun hnil => ?_⟩
  rw [Corpus.hasTerms, hnil] at hterms
  cases hterms

theorem exists_ok {result : Except Fault α} (h : s.OkIfRoom result)
    (hroom : s.config.Fits ∨ s.corpus.documents = []) : ∃ a, result = .ok a := by
  cases result with
  | ok a => exact ⟨a, rfl⟩
  | error fault =>
    obtain ⟨-, hfull, hne⟩ := h fault rfl
    exact (hroom.elim hfull hne).elim

end OkIfRoom

theorem segments_eq (s : Snapshot) : s.segments = SegmentView.layOut s.stamp 0 0 s.parts := s.laidOut

theorem stamp_of_mem_segments {view : SegmentView} (h : view ∈ s.segments) : view.stamp = s.stamp := by
  rw [segments_eq] at h
  exact SegmentView.stamp_of_mem_layOut h

theorem maxDoc_eq_length (s : Snapshot) : s.maxDoc = s.corpus.documents.length := by
  rw [s.maxDoc_eq, segments_eq, SegmentView.countAll_layOut]
  rfl

theorem sound_ofSegments (stamp : Nat) {schema : Schema} (config : Config) {segments : List Segment}
    (h : ∀ segment ∈ segments, segment.Sound schema)
    (hcount : total (segments.map (·.count)) ≤ noMoreDocs) :
    (ofSegments stamp schema config segments).Sound where
  parts := by rw [parts_ofSegments]; exact h
  maxDoc_le := by
    rw [maxDoc_eq_length, corpus, parts_ofSegments, Segment.length_stored]
    exact hcount

theorem mem_parts {view : SegmentView} (h : view ∈ s.segments) : view.segment ∈ s.parts :=
  List.mem_map_of_mem h

theorem mem_encode {docs : Ascending} {d : Nat} : d ∈ s.encode docs ↔ d ∈ docs.toList := by
  rw [encode]
  split
  · rw [DocSet.mem_bits, Std.ExtTreeSet.mem_ofList, List.contains_iff_mem]
  · rfl

theorem has_corpus_iff {d : Nat} {term : Term} :
    s.corpus.Has d term ↔
      ∃ segment e, Segment.locate? s.parts d = some (segment, e) ∧
        e ∈ s.schema.having segment.documents term := by
  simp only [Schema.mem_having]
  exact Segment.exists_getElem?_stored

theorem isLive_eq (s : Snapshot) (d : Nat) : s.isLive d = s.corpus.isLive d := by
  rw [isLive, Corpus.isLive, s.maxDoc_eq_length]
  rfl

/-- The documents with a property are found by going through the segments. -/
theorem exists_mem_segments_iff (s : Snapshot) (p : Segment → Nat → Prop) (d : Nat) :
    (∃ view ∈ s.segments, ∃ e, e < view.count ∧ p view.segment e ∧ e + view.base = d) ↔
      ∃ segment e, Segment.locate? s.parts d = some (segment, e) ∧ p segment e := by
  have h := SegmentView.exists_mem_layOut_iff s.stamp 0 0 s.parts p d
  rwa [← s.segments_eq, and_iff_right (Nat.zero_le d), Nat.sub_zero] at h

namespace Sound

variable (hs : s.Sound)
include hs

/-- **The segments of a snapshot tile the ordinals of its documents.** -/
theorem tiles : SegmentView.Tiles 0 s.segments s.maxDoc := by
  have htiles := SegmentView.tiles_layOut s.stamp 0 0 fun segment hmem => (hs.parts segment hmem).pos
  rw [← s.segments_eq, Nat.zero_add] at htiles
  rw [s.maxDoc_eq_length]
  exact htiles

theorem count_le {view : SegmentView} (hview : view ∈ s.segments) : view.count ≤ noMoreDocs := by
  have hend := hs.tiles.base_add_count_le hview
  have hmax := hs.maxDoc_le
  omega

/-- **An ordinal is looked up in the segment that has it.** -/
theorem segmentFor?_eq_some_iff {d : Nat} {view : SegmentView} :
    s.segmentFor? d = some view ↔ view ∈ s.segments ∧ view.base ≤ d ∧ d < view.base + view.count := by
  have hlast : ∀ view ∈ s.segments, view.base ≤ d → d < view.base + view.count →
      s.segmentFor? d = some view := by
    intro view hview hbase hend
    have hle := hs.tiles.base_add_count_le hview
    rw [segmentFor?, if_pos (by omega)]
    exact hs.tiles.getLast?_takeWhile hview hbase hend
  constructor
  · intro hfor
    have hlt : d < s.maxDoc := by
      by_contra hge
      rw [segmentFor?, if_neg hge] at hfor
      cases hfor
    obtain ⟨found, hfound, hbase, hend⟩ := hs.tiles.exists_mem (Nat.zero_le d) hlt
    rw [hlast found hfound hbase hend] at hfor
    cases hfor
    exact ⟨hfound, hbase, hend⟩
  · rintro ⟨hview, hbase, hend⟩
    exact hlast view hview hbase hend

theorem segmentFor?_eq_none_iff {d : Nat} : s.segmentFor? d = none ↔ s.maxDoc ≤ d := by
  constructor
  · intro hnone
    by_contra hlt
    obtain ⟨view, hview⟩ := hs.tiles.exists_mem (Nat.zero_le d) (Nat.not_le.1 hlt)
    rw [hs.segmentFor?_eq_some_iff.2 hview] at hnone
    cases hnone
  · intro hle
    rw [segmentFor?, if_neg (Nat.not_lt.2 hle)]

theorem segmentFor?_of_locate? {d : Nat} {segment : Segment} {e : Nat}
    (h : Segment.locate? s.parts d = some (segment, e)) :
    ∃ view, s.segmentFor? d = some view ∧ view.segment = segment ∧ d - view.base = e := by
  obtain ⟨view, hview, e', hcount, ⟨hsegment, rfl⟩, hd⟩ :=
    (s.exists_mem_segments_iff (fun found i => found = segment ∧ i = e) d).2 ⟨segment, e, h, rfl, rfl⟩
  exact ⟨view, hs.segmentFor?_eq_some_iff.2 ⟨hview, by omega, by omega⟩, hsegment, by omega⟩

theorem document?_eq (d : Nat) : s.document? d = s.corpus.document? d := by
  rw [document?, Corpus.document?, s.isLive_eq]
  split
  · rename_i hlive
    obtain ⟨segment, e, hplace⟩ := Segment.exists_locate? (Corpus.isLive_iff.1 hlive).1
    obtain ⟨view, hview, rfl, he⟩ := hs.segmentFor?_of_locate? hplace
    rw [hview, Option.bind_some, he, corpus, Segment.getElem?_stored, hplace, Option.bind_some]
  · rfl

theorem selectBy_eq (p : Nat → Document → Bool) : s.selectBy p = s.corpus.selectBy p := by
  rw [selectBy, liveDocuments, Corpus.selectBy, s.maxDoc_eq_length]
  induction List.range s.corpus.documents.length with
  | nil => rfl
  | cons d rest ih =>
    rw [List.filterMap_cons, List.filter_cons, hs.document?_eq]
    cases s.corpus.document? d with
    | none => exact ih
    | some doc =>
      rw [Option.map_some, List.filter_cons, Option.any_some]
      by_cases hp : p d doc = true
      · rw [if_pos hp, if_pos hp, List.map_cons, ih]
      · rw [if_neg hp, if_neg hp, ih]

theorem mem_deleted_iff {d : Nat} : d ∈ s.deleted ↔ Segment.IsMarked s.parts d := by
  rw [s.deleted_eq, s.segments_eq]
  exact SegmentView.mem_deletedIn_layOut fun segment h => (hs.parts segment h).deleted

theorem size_deleted_le : s.deleted.size ≤ s.maxDoc := by
  have hsub : s.deleted.toList ⊆ List.range s.maxDoc := by
    intro d hd
    rw [Std.ExtTreeSet.mem_toList, hs.mem_deleted_iff] at hd
    obtain ⟨segment, e, hplace, _⟩ := hd
    rw [List.mem_range, s.maxDoc_eq_length]
    exact Segment.isSome_locate?.1 (by rw [hplace]; rfl)
  have hnodup : s.deleted.toList.Nodup := s.deleted.pairwise_toList.imp fun h => Nat.ne_of_lt h
  have hle := (List.subperm_of_subset hnodup hsub).length_le
  rwa [Std.ExtTreeSet.length_toList, List.length_range] at hle

theorem docs?_eq {view : SegmentView} (h : view ∈ s.segments) (term : Term) :
    view.segment.docs? term.field term.text = s.schema.listed view.segment.documents term :=
  (hs.parts _ (mem_parts h)).docs term

theorem mem_postings_iff {view : SegmentView} (h : view ∈ s.segments) {term : Term} {e : Nat} :
    (∃ docs, view.segment.docs? term.field term.text = some docs ∧ e ∈ docs.toList) ↔
      e ∈ s.schema.having view.segment.documents term := by
  rw [hs.docs?_eq h, ← Schema.toList_listed]
  cases s.schema.listed view.segment.documents term <;> simp

theorem mem_liveDocs_iff {view : SegmentView} (h : view ∈ s.segments) (term : Term) {d : Nat} :
    d ∈ view.liveDocs term.field term.text ↔
      ∃ e, e < view.count ∧
        (e ∈ s.schema.having view.segment.documents term ∧ e ∉ view.segment.deleted) ∧
          e + view.base = d := by
  have hlive : d ∈ view.liveDocs term.field term.text ↔
      ∃ e, (∃ docs, view.segment.docs? term.field term.text = some docs ∧ e ∈ docs.toList) ∧
        e ∉ view.segment.deleted ∧ e + view.base = d := by
    rw [SegmentView.liveDocs, Segment.liveDocs]
    cases view.segment.docs? term.field term.text with
    | none => simp
    | some docs =>
      simp only [List.mem_map, List.mem_filter, Bitmap.not_contains_iff,
        Option.some.injEq, exists_eq_left', and_assoc]
  rw [hlive]
  refine exists_congr fun e => ?_
  rw [hs.mem_postings_iff h, and_assoc]
  exact (and_iff_right_of_imp fun he => Schema.lt_size_of_mem_having he.1).symm

theorem mem_flatMap_liveDocs_iff {field text : String} {d : Nat} :
    d ∈ s.segments.flatMap (·.liveDocs field text) ↔
      s.corpus.isLive d = true ∧ s.corpus.Has d ⟨field, text⟩ := by
  rw [List.mem_flatMap, Corpus.isLive_iff, has_corpus_iff]
  have hviews : (∃ view ∈ s.segments, d ∈ view.liveDocs field text) ↔
      ∃ segment e, Segment.locate? s.parts d = some (segment, e) ∧
        (e ∈ s.schema.having segment.documents ⟨field, text⟩ ∧ e ∉ segment.deleted) := by
    rw [← s.exists_mem_segments_iff]
    exact exists_congr fun view => and_congr_right fun hview =>
      hs.mem_liveDocs_iff hview ⟨field, text⟩
  rw [hviews]
  change _ ↔ (d < (Segment.stored s.parts).length ∧ d ∉ s.deleted) ∧ _
  rw [hs.mem_deleted_iff, Segment.IsMarked, ← Segment.isSome_locate?]
  cases Segment.locate? s.parts d with
  | none => simp
  | some place =>
    obtain ⟨segment, e⟩ := place
    simp only [Option.some.injEq, Prod.mk.injEq, Option.isSome_some, true_and]
    constructor
    · rintro ⟨_, _, ⟨rfl, rfl⟩, he, hlive⟩
      refine ⟨?_, _, _, ⟨rfl, rfl⟩, he⟩
      rintro ⟨_, _, ⟨rfl, rfl⟩, hdeleted⟩
      exact hlive hdeleted
    · rintro ⟨hlive, _, _, ⟨rfl, rfl⟩, he⟩
      exact ⟨_, _, ⟨rfl, rfl⟩, he, fun hdeleted => hlive ⟨_, _, ⟨rfl, rfl⟩, hdeleted⟩⟩

/-- **The set of a term has the live documents of the corpus that have the term.** -/
theorem mem_termDocs_iff {field text : String} {d : Nat} :
    d ∈ s.termDocs field text ↔ s.corpus.isLive d = true ∧ s.corpus.Has d ⟨field, text⟩ := by
  rw [termDocs, mem_encode]
  exact hs.mem_flatMap_liveDocs_iff

end Sound

end Snapshot

end TermJoin
