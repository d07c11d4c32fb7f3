import Mathlib.Data.String.Basic
import TermJoin.Proofs.Snapshot.Corpus
import TermJoin.Snapshot.TermCursor

/-!
# The merged dictionary

A term cursor goes through the terms that the segments have between them. Whatever moves it made, what it
has ahead is a cut of these terms: all from some point on.

* `Snapshot.dictionaries`, `Snapshot.Knows`: the dictionaries of a field, and the terms in any of them.
* `TermCursor.Reads`, `TermCursor.Ahead`: a cursor reads a field of a snapshot, and has the terms of a cut
  ahead.
* **`TermCursor.Ahead.term?_eq_some_iff`**: it stands on the least term of the cut.
* **`TermCursor.Ahead.next`**, **`TermCursor.Reads.seek`**: where the moves lead.
* `SegmentTerms.Ahead.docs?_eq`: the documents at hand are those of the least term ahead.
* **`Snapshot.Sound.termCursor?_cases`**: there is a cursor exactly if there is a term, and room for a batch.
-/

namespace TermJoin

theorem least?_eq_none_iff {ts : List String} : least? ts = none ↔ ts = [] := by
  cases ts with
  | nil => exact iff_of_true rfl rfl
  | cons t ts =>
    refine iff_of_false (fun h => ?_) (List.cons_ne_nil t ts)
    rw [least?] at h
    split at h
    · cases h
    · split at h <;> cases h

theorem least?_le {ts : List String} {t u : String} (h : least? ts = some t) (hu : u ∈ ts) : t ≤ u := by
  induction ts generalizing t with
  | nil => cases hu
  | cons v ts ih =>
    rw [least?] at h
    split at h
    · rename_i hnone
      cases h
      rw [least?_eq_none_iff.1 hnone, List.mem_singleton] at hu
      exact le_of_eq hu.symm
    · rename_i w hw
      split at h
      · rename_i hlt
        cases h
        rcases List.mem_cons.1 hu with rfl | hu
        · exact le_of_lt hlt
        · exact ih hw hu
      · rename_i hle
        cases h
        rcases List.mem_cons.1 hu with rfl | hu
        · exact le_refl u
        · exact le_trans (not_lt.1 hle) (ih hw hu)

namespace Snapshot

variable (s : Snapshot) (field : String)

/-- The dictionaries of a field, with the segments that have one. -/
def dictionaries : List (SegmentView × Dictionary) :=
  s.segments.filterMap fun view => (view.dictionary? field).map (view, ·)

/-- Some segment has the term in the field. -/
def Knows (text : String) : Prop :=
  ∃ found ∈ s.dictionaries field, ∃ docs, (text, docs) ∈ found.2.entries

/-- The documents of a term in each segment that has it. -/
def entriesOf (text : String) : List (SegmentView × DocList) :=
  s.segments.filterMap fun view => (view.segment.docs? field text).map (view, ·)

variable {s field}

theorem docs?_eq_bind_dictionary? (view : SegmentView) (text : String) :
    view.segment.docs? field text = (view.dictionary? field).bind (·.docs? text) := by
  rw [Segment.docs?, SegmentView.dictionary?]
  cases view.segment.fields[field]? with
  | none => rfl
  | some dictionary =>
    rw [Option.bind_some, Option.filter_some]
    split
    · rfl
    · rename_i hempty
      -- a dictionary without terms finds nothing
      refine Option.eq_none_iff_forall_ne_some.2 fun docs hdocs => ?_
      have hmem := Dictionary.docs?_eq_some_iff.1 hdocs
      obtain ⟨i, hi, _⟩ := Array.mem_iff_getElem.1 hmem
      exact hempty (decide_eq_true (Nat.zero_lt_of_lt hi))

theorem entriesOf_eq (text : String) :
    s.entriesOf field text =
      (s.dictionaries field).filterMap fun found => (found.2.docs? text).map (found.1, ·) := by
  rw [entriesOf, dictionaries, List.filterMap_filterMap]
  refine List.filterMap_congr fun view _ => ?_
  rw [docs?_eq_bind_dictionary?]
  cases view.dictionary? field <;> rfl

theorem knows_iff {text : String} :
    s.Knows field text ↔ ∃ view ∈ s.segments, ∃ docs, view.segment.docs? field text = some docs := by
  rw [Knows, dictionaries]
  constructor
  · rintro ⟨found, hfound, docs, hmem⟩
    obtain ⟨view, hview, hdict⟩ := List.mem_filterMap.1 hfound
    obtain ⟨dictionary, hget, rfl⟩ := Option.map_eq_some_iff.1 hdict
    refine ⟨view, hview, docs, ?_⟩
    rw [docs?_eq_bind_dictionary?, hget]
    exact Dictionary.docs?_eq_some_iff.2 hmem
  · rintro ⟨view, hview, docs, hdocs⟩
    rw [docs?_eq_bind_dictionary?] at hdocs
    obtain ⟨dictionary, hdict, hdocs⟩ := Option.bind_eq_some_iff.1 hdocs
    exact ⟨(view, dictionary),
      List.mem_filterMap.2 ⟨view, hview, Option.map_eq_some_iff.2 ⟨dictionary, hdict, rfl⟩⟩, docs,
      Dictionary.docs?_eq_some_iff.1 hdocs⟩

/-- **The terms of the dictionaries are those of the documents.** -/
theorem Sound.knows_iff (hs : s.Sound) {text : String} :
    s.Knows field text ↔ ∃ d, s.corpus.Has d ⟨field, text⟩ := by
  have hview : ∀ view ∈ s.segments, (∃ docs, view.segment.docs? field text = some docs) ↔
      ∃ e, e ∈ s.schema.having view.segment.documents ⟨field, text⟩ := by
    intro view hview
    have hdocs := hs.docs?_eq hview ⟨field, text⟩
    constructor
    · rintro ⟨docs, hsome⟩
      refine List.exists_mem_of_ne_nil _ fun hnil => ?_
      rw [Schema.listed_eq_none_iff.2 hnil] at hdocs
      cases hsome.symm.trans hdocs
    · rintro ⟨e, he⟩
      obtain ⟨docs, hsome, _⟩ := (hs.mem_postings_iff hview).2 he
      exact ⟨docs, hsome⟩
  rw [Snapshot.knows_iff]
  constructor
  · rintro ⟨view, hmem, hdocs⟩
    obtain ⟨e, he⟩ := (hview view hmem).1 hdocs
    have hplace := (s.exists_mem_segments_iff
      (fun segment e => e ∈ s.schema.having segment.documents ⟨field, text⟩) (e + view.base)).1
      ⟨view, hmem, e, Schema.lt_size_of_mem_having he, he, rfl⟩
    exact ⟨e + view.base, has_corpus_iff.2 hplace⟩
  · rintro ⟨d, hd⟩
    obtain ⟨view, hmem, e, _, he, _⟩ := (s.exists_mem_segments_iff
      (fun segment e => e ∈ s.schema.having segment.documents ⟨field, text⟩) d).2 (has_corpus_iff.1 hd)
    exact ⟨view, hmem, (hview view hmem).2 ⟨e, he⟩⟩

end Snapshot

/-! ## Cuts of one dictionary -/

theorem Dictionary.getElem_lt_iff {dict : Dictionary} {i j : Nat} (hi : i < dict.entries.size)
    (hj : j < dict.entries.size) : dict.entries[i].1 < dict.entries[j].1 ↔ i < j := by
  have hasc : ∀ i j (hi : i < dict.entries.size) (hj : j < dict.entries.size), i < j →
      dict.entries[i].1 < dict.entries[j].1 := by
    intro i j hi hj hij
    exact List.pairwise_iff_getElem.1 dict.ascending i j hi hj hij
  refine ⟨fun hlt => ?_, hasc i j hi hj⟩
  rcases Nat.lt_trichotomy i j with hij | rfl | hji
  · exact hij
  · exact absurd hlt (lt_irrefl _)
  · exact absurd hlt (lt_asymm (hasc j i hj hi hji))

namespace SegmentTerms

/-- The unread terms are those of a cut. -/
def Ahead (terms : SegmentTerms) (cut : String → Prop) : Prop :=
  ∀ i (h : i < terms.dictionary.entries.size),
    terms.position ≤ i ↔ cut terms.dictionary.entries[i].1

variable {terms : SegmentTerms} {cut : String → Prop} {text : String}

theorem headTerm?_eq_some_iff :
    terms.headTerm? = some text ↔
      ∃ h : terms.position < terms.dictionary.entries.size,
        terms.dictionary.entries[terms.position].1 = text := by
  rw [headTerm?, head?, Option.map_eq_some_iff]
  constructor
  · rintro ⟨entry, hget, rfl⟩
    obtain ⟨hlt, rfl⟩ := Array.getElem?_eq_some_iff.1 hget
    exact ⟨hlt, rfl⟩
  · rintro ⟨hlt, rfl⟩
    exact ⟨_, Array.getElem?_eq_getElem hlt, rfl⟩

/-- The terms of the dictionary. -/
def Knows (terms : SegmentTerms) (text : String) : Prop :=
  ∃ docs, (text, docs) ∈ terms.dictionary.entries

theorem knows_iff : terms.Knows text ↔
    ∃ i, ∃ h : i < terms.dictionary.entries.size, terms.dictionary.entries[i].1 = text := by
  constructor
  · rintro ⟨docs, hmem⟩
    obtain ⟨i, hi, hget⟩ := Array.mem_iff_getElem.1 hmem
    exact ⟨i, hi, by rw [hget]⟩
  · rintro ⟨i, hi, rfl⟩
    exact ⟨_, Array.getElem_mem hi⟩

/-- The text is in the cut, and no term of the cut comes before it. -/
def IsLeast (terms : SegmentTerms) (cut : String → Prop) (text : String) : Prop :=
  cut text ∧ ∀ u, terms.Knows u → cut u → text ≤ u

theorem Ahead.of_headTerm? (h : terms.Ahead cut) (hhead : terms.headTerm? = some text) :
    terms.Knows text ∧ terms.IsLeast cut text := by
  obtain ⟨hlt, rfl⟩ := headTerm?_eq_some_iff.1 hhead
  refine ⟨knows_iff.2 ⟨_, hlt, rfl⟩, (h _ hlt).1 (Nat.le_refl _), fun u hu hcut => ?_⟩
  obtain ⟨i, hi, rfl⟩ := knows_iff.1 hu
  have hle := (h i hi).2 hcut
  exact not_lt.1 fun hlt' => Nat.not_lt.2 hle ((Dictionary.getElem_lt_iff hi hlt).1 hlt')

theorem Ahead.of_headTerm?_eq_none (h : terms.Ahead cut) (hhead : terms.headTerm? = none)
    (hknows : terms.Knows text) : ¬ cut text := by
  intro hcut
  obtain ⟨i, hi, rfl⟩ := knows_iff.1 hknows
  have hle := (h i hi).2 hcut
  rw [headTerm?, head?, Option.map_eq_none_iff, Array.getElem?_eq_none_iff] at hhead
  omega

theorem Ahead.headTerm?_eq (h : terms.Ahead cut) (hleast : terms.IsLeast cut text)
    (hknows : terms.Knows text) : terms.headTerm? = some text := by
  cases hhead : terms.headTerm? with
  | none => exact absurd hleast.1 (h.of_headTerm?_eq_none hhead hknows)
  | some u =>
    obtain ⟨hu, hcut, hleast'⟩ := h.of_headTerm? hhead
    exact congrArg some (le_antisymm (hleast' text hknows hleast.1) (hleast.2 u hu hcut))

theorem Ahead.docs?_eq (h : terms.Ahead cut) (hleast : terms.IsLeast cut text) :
    terms.docs? text = terms.dictionary.docs? text := by
  ext docs
  rw [Dictionary.docs?_eq_some_iff, docs?]
  constructor
  · intro hdocs
    split at hdocs
    · rename_i found docs' hget
      split at hdocs
      · rename_i heq
        cases hdocs
        exact heq ▸ Array.mem_of_getElem? hget
      · cases hdocs
    · cases hdocs
  · intro hmem
    obtain ⟨hlt, hterm⟩ := headTerm?_eq_some_iff.1 (h.headTerm?_eq hleast ⟨docs, hmem⟩)
    -- terms are told apart by their texts, so the first unread entry is this one
    obtain ⟨i, hi, hget⟩ := Array.mem_iff_getElem.1 hmem
    have hterm' : terms.dictionary.entries[i].1 = text := by rw [hget]
    have hpos : terms.position = i := by
      rcases Nat.lt_trichotomy terms.position i with hlt' | heq | hgt
      · have := (Dictionary.getElem_lt_iff hlt hi).2 hlt'
        rw [hterm, hterm'] at this
        exact absurd this (lt_irrefl _)
      · exact heq
      · have := (Dictionary.getElem_lt_iff hi hlt).2 hgt
        rw [hterm, hterm'] at this
        exact absurd this (lt_irrefl _)
    rw [head?, hpos, Array.getElem?_eq_getElem hi, hget]
    exact if_pos rfl

/-- Past the least term of a cut lie the terms after it. -/
theorem Ahead.skip (h : terms.Ahead cut) (hup : ∀ t u, cut t → t ≤ u → cut u)
    (hleast : terms.IsLeast cut text) : (terms.skip text).Ahead (text < ·) := by
  rw [SegmentTerms.skip]
  split
  · rename_i hhead
    obtain ⟨hlt, rfl⟩ := headTerm?_eq_some_iff.1 hhead
    exact fun i hi => Nat.succ_le_iff.trans (Dictionary.getElem_lt_iff hlt hi).symm
  · rename_i hhead
    intro i hi
    rw [h i hi]
    have hknows : terms.Knows terms.dictionary.entries[i].1 := knows_iff.2 ⟨i, hi, rfl⟩
    refine ⟨fun hcut => lt_of_le_of_ne (hleast.2 _ hknows hcut) fun heq => hhead ?_,
      fun hlt => hup _ _ hleast.1 (le_of_lt hlt)⟩
    exact h.headTerm?_eq hleast (heq ▸ hknows)

theorem ahead_seek (terms : SegmentTerms) (target : String) :
    (terms.seek target).Ahead (target ≤ ·) :=
  fun _ hi => Nat.not_lt.symm.trans ((not_congr (Dictionary.lt_ceil_iff hi)).trans not_lt)

end SegmentTerms

/-! ## Cuts of all dictionaries -/

namespace TermCursor

/-- The cursor goes through the dictionaries of a field. -/
structure Reads (c : TermCursor) (s : Snapshot) (field : String) : Prop where
  snapshot_eq : c.snapshot = s
  field_eq : c.field = field
  dictionaries_eq : c.segments.map (fun terms => (terms.view, terms.dictionary)) = s.dictionaries field

/-- The cursor has made a move, and the terms of a cut are those from its current one on. -/
structure Ahead (c : TermCursor) (s : Snapshot) (field : String) (cut : String → Prop) : Prop
    extends c.Reads s field where
  term?_eq : c.term? = least? (c.segments.filterMap (·.headTerm?))
  upward : ∀ t u, cut t → t ≤ u → cut u
  ahead : ∀ terms ∈ c.segments, terms.Ahead cut

variable {c : TermCursor} {s : Snapshot} {field text target : String} {cut : String → Prop}

theorem Reads.knows_iff (h : c.Reads s field) :
    s.Knows field text ↔ ∃ terms ∈ c.segments, terms.Knows text := by
  rw [Snapshot.Knows, ← h.dictionaries_eq]
  simp only [List.mem_map, exists_exists_and_eq_and]
  exact Iff.rfl

theorem Reads.settle (h : c.Reads s field) {move : SegmentTerms → SegmentTerms}
    (hmove : ∀ terms, (move terms).view = terms.view ∧ (move terms).dictionary = terms.dictionary) :
    (c.settle (c.segments.map move)).Reads s field where
  snapshot_eq := h.snapshot_eq
  field_eq := h.field_eq
  dictionaries_eq := by
    rw [← h.dictionaries_eq, TermCursor.settle, List.map_map]
    refine List.map_congr_left fun terms _ => ?_
    obtain ⟨hview, hdictionary⟩ := hmove terms
    rw [Function.comp_apply, hview, hdictionary]

theorem Ahead.isLeast (h : c.Ahead s field cut) (hterm : c.term? = some text) :
    (∃ terms ∈ c.segments, terms.Knows text) ∧ ∀ terms ∈ c.segments, terms.IsLeast cut text := by
  rw [h.term?_eq] at hterm
  obtain ⟨terms, hterms, hhead⟩ := List.mem_filterMap.1 (mem_of_least? hterm)
  obtain ⟨hknows, hcut, _⟩ := (h.ahead terms hterms).of_headTerm? hhead
  refine ⟨⟨terms, hterms, hknows⟩, fun terms' hterms' => ⟨hcut, fun u hu hcut' => ?_⟩⟩
  cases hhead' : terms'.headTerm? with
  | none => exact absurd hcut' ((h.ahead terms' hterms').of_headTerm?_eq_none hhead' hu)
  | some first =>
    have hfirst := least?_le hterm (List.mem_filterMap.2 ⟨terms', hterms', hhead'⟩)
    exact le_trans hfirst (((h.ahead terms' hterms').of_headTerm? hhead').2.2 u hu hcut')

theorem Ahead.term?_eq_some_iff (h : c.Ahead s field cut) :
    c.term? = some text ↔
      (s.Knows field text ∧ cut text) ∧ ∀ u, s.Knows field u → cut u → text ≤ u := by
  have hsound : ∀ {t}, c.term? = some t →
      (s.Knows field t ∧ cut t) ∧ ∀ u, s.Knows field u → cut u → t ≤ u := by
    intro t hterm
    obtain ⟨⟨terms, hterms, hknows⟩, hleast⟩ := h.isLeast hterm
    refine ⟨⟨h.knows_iff.2 ⟨terms, hterms, hknows⟩, (hleast terms hterms).1⟩, fun u hu hcut => ?_⟩
    obtain ⟨terms', hterms', hu⟩ := h.knows_iff.1 hu
    exact (hleast terms' hterms').2 u hu hcut
  refine ⟨hsound, fun ⟨⟨hknows, hcut⟩, hleast⟩ => ?_⟩
  cases hterm : c.term? with
  | none =>
    obtain ⟨terms, hterms, hknows⟩ := h.knows_iff.1 hknows
    rw [h.term?_eq, least?_eq_none_iff, List.filterMap_eq_nil_iff] at hterm
    exact absurd hcut ((h.ahead terms hterms).of_headTerm?_eq_none (hterm terms hterms) hknows)
  | some t =>
    obtain ⟨⟨ht, hcut'⟩, hleast'⟩ := hsound hterm
    exact congrArg some (le_antisymm (hleast' text hknows hcut) (hleast t ht hcut'))

theorem Ahead.term?_eq_none_iff (h : c.Ahead s field cut) :
    c.term? = none ↔ ∀ u, s.Knows field u → ¬ cut u := by
  rw [h.term?_eq, least?_eq_none_iff, List.filterMap_eq_nil_iff]
  constructor
  · intro hnone u hu
    obtain ⟨terms, hterms, hu⟩ := h.knows_iff.1 hu
    exact (h.ahead terms hterms).of_headTerm?_eq_none (hnone terms hterms) hu
  · intro hall terms hterms
    refine Option.eq_none_iff_forall_ne_some.2 fun t ht => ?_
    obtain ⟨hknows, hcut, _⟩ := (h.ahead terms hterms).of_headTerm? ht
    exact hall t (h.knows_iff.2 ⟨terms, hterms, hknows⟩) hcut

/-! ## Moves -/

/-- **A step leads to the terms after the current one.** -/
theorem Ahead.next (h : c.Ahead s field cut) (hterm : c.term? = some text) :
    c.next.Ahead s field (text < ·) := by
  have hskip : ∀ terms : SegmentTerms, (terms.skip text).view = terms.view ∧
      (terms.skip text).dictionary = terms.dictionary := by
    intro terms
    rw [SegmentTerms.skip]
    split <;> exact ⟨rfl, rfl⟩
  rw [TermCursor.next, hterm]
  refine ⟨h.toReads.settle hskip, rfl, fun t u ht hu => lt_of_lt_of_le ht hu, fun terms hterms => ?_⟩
  obtain ⟨terms, hmem, rfl⟩ := List.mem_map.1 hterms
  exact (h.ahead terms hmem).skip h.upward ((h.isLeast hterm).2 terms hmem)

/-- **A search leads to the terms at or after its target, from wherever it starts.** -/
theorem Reads.seek (h : c.Reads s field) (target : String) :
    (c.seek target).Ahead s field (target ≤ ·) where
  toReads := h.settle fun _ => ⟨rfl, rfl⟩
  term?_eq := rfl
  upward _ _ ht hu := le_trans ht hu
  ahead terms hterms := by
    obtain ⟨terms, _, rfl⟩ := List.mem_map.1 hterms
    exact terms.ahead_seek target

end TermCursor

namespace Snapshot

variable {s : Snapshot} {field : String} {threshold : Nat}

theorem reads_of_fieldCursor? {c : TermCursor} (h : s.fieldCursor? field threshold = some c) :
    c.Reads s field ∧ c.next.Ahead s field fun _ => True := by
  rw [fieldCursor?] at h
  split at h
  · cases h
  · cases h
    have hdictionaries : ((s.segments.filterMap fun view =>
        (view.dictionary? field).map fun dictionary => { view, dictionary : SegmentTerms }).map
          fun terms => (terms.view, terms.dictionary)) = s.dictionaries field := by
      rw [List.map_filterMap, dictionaries]
      refine List.filterMap_congr fun view _ => ?_
      rw [Option.map_map]
      rfl
    refine ⟨⟨rfl, rfl, hdictionaries⟩, ⟨⟨rfl, rfl, hdictionaries⟩, rfl, fun _ _ _ _ => trivial, ?_⟩⟩
    intro terms hterms i _
    obtain ⟨view, _, hdict⟩ := List.mem_filterMap.1 hterms
    obtain ⟨dictionary, _, rfl⟩ := Option.map_eq_some_iff.1 hdict
    exact iff_of_true (Nat.zero_le i) trivial

theorem isSome_fieldCursor?_iff :
    (s.fieldCursor? field threshold).isSome ↔ ∃ text, s.Knows field text := by
  constructor
  · intro hsome
    rw [fieldCursor?] at hsome
    split at hsome
    · cases hsome
    · rename_i hne
      rw [List.isEmpty_iff] at hne
      obtain ⟨terms, hterms⟩ := List.exists_mem_of_ne_nil _ hne
      obtain ⟨view, hview, hdict⟩ := List.mem_filterMap.1 hterms
      obtain ⟨dictionary, hget, _⟩ := Option.map_eq_some_iff.1 hdict
      -- a dictionary without terms counts as none
      have hsize : 0 < dictionary.entries.size := of_decide_eq_true (Option.filter_eq_some_iff.1 hget).2
      exact ⟨_, (view, dictionary),
        List.mem_filterMap.2 ⟨view, hview, Option.map_eq_some_iff.2 ⟨dictionary, hget, rfl⟩⟩,
        _, Array.getElem_mem hsize⟩
  · rintro ⟨text, found, hfound, _⟩
    obtain ⟨view, hview, hdict⟩ := List.mem_filterMap.1 hfound
    obtain ⟨dictionary, hget, _⟩ := Option.map_eq_some_iff.1 hdict
    have hterms : ({ view, dictionary } : SegmentTerms) ∈ s.segments.filterMap fun view =>
        (view.dictionary? field).map fun dictionary => { view, dictionary : SegmentTerms } :=
      List.mem_filterMap.2 ⟨view, hview, Option.map_eq_some_iff.2 ⟨dictionary, hget, rfl⟩⟩
    rw [fieldCursor?, if_neg fun hempty => List.ne_nil_of_mem hterms (List.isEmpty_iff.1 hempty)]
    rfl

/-- **All that comes of a cursor for a field**: there are no terms, or no room for a batch, or the cursor stands
before the first term. -/
theorem termCursor?_eq_none_iff :
    s.termCursor? field threshold = .ok none ↔ s.fieldCursor? field threshold = none := by
  rw [termCursor?]
  cases s.fieldCursor? field threshold with
  | none => exact iff_of_true rfl rfl
  | some c =>
    dsimp only
    split <;> exact iff_of_false (fun h => nomatch h) (Option.some_ne_none c)

theorem termCursor?_eq_some_iff {c : TermCursor} :
    s.termCursor? field threshold = .ok (some c) ↔
      s.config.Fits ∧ s.fieldCursor? field threshold = some c := by
  rw [termCursor?]
  cases s.fieldCursor? field threshold with
  | none => exact iff_of_false (fun h => nomatch h) fun h => nomatch h.2
  | some found =>
    dsimp only
    split
    · rename_i hfits
      rw [Except.ok.injEq, and_iff_right hfits]
    · rename_i hfull
      exact iff_of_false (fun h => nomatch h) fun h => hfull h.1

theorem Sound.termCursor?_cases (hs : s.Sound) (field : String) (threshold : Nat) :
    (s.termCursor? field threshold = .ok none ∧ s.corpus.opens field = .ok () ∧
      ∀ text, ¬ s.Knows field text) ∨
    (s.termCursor? field threshold = .error .capacityOverflow ∧
      s.corpus.opens field = .error .capacityOverflow) ∨
    ∃ c, s.termCursor? field threshold = .ok (some c) ∧ s.corpus.opens field = .ok () ∧
      c.Reads s field ∧ c.next.Ahead s field fun _ => True := by
  have hterms : s.corpus.hasTerms field = true ↔ (s.fieldCursor? field threshold).isSome := by
    rw [Corpus.hasTerms_iff, isSome_fieldCursor?_iff]
    exact exists_congr fun _ => hs.knows_iff.symm
  have hfits : s.corpus.fits = true ↔ s.config.Fits := decide_eq_true_iff
  rw [termCursor?, Corpus.opens]
  cases hc : s.fieldCursor? field threshold with
  | none =>
    rw [hc] at hterms
    refine .inl ⟨rfl, if_neg fun h => ?_, fun text htext => ?_⟩
    · cases hterms.1 h.1
    · have hsome : (s.fieldCursor? field threshold).isSome := isSome_fieldCursor?_iff.2 ⟨text, htext⟩
      rw [hc] at hsome
      cases hsome
  | some c =>
    rw [hc] at hterms
    dsimp only
    by_cases hroom : s.config.Fits
    · rw [if_pos hroom, if_neg fun h => Bool.false_ne_true (h.2.symm.trans (hfits.2 hroom))]
      exact .inr (.inr ⟨c, rfl, rfl, reads_of_fieldCursor? hc⟩)
    · rw [if_neg hroom, if_pos ⟨hterms.2 rfl, Bool.eq_false_iff.2 (mt hfits.1 hroom)⟩]
      exact .inr (.inl ⟨rfl, rfl⟩)

end Snapshot

end TermJoin
