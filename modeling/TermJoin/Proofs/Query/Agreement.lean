import TermJoin.Proofs.Join.Members
import TermJoin.Proofs.Query.Selection

/-!
# Agreement with the stored documents

On every snapshot that some history leads to, and whatever was asked of it before, the set of a query is
what a look at every stored document selects. A join from texts to numbers can have more: a text may read
like the term of a number with fewer bits.

* **`Snapshot.Reachable.toSortedList_docSet`**: queries that join no texts with numbers.
* `Snapshot.Strays`: a document with a term of fewer bits that is a text of a selected one.
* **`Snapshot.Reachable.mem_docSet_mixed_join`**: a join from texts to numbers has the selection and the
  strays, and is right exactly if all strays are selected anyway.
* `mixedSnapshot_docSet_ne_select`: one that is wrong.
-/

namespace TermJoin.Snapshot

variable {s : Snapshot}

/-! ## Queries that join no texts with numbers -/

/-- **The set of a query is the selection from the stored documents**, whatever was asked before. -/
theorem Reachable.toSortedList_docSet (h : s.Reachable) (calls : List Call) {q : Query}
    (hq : q.Unmixed s.schema) {set : DocSet}
    (hset : ((s.docSet q).run.run (s.cachesAfter calls)).1 = .ok set) :
    set.toSortedList = s.select q := by
  have hanswer := h.sound.answer_eq_of_docSet (h.sound.faithful_cachesAfter calls) hset
  exact h.sound.eq_select_of_answer q _ hq hanswer

/-- The children of a parent, except those with a label that starts with `a`. -/
def unlabelledChildren : Query :=
  .boolean [(.must, .join "id" "parent" (.term ⟨"kind", "parent"⟩) .one),
    (.mustNot, .startsWith "label" "a")]

/-- Both find the child in the next segment. -/
theorem familySnapshot_unlabelledChildren :
    let caches := familySnapshot.cachesAfter [.search .all]
    ∃ set, ((familySnapshot.docSet unlabelledChildren).run.run caches).1 = .ok set ∧
      set.toSortedList = [2] ∧ set.toSortedList = familySnapshot.select unlabelledChildren := by
  intro caches
  have hreachable : familySnapshot.Reachable := reachable_afterHistory _ _ _ _
  have hanswer : familySnapshot.corpus.answer unlabelledChildren = .ok [2] := by decide +kernel
  have hunmixed : unlabelledChildren.Unmixed familySnapshot.schema := by
    simp only [unlabelledChildren, Query.Unmixed, Query.UnmixedClauses, and_true]
    exact fun hmixes => absurd hmixes.1 (by decide +kernel)
  obtain ⟨set, hset, hlist⟩ := hreachable.sound.exists_docSet
    (hreachable.sound.faithful_cachesAfter [.search .all]) hanswer
  exact ⟨set, hset, hlist, hreachable.toSortedList_docSet _ hunmixed hset⟩

/-! ## Joins from texts to numbers -/

/-- The document has, in the target field, a term with fewer bits than a full value that one of the given
documents has in the source field. -/
def Strays (s : Snapshot) (source target : String) (docs : List Nat) (d : Nat) : Prop :=
  ∃ doc, s.document? d = some doc ∧ ∃ e ∈ docs, ∃ first, s.document? e = some first ∧
    ∃ text, NumericTerm.fullStem.toList.isPrefixOf text.toList = false ∧
      s.schema.holds first ⟨source, text⟩ = true ∧ s.schema.holds doc ⟨target, text⟩ = true

theorem Sound.strays_iff (hs : s.Sound) {source target : String} {docs : List Nat}
    (hdocs : ∀ e ∈ docs, s.corpus.isLive e = true) {d : Nat} :
    s.Strays source target docs d ↔ ∃ e ∈ docs, ∃ text,
      NumericTerm.fullStem.toList.isPrefixOf text.toList = false ∧ s.corpus.Has e ⟨source, text⟩ ∧
        s.corpus.isLive d = true ∧ s.corpus.Has d ⟨target, text⟩ := by
  constructor
  · rintro ⟨doc, hdoc, e, he, first, hfirst, text, hshort, hsource, htarget⟩
    have hhas := hs.isLive_and_has_iff.2 ⟨first, hfirst, hsource⟩
    exact ⟨e, he, text, hshort, hhas.2, hs.isLive_and_has_iff.2 ⟨doc, hdoc, htarget⟩⟩
  · rintro ⟨e, he, text, hshort, hsource, hd⟩
    obtain ⟨first, hfirst, hhas⟩ := hs.isLive_and_has_iff.1 ⟨hdocs e he, hsource⟩
    obtain ⟨doc, hdoc, htarget⟩ := hs.isLive_and_has_iff.1 hd
    exact ⟨doc, hdoc, e, he, first, hfirst, text, hshort, hhas, htarget⟩

theorem Sound.mem_joined_mixed (hs : s.Sound) {source target : String}
    (hmixes : s.schema.Mixes source target) {sub : Query} (boost : Single)
    (hlive : ∀ e ∈ s.select sub, s.corpus.isLive e = true) {d : Nat} :
    d ∈ s.corpus.joined source target (s.select sub) ↔
      d ∈ s.select (.join source target sub boost) ∨ s.Strays source target (s.select sub) d := by
  obtain ⟨hsource, step, htarget⟩ := hmixes
  have htext : ∀ text, s.schema.isFull source text = true := fun text => by
    rw [Schema.isFull, hsource]
    rfl
  have hnumber : ∀ text, s.schema.isFull target text =
      NumericTerm.fullStem.toList.isPrefixOf text.toList := fun text => by
    rw [Schema.isFull, htarget]
    rfl
  rw [Corpus.mem_joined, hs.mem_select_join hlive, hs.strays_iff hlive]
  constructor
  · rintro ⟨e, he, text, hfull, hhas⟩
    cases hprefix : NumericTerm.fullStem.toList.isPrefixOf text.toList with
    | true => exact .inl ⟨e, he, text, ⟨hfull, (hnumber text).trans hprefix⟩, hhas⟩
    | false => exact .inr ⟨e, he, text, hprefix, hhas⟩
  · rintro (⟨e, he, text, hfull, hhas⟩ | ⟨e, he, text, _, hhas⟩)
    · exact ⟨e, he, text, hfull.1, hhas⟩
    · exact ⟨e, he, text, htext text, hhas⟩

/-- **A join from texts to numbers has the selection and the strays.** It is the selection exactly if each
stray is selected anyway. There is a set as far as both fields can be read. -/
theorem Reachable.mem_docSet_mixed_join (h : s.Reachable) (calls : List Call) {source target : String}
    (hmixes : s.schema.Mixes source target) {sub : Query} (hsub : sub.Unmixed s.schema)
    {selected : DocSet} (hselected : ((s.docSet sub).run.run (s.cachesAfter calls)).1 = .ok selected)
    (boost : Single) :
    let result := ((s.docSet (.join source target sub boost)).run.run (s.cachesAfter calls)).1
    (s.Overflows source target → result = .error .capacityOverflow) ∧
    (¬ s.Overflows source target → ∃ set, result = .ok set ∧
      (∀ d, d ∈ set ↔
        d ∈ s.select (.join source target sub boost) ∨ s.Strays source target (s.select sub) d) ∧
      (set.toSortedList = s.select (.join source target sub boost) ↔
        ∀ d, s.Strays source target (s.select sub) d → d ∈ s.select (.join source target sub boost))) := by
  intro result
  have hs := h.sound
  have hcaches := hs.faithful_cachesAfter calls
  have hsubanswer := hs.answer_eq_of_docSet hcaches hselected
  rw [hs.eq_select_of_answer sub _ hsub hsubanswer] at hsubanswer
  constructor
  · intro hover
    refine hs.docSet_eq_error hcaches ?_
    rw [Corpus.answer, hsubanswer]
    change s.corpus.opens source >>= (fun _ => s.corpus.opens target >>= fun _ => _) = _
    rw [← bind_assoc, hover.opens_eq]
    rfl
  · intro hroom
    obtain ⟨hsource, htarget⟩ := opens_eq_of_not_overflows hroom
    have hlive : ∀ e ∈ s.select sub, s.corpus.isLive e = true := fun e he =>
      Corpus.isLive_of_mem_answer hsubanswer he
    have hjoined : s.corpus.answer (.join source target sub boost) =
        .ok (s.corpus.joined source target (s.select sub)) :=
      Corpus.answer_join_eq_ok_iff.2 ⟨_, hsubanswer, hsource, htarget, rfl⟩
    obtain ⟨set, hset, hlist⟩ := hs.exists_docSet hcaches hjoined
    have hmem : ∀ d, d ∈ set ↔
        d ∈ s.select (.join source target sub boost) ∨ s.Strays source target (s.select sub) d := by
      intro d
      rw [← DocSet.mem_toSortedList, hlist, hs.mem_joined_mixed hmixes boost hlive]
    refine ⟨set, hset, hmem, ?_⟩
    constructor
    · intro heq d hd
      rw [← heq, DocSet.mem_toSortedList]
      exact (hmem d).2 (.inr hd)
    · intro hstrays
      refine DocSet.toSortedList_eq_of_mem_iff (hs.pairwise_select _) fun d => (hmem d).trans ?_
      exact or_iff_left_of_imp (hstrays d)

/-- A text that reads like a term of fewer bits, and a number with that term. -/
def mixedSnapshot : Snapshot :=
  afterHistory ⟨[("a", .text), ("b", .number)]⟩ default 0 [
    .add (.ofList [("a", "#160000800000000000")]), .add (.ofList [("b", "7")]), .commit]

/-- The number is a stray of the text, and so found. -/
theorem mixedSnapshot_strays :
    ∃ set, ((mixedSnapshot.docSet (.join "a" "b" .all .one)).run.run (mixedSnapshot.cachesAfter [])).1 =
        .ok set ∧ 1 ∈ set := by
  have hreachable : mixedSnapshot.Reachable := reachable_afterHistory _ _ _ _
  have hanswer : mixedSnapshot.corpus.answer .all = .ok [0, 1] := by decide +kernel
  obtain ⟨selected, hselected, _⟩ := hreachable.sound.exists_docSet
    (hreachable.sound.faithful_cachesAfter []) hanswer
  have hmixes : mixedSnapshot.schema.Mixes "a" "b" := ⟨by decide +kernel, 16, by decide +kernel⟩
  have hunmixed : Query.Unmixed mixedSnapshot.schema .all := trivial
  have hfits : mixedSnapshot.config.Fits := by decide +kernel
  obtain ⟨set, hset, hmem, _⟩ :=
    (hreachable.mem_docSet_mixed_join [] hmixes hunmixed hselected .one).2 fun hover => hover.1 hfits
  refine ⟨set, hset, (hmem 1).2 (.inr ?_)⟩
  exact ⟨.ofList [("b", "7")], by decide +kernel, 0, by decide +kernel,
    .ofList [("a", "#160000800000000000")], by decide +kernel, "#160000800000000000", by decide +kernel,
    by decide +kernel, by decide +kernel⟩

/-- No full value of a number is the text, so a look at the stored documents selects nothing. -/
theorem mixedSnapshot_docSet_ne_select :
    ∃ set, ((mixedSnapshot.docSet (.join "a" "b" .all .one)).run.run (mixedSnapshot.cachesAfter [])).1 =
        .ok set ∧ set.toSortedList = [1] ∧ mixedSnapshot.select (.join "a" "b" .all .one) = [] := by
  have hs : mixedSnapshot.Sound := (reachable_afterHistory _ _ _ _ : mixedSnapshot.Reachable).sound
  have hanswer : mixedSnapshot.corpus.answer (.join "a" "b" .all .one) = .ok [1] := by decide +kernel
  obtain ⟨set, hset, hlist⟩ := hs.exists_docSet (hs.faithful_cachesAfter []) hanswer
  refine ⟨set, hset, hlist, ?_⟩
  rw [select, contains_termsAmong]
  decide +kernel

end TermJoin.Snapshot
