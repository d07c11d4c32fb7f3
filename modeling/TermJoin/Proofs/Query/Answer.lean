import TermJoin.Proofs.Schema.FullTerms
import TermJoin.Proofs.Snapshot.Stops
import TermJoin.Query.Rewrite

/-!
# What a corpus answers

The answer of a corpus to a query: the selected documents, or the fault, read off the list of documents. It
knows no segments, no dictionaries and no caches.

* `Corpus.texts`, `Corpus.expand`: the terms of a field, and those that start with a stem.
* `Corpus.joined`: the documents that share a term; **`Corpus.mem_joined`**.
* `Corpus.answer`: the answer to any query.
* `Corpus.exists_selectBy_of_answer`: an answer is an ascending list of live documents.
* **`Snapshot.gather_eq`**, **`Snapshot.Sound.expand_eq`**: the dictionaries expand a stem as the corpus does.
-/

namespace TermJoin

namespace Corpus

variable (corpus : Corpus)

/-! ## Terms -/

/-- The texts of the terms that documents have in a field, deleted ones included, ascending. -/
def texts (field : String) : List String :=
  (Std.ExtTreeSet.ofList (corpus.documents.flatMap (corpus.schema.textsIn · field))).toList

/-- The texts that start with a stem. -/
def textsFrom (field stem : String) : List String :=
  (corpus.texts field).filter fun text => stem.toList.isPrefixOf text.toList

/-- The terms of a text field that start with the stem, unless there are too many. -/
def expand (field stem : String) : Except Fault (List String) :=
  if (corpus.schema.fieldType? field).any (·.supportsStem) then do
    corpus.opens field
    if corpus.maxExpansions < (corpus.textsFrom field stem).length then
      .error (.tooManyTerms field stem corpus.maxExpansions)
    else .ok (corpus.textsFrom field stem)
  else .ok []

variable {corpus}

theorem mem_texts {field text : String} :
    text ∈ corpus.texts field ↔ ∃ d, corpus.Has d ⟨field, text⟩ := by
  rw [texts, Std.ExtTreeSet.mem_toList, Std.ExtTreeSet.mem_ofList, List.contains_iff_mem,
    List.mem_flatMap]
  constructor
  · rintro ⟨doc, hdoc, htext⟩
    obtain ⟨d, hd⟩ := List.mem_iff_getElem?.1 hdoc
    exact ⟨d, has_iff.2 ⟨doc, hd, htext⟩⟩
  · rintro ⟨d, hd⟩
    obtain ⟨doc, hdoc, htext⟩ := has_iff.1 hd
    exact ⟨doc, List.mem_iff_getElem?.2 ⟨d, hdoc⟩, htext⟩

theorem pairwise_texts (field : String) : (corpus.texts field).Pairwise (· < ·) :=
  (Std.ExtTreeSet.ofList (corpus.documents.flatMap (corpus.schema.textsIn · field))).ordered_toList.imp
    fun h => compareOfLessAndEq_eq_lt.1 h

theorem pairwise_textsFrom (field stem : String) : (corpus.textsFrom field stem).Pairwise (· < ·) :=
  (corpus.pairwise_texts field).filter _

/-! ## Joins -/

variable (corpus) in
/-- The live documents that share, in the target field, a full term with one of these in the source
field. -/
def joined (source target : String) (selected : List Nat) : List Nat :=
  corpus.selectBy fun _ doc => (corpus.schema.textsIn doc target).any fun text =>
    corpus.schema.isFull source text &&
      selected.any fun e => corpus.documents[e]?.any (corpus.schema.holds · ⟨source, text⟩)

theorem mem_joined {source target : String} {selected : List Nat} {d : Nat} :
    d ∈ corpus.joined source target selected ↔
      ∃ e ∈ selected, ∃ text, corpus.schema.isFull source text = true ∧
        corpus.Has e ⟨source, text⟩ ∧ corpus.isLive d = true ∧ corpus.Has d ⟨target, text⟩ := by
  rw [joined, mem_selectBy, exists_document?_iff]
  simp only [List.any_eq_true, Bool.and_eq_true, Option.any_eq_true]
  constructor
  · rintro ⟨hlive, doc, hdoc, text, htext, hfull, e, he, hhas⟩
    exact ⟨e, he, text, hfull, hhas, hlive, has_iff.2 ⟨doc, hdoc, htext⟩⟩
  · rintro ⟨e, he, text, hfull, hhas, hlive, hd⟩
    obtain ⟨doc, hdoc, htext⟩ := has_iff.1 hd
    exact ⟨hlive, doc, hdoc, text, htext, hfull, e, he, hhas⟩

/-! ## Answers -/

/-- Whether the clauses that include let a document in: all that must, or any that should, or all
documents. -/
def includes (musts shoulds : List (List Nat)) (d : Nat) : Bool :=
  if !musts.isEmpty then musts.all (·.contains d)
  else if !shoulds.isEmpty then shoulds.any (·.contains d)
  else true

mutual

/-- The answer to a query: the ordinals of the selected documents, ascending, or the first fault met. -/
def answer (corpus : Corpus) : Query → Except Fault (List Nat)
  | .all => .ok (corpus.selectBy fun _ _ => true)
  | .term t => .ok (corpus.selectBy fun _ doc => corpus.schema.holds doc t)
  | .startsWith field stem => do
    let texts ← corpus.expand field stem
    return corpus.selectBy fun _ doc => texts.any fun text => corpus.schema.holds doc ⟨field, text⟩
  | .boolean [] => .ok []
  | .boolean clauses => do
    let musts ← corpus.answerClauses .must clauses
    let shoulds ← (if musts.isEmpty then corpus.answerClauses .should clauses else .ok [])
    let excluded ← corpus.answerClauses .mustNot clauses
    return corpus.selectBy fun d _ => includes musts shoulds d && !excluded.any (·.contains d)
  | .join source target sub _ => do
    let selected ← corpus.answer sub
    corpus.opens source
    corpus.opens target
    return corpus.joined source target selected
termination_by structural q => q

/-- The answers to the clauses of one kind, in their order. -/
def answerClauses (corpus : Corpus) (kind : Occur) :
    List (Occur × Query) → Except Fault (List (List Nat))
  | [] => .ok []
  | (occur, q) :: clauses => do
    if occur = kind then
      let docs ← corpus.answer q
      return docs :: (← corpus.answerClauses kind clauses)
    else corpus.answerClauses kind clauses
termination_by structural clauses => clauses

end

theorem answer_boolean {clauses : List (Occur × Query)} (h : clauses ≠ []) :
    corpus.answer (.boolean clauses) = (do
      let musts ← corpus.answerClauses .must clauses
      let shoulds ← (if musts.isEmpty then corpus.answerClauses .should clauses else .ok [])
      let excluded ← corpus.answerClauses .mustNot clauses
      return corpus.selectBy fun d _ => includes musts shoulds d && !excluded.any (·.contains d)) := by
  rw [answer]
  exact h

theorem answer_join_eq_ok_iff {source target : String} {sub : Query} {boost : Single} {docs : List Nat} :
    corpus.answer (.join source target sub boost) = .ok docs ↔
      ∃ selected, corpus.answer sub = .ok selected ∧ corpus.opens source = .ok () ∧
        corpus.opens target = .ok () ∧ docs = corpus.joined source target selected := by
  rw [answer]
  constructor
  · intro h
    obtain ⟨selected, hselected, h⟩ := exists_of_bind_eq_ok h
    obtain ⟨_, hsource, h⟩ := exists_of_bind_eq_ok h
    obtain ⟨_, htarget, h⟩ := exists_of_bind_eq_ok h
    exact ⟨selected, hselected, hsource, htarget, (Except.ok.inj h).symm⟩
  · rintro ⟨selected, hselected, hsource, htarget, rfl⟩
    rw [hselected, hsource, htarget]
    rfl

theorem eq_of_expand {field stem : String} {texts : List String}
    (h : corpus.expand field stem = .ok texts) :
    texts = if (corpus.schema.fieldType? field).any (·.supportsStem) then corpus.textsFrom field stem else [] := by
  rw [expand] at h
  split at h
  · rename_i hsupports
    obtain ⟨_, _, h⟩ := exists_of_bind_eq_ok h
    split at h
    · cases h
    · cases h
      exact (if_pos hsupports).symm
  · rename_i hsupports
    cases h
    exact (if_neg hsupports).symm

/-- An answer lists live documents in ascending order. -/
theorem exists_selectBy_of_answer {q : Query} {docs : List Nat} (h : corpus.answer q = .ok docs) :
    ∃ p, docs = corpus.selectBy p := by
  cases q with
  | all => exact ⟨_, (Except.ok.inj h).symm⟩
  | term t => exact ⟨_, (Except.ok.inj h).symm⟩
  | startsWith field stem =>
    rw [answer] at h
    obtain ⟨texts, _, h⟩ := exists_of_bind_eq_ok h
    exact ⟨_, (Except.ok.inj h).symm⟩
  | boolean clauses =>
    cases clauses with
    | nil => exact ⟨_, (Except.ok.inj h).symm.trans selectBy_false.symm⟩
    | cons clause clauses =>
      rw [answer_boolean (List.cons_ne_nil clause clauses)] at h
      obtain ⟨musts, _, h⟩ := exists_of_bind_eq_ok h
      obtain ⟨shoulds, _, h⟩ := exists_of_bind_eq_ok h
      obtain ⟨excluded, _, h⟩ := exists_of_bind_eq_ok h
      exact ⟨_, (Except.ok.inj h).symm⟩
  | join source target sub boost =>
    obtain ⟨selected, _, _, _, hdocs⟩ := answer_join_eq_ok_iff.1 h
    exact ⟨_, hdocs⟩

/-! ## Room -/

theorem ite_error_ne {c : Prop} [Decidable c] {α : Type} {fault other : Fault} {a : α} (h : other ≠ fault) :
    (if c then Except.error other else .ok a) ≠ .error fault := by
  split
  · exact fun heq => h (Except.error.inj heq)
  · exact fun heq => nomatch heq

theorem expand_ne_overflow (h : corpus.fits = true) (field stem : String) :
    corpus.expand field stem ≠ .error .capacityOverflow := by
  rw [expand, opens_of_fits h]
  split
  · exact ite_error_ne fun heq => nomatch heq
  · exact fun heq => nomatch heq

mutual

theorem answer_ne_overflow (h : corpus.fits = true) : ∀ q, corpus.answer q ≠ .error .capacityOverflow
  | .all => fun heq => nomatch heq
  | .term _ => fun heq => nomatch heq
  | .startsWith field stem => by
    rw [answer]
    exact bind_ne_error (expand_ne_overflow h field stem) fun _ heq => nomatch heq
  | .boolean [] => fun heq => nomatch heq
  | .boolean (clause :: clauses) => by
    have hclauses : ∀ kind, _ := fun kind => answerClauses_ne_overflow h kind (clause :: clauses)
    rw [answer_boolean (List.cons_ne_nil clause clauses)]
    refine bind_ne_error (hclauses .must) fun musts => bind_ne_error ?_ fun shoulds =>
      bind_ne_error (hclauses .mustNot) fun _ heq => nomatch heq
    split
    · exact hclauses .should
    · exact fun heq => nomatch heq
  | .join source target sub _ => by
    rw [answer, opens_of_fits h, opens_of_fits h]
    exact bind_ne_error (answer_ne_overflow h sub) fun _ heq => nomatch heq
termination_by structural q => q

theorem answerClauses_ne_overflow (h : corpus.fits = true) (kind : Occur) :
    ∀ clauses, corpus.answerClauses kind clauses ≠ .error .capacityOverflow
  | [] => fun heq => nomatch heq
  | (occur, q) :: clauses => by
    rw [answerClauses]
    split
    · exact bind_ne_error (answer_ne_overflow h q) fun _ =>
        bind_ne_error (answerClauses_ne_overflow h kind clauses) fun _ heq => nomatch heq
    · exact answerClauses_ne_overflow h kind clauses
termination_by structural clauses => clauses

end

/-! ## Live documents -/

theorem isLive_of_mem_answer {q : Query} {docs : List Nat} (h : corpus.answer q = .ok docs) {d : Nat}
    (hd : d ∈ docs) : corpus.isLive d = true := by
  obtain ⟨p, rfl⟩ := exists_selectBy_of_answer h
  obtain ⟨doc, hdoc, _⟩ := mem_selectBy.1 hd
  exact (document?_eq_some_iff.1 hdoc).1

theorem isLive_of_mem_answerClauses {kind : Occur} {clauses : List (Occur × Query)}
    {lists : List (List Nat)} (h : corpus.answerClauses kind clauses = .ok lists) {docs : List Nat}
    (hdocs : docs ∈ lists) {d : Nat} (hd : d ∈ docs) : corpus.isLive d = true := by
  induction clauses generalizing lists with
  | nil =>
    cases h
    cases hdocs
  | cons clause clauses ih =>
    obtain ⟨occur, q⟩ := clause
    rw [answerClauses] at h
    split at h
    · obtain ⟨first, hfirst, h⟩ := exists_of_bind_eq_ok h
      obtain ⟨rest, hrest, h⟩ := exists_of_bind_eq_ok h
      cases h
      rcases List.mem_cons.1 hdocs with rfl | hdocs
      · exact isLive_of_mem_answer hfirst hd
      · exact ih hrest hdocs
    · exact ih h hdocs

theorem isEmpty_of_answerClauses {kind : Occur} {clauses : List (Occur × Query)}
    {lists : List (List Nat)} (h : corpus.answerClauses kind clauses = .ok lists) :
    lists.isEmpty = !clauses.any (·.1 == kind) := by
  induction clauses generalizing lists with
  | nil =>
    cases h
    rfl
  | cons clause clauses ih =>
    obtain ⟨occur, p⟩ := clause
    rw [answerClauses] at h
    split at h
    · rename_i hkind
      obtain ⟨docs, -, h⟩ := exists_of_bind_eq_ok h
      obtain ⟨rest, -, h⟩ := exists_of_bind_eq_ok h
      cases h
      simp [hkind]
    · rename_i hkind
      rw [ih h]
      simp [hkind]

end Corpus

/-! ## Stems -/

namespace Snapshot

variable {s : Snapshot} {field stem : String}

/-- **All the terms that start with the stem are found**, if there are not too many with those found before. -/
theorem gather_eq {limit : Nat} {found : Array String} (h : found.size ≤ limit) (c : TermCursor) :
    gather field stem limit found c =
      let texts := found.toList ++ c.stopTerms fun text => stem.toList.isPrefixOf text.toList
      if limit < texts.length then .error (.tooManyTerms field stem limit) else .ok texts := by
  -- along the cursor; what was found never exceeds the limit
  have hfits : ∀ found : Array String, found.size ≤ limit → ¬ limit < found.toList.length := by
    intro found hle
    rw [Array.length_toList]
    exact Nat.not_lt.2 hle
  fun_induction gather field stem limit found c with
  | case1 found c hnone =>
    rw [TermCursor.stopTerms_of_none hnone, List.append_nil]
    exact (if_neg (hfits found h)).symm
  | case2 found c term hterm hstem hfull =>
    rw [TermCursor.stopTerms_of_some hterm, if_pos hstem]
    refine (if_pos ?_).symm
    rw [List.length_append, List.length_cons, Array.length_toList]
    omega
  | case3 found c term hterm hstem hroom ih =>
    rw [ih (by rw [Array.size_push]; omega), TermCursor.stopTerms_of_some hterm, if_pos hstem,
      Array.toList_push, List.append_assoc, List.singleton_append]
  | case4 found c term hterm hstem =>
    rw [TermCursor.stopTerms_of_some hterm, if_neg hstem, List.append_nil]
    exact (if_neg (hfits found h)).symm

/-- **The dictionaries expand a stem as the corpus does.** -/
theorem Sound.expand_eq (hs : s.Sound) (field stem : String) :
    s.expand field stem = s.corpus.expand field stem := by
  rw [expand, Corpus.expand]
  change (if _ then _ else _) = if (s.schema.fieldType? field).any (·.supportsStem) = true then _ else _
  split
  · rcases hs.termCursor?_cases field noMoreDocs with
      ⟨hnone, hopens, hunknown⟩ | ⟨hover, hopens⟩ | ⟨c, hsome, hopens, hreads, _⟩
    · have hnil : s.corpus.textsFrom field stem = [] := by
        refine List.eq_nil_iff_forall_not_mem.2 fun t ht => ?_
        obtain ⟨d, hd⟩ := Corpus.mem_texts.1 (List.mem_filter.1 ht).1
        exact hunknown t (hs.knows_iff.2 ⟨d, hd⟩)
      rw [hnone, hopens, hnil]
      rfl
    · rw [hover, hopens]
      rfl
    · have hahead := hreads.seek stem
      have hstops : ((c.seek stem).stopTerms fun t => stem.toList.isPrefixOf t.toList) =
          s.corpus.textsFrom field stem := by
        refine hahead.pairwise_stopTerms.eq_of_mem_iff (Corpus.pairwise_textsFrom field stem) fun t => ?_
        rw [hahead.mem_stopTerms_iff fun t u => isPrefixOf_of_le, hs.knows_iff,
          and_iff_right_of_imp le_of_isPrefixOf, Corpus.textsFrom, List.mem_filter, Corpus.mem_texts]
      rw [hsome, hopens]
      change gather field stem s.config.maxExpansions #[] (c.seek stem) = _
      rw [gather_eq (Nat.zero_le _), hstops]
      rfl
  · rfl

end Snapshot

end TermJoin
