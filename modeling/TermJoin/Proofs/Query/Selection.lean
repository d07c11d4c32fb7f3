import TermJoin.Proofs.Query.Answer
import TermJoin.Query.Selection

/-!
# Answers and stored documents

What the corpus answers, and with it what the index finds, is what a look at every stored document selects.
Only a join of numbers with texts is an exception: the texts may be those of numbers of fewer bits.

* `Schema.Mixes`, `Query.Unmixed`: a join from texts to numbers, and a query without one at any depth.
* **`Snapshot.Sound.mem_select_join`**: the selection of any join shares terms that are full on both sides.
* **`Snapshot.Sound.eq_select_of_answer`**: an answer to an unmixed query is the selection from the stored
  documents.
-/

namespace TermJoin

/-- The source field has texts, and the target field numbers. -/
def Schema.Mixes (schema : Schema) (source target : String) : Prop :=
  schema.fieldType? source = some .text ∧ ∃ step, schema.fieldType? target = some (.int64 step)

mutual

/-- No join of the query goes from texts to numbers, at any depth. -/
def Query.Unmixed (schema : Schema) : Query → Prop
  | .all => True
  | .term _ => True
  | .startsWith .. => True
  | .boolean clauses => Query.UnmixedClauses schema clauses
  | .join source target sub _ => ¬ schema.Mixes source target ∧ sub.Unmixed schema
termination_by structural q => q

/-- No join of the clauses goes from texts to numbers, at any depth. -/
def Query.UnmixedClauses (schema : Schema) : List (Occur × Query) → Prop
  | [] => True
  | (_, q) :: clauses => q.Unmixed schema ∧ Query.UnmixedClauses schema clauses
termination_by structural clauses => clauses

end

/-! ## Stems -/

theorem FieldType.any_supportsStem_iff {type? : Option FieldType} :
    type?.any (·.supportsStem) = true ↔ type? = some .text := by
  cases type? with
  | none => exact iff_of_false (fun h => nomatch h) fun h => nomatch h
  | some type =>
    cases type with
    | text => exact iff_of_true rfl rfl
    | int64 step => exact iff_of_false (fun h => nomatch h) fun h => nomatch h

namespace Schema

variable {schema : Schema} {doc : Document} {field : String}

theorem textsIn_eq_values (h : schema.fieldType? field = some .text) :
    schema.textsIn doc field = doc.values field := by
  have htexts : ∀ value, schema.textsOf field value = [value] := fun value => by rw [textsOf, h]; rfl
  rw [textsIn, List.flatMap_congr fun value _ => htexts value, List.flatMap_singleton']

/-- A term that joins numbers, or is no number at all, stands for a full value on both sides. -/
theorem isFull_of_not_mixes {source target text : String} (hmix : ¬ schema.Mixes source target)
    (hfull : schema.isFull source text = true) (hdoc : text ∈ schema.textsIn doc source) :
    schema.isFull target text = true := by
  rw [isFull] at hfull ⊢
  cases htarget : schema.fieldType? target with
  | none => rfl
  | some type =>
    cases type with
    | text => rfl
    | int64 step =>
      cases hsource : schema.fieldType? source with
      | none =>
        obtain ⟨value, _, htext⟩ := List.mem_flatMap.1 hdoc
        rw [textsOf, hsource] at htext
        cases htext
      | some type' =>
        cases type' with
        | text => exact absurd ⟨hsource, step, htarget⟩ hmix
        | int64 step' =>
          rw [hsource] at hfull
          exact hfull

end Schema

namespace Corpus

variable {corpus : Corpus}

theorem mem_of_expand {field stem : String} {texts : List String}
    (h : corpus.expand field stem = .ok texts) {text : String} :
    text ∈ texts ↔ corpus.schema.fieldType? field = some .text ∧
      (∃ d, corpus.Has d ⟨field, text⟩) ∧ stem.toList.isPrefixOf text.toList = true := by
  rw [eq_of_expand h]
  split
  · rename_i hsupports
    rw [textsFrom, List.mem_filter, mem_texts,
      and_iff_right (FieldType.any_supportsStem_iff.1 hsupports)]
  · rename_i hsupports
    exact iff_of_false List.not_mem_nil fun h =>
      hsupports (FieldType.any_supportsStem_iff.2 h.1)

theorem any_holds_of_expand {field stem : String} {texts : List String}
    (h : corpus.expand field stem = .ok texts) {d : Nat} {doc : Document}
    (hdoc : corpus.documents[d]? = some doc) :
    (texts.any fun text => corpus.schema.holds doc ⟨field, text⟩) =
      corpus.schema.holdsStem doc field stem := by
  rw [Bool.eq_iff_iff, List.any_eq_true]
  simp only [mem_of_expand h, Schema.holds_iff, Schema.holdsStem]
  cases htype : corpus.schema.fieldType? field with
  | none => simp
  | some type =>
    cases type with
    | int64 step => simp [FieldType.supportsStem]
    | text =>
      rw [Schema.textsIn_eq_values htype]
      simp only [FieldType.supportsStem, Bool.true_and, List.any_eq_true, true_and]
      constructor
      · rintro ⟨text, ⟨_, hstem⟩, htext⟩
        exact ⟨text, htext, hstem⟩
      · rintro ⟨value, hvalue, hstem⟩
        refine ⟨value, ⟨⟨d, has_iff.2 ⟨doc, hdoc, ?_⟩⟩, hstem⟩, hvalue⟩
        rw [Schema.textsIn_eq_values htype]
        exact hvalue

end Corpus

namespace Snapshot

variable {s : Snapshot}

theorem Sound.pairwise_select (hs : s.Sound) (q : Query) : (s.select q).Pairwise (· < ·) := by
  cases q <;>
    rw [select, hs.selectBy_eq] <;>
    exact Corpus.pairwise_selectBy _

/-! ## Joins -/

theorem contains_termsAmong (docs : List Nat) (field : String) :
    (s.termsAmong docs field).contains = fun text => docs.any fun d =>
      (s.document? d).any fun doc => (s.schema.fullTerms doc field).contains text := by
  funext text
  rw [termsAmong, Std.HashSet.contains_ofList, List.contains_eq_any_beq, List.any_flatMap]
  refine List.any_congr rfl fun d => ?_
  cases s.document? d with
  | none => rfl
  | some doc => exact List.contains_eq_any_beq.symm

theorem Sound.mem_termsAmong (hs : s.Sound) {docs : List Nat}
    (hdocs : ∀ e ∈ docs, s.corpus.isLive e = true) {field text : String} :
    text ∈ s.termsAmong docs field ↔
      s.schema.isFull field text = true ∧ ∃ e ∈ docs, s.corpus.Has e ⟨field, text⟩ := by
  rw [termsAmong, Std.HashSet.mem_ofList, List.contains_iff_mem, List.mem_flatMap, ← exists_and_left]
  refine exists_congr fun e => ?_
  rw [and_left_comm]
  refine and_congr_right fun he => ?_
  obtain ⟨doc, hdoc⟩ := Corpus.exists_document?_of_isLive (hdocs e he)
  have hstored := (Corpus.document?_eq_some_iff.1 hdoc).2
  rw [hs.document?_eq, hdoc]
  simp only [Schema.mem_fullTerms_iff]
  rw [Corpus.has_iff, hstored, and_comm]
  simp only [Option.some.injEq, exists_eq_left']
  rfl

/-- **The selection of a join has the documents that share a term which is full on both sides.** -/
theorem Sound.mem_select_join (hs : s.Sound) {source target : String} {sub : Query} {boost : Single}
    (hlive : ∀ e ∈ s.select sub, s.corpus.isLive e = true) {d : Nat} :
    d ∈ s.select (.join source target sub boost) ↔
      ∃ e ∈ s.select sub, ∃ text,
        (s.schema.isFull source text = true ∧ s.schema.isFull target text = true) ∧
          s.corpus.Has e ⟨source, text⟩ ∧ s.corpus.isLive d = true ∧
            s.corpus.Has d ⟨target, text⟩ := by
  rw [select, hs.selectBy_eq, Corpus.mem_selectBy, Corpus.exists_document?_iff]
  simp only [List.any_eq_true, Schema.mem_fullTerms_iff, Std.HashSet.contains_iff_mem,
    hs.mem_termsAmong hlive]
  constructor
  · rintro ⟨hd, doc, hdoc, text, ⟨htext, htarget⟩, hsource, e, he, hhas⟩
    exact ⟨e, he, text, ⟨hsource, htarget⟩, hhas, hd, Corpus.has_iff.2 ⟨doc, hdoc, htext⟩⟩
  · rintro ⟨e, he, text, ⟨hsource, htarget⟩, hhas, hd, hdoc⟩
    obtain ⟨doc, hdoc, htext⟩ := Corpus.has_iff.1 hdoc
    exact ⟨hd, doc, hdoc, text, ⟨htext, htarget⟩, hsource, e, he, hhas⟩

/-! ## Booleans -/

theorem answerClauses_eq {corpus : Corpus} {kind : Occur} {clauses : List (Occur × Query)}
    {lists : List (List Nat)} (h : corpus.answerClauses kind clauses = .ok lists)
    (hclauses : ∀ clause ∈ clauses, ∀ docs, corpus.answer clause.2 = .ok docs → docs = s.select clause.2) :
    lists = ((s.selectClauses clauses).filter (·.1 == kind)).map (·.2) := by
  induction clauses generalizing lists with
  | nil =>
    cases h
    rfl
  | cons clause clauses ih =>
    obtain ⟨occur, q⟩ := clause
    obtain ⟨hq, hclauses⟩ := List.forall_mem_cons.1 hclauses
    rw [Corpus.answerClauses] at h
    rw [selectClauses]
    split at h
    · rename_i hkind
      obtain ⟨docs, hdocs, h⟩ := exists_of_bind_eq_ok h
      obtain ⟨rest, hrest, h⟩ := exists_of_bind_eq_ok h
      cases h
      rw [List.filter_cons_of_pos (by simpa using hkind), List.map_cons, hq docs hdocs, ih hrest hclauses]
    · rename_i hkind
      rw [List.filter_cons_of_neg (by simpa using hkind), ih h hclauses]

/-- The rule for one document, told by the selections of the clauses of each kind. -/
theorem admits_map (selections : List (Occur × List Nat)) (d : Nat) :
    admits (selections.map fun (occur, docs) => (occur, docs.contains d)) =
      (!selections.isEmpty &&
        Corpus.includes ((selections.filter (·.1 == .must)).map (·.2))
          ((selections.filter (·.1 == .should)).map (·.2)) d &&
        !((selections.filter (·.1 == .mustNot)).map (·.2)).any (·.contains d)) := by
  have hof : ∀ kind : Occur,
      (((selections.map fun (occur, docs) => (occur, docs.contains d)).filter (·.1 == kind)).map (·.2)) =
        ((selections.filter (·.1 == kind)).map (·.2)).map (·.contains d) := by
    intro kind
    rw [List.filter_map, List.map_map, List.map_map]
    rfl
  rw [admits]
  simp only [hof, List.isEmpty_map, List.all_map, List.any_map, Corpus.includes]
  rfl

theorem includes_shoulds {musts shoulds : List (List Nat)} (h : musts.isEmpty = false) (d : Nat) :
    Corpus.includes musts shoulds d = Corpus.includes musts [] d := by
  rw [Corpus.includes, Corpus.includes, h]
  rfl

theorem Sound.eq_select_boolean (hs : s.Sound) {clauses : List (Occur × Query)}
    (hclauses : ∀ clause ∈ clauses, ∀ docs, s.corpus.answer clause.2 = .ok docs →
      docs = s.select clause.2) {docs : List Nat} (h : s.corpus.answer (.boolean clauses) = .ok docs) :
    docs = s.select (.boolean clauses) := by
  rw [select, hs.selectBy_eq]
  simp only [admits_map]
  cases clauses with
  | nil =>
    cases h
    refine (List.filter_eq_nil_iff.2 fun d _ hd => ?_).symm
    obtain ⟨doc, _, hfalse⟩ := (Option.any_eq_true _ _).1 hd
    cases hfalse
  | cons clause clauses =>
    rw [Corpus.answer_boolean (List.cons_ne_nil clause clauses)] at h
    obtain ⟨musts, hmusts, h⟩ := exists_of_bind_eq_ok h
    obtain ⟨shoulds, hshoulds, h⟩ := exists_of_bind_eq_ok h
    obtain ⟨excluded, hexcluded, h⟩ := exists_of_bind_eq_ok h
    cases h
    rw [answerClauses_eq hexcluded hclauses]
    have hselected : (s.selectClauses (clause :: clauses)).isEmpty = false := by
      rw [selectClauses]
      rfl
    rw [hselected, ← answerClauses_eq hmusts hclauses]
    refine Corpus.selectBy_congr fun d _ _ => ?_
    rw [Bool.not_false, Bool.true_and]
    cases hempty : musts.isEmpty with
    | true =>
      rw [if_pos hempty] at hshoulds
      rw [answerClauses_eq hshoulds hclauses]
    | false =>
      rw [if_neg (by rw [hempty]; decide)] at hshoulds
      cases hshoulds
      exact congrArg (· && _) (includes_shoulds hempty d).symm

mutual

/-- **An answer to a query that joins no texts with numbers is what a look at every stored document
selects.** -/
theorem Sound.eq_select_of_answer (hs : s.Sound) : ∀ (q : Query) (docs : List Nat),
    q.Unmixed s.schema → s.corpus.answer q = .ok docs → docs = s.select q
  | .all, docs, _, h => by
    rw [select, hs.selectBy_eq]
    exact (Except.ok.inj h).symm
  | .term t, docs, _, h => by
    rw [select, hs.selectBy_eq]
    exact (Except.ok.inj h).symm
  | .startsWith field stem, docs, _, h => by
    rw [Corpus.answer] at h
    obtain ⟨texts, htexts, h⟩ := exists_of_bind_eq_ok h
    cases h
    rw [select, hs.selectBy_eq]
    exact Corpus.selectBy_congr fun d doc hdoc => Corpus.any_holds_of_expand htexts hdoc
  | .boolean clauses, docs, hq, h =>
    hs.eq_select_boolean (hs.eq_select_of_answerClauses clauses hq) h
  | .join source target sub boost, docs, hq, h => by
    obtain ⟨selected, hselected, _, _, rfl⟩ := Corpus.answer_join_eq_ok_iff.1 h
    rw [Query.Unmixed] at hq
    obtain rfl := hs.eq_select_of_answer sub selected hq.2 hselected
    have hlive : ∀ e ∈ s.select sub, s.corpus.isLive e = true := fun e he =>
      Corpus.isLive_of_mem_answer hselected he
    refine (Corpus.pairwise_selectBy _).eq_of_mem_iff (hs.pairwise_select _) fun d => ?_
    refine Corpus.mem_joined.trans (Iff.trans ?_ (hs.mem_select_join hlive).symm)
    refine exists_congr fun e => and_congr_right fun _ => exists_congr fun text => ?_
    rw [and_assoc]
    refine and_congr_right fun hsource => (and_iff_right_of_imp fun hhas => ?_).symm
    obtain ⟨doc, _, hdoc⟩ := Corpus.has_iff.1 hhas.1
    exact Schema.isFull_of_not_mixes hq.1 hsource hdoc
termination_by structural q => q

theorem Sound.eq_select_of_answerClauses (hs : s.Sound) : ∀ clauses : List (Occur × Query),
    Query.UnmixedClauses s.schema clauses → ∀ clause ∈ clauses, ∀ docs,
      s.corpus.answer clause.2 = .ok docs → docs = s.select clause.2
  | [], _, _, hmem, _, _ => absurd hmem List.not_mem_nil
  | (occur, q) :: clauses, hq, clause, hmem, docs, h => by
    rw [Query.UnmixedClauses] at hq
    rcases List.mem_cons.1 hmem with rfl | hmem
    · exact hs.eq_select_of_answer q docs hq.1 h
    · exact hs.eq_select_of_answerClauses clauses hq.2 clause hmem docs h
termination_by structural clauses => clauses

end

end Snapshot

end TermJoin
