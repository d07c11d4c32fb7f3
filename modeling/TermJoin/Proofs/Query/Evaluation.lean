import TermJoin.Proofs.Join.Run
import TermJoin.Proofs.Query.Answer

/-!
# Evaluation answers as the corpus does

Through dictionaries, postings, bitmaps and caches a query selects what the corpus answers, and it fails as
the corpus does.

* **`Snapshot.Sound.settles_computeDocs`**: by induction on the query, with the lists of clauses.
* **`Snapshot.Sound.settles_docSet`**: through the cache, on any faithful caches.
-/

namespace TermJoin.Snapshot

variable {s : Snapshot}

theorem mem_foldl_inter {first : Bitmap} {rest : List Bitmap} {d : Nat} :
    d ∈ rest.foldl (· ∩ ·) first ↔ ∀ bits ∈ first :: rest, d ∈ bits := by
  induction rest generalizing first with
  | nil => simp
  | cons bits rest ih =>
    rw [List.foldl_cons, ih]
    simp only [List.forall_mem_cons, Std.ExtTreeSet.mem_inter_iff, and_assoc]

theorem mem_meetAll {first : Bitmap} {rest : List Bitmap} {d : Nat} :
    d ∈ meetAll first rest ↔ ∀ bits ∈ first :: rest, d ∈ bits := by
  have hmem : ∀ bits, bits ∈ smallestFirst (first :: rest) ↔ bits ∈ first :: rest := fun bits =>
    List.mem_mergeSort
  unfold meetAll
  cases hsorted : smallestFirst (first :: rest) with
  | nil =>
    rw [hsorted] at hmem
    exact absurd ((hmem first).2 (.head _)) List.not_mem_nil
  | cons smallest others =>
    rw [hsorted] at hmem
    simp only [mem_foldl_inter, hmem]

theorem mem_joinAll {first : Bitmap} {rest : List Bitmap} {d : Nat} :
    d ∈ joinAll first rest ↔ ∃ bits ∈ first :: rest, d ∈ bits := by
  rw [joinAll]
  induction rest generalizing first with
  | nil => simp
  | cons bits rest ih =>
    rw [List.foldl_cons, ih]
    simp only [List.mem_cons, or_and_right, exists_or, exists_eq_left, Std.ExtTreeSet.mem_union_iff,
      or_assoc]

theorem mem_foldl_diff {base : Bitmap} {excluded : List Bitmap} {d : Nat} :
    d ∈ excluded.foldl (· \ ·) base ↔ d ∈ base ∧ ∀ bits ∈ excluded, d ∉ bits := by
  induction excluded generalizing base with
  | nil => simp
  | cons bits rest ih =>
    rw [List.foldl_cons, ih, Std.ExtTreeSet.mem_diff_iff, List.forall_mem_cons, and_assoc]

theorem mem_foldl_unionInto {sets : List DocSet} {flags : Bitmap} {d : Nat} :
    d ∈ sets.foldl (fun flags set => set.unionInto flags) flags ↔ d ∈ flags ∨ ∃ set ∈ sets, d ∈ set := by
  induction sets generalizing flags with
  | nil => simp
  | cons set rest ih =>
    rw [List.foldl_cons, ih, DocSet.mem_unionInto, or_assoc]
    simp only [List.mem_cons, or_and_right, exists_or, exists_eq_left]

theorem computeDocs_join (s : Snapshot) (source target : String) (sub : Query) (boost : Single) :
    s.computeDocs (.join source target sub boost) =
      s.runJoin source target sub >>= fun result => pure result.1 := by
  rw [computeDocs, runJoin, docSet, bind_assoc]

/-! ## Agreement -/

theorem toSortedList_eq_selectBy {set : DocSet} {p : Nat → Document → Bool}
    (h : ∀ d, d ∈ set ↔ ∃ doc, s.corpus.document? d = some doc ∧ p d doc = true) :
    set.toSortedList = s.corpus.selectBy p :=
  DocSet.toSortedList_eq_of_mem_iff (Corpus.pairwise_selectBy p) fun d =>
    (h d).trans Corpus.mem_selectBy.symm

/-- The result of an evaluation is what the corpus answers. -/
def Agrees (s : Snapshot) (q : Query) (result : Except Fault DocSet) : Prop :=
  result.map DocSet.toSortedList = s.corpus.answer q

/-- The sets of the clauses of a kind are what the corpus answers to them. -/
def AgreesOn (s : Snapshot) (kind : Occur) (clauses : List (Occur × Query))
    (result : Except Fault (List Bitmap)) : Prop :=
  result.map (List.map (·.toList)) = s.corpus.answerClauses kind clauses

/-! ## Clauses -/

/-- What is excluded is taken away from what the other clauses include. -/
theorem settles_excluded {clauses : List (Occur × Query)} {base : Bitmap} {musts shoulds : List (List Nat)}
    (hclauses : s.Settles (s.clauseDocs .mustNot clauses).run (s.AgreesOn .mustNot clauses))
    (hbase : ∀ d, d ∈ base ↔ s.corpus.isLive d = true ∧ Corpus.includes musts shoulds d = true) :
    s.Settles (do
      let excluded ← s.clauseDocs .mustNot clauses
      return .bits (excluded.foldl (· \ ·) base) : Exec DocSet).run fun result =>
        result.map DocSet.toSortedList = (do
          let excluded ← s.corpus.answerClauses .mustNot clauses
          return s.corpus.selectBy fun d _ =>
            Corpus.includes musts shoulds d && !excluded.any (·.contains d)) := by
  refine hclauses.bindExec (fun excluded hexcluded => .ok ?_) fun fault hfault => ?_
  · rw [← hexcluded]
    refine congrArg Except.ok (toSortedList_eq_selectBy fun d => ?_)
    have hnone : (∀ bits ∈ excluded, d ∉ bits) ↔
        (!(excluded.map (·.toList)).any (·.contains d)) = true := by
      simp
    rw [DocSet.mem_bits, mem_foldl_diff, hbase, Corpus.exists_document?_iff, hnone, and_assoc,
      ← Bool.and_eq_true]
    refine and_congr_right fun hlive => ?_
    obtain ⟨doc, hdoc⟩ := Corpus.exists_document?_of_isLive hlive
    exact ⟨fun h => ⟨doc, (Corpus.document?_eq_some_iff.1 hdoc).2, h⟩, fun ⟨_, _, h⟩ => h⟩
  · rw [← hfault]
    rfl

theorem isLive_of_agreesOn {kind : Occur} {clauses : List (Occur × Query)} {sets : List Bitmap}
    (h : s.AgreesOn kind clauses (.ok sets)) {bits : Bitmap} (hbits : bits ∈ sets) {d : Nat}
    (hd : d ∈ bits) : s.corpus.isLive d = true :=
  Corpus.isLive_of_mem_answerClauses h.symm (List.mem_map_of_mem hbits) (Std.ExtTreeSet.mem_toList.2 hd)

theorem settles_included {clauses : List (Occur × Query)} (hne : clauses ≠ []) {base : Bitmap}
    {musts : List Bitmap} (shoulds : List Bitmap) (hmusts : s.AgreesOn .must clauses (.ok musts))
    (hshoulds : (if musts.isEmpty then s.corpus.answerClauses .should clauses else .ok []) =
      .ok (shoulds.map (·.toList)))
    (hbase : ∀ d, d ∈ base ↔ s.corpus.isLive d = true ∧
      Corpus.includes (musts.map (·.toList)) (shoulds.map (·.toList)) d = true)
    (hclauses : s.Settles (s.clauseDocs .mustNot clauses).run (s.AgreesOn .mustNot clauses)) :
    s.Settles (do
      let excluded ← s.clauseDocs .mustNot clauses
      return .bits (excluded.foldl (· \ ·) base) : Exec DocSet).run (s.Agrees (.boolean clauses)) := by
  refine (settles_excluded hclauses hbase).mono fun result hresult => ?_
  have hsame : (musts.map (·.toList)).isEmpty = musts.isEmpty := List.isEmpty_map
  rw [Agrees, Corpus.answer_boolean hne, ← hmusts, hresult]
  change _ = (if (musts.map (·.toList)).isEmpty then _ else _) >>= _
  rw [hsame, hshoulds]
  rfl

/-! ## Each kind of query -/

theorem mem_allDocs {d : Nat} : d ∈ s.allDocs ↔ s.corpus.isLive d = true := by
  rw [allDocs, DocSet.mem_bits, Std.ExtTreeSet.mem_diff_iff, Bitmap.mem_range, s.maxDoc_eq_length,
    Corpus.isLive_iff, and_iff_right (Nat.zero_le d)]
  exact Iff.rfl

theorem settles_boolean {clauses : List (Occur × Query)} (hne : clauses ≠ [])
    (hclauses : ∀ kind, s.Settles (s.clauseDocs kind clauses).run (s.AgreesOn kind clauses)) :
    s.Settles (s.computeDocs (.boolean clauses)).run (s.Agrees (.boolean clauses)) := by
  rw [computeDocs]
  · refine (hclauses .must).bindExec (fun musts hmusts => ?_) fun fault hfault => ?_
    · cases musts with
      | cons first rest =>
        -- clauses that must match decide, and those that should are not asked
        dsimp only
        rw [pure_bind]
        refine settles_included hne [] hmusts rfl (fun d => ?_) (hclauses .mustNot)
        have hall : Corpus.includes ((first :: rest).map (·.toList)) [] d = true ↔
            ∀ bits ∈ first :: rest, d ∈ bits := by
          simp [Corpus.includes]
        rw [mem_meetAll, List.map_nil, hall]
        exact (and_iff_right_of_imp fun h => isLive_of_agreesOn hmusts (.head _) (h first (.head _))).symm
      | nil =>
        refine (hclauses .should).bindExec (fun shoulds hshoulds => ?_) fun fault hfault => ?_
        · cases shoulds with
          | cons first rest =>
            dsimp only
            rw [pure_bind]
            refine settles_included hne _ hmusts hshoulds.symm (fun d => ?_) (hclauses .mustNot)
            have hany : Corpus.includes [] ((first :: rest).map (·.toList)) d = true ↔
                ∃ bits ∈ first :: rest, d ∈ bits := by
              simp [Corpus.includes]
            rw [mem_joinAll, List.map_nil, hany]
            exact (and_iff_right_of_imp fun ⟨_, hbits, hd⟩ => isLive_of_agreesOn hshoulds hbits hd).symm
          | nil =>
            dsimp only
            rw [pure_bind]
            refine settles_included hne _ hmusts hshoulds.symm (fun d => ?_) (hclauses .mustNot)
            rw [DocSet.mem_toBitmap, mem_allDocs]
            exact (and_iff_left rfl).symm
        · rw [Agrees, Corpus.answer_boolean hne, ← hmusts]
          change _ = s.corpus.answerClauses .should clauses >>= _
          rw [← hfault]
          rfl
    · rw [Agrees, Corpus.answer_boolean hne, ← hfault]
      rfl
  · exact hne

namespace Sound

variable (hs : s.Sound)
include hs

theorem settles_term (t : Term) :
    s.Settles (s.computeDocs (.term t)).run (s.Agrees (.term t)) := by
  rw [computeDocs]
  refine (Settles.cachedTermDocs t.field t.text).lift fun set hset => ?_
  refine congrArg Except.ok (toSortedList_eq_selectBy fun d => ?_)
  rw [hset, hs.mem_termDocs_iff, Corpus.exists_document?_iff]
  exact Iff.rfl

theorem settles_startsWith (field stem : String) :
    s.Settles (s.computeDocs (.startsWith field stem)).run (s.Agrees (.startsWith field stem)) := by
  rw [computeDocs]
  refine (Settles.ofExcept _).bindExec (fun texts htexts => ?_) fun fault hfault => ?_
  · refine (Settles.mapM fun text _ =>
      (Settles.cachedTermDocs field text).lift fun set hset => congrArg Except.ok hset).bindExec
        (fun sets hsets => .ok ?_) fun fault hfault => nomatch hfault
    cases hsets
    rw [Agrees, Corpus.answer, ← hs.expand_eq, ← htexts]
    refine congrArg Except.ok (toSortedList_eq_selectBy fun d => ?_)
    rw [DocSet.mem_bits, mem_foldl_unionInto, or_iff_right Std.ExtTreeSet.not_mem_empty,
      Corpus.exists_document?_iff]
    simp only [List.mem_map, exists_exists_and_eq_and, hs.mem_termDocs_iff, List.any_eq_true]
    constructor
    · rintro ⟨text, htext, hlive, doc, hdoc, hhas⟩
      exact ⟨hlive, doc, hdoc, text, htext, hhas⟩
    · rintro ⟨hlive, doc, hdoc, text, htext, hhas⟩
      exact ⟨text, htext, hlive, doc, hdoc, hhas⟩
  · rw [Agrees, Corpus.answer, ← hs.expand_eq, ← hfault]
    rfl

theorem toSortedList_joinedDocs {source target : String} {selected set : DocSet} {stats : JoinStatistics}
    (h : s.joinedDocs source target selected = .ok (set, stats))
    (hlive : ∀ e ∈ selected, s.corpus.isLive e = true) :
    set.toSortedList = s.corpus.joined source target selected.toSortedList := by
  refine DocSet.toSortedList_eq_of_mem_iff (Corpus.pairwise_selectBy _) fun d => ?_
  rw [hs.mem_joinedDocs h hlive, Corpus.mem_joined]
  simp only [DocSet.mem_toSortedList]
  exact Iff.rfl

theorem settles_joinOf (source target : String) {sub : Query} (boost : Single)
    (hsub : s.Settles (s.computeDocs sub).run (s.Agrees sub)) :
    s.Settles (s.runJoin source target sub).run fun result =>
      s.Agrees (.join source target sub boost) (result.map (·.1)) := by
  rw [runJoin]
  refine hsub.throughCache.bindExec (fun selected hselected => ?_) fun fault hfault => ?_
  · have hanswer : s.corpus.answer sub = .ok selected.toSortedList := hselected.symm
    have hlive : ∀ e ∈ selected, s.corpus.isLive e = true := fun e he =>
      Corpus.isLive_of_mem_answer hanswer (DocSet.mem_toSortedList.2 he)
    refine (settles_joinDocs s source target selected).mono fun result hresult => ?_
    rw [Agrees, Corpus.answer, hanswer]
    change _ = s.corpus.opens source >>= fun _ => s.corpus.opens target >>= fun _ => _
    rw [← bind_assoc, ← hs.map_joinedDocs source target selected, ← hresult]
    cases result with
    | error fault => rfl
    | ok found => exact congrArg Except.ok (hs.toSortedList_joinedDocs hresult.symm hlive)
  · rw [Agrees, Corpus.answer, ← hfault]
    rfl

theorem settles_join {source target : String} {sub : Query} {boost : Single}
    (hsub : s.Settles (s.computeDocs sub).run (s.Agrees sub)) :
    s.Settles (s.computeDocs (.join source target sub boost)).run
      (s.Agrees (.join source target sub boost)) := by
  rw [computeDocs_join]
  exact (hs.settles_joinOf source target boost hsub).bindExec (fun result hresult => .ok hresult)
    fun fault hfault => hfault

end Sound

/-! ## All queries -/

mutual

/-- **Computing the set of a query answers as the corpus does**, on any faithful caches. -/
theorem Sound.settles_computeDocs (hs : s.Sound) :
    ∀ q, s.Settles (s.computeDocs q).run (s.Agrees q)
  | .all => by
    rw [computeDocs]
    refine .ok (congrArg Except.ok (toSortedList_eq_selectBy fun d => ?_))
    rw [mem_allDocs]
    refine ⟨fun hlive => ?_, fun ⟨_, hdoc, _⟩ => (Corpus.document?_eq_some_iff.1 hdoc).1⟩
    obtain ⟨doc, hdoc⟩ := Corpus.exists_document?_of_isLive hlive
    exact ⟨doc, hdoc, rfl⟩
  | .term t => hs.settles_term t
  | .startsWith field stem => hs.settles_startsWith field stem
  | .boolean [] => by
    rw [computeDocs]
    exact .ok rfl
  | .boolean (clause :: clauses) =>
    settles_boolean (List.cons_ne_nil clause clauses)
      fun kind => hs.settles_clauseDocs kind (clause :: clauses)
  | .join _ _ sub _ => hs.settles_join (hs.settles_computeDocs sub)
termination_by structural q => q

theorem Sound.settles_clauseDocs (hs : s.Sound) (kind : Occur) :
    ∀ clauses, s.Settles (s.clauseDocs kind clauses).run (s.AgreesOn kind clauses)
  | [] => by
    rw [clauseDocs]
    exact .ok rfl
  | (occur, q) :: clauses => by
    rw [clauseDocs]
    split
    · rename_i hkind
      have htoBitmap : ∀ set : DocSet, set.toBitmap.toList = set.toSortedList := fun set =>
        (DocSet.toSortedList_eq_of_mem_iff set.toBitmap.pairwise_toList fun d => by
          rw [Std.ExtTreeSet.mem_toList, DocSet.mem_toBitmap]).symm
      refine (hs.settles_computeDocs q).throughCache.bindExec (fun set hset => ?_) fun fault hfault => ?_
      · have hrest := hs.settles_clauseDocs kind clauses
        refine hrest.bindExec (fun sets hsets => .ok ?_) fun fault hfault => ?_
        · rw [AgreesOn, Corpus.answerClauses, if_pos hkind, ← hset, ← hsets]
          change Except.ok (set.toBitmap.toList :: _) = Except.ok (set.toSortedList :: _)
          rw [htoBitmap]
        · rw [AgreesOn, Corpus.answerClauses, if_pos hkind, ← hset, ← hfault]
          rfl
      · rw [AgreesOn, Corpus.answerClauses, if_pos hkind, ← hfault]
        rfl
    · rename_i hkind
      refine (hs.settles_clauseDocs kind clauses).mono fun result hresult => ?_
      rw [AgreesOn, Corpus.answerClauses, if_neg hkind]
      exact hresult
termination_by structural clauses => clauses

end

/-- **The set of a query is what the corpus answers**, whatever is remembered. -/
theorem Sound.settles_docSet (hs : s.Sound) (q : Query) : s.Settles (s.docSet q).run (s.Agrees q) :=
  (hs.settles_computeDocs q).throughCache

theorem Sound.exists_docSet (hs : s.Sound) {caches : Caches} (hcaches : s.Faithful caches) {q : Query}
    {docs : List Nat} (h : s.corpus.answer q = .ok docs) :
    ∃ set, ((s.docSet q).run.run caches).1 = .ok set ∧ set.toSortedList = docs := by
  have hagrees := (hs.settles_docSet q).result hcaches
  rw [Agrees, h] at hagrees
  cases hresult : ((s.docSet q).run.run caches).1 with
  | error fault =>
    rw [hresult] at hagrees
    cases hagrees
  | ok set =>
    rw [hresult] at hagrees
    exact ⟨set, rfl, Except.ok.inj hagrees⟩

theorem Sound.docSet_eq_error (hs : s.Sound) {caches : Caches} (hcaches : s.Faithful caches) {q : Query}
    {fault : Fault} (h : s.corpus.answer q = .error fault) :
    ((s.docSet q).run.run caches).1 = .error fault := by
  have hagrees := (hs.settles_docSet q).result hcaches
  rw [Agrees, h] at hagrees
  cases hresult : ((s.docSet q).run.run caches).1 with
  | error fault' =>
    rw [hresult] at hagrees
    exact congrArg Except.error (Except.error.inj hagrees)
  | ok set =>
    rw [hresult] at hagrees
    cases hagrees

theorem Sound.answer_eq_of_docSet (hs : s.Sound) {caches : Caches} (hcaches : s.Faithful caches) {q : Query}
    {set : DocSet} (h : ((s.docSet q).run.run caches).1 = .ok set) :
    s.corpus.answer q = .ok set.toSortedList := by
  have hagrees := (hs.settles_docSet q).result hcaches
  rw [h] at hagrees
  exact hagrees.symm

end TermJoin.Snapshot
