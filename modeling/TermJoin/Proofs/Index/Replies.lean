import TermJoin.Proofs.Index.Ledger

/-!
# What the writer replies

A request that adds or deletes gets a reply: the ordinal of the new document, whether or how many documents
are newly deleted, or a fault. All this can be read off the ledger.

* `Schema.firstFault?`: the fault of the first value of a document that does not fit;
  **`Schema.firstFault?_eq`** says that a document is refused for this one.
* `Ledger.tryAdd`, `Ledger.tryDelete`, `Ledger.tryDeleteValue`: the replies of a ledger, with the ledger
  that they leave; **`Ledger.handle_eq`**.
* **`Index.Sound.map_add`**, **`Index.Sound.map_delete`**, **`Index.Sound.map_deleteValue`**: an index gives
  the replies of its ledger, and is left with the ledger that they leave.
-/

namespace TermJoin

/-! ## The first value that does not fit -/

namespace Schema

/-- The fault of one value under its field, if it does not fit. -/
def faultOf? (schema : Schema) (pair : String × String) : Option Fault :=
  match schema.fieldType? pair.1 with
  | none => some (.unknownField pair.1)
  | some type =>
    match type.indexTerms pair.1 pair.2 with
    | .error cause => some (.query cause)
    | .ok _ => none

/-- The fault of the first value of a document that does not fit. -/
def firstFault? (schema : Schema) (doc : Document) : Option Fault :=
  doc.fieldValues.findSome? schema.faultOf?

variable {schema : Schema}

theorem faultOf?_eq (field value : String) :
    schema.faultOf? (field, value) =
      match schema.termsOfValue field value with
      | .ok _ => none
      | .error fault => some fault := by
  unfold faultOf? termsOfValue
  cases schema.fieldType? field with
  | none => rfl
  | some type =>
    dsimp only
    cases type.indexTerms field value <;> rfl

theorem findSome?_faultOf? (values : List (String × String)) :
    values.findSome? schema.faultOf? =
      match schema.termsOfValues values with
      | .ok _ => none
      | .error fault => some fault := by
  induction values with
  | nil => rfl
  | cons pair rest ih =>
    obtain ⟨field, value⟩ := pair
    rw [List.findSome?_cons, faultOf?_eq, ih, termsOfValues]
    cases schema.termsOfValue field value with
    | error fault => rfl
    | ok terms => cases schema.termsOfValues rest <;> rfl

/-- **A document is refused for the first of its values that does not fit, and for nothing else.** -/
theorem firstFault?_eq (doc : Document) :
    schema.firstFault? doc =
      match schema.termsOf doc with
      | .ok _ => none
      | .error fault => some fault :=
  findSome?_faultOf? doc.fieldValues

end Schema

/-! ## The replies of a ledger -/

namespace Ledger

/-- The ordinal of one more document, or why it is refused, with the ledger as it is then. -/
def tryAdd (schema : Schema) (ledger : Ledger) (doc : Document) : Except Fault Nat × Ledger :=
  if noMoreDocs ≤ ledger.count then (.error .tooManyDocuments, ledger)
  else
    match schema.firstFault? doc with
    | some fault => (.error fault, ledger)
    | none => (.ok ledger.count, ledger.add doc)

/-- Whether a document is newly deleted, with the ledger where it is. -/
def tryDelete (ledger : Ledger) (d : Nat) : Bool × Ledger :=
  if d < ledger.count ∧ d ∉ ledger.deleted then
    (true, { ledger with deleted := ledger.deleted.insert d })
  else (false, ledger)

/-- How many documents of a value are newly deleted, or why it is refused, with the ledger where all of them
are deleted. -/
def tryDeleteValue (schema : Schema) (ledger : Ledger) (field value : String) :
    Except Fault Nat × Ledger :=
  match schema.fieldType? field with
  | none => (.error (.unknownField field), ledger)
  | some type =>
    match type.queryTerm field value with
    | .error cause => (.error (.query cause), ledger)
    | .ok text =>
      (.ok ((ledger.find (schema.hasValue field text)).filter (!ledger.deleted.contains ·)).length,
        ledger.deleteAll (schema.hasValue field text))

variable {ledger : Ledger}

theorem pairwise_find (p : Document → Bool) : (ledger.find p).Pairwise (· < ·) := by
  have hsub : (ledger.find p).Sublist (ledger.documents.zipIdx.map (·.2)) := List.filter_sublist.map _
  rw [List.zipIdx_map_snd] at hsub
  exact List.Pairwise.sublist hsub (List.pairwise_lt_range' 1)

theorem size_deleteAll (p : Document → Bool) :
    (ledger.deleteAll p).deleted.size =
      ledger.deleted.size + ((ledger.find p).filter (!ledger.deleted.contains ·)).length :=
  Bitmap.size_insertAll (ledger.pairwise_find p)

theorem tryDelete_eq (ledger : Ledger) (d : Nat) :
    ledger.tryDelete d = (decide (d < ledger.count ∧ d ∉ ledger.deleted), ledger.delete d) := by
  unfold tryDelete delete
  by_cases hlt : d < ledger.count
  · by_cases hd : d ∈ ledger.deleted
    · have hsame : ledger = { ledger with deleted := ledger.deleted.insert d } := by
        refine ext_marks rfl (fun e => ?_) rfl
        rw [Std.ExtTreeSet.mem_insert, Nat.compare_eq_eq]
        exact (or_iff_right_of_imp fun heq => heq ▸ hd).symm
      rw [if_neg (fun h => h.2 hd), if_pos hlt, ← hsame, decide_eq_false fun h => h.2 hd]
    · rw [if_pos ⟨hlt, hd⟩, if_pos hlt, decide_eq_true ⟨hlt, hd⟩]
  · rw [if_neg (fun h => hlt h.1), if_neg hlt, decide_eq_false fun h => hlt h.1]

/-- **The ledger after a request is the one that the reply leaves.** -/
theorem handle_eq (schema : Schema) (ledger : Ledger) (request : Request) :
    ledger.handle schema request =
      match request with
      | .add doc => (ledger.tryAdd schema doc).2
      | .commit => ledger.commit
      | .delete d => (ledger.tryDelete d).2
      | .deleteValue field value => (ledger.tryDeleteValue schema field value).2
      | .snapshot => ledger := by
  cases request with
  | add doc =>
    simp only [handle, tryAdd, Schema.firstFault?_eq]
    split
    · rfl
    · cases schema.termsOf doc <;> rfl
  | commit => rfl
  | delete d => exact (congrArg Prod.snd (tryDelete_eq ledger d)).symm
  | deleteValue field value =>
    simp only [handle, tryDeleteValue]
    cases schema.fieldType? field with
    | none => rfl
    | some type =>
      dsimp only
      cases type.queryTerm field value <;> rfl
  | snapshot => rfl

end Ledger

/-! ## Marks that are new -/

namespace Segment

theorem fst_markAll (deleted : Bitmap) (docs : DocList) :
    (markAll deleted docs).1 + deleted.size = (markAll deleted docs).2.size :=
  Nat.sub_add_cancel Std.ExtTreeSet.size_le_size_insertMany_list

theorem fst_deleteTerm (segment : Segment) (field text : String) :
    (segment.deleteTerm field text).1 + segment.deleted.size =
      (segment.deleteTerm field text).2.deleted.size := by
  unfold deleteTerm
  cases segment.docs? field text with
  | none => exact Nat.zero_add _
  | some docs => exact fst_markAll segment.deleted docs

theorem total_deleteTerm (segments : List Segment) (field text : String) :
    total (segments.map fun segment => (segment.deleteTerm field text).1) +
        total (segments.map (·.deleted.size)) =
      total ((segments.map fun segment => (segment.deleteTerm field text).2).map (·.deleted.size)) := by
  induction segments with
  | nil => rfl
  | cons segment rest ih =>
    have hfirst := segment.fst_deleteTerm field text
    simp only [List.map_cons, total_cons]
    omega

end Segment

namespace Index

theorem deleteSealed_fresh {segments marked : List Segment} {d : Nat} {fresh : Bool}
    (h : deleteSealed segments d = some (fresh, marked)) :
    fresh = true ↔ ¬ Segment.IsMarked segments d := by
  induction segments generalizing d marked with
  | nil => cases h
  | cons segment rest ih =>
    rw [deleteSealed] at h
    by_cases hlt : d < segment.count
    · rw [if_pos hlt] at h
      cases h
      rw [Segment.isMarked_cons_of_lt hlt]
      exact Bitmap.not_contains_iff
    · rw [if_neg hlt, Option.map_eq_some_iff] at h
      obtain ⟨place, hplace, heq⟩ := h
      cases heq
      rw [Segment.isMarked_cons_of_le (Nat.not_lt.1 hlt)]
      exact ih hplace

theorem deleteSealed_eq_none_iff {segments : List Segment} {d : Nat} :
    deleteSealed segments d = none ↔ (Segment.stored segments).length ≤ d := by
  have hsealed := deleteSealed_eq segments d
  rw [← Segment.length_stored] at hsealed
  rw [← Option.map_eq_none_iff, hsealed]
  split
  · rename_i hlt
    exact iff_of_false (Option.some_ne_none _) (Nat.not_le.2 hlt)
  · rename_i hle
    exact iff_of_true rfl (Nat.not_lt.1 hle)

variable {index : Index}

theorem fst_deleteTerm (field text : String) :
    (index.deleteTerm field text).1 =
      total (index.parts.map fun segment => (segment.deleteTerm field text).1) := by
  rw [parts, List.map_append, total_append, List.map_singleton, PendingSegment.deleteTerm_toSegment,
    total_cons, total_nil, Nat.add_zero, deleteTerm]
  simp only [List.map_map]
  rfl

namespace Sound

variable (h : index.Sound)
include h

theorem size_deleted_ledger : index.ledger.deleted.size = total (index.parts.map (·.deleted.size)) :=
  SegmentView.size_deletedIn_layOut fun segment hsegment => (h.mirrors segment hsegment).deleted

/-! ## The replies of an index -/

/-- **A document gets the next ordinal, unless it does not fit.** -/
theorem map_add (doc : Document) :
    Prod.map id ledger (index.add doc) = index.ledger.tryAdd index.schema doc := by
  rw [Ledger.tryAdd, count_ledger, Schema.firstFault?_eq]
  rw [Index.add]
  split
  · rfl
  · rename_i hroom
    cases hterms : index.schema.termsOf doc with
    | error fault => rfl
    | ok terms => exact Prod.ext rfl (h.ledger_add (Nat.not_le.1 hroom) hterms)

theorem fst_delete (d : Nat) :
    (index.delete d).1 = true ↔ d < index.ledger.count ∧ d ∉ index.ledger.deleted := by
  rw [count_ledger, h.mem_deleted_ledger, Index.delete]
  -- marks of sealed documents and of pending ones stand in different segments
  cases hplace : deleteSealed index.segments d with
  | some place =>
    obtain ⟨fresh, marked⟩ := place
    have hlt : d < (Segment.stored index.segments).length := by
      rw [← Nat.not_le, ← deleteSealed_eq_none_iff, hplace]
      exact Option.some_ne_none _
    have hcount : d < index.count := by
      rw [count, sealedCount_eq]
      omega
    rw [parts, Segment.isMarked_append_of_lt hlt, and_iff_right hcount]
    exact deleteSealed_fresh hplace
  | none =>
    have hle := deleteSealed_eq_none_iff.1 hplace
    dsimp only
    split
    · rename_i hcount
      have hpending : d - (Segment.stored index.segments).length < index.pending.toSegment.count := by
        rw [count, sealedCount_eq] at hcount
        show _ < index.pending.count
        omega
      rw [parts, Segment.isMarked_append_of_le hle, Segment.isMarked_cons_of_lt hpending,
        and_iff_right hcount, ← sealedCount_eq]
      exact Bitmap.not_contains_iff
    · rename_i hcount
      exact iff_of_false Bool.false_ne_true fun hd => hcount hd.1

theorem map_delete (d : Nat) :
    Prod.map id ledger (index.delete d) = index.ledger.tryDelete d := by
  rw [Ledger.tryDelete_eq]
  refine Prod.ext ?_ (h.ledger_delete d)
  rw [Bool.eq_iff_iff, decide_eq_true_eq]
  exact h.fst_delete d

theorem fst_deleteTerm (field text : String) :
    (index.deleteTerm field text).1 + index.ledger.deleted.size =
      (index.deleteTerm field text).2.ledger.deleted.size := by
  rw [Index.fst_deleteTerm, h.size_deleted_ledger, (h.deleteTerm field text).size_deleted_ledger,
    parts_deleteTerm]
  exact Segment.total_deleteTerm index.parts field text

/-- **All documents of a value are deleted, and those not deleted before are counted.** -/
theorem map_deleteValue (field value : String) :
    Prod.map id ledger (index.deleteValue field value) =
      index.ledger.tryDeleteValue index.schema field value := by
  unfold Index.deleteValue Ledger.tryDeleteValue
  cases htype : index.schema.fieldType? field with
  | none => rfl
  | some type =>
    dsimp only
    cases hterm : type.queryTerm field value with
    | error cause => rfl
    | ok text =>
      have hledger : (index.deleteTerm field text).2.ledger =
          index.ledger.deleteAll (index.schema.hasValue field text) :=
        (h.ledger_deleteTerm field text).trans
          (congrArg index.ledger.deleteAll (funext fun doc => Schema.holds_queryTerm htype hterm))
      have hsize := h.fst_deleteTerm field text
      rw [hledger, Ledger.size_deleteAll] at hsize
      refine Prod.ext (congrArg Except.ok ?_) hledger
      show (index.deleteTerm field text).1 = _
      omega

end Sound

end Index

end TermJoin
