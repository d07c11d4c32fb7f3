import TermJoin.Ledger
import TermJoin.Proofs.DocSet.Encodings
import TermJoin.Proofs.DocSet.Moves
import TermJoin.Proofs.Index.Inverted
import TermJoin.Proofs.Join.Statistics
import TermJoin.Proofs.Query.Agreement
import TermJoin.Proofs.Query.Expansion
import TermJoin.Proofs.Query.Operators
import TermJoin.Proofs.Query.Termination
import TermJoin.Proofs.Schema.NumericOrder
import TermJoin.Proofs.Scoring.Shares
import TermJoin.Proofs.Scoring.Success
import TermJoin.Proofs.Snapshot.TermDocs
import TermJoin.Proofs.Snapshot.Tuning
import TermJoin.Proofs.Syntax.Gaps
import TermJoin.Proofs.Syntax.Nesting
import TermJoin.Query.Selection
import TermJoin.Scoring.Search
