import TermJoin.Index

/-!
# Histories and ledgers

What is asked of an index over its life, and a plain account of what it then holds: all documents in
one list, with neither terms nor segments.

* `Request`, `Index.after`: one request to an index, and the index after a history of them.
* `Snapshot.Reachable`: the snapshots of the indexes that some history leads to.
* `Action`, `Program.after`: a program with several indexes, which share the counter of stamps.
* `Ledger`: the documents, the ordinals of the deleted ones, and how many documents are sealed.
* `Index.ledger`: the account of an index.
-/

namespace TermJoin

/-! ## Histories -/

/-- What can be asked of an index. -/
inductive Request
  | add (doc : Document)
  | commit
  | delete (doc : Nat)
  | deleteValue (field value : String)
  | snapshot

namespace Index

/-- The index after a request. -/
def handle (index : Index) : Request → Index
  | .add doc => (index.add doc).2
  | .commit => index.commit
  | .delete doc => (index.delete doc).2
  | .deleteValue field value => (index.deleteValue field value).2
  | .snapshot => index

/-- The index after a history of requests. -/
def after (index : Index) (history : List Request) : Index := history.foldl handle index

@[simp] theorem after_nil (index : Index) : index.after [] = index := rfl

@[simp] theorem after_cons (index : Index) (request : Request) (history : List Request) :
    index.after (request :: history) = (index.handle request).after history := rfl

theorem after_append (index : Index) (first second : List Request) :
    index.after (first ++ second) = (index.after first).after second :=
  List.foldl_append

end Index

namespace Snapshot

/-- The snapshot taken after a history, when the counter of stamps stands at this one. -/
def afterHistory (schema : Schema) (config : Config) (stamp : Nat) (history : List Request) : Snapshot :=
  ((({ schema, config : Index }).after history).snapshot.run stamp).1

/-- Whether a history of some index ends with this snapshot. -/
def Reachable (s : Snapshot) : Prop :=
  ∃ (schema : Schema) (config : Config) (stamp : Nat) (history : List Request),
    s = afterHistory schema config stamp history

end Snapshot

/-! ## Programs -/

/-- What a program does: it makes an index, or puts a request to one of those it has. -/
inductive Action
  | create (schema : Schema) (config : Config)
  | ask (which : Nat) (request : Request)

/-- The indexes of a program, the snapshots it has taken of any of them, and the next stamp. -/
structure Program where
  indexes : List Index := []
  snapshots : List Snapshot := []
  nextStamp : Nat := 0

namespace Program

/-- The program after an action. -/
def act (program : Program) : Action → Program
  | .create schema config => { program with indexes := program.indexes ++ [{ schema, config }] }
  | .ask which request =>
    match program.indexes[which]? with
    | none => program
    | some index =>
      let indexes := program.indexes.set which (index.handle request)
      match request with
      | .snapshot =>
        let (s, nextStamp) := index.snapshot.run program.nextStamp
        { indexes, snapshots := program.snapshots ++ [s], nextStamp }
      | _ => { program with indexes }

/-- The program after some actions. -/
def after (program : Program) (actions : List Action) : Program := actions.foldl act program

end Program

/-! ## Ledgers -/

/-- The documents in the order of their addition, the ordinals of the deleted ones, and how many of the
documents are sealed. -/
structure Ledger where
  documents : List Document := []
  deleted : Bitmap := ∅
  sealedCount : Nat := 0

namespace Ledger

variable (ledger : Ledger)

/-- The number of documents, deleted ones included. -/
def count : Nat := ledger.documents.length

/-- The ledger with one more document. -/
def add (doc : Document) : Ledger := { ledger with documents := ledger.documents ++ [doc] }

/-- The ledger with all documents sealed. -/
def commit : Ledger := { ledger with sealedCount := ledger.count }

/-- The ledger with a document deleted, if there is such a document. -/
def delete (doc : Nat) : Ledger :=
  if doc < ledger.count then { ledger with deleted := ledger.deleted.insert doc } else ledger

/-- The ordinals of the documents, deleted ones included, that have a property. -/
def find (p : Document → Bool) : List Nat :=
  (ledger.documents.zipIdx.filter fun (doc, _) => p doc).map (·.2)

/-- The ledger with all documents of a property deleted. -/
def deleteAll (p : Document → Bool) : Ledger :=
  { ledger with deleted := ledger.deleted.insertAll (ledger.find p) }

end Ledger

/-- Whether a document has a value that a query for this term of its field looks up. -/
def Schema.hasValue (schema : Schema) (field text : String) (doc : Document) : Bool :=
  (schema.fullTerms doc field).contains text

/-- The account of an index. -/
def Index.ledger (index : Index) : Ledger where
  documents := index.segments.flatMap (·.documents.toList) ++ index.pending.documents.toList
  deleted :=
    SegmentView.deletedIn
      (SegmentView.layOut 0 0 0 (index.segments ++ [index.pending.toSegment]))
  sealedCount := index.sealedCount

end TermJoin
