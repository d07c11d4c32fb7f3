import Std.Data.ExtTreeMap
import TermJoin.Schema

/-!
# Documents and their terms

A document holds raw values under field names: several values under one name, in the order in which
they were added. A schema makes terms of them: texts under a field name, the keys under which documents are
found again.

* `Document.add`: one more value.
* `Document.fieldValues`: all values with their fields, by field name.
* `Document.values?`: the values of one field.
* `Schema.termsOf`: the terms of a document, or the fault of its first value that does not fit.
* `Schema.holds`: whether a stored document has a term, decided from its values.
-/

namespace TermJoin

/-! ## Values -/

/-- A document: for each of its fields, the values in the order of their addition. -/
structure Document where
  fields : Std.ExtTreeMap String (List String) := ∅
deriving DecidableEq

namespace Document

/-- The document with one more value. -/
def add (doc : Document) (field value : String) : Document :=
  ⟨doc.fields.alter field fun values? => some (values?.getD [] ++ [value])⟩

/-- The document of these values, added in this order. -/
def ofList (values : List (String × String)) : Document :=
  values.foldl (fun doc pair => doc.add pair.1 pair.2) {}

/-- All values with their fields, by ascending field name. -/
def fieldValues (doc : Document) : List (String × String) :=
  doc.fields.toList.flatMap fun field => field.2.map (field.1, ·)

/-- The number of values. -/
def count (doc : Document) : Nat :=
  doc.fieldValues.length

/-- The names of the fields that have a value, ascending. -/
def names (doc : Document) : List String :=
  doc.fields.keys

/-- The values of a field, or nothing for a field that has none. -/
def values? (doc : Document) (field : String) : Option (List String) :=
  doc.fields[field]?

/-- The values of a field. -/
def values (doc : Document) (field : String) : List String :=
  (doc.values? field).getD []

/-- Whether the field has a value. -/
def hasField (doc : Document) (field : String) : Bool :=
  (doc.values? field).isSome

end Document

/-! ## Terms -/

/-- A key of an index: a text under a field name. -/
structure Term where
  field : String
  text : String
deriving DecidableEq, Hashable, Inhabited

/-- The order of terms: by field, then by text. -/
def Term.le (s t : Term) : Bool :=
  s.field < t.field || (s.field == t.field && s.text ≤ t.text)

namespace Schema

/-- The terms of one value. -/
def termsOfValue (schema : Schema) (field value : String) : Except Fault (List Term) :=
  match schema.fieldType? field with
  | none => .error (.unknownField field)
  | some type =>
    match type.indexTerms field value with
    | .error cause => .error (.query cause)
    | .ok texts => .ok (texts.map (Term.mk field))

/-- The terms of values under their fields. -/
def termsOfValues (schema : Schema) : List (String × String) → Except Fault (List Term)
  | [] => .ok []
  | (field, value) :: rest => do
    let terms ← schema.termsOfValue field value
    return terms ++ (← termsOfValues schema rest)

/-- The terms of all values of a document. -/
def termsOf (schema : Schema) (doc : Document) : Except Fault (List Term) :=
  schema.termsOfValues doc.fieldValues

/-- Whether a document has a value with this term. -/
def holds (schema : Schema) (doc : Document) (term : Term) : Bool :=
  match schema.fieldType? term.field with
  | none => false
  | some type =>
    (doc.values term.field).any fun value =>
      match type.indexTerms term.field value with
      | .ok texts => texts.contains term.text
      | .error _ => false

/-- Whether a document has a value that starts with the stem, in a field where that makes sense. -/
def holdsStem (schema : Schema) (doc : Document) (field stem : String) : Bool :=
  match schema.fieldType? field with
  | none => false
  | some type =>
    type.supportsStem && (doc.values field).any fun value => stem.toList.isPrefixOf value.toList

/-- The terms that queries for the values of a field look up. -/
def fullTerms (schema : Schema) (doc : Document) (field : String) : List String :=
  match schema.fieldType? field with
  | none => []
  | some type => (doc.values field).filterMap fun value => (type.queryTerm field value).toOption

end Schema

end TermJoin
