import TermJoin.Query.Basic
import TermJoin.Syntax.LocalParams

/-!
# Query texts

A query text is an expression of the standard syntax, or begins with local parameters that say which
syntax follows: the standard one, or a join whose sub-query is a query text again.

* `Expression.toQuery`: the query that an expression means under a schema.
* `Query.read`: the query of a text, or its fault. The text of a sub-query is shorter than the one it
  stands in, which is why reading ends.
-/

namespace TermJoin

open Syntax

/-- The query for values of a field. -/
def Syntax.Value.toQuery (schema : Schema) (field : String) (value : Value) :
    Except QueryFault Query :=
  match schema.fieldType? field with
  | none => .error (.unknownField field)
  | some type =>
    match value with
    | .exact text => do
      let term ← type.queryTerm field text
      return .term ⟨field, term⟩
    | .startsWith stem =>
      if type.supportsStem then .ok (.startsWith field stem)
      else .error (.invalidValue field (stem ++ "*") .stemOfNumbers)

/-- The query that an expression means. -/
def Syntax.Expression.toQuery (schema : Schema) : Expression → Except QueryFault Query
  | .all => .ok .all
  | .leaf field value => value.toQuery schema field
  | .not operand => do
    let q ← operand.toQuery schema
    return q.not
  | .link connective left right => do
    let p ← left.toQuery schema
    let q ← right.toQuery schema
    return match connective with
      | .and => p.and q
      | .or => p.or q

namespace Query

/-- The query of a text in the standard syntax. -/
def readStandard (schema : Schema) (text : List Char) : Except QueryFault Query :=
  match Expression.read? text with
  | none => .error .malformed
  | some e => e.toQuery schema

/-- The two fields of a join, both declared. -/
def readJoinFields (schema : Schema) (params : LocalParams) :
    Except QueryFault (String × String) :=
  match params.get? "from", params.get? "to" with
  | none, _ => .error (.missingParam "from")
  | some _, none => .error (.missingParam "to")
  | some source, some target =>
    if !schema.hasField source then .error (.unknownField source)
    else if !schema.hasField target then .error (.unknownField target)
    else .ok (source, target)

/-- Whether a text begins with local parameters. -/
def hasParams : List Char → Bool
  | '\x7b' :: '!' :: _ => true
  | _ => false

/-- The query of a text given by its characters. -/
def readChars (schema : Schema) (text : List Char) : Except QueryFault Query :=
  let text' := Text.skipBlanks text
  if hasParams text' then
    match _h : LocalParams.read? text' with
    | none => .error .malformed
    | some params =>
      if params.kind = "join" then do
        let (source, target) ← readJoinFields schema params
        let sub ← readChars schema params.queryText.toList
        return .join source target sub .one
      else if params.kind = "lucene" then readStandard schema params.queryText.toList
      else .error (.unknownParser params.kind)
  else readStandard schema text'
termination_by text.length
decreasing_by
  have h1 := LocalParams.length_queryText_lt _h
  have h2 : text'.length ≤ text.length := Text.length_skipBlanks_le text
  omega

/-- The query of a text. -/
def read (schema : Schema) (text : String) : Except QueryFault Query :=
  readChars schema text.toList

end Query

end TermJoin
