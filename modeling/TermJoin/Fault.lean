import TermJoin.Text

/-!
# What can go wrong

* `QueryFault`: a text that does not become a query, or a value that does not fit its field.
* `Fault`: what writing to an index or running a query against it can report, and how it can break off.
* `QueryFault.message`, `Fault.message`: the wording of each.
* `exists_of_bind_eq_ok`: how steps that can go wrong are taken apart.
-/

namespace TermJoin

/-- Why a value does not fit its field. -/
inductive ValueFault
  | notInteger (cause : Text.IntegerFault)
  | stemOfNumbers
deriving DecidableEq

/-- The wording of the reason. -/
def ValueFault.message : ValueFault → String
  | notInteger cause => cause.message
  | stemOfNumbers => "prefix queries need a text field"

/-- Why a text is not a query. -/
inductive QueryFault
  | malformed
  | missingParam (name : String)
  | unknownField (name : String)
  | unknownParser (name : String)
  | invalidValue (field value : String) (reason : ValueFault)
deriving DecidableEq

/-- The wording of the fault. -/
def QueryFault.message : QueryFault → String
  | malformed => "syntax error"
  | missingParam name => s!"missing required parameter '{name}'"
  | unknownField name => s!"undefined field '{name}'"
  | unknownParser name => s!"unknown query parser '{name}'"
  | invalidValue field value reason =>
    s!"invalid value '{value}' for field '{field}': " ++ reason.message

/-- Why an index or a snapshot refuses a request. An allocation that is larger than any address space is not
reported to the caller: the call breaks off. -/
inductive Fault
  | unknownField (name : String)
  | tooManyDocuments
  | tooManyTerms (field stem : String) (limit : Nat)
  | foreignSegment (ord : Nat)
  | query (cause : QueryFault)
  | capacityOverflow
deriving DecidableEq

/-- The wording of the fault. -/
def Fault.message : Fault → String
  | unknownField name => s!"undefined field '{name}'"
  | tooManyDocuments => "too many documents in index"
  | tooManyTerms field stem limit =>
    s!"prefix '{stem}' on field '{field}' expands to more than {limit} terms"
  | foreignSegment ord => s!"segment {ord} does not belong to this snapshot"
  | query cause => cause.message
  | capacityOverflow => "capacity overflow"

/-- Two steps that succeed do so one after the other. -/
theorem exists_of_bind_eq_ok {ε α β : Type} {first : Except ε α} {next : α → Except ε β} {b : β}
    (h : first >>= next = .ok b) : ∃ a, first = .ok a ∧ next a = .ok b := by
  cases first with
  | error fault => cases h
  | ok a => exact ⟨a, rfl, h⟩

/-- A fault that neither step has, the whole does not have. -/
theorem bind_ne_error {ε α β : Type} {first : Except ε α} {next : α → Except ε β} {fault : ε}
    (hfirst : first ≠ .error fault) (hnext : ∀ a, next a ≠ .error fault) : first >>= next ≠ .error fault := by
  cases first with
  | ok a => exact hnext a
  | error other => exact fun h => hfirst (congrArg Except.error (Except.error.inj h))

end TermJoin
