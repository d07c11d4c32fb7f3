import TermJoin.Fault

/-!
# Schemas

The declared fields of an index. The type of a field says which terms a raw value is indexed under, and which
one a query for it looks up.

* `NumericTerm.encode`: the term of a number at a shift. It is `#`, two decimal digits for the bits shifted
  out, and sixteen hexadecimal digits for what is left. The sign bit is flipped first, so that the order of the
  terms of one shift is the order of the numbers.
* `FieldType.indexTerms`: all the terms of a value. A number has one for each multiple of the stride below 64,
  from the full value to ever fewer bits.
* `FieldType.queryTerm`: the one term of the exact value.
* `FieldType.fullStem?`: how the terms of full values are told from those of fewer bits.
* `Schema.declare`: one more field; declaring a field again changes its type in place.
* `Schema.fieldType?`: the type of a declared field.
-/

namespace TermJoin

/-! ## Terms of numbers -/

namespace NumericTerm

/-- What every term of a full value starts with. -/
def fullStem : String := "#00"

/-- The digit of a value below sixteen, in lower case. -/
def digit (d : Nat) : Char :=
  if d < 10 then Char.ofNat ('0'.toNat + d) else Char.ofNat ('a'.toNat + (d - 10))

/-- The last `width` digits of a number in a base up to sixteen, the most significant first. -/
def fixedDigits (base : Nat) : Nat → Nat → List Char
  | 0, _ => []
  | width + 1, n => fixedDigits base width (n / base) ++ [digit (n % base)]

/-- The sign bit of a number. -/
def signBit : UInt64 := 0x8000000000000000

/-- The number as an unsigned one in the same order: its sign bit is flipped. -/
def sortable (v : Int64) : UInt64 := v.toUInt64 ^^^ signBit

/-- The number whose unsigned form this is. -/
def ofSortable (n : UInt64) : Int64 := (n ^^^ signBit).toInt64

/-- The term of a number with its lowest `shift` bits shifted out. -/
def encode (v : Int64) (shift : Nat) : String :=
  String.ofList ('#' :: (fixedDigits 10 2 shift ++
    fixedDigits 16 16 (sortable v >>> UInt64.ofNat shift).toNat))

/-- The term of the whole number. -/
def full (v : Int64) : String := encode v 0

/-- The number of a term of a full value, its digits read leniently. -/
def decode? (term : String) : Option Int64 :=
  match term.toList with
  | '#' :: '0' :: '0' :: digits => (Text.readHex64 digits).map fun n => ofSortable (.ofNat n)
  | _ => none

end NumericTerm

/-! ## Field types -/

/-- How the values of a field become terms. -/
inductive FieldType
  | text
  | int64 (precisionStep : UInt8)
deriving DecidableEq

namespace FieldType

/-- Numbers with the usual precision step. -/
def number : FieldType := int64 16

/-- What the terms of full values start with, where other terms stand beside them. -/
def fullStem? : FieldType → Option String
  | text => none
  | int64 _ => some NumericTerm.fullStem

/-- Whether queries by the start of a value make sense. -/
def supportsStem : FieldType → Bool
  | text => true
  | int64 _ => false

/-- The number of bits between two precisions: the step, brought into `1 … 64`. -/
def stride (precisionStep : UInt8) : Nat := max 1 (min precisionStep.toNat 64)

/-- The shifts at which a number is indexed. -/
def shifts (precisionStep : UInt8) : List Nat :=
  (List.range 64).filter fun shift => shift % stride precisionStep == 0

/-- The number of a raw value, blanks at its ends aside. -/
def readNumber (field value : String) : Except QueryFault Int64 :=
  match Text.readInt64 (Text.trim value.toList) with
  | .ok v => .ok v
  | .error cause => .error (.invalidValue field value (.notInteger cause))

/-- All the terms that a raw value is indexed under. -/
def indexTerms (type : FieldType) (field value : String) : Except QueryFault (List String) :=
  match type with
  | text => .ok [value]
  | int64 precisionStep => do
    let v ← readNumber field value
    return (shifts precisionStep).map (NumericTerm.encode v)

/-- The term that a query for exactly this value looks up. -/
def queryTerm (type : FieldType) (field value : String) : Except QueryFault String :=
  match type with
  | text => .ok value
  | int64 _ => do
    let v ← readNumber field value
    return NumericTerm.full v

end FieldType

/-! ## Declared fields -/

/-- The declared fields with their types. -/
structure Schema where
  fields : List (String × FieldType) := []
deriving DecidableEq

namespace Schema

/-- The fields with `name` given this type, at the end if it is new. -/
def declareIn (name : String) (type : FieldType) :
    List (String × FieldType) → List (String × FieldType)
  | [] => [(name, type)]
  | field :: rest =>
    if field.1 = name then (name, type) :: rest else field :: declareIn name type rest

/-- The schema with one more field, or with another type for a field it has. -/
def declare (schema : Schema) (name : String) (type : FieldType) : Schema :=
  ⟨declareIn name type schema.fields⟩

/-- The type of a field, if it is declared. -/
def fieldType? (schema : Schema) (name : String) : Option FieldType :=
  schema.fields.lookup name

/-- Whether the field is declared. -/
def hasField (schema : Schema) (name : String) : Bool :=
  (schema.fieldType? name).isSome

/-- The names of the fields, in the order of declaration. -/
def names (schema : Schema) : List String :=
  schema.fields.map (·.1)

/-- One field, written as its name and its type. -/
def describeField : String × FieldType → String
  | (name, .text) => name ++ ":text"
  | (name, .int64 precisionStep) => name ++ ":i64/" ++ toString precisionStep.toNat

/-- The schema on one line. -/
def describe (schema : Schema) : String :=
  ", ".intercalate (schema.fields.map describeField)

/-- A family tree with labelled links: a text `kind`, the numbers `id` and `parent` that refer to
each other, and the texts `label` and `link` that do so too. -/
def familyTree : Schema where
  fields := [("kind", .text), ("id", .number), ("parent", .number), ("label", .text),
    ("link", .text)]

end Schema

end TermJoin
