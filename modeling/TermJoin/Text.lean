/-!
# Texts

What field values and query texts are made of.

* `isBlank`: the characters that separate tokens, by their table; `skipBlanks`, `trim`: a text without its
  leading blanks, and without those at either end.
* `enquote`, `readQuoted`: a text between two quotes, in which a backslash takes the next character as it is;
  **`readQuoted_escape`**: an escaped text reads back.
* `readInt64`: an optional sign and at least one digit. A text that is no number has one `IntegerFault`: the
  first character at which reading stops decides, and at one character a bad digit comes before an overflow.
* `readHex64`: an optional plus and at least one hexadecimal digit of either case, below `2 ^ 64`.
-/

namespace TermJoin.Text

/-! ## Blanks -/

/-- The ranges of code points with the property `White_Space`, both ends included. -/
def blankRanges : List (Nat × Nat) :=
  [(0x09, 0x0D), (0x20, 0x20), (0x85, 0x85), (0xA0, 0xA0), (0x1680, 0x1680), (0x2000, 0x200A),
    (0x2028, 0x2029), (0x202F, 0x202F), (0x205F, 0x205F), (0x3000, 0x3000)]

/-- Whether the character is white space. -/
def isBlank (c : Char) : Bool :=
  blankRanges.any fun range => range.1 ≤ c.toNat && c.toNat ≤ range.2

/-- The text from its first character that is not blank. -/
def skipBlanks (s : List Char) : List Char :=
  s.dropWhile isBlank

/-- The text without the blanks at its two ends. -/
def trim (s : List Char) : List Char :=
  (skipBlanks (skipBlanks s).reverse).reverse

theorem length_skipBlanks_le (s : List Char) : (skipBlanks s).length ≤ s.length :=
  (List.dropWhile_sublist isBlank).length_le

/-! ## Quotes -/

/-- The text with a backslash before every quote and every backslash. -/
def escape (quote : Char) : List Char → List Char
  | [] => []
  | c :: rest =>
    if c = quote ∨ c = '\\' then '\\' :: c :: escape quote rest else c :: escape quote rest

/-- The text between the quotes. -/
def enquote (quote : Char) (s : List Char) : List Char :=
  quote :: (escape quote s ++ [quote])

/-- Reads to the closing quote, from behind the opening one. -/
def readQuoted (quote : Char) : List Char → Option (List Char × List Char)
  | [] => none
  | '\\' :: c :: rest => (readQuoted quote rest).map fun (text, rest) => (c :: text, rest)
  | c :: rest =>
    if c = quote then some ([], rest)
    else (readQuoted quote rest).map fun (text, rest) => (c :: text, rest)

/-- **An escaped text reads back.** -/
theorem readQuoted_escape (quote : Char) (hq : quote ≠ '\\') (s rest : List Char) :
    readQuoted quote (escape quote s ++ quote :: rest) = some (s, rest) := by
  induction s with
  | nil =>
    simp only [escape, List.nil_append]
    rw [readQuoted.eq_def]
    split <;> simp_all
  | cons c s ih =>
    rw [escape]
    split
    · simp [readQuoted, ih]
    · rename_i h
      simp only [not_or] at h
      simp only [List.cons_append]
      rw [readQuoted.eq_def]
      split <;> simp_all

theorem length_of_readQuoted {quote : Char} {s text rest : List Char}
    (h : readQuoted quote s = some (text, rest)) : text.length + rest.length < s.length := by
  fun_induction readQuoted quote s generalizing text rest with
  | case1 => cases h
  | case2 c tail ih =>
    obtain ⟨⟨t, r⟩, ht, heq⟩ := Option.map_eq_some_iff.1 h
    cases heq
    have := ih ht
    simp only [List.length_cons]
    omega
  | case3 tail =>
    cases h
    simp
  | case4 c tail _ _ ih =>
    obtain ⟨⟨t, r⟩, ht, heq⟩ := Option.map_eq_some_iff.1 h
    cases heq
    have := ih ht
    simp only [List.length_cons]
    omega

/-! ## Whole numbers -/

/-- Why a text is not a signed 64-bit number. -/
inductive IntegerFault
  | empty
  | invalidDigit
  | tooLarge
  | tooSmall
deriving DecidableEq

/-- The wording of a fault. -/
def IntegerFault.message : IntegerFault → String
  | empty => "cannot parse integer from empty string"
  | invalidDigit => "invalid digit found in string"
  | tooLarge => "number too large to fit in target type"
  | tooSmall => "number too small to fit in target type"

/-- The value of a digit below the base, which is at most sixteen. Letters are of either case. -/
def digitValue? (base : Nat) (c : Char) : Option Nat :=
  let value? :=
    if '0' ≤ c ∧ c ≤ '9' then some (c.toNat - '0'.toNat)
    else if 'a' ≤ c ∧ c ≤ 'f' then some (c.toNat - 'a'.toNat + 10)
    else if 'A' ≤ c ∧ c ≤ 'F' then some (c.toNat - 'A'.toNat + 10)
    else none
  value?.filter (· < base)

/-! ## Signed decimal -/

/-- The least number that is too large for a signed one of 64 bits: two to the power of 63. -/
def signedBound : Int := 9223372036854775808

/-- The number of a run of digits that continues `acc`, counted downwards if it is negative. -/
def readDigits (negative : Bool) (acc : Int) : List Char → Except IntegerFault Int
  | [] => .ok acc
  | c :: rest =>
    match digitValue? 10 c with
    | none => .error .invalidDigit
    | some d =>
      let next := if negative then acc * 10 - d else acc * 10 + d
      if next < -signedBound then .error .tooSmall
      else if signedBound ≤ next then .error .tooLarge
      else readDigits negative next rest

/-- The signed 64-bit number that the text writes in decimal. -/
def readInt64 : List Char → Except IntegerFault Int64
  | [] => .error .empty
  | ['-'] => .error .invalidDigit
  | ['+'] => .error .invalidDigit
  | '-' :: digits => (readDigits true 0 digits).map Int64.ofInt
  | '+' :: digits => (readDigits false 0 digits).map Int64.ofInt
  | digits => (readDigits false 0 digits).map Int64.ofInt

/-! ## Unsigned hexadecimal -/

/-- The number of a run of hexadecimal digits that continues `acc`. -/
def readHexDigits (acc : Nat) : List Char → Option Nat
  | [] => some acc
  | c :: rest =>
    match digitValue? 16 c with
    | none => none
    | some d => if acc * 16 + d < Nat.pow 2 64 then readHexDigits (acc * 16 + d) rest else none

/-- The unsigned 64-bit number that the text writes in hexadecimal. -/
def readHex64 : List Char → Option Nat
  | [] => none
  | ['+'] => none
  | '+' :: digits => readHexDigits 0 digits
  | digits => readHexDigits 0 digits

end TermJoin.Text
