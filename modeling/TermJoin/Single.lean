/-!
# Single precision numbers

Boosts and scores. They are told apart by their bits, so that they can be compared and hashed, and
computed with in single precision. Their texts come from the format in which they are stored, by a sign, a biased
exponent and a fraction, and are computed on whole numbers.

* `BinaryFormat.decode`: the number that a bit pattern stands for. A finite one is a mantissa times
  a power of two.
* `Dyadic.onGrid?`: the best multiple of a power of ten, if one rounds to the number.
* `Dyadic.shortest`: among the decimals that round to the number the one with the fewest digits, and of those
  the nearest.
* `Decimal.positional`: a decimal written without an exponent.
* `Single.mul`: the rounded product.
* `Single.queryNorm`: the factor that brings a query's weight to one.
* `Single.text`: the fewest digits that read back, never with an exponent.
-/

namespace TermJoin

/-! ## Binary formats -/

/-- The widths of the stored fraction and of the stored exponent. -/
structure BinaryFormat where
  fractionBits : Nat
  exponentBits : Nat

/-- A finite number `mantissa * 2 ^ exponent`. It is `narrow` if the next smaller number of its format
is half as far away as the next greater one. -/
structure Dyadic where
  mantissa : Nat
  exponent : Int
  narrow : Bool := false
deriving DecidableEq

/-- What a bit pattern stands for, its sign aside. -/
inductive Magnitude
  | nan
  | infinite
  | finite (value : Dyadic)
deriving DecidableEq

namespace BinaryFormat

/-- Single precision. -/
def single : BinaryFormat := ⟨23, 8⟩

variable (format : BinaryFormat) (bits : Nat)

/-- The stored fraction. -/
def fraction : Nat := bits % Nat.pow 2 format.fractionBits

/-- The stored exponent, with its bias. -/
def biasedExponent : Nat := bits / Nat.pow 2 format.fractionBits % Nat.pow 2 format.exponentBits

/-- Whether the sign bit is set. -/
def isNegative : Bool := bits / Nat.pow 2 (format.fractionBits + format.exponentBits) % 2 == 1

/-- The exponent of the last place of the smallest numbers. -/
def leastExponent : Int := 2 - Nat.pow 2 (format.exponentBits - 1) - format.fractionBits

/-- The magnitude that the bit pattern stands for. -/
def decode : Magnitude :=
  let fraction := format.fraction bits
  let biased := format.biasedExponent bits
  if biased = Nat.pow 2 format.exponentBits - 1 then
    if fraction = 0 then .infinite else .nan
  else if biased = 0 then .finite ⟨fraction, format.leastExponent, false⟩
  else
    .finite ⟨Nat.pow 2 format.fractionBits + fraction, format.leastExponent + (biased - 1),
      fraction == 0 && biased != 1⟩

end BinaryFormat

/-! ## Decimals -/

/-- The number `digits * 10 ^ exponent`. -/
structure Decimal where
  digits : Nat
  exponent : Int
deriving DecidableEq

/-- The multiple of `10 ^ p` that stands for the number, counted in that unit: of its two neighbours
the nearer among those that round to it, and the greater one at a tie. The reals that round to the
number reach halfway to its own neighbours, the ends included if the mantissa is even. -/
def Dyadic.onGrid? (x : Dyadic) (p : Int) : Option Nat :=
  let unit := Nat.pow 2 (x.exponent - 2).toNat * Nat.pow 10 (-p).toNat
  let step := Nat.pow 10 p.toNat * Nat.pow 2 (2 - x.exponent).toNat
  let value := 4 * x.mantissa * unit
  let low := (4 * x.mantissa - if x.narrow then 1 else 2) * unit
  let high := (4 * x.mantissa + 2) * unit
  let rounds (y : Nat) : Bool :=
    if x.mantissa % 2 = 0 then low ≤ y && y ≤ high else low < y && y < high
  let below := value / step
  match rounds (below * step), rounds ((below + 1) * step) with
  | true, true =>
    if 2 * value < (2 * below + 1) * step then some below else some (below + 1)
  | true, false => some below
  | false, true => some (below + 1)
  | false, false => none

/-- The decimal of the fewest digits that rounds to the number, on a grid from `10 ^ top` down through
`count` powers of ten. -/
def Dyadic.shortest (x : Dyadic) (top : Int) (count : Nat) : Decimal :=
  let found? := (List.range count).findSome? fun (k : Nat) =>
    (x.onGrid? (top - k)).map fun digits => (⟨digits, top - k⟩ : Decimal)
  found?.getD ⟨0, 0⟩

/-- The decimal in full, with a point only before digits of a fraction. -/
def Decimal.positional (d : Decimal) : String :=
  let digits := Nat.toDigits 10 d.digits
  let places := (-d.exponent).toNat
  if places = 0 then String.ofList (digits ++ List.replicate d.exponent.toNat '0')
  else
    let padded := List.replicate (places + 1 - digits.length) '0' ++ digits
    let whole := padded.length - places
    String.ofList (padded.take whole ++ '.' :: padded.drop whole)

/-! ## Boosts and scores -/

/-- A single precision number, by its bits. -/
structure Single where
  bits : UInt32
deriving DecidableEq, Hashable

namespace Single

/-- Zero. -/
def zero : Single := ⟨0⟩

/-- One. -/
def one : Single := ⟨0x3F800000⟩

instance : Inhabited Single := ⟨zero⟩

/-- The number with these bits. -/
def toFloat (x : Single) : Float32 := Float32.ofBits x.bits

/-- The bits of the number. -/
def ofFloat (x : Float32) : Single := ⟨x.toBits⟩

/-- The rounded product. -/
def mul (x y : Single) : Single := ofFloat (x.toFloat * y.toFloat)

instance : Mul Single := ⟨mul⟩

/-- Whether the bits stand for no number. -/
def isNaN (x : Single) : Bool :=
  BinaryFormat.single.decode x.bits.toNat == .nan

/-- Whether the number is positive and finite. -/
def isPositiveFinite (x : Single) : Bool := 0 < x.bits && x.bits < 0x7F800000

/-- One over the square root of a sum of squared weights, and one if that makes no sense. -/
def queryNorm (sum : Single) : Single :=
  if sum.isPositiveFinite then ofFloat (one.toFloat / sum.toFloat.sqrt) else one

/-- The number in the fewest digits that read back. -/
def text (x : Single) : String :=
  let sign := if BinaryFormat.single.isNegative x.bits.toNat then "-" else ""
  match BinaryFormat.single.decode x.bits.toNat with
  | .nan => "NaN"
  | .infinite => sign ++ "inf"
  | .finite value =>
    if value.mantissa = 0 then sign ++ "0" else sign ++ (value.shortest 38 84).positional

end Single

end TermJoin
