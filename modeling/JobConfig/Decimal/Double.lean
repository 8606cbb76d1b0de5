/-!
# Double-precision numbers

A number of a document that is not an integer is kept as the 64 bits of its binary64 form, so two
of them are equal exactly when their bits are. A finite one is `mantissa * 2 ^ exponent`, with the
sign apart. `ofDecimal` reads a decimal, rounding to the nearest number of the format.
-/

namespace JobConfig

/-- A binary64 number, by its bits. -/
structure Double where
  bits : UInt64
deriving DecidableEq, Repr

namespace Double

/-- The number that a machine float holds. -/
def ofFloat (x : Float) : Double :=
  ⟨x.toBits⟩

def isNegative (x : Double) : Bool :=
  Nat.pow 2 63 ≤ x.bits.toNat

/-- The eleven bits of the exponent. -/
def exponentBits (x : Double) : Nat :=
  x.bits.toNat / Nat.pow 2 52 % Nat.pow 2 11

/-- The fifty-two bits of the fraction. -/
def fractionBits (x : Double) : Nat :=
  x.bits.toNat % Nat.pow 2 52

def isNaN (x : Double) : Bool :=
  x.exponentBits == 2047 && x.fractionBits != 0

def isInfinite (x : Double) : Bool :=
  x.exponentBits == 2047 && x.fractionBits == 0

def isZero (x : Double) : Bool :=
  x.exponentBits == 0 && x.fractionBits == 0

/-- The whole number that a finite number is a power of two times. -/
def mantissa (x : Double) : Nat :=
  if x.exponentBits = 0 then x.fractionBits else x.fractionBits + Nat.pow 2 52

/-- The power of two that goes with `mantissa`. -/
def exponent (x : Double) : Int :=
  (max x.exponentBits 1 : Nat) - 1075

/-- Equality of the numbers, and not of their bits: the two zeros are the same number, and so are
all texts of "not a number". -/
def same (x y : Double) : Bool :=
  x == y || (x.isNaN && y.isNaN) || (x.isZero && y.isZero)

def nan : Double := ⟨0x7FF8000000000000⟩

/-- Infinity of the given sign. -/
def infinity (negative : Bool) : Double :=
  if negative then ⟨0xFFF0000000000000⟩ else ⟨0x7FF0000000000000⟩

/-- Zero of the given sign. -/
def zero (negative : Bool) : Double :=
  if negative then ⟨0x8000000000000000⟩ else ⟨0⟩

/-- The number nearest to `digits * 10 ^ exponent`. Powers so far out that the digits cannot bring
the value back into the format's range answer infinity and zero at once. -/
def ofDecimal (negative : Bool) (digits : Nat) (exponent : Int) : Double :=
  if digits = 0 then zero negative
  else if 310 ≤ exponent then infinity negative
  else if exponent + digits.log2 + 1 < -350 then zero negative
  else
    let x := Float.ofScientific digits (exponent < 0) exponent.natAbs
    ofFloat (if negative then -x else x)

/-- The number nearest to an integer. -/
def ofInt (n : Int) : Double :=
  ofDecimal (n < 0) n.natAbs 0

end Double

end JobConfig
