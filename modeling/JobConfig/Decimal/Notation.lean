import JobConfig.Decimal.Shortest

/-!
# Decimal notation

How a number is written. `Double.text` is the text in documents: positional notation while the
decimal point stays near the digits, else an exponent, and always a sign that it is no integer.
`Double.plainText` is the text in messages, which never uses an exponent.
-/

namespace JobConfig

/-- The digits of a natural number. -/
def decimalDigits (n : Nat) : List Char :=
  Nat.toDigits 10 n

/-- The text of an integer. -/
def intText (n : Int) : String :=
  String.ofList ((if n < 0 then ['-'] else []) ++ decimalDigits n.natAbs)

/-- Whether 64 bits with sign hold an integer. -/
def fitsInt64 (n : Int) : Bool :=
  -(Nat.pow 2 63 : Int) ≤ n && n < Nat.pow 2 63

theorem fitsInt64_toInt (n : Int64) : fitsInt64 n.toInt = true := by
  have low := n.le_toInt
  have high := n.toInt_lt
  simp only [fitsInt64, Nat.pow_eq, Bool.and_eq_true, decide_eq_true_eq]
  omega

namespace Decimal

/-- Digits with a decimal point, and no exponent. -/
def positional (d : Decimal) : List Char :=
  let ds := decimalDigits d.digits
  let point : Int := ds.length + d.exponent
  if 0 ≤ d.exponent then ds ++ List.replicate d.exponent.toNat '0' ++ ['.', '0']
  else if 0 < point then ds.take point.toNat ++ '.' :: ds.drop point.toNat
  else '0' :: '.' :: List.replicate (-point).toNat '0' ++ ds

/-- One digit before the point, and the power of ten after an `e`. -/
def scientific (d : Decimal) : List Char :=
  let ds := decimalDigits d.digits
  let power : Int := ds.length + d.exponent - 1
  let fraction := match ds.drop 1 with
    | [] => []
    | rest => '.' :: rest
  ds.take 1 ++ fraction ++ 'e' :: (intText power).toList

/-- Positional notation is used while the point stands at most sixteen places to the right, and at
most four zeros to the left, of the first digit. -/
def natural (d : Decimal) : List Char :=
  let point : Int := (decimalDigits d.digits).length + d.exponent
  if -5 < point ∧ point ≤ 16 then d.positional else d.scientific

end Decimal

namespace Double

/-- The sign, and the shortest decimal in the given notation. -/
def finiteText (style : Decimal → List Char) (x : Double) : String :=
  let sign := if x.isNegative then ['-'] else []
  if x.isZero then String.ofList (sign ++ ['0', '.', '0'])
  else String.ofList (sign ++ style (shortest x.mantissa x.exponent))

/-- The text of a number in a document. -/
def text (x : Double) : String :=
  if x.isNaN then ".nan"
  else if x.isInfinite then (if x.isNegative then "-.inf" else ".inf")
  else x.finiteText Decimal.natural

/-- The text of a number in a message. -/
def plainText (x : Double) : String :=
  if x.isNaN then "NaN"
  else if x.isInfinite then (if x.isNegative then "-inf" else "inf")
  else x.finiteText Decimal.positional

end Double

end JobConfig
