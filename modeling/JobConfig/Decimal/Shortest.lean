import JobConfig.Decimal.Double

/-!
# The fewest digits that read back

Every finite binary64 number owns the decimals that are nearer to it than to its neighbours: an
interval of the reals, whose ends belong to it when its mantissa is even. `shortest` finds the
decimal with the fewest digits in that interval, and of several the one nearest to the number,
with exact natural-number arithmetic only.
-/

namespace JobConfig

/-- A decimal: `digits * 10 ^ exponent`. -/
structure Decimal where
  digits : Nat
  exponent : Int
deriving DecidableEq, Repr

/-- A quotient of natural numbers, as numerator and denominator. -/
structure Quotient where
  num : Nat
  den : Nat
deriving DecidableEq, Repr

namespace Quotient

/-- The quotient times a power of ten. -/
def scale10 (x : Quotient) (e : Int) : Quotient :=
  ⟨x.num * Nat.pow 10 e.toNat, x.den * Nat.pow 10 (-e).toNat⟩

/-- `m * 2 ^ e / 4`, the quarter being what the ends of an interval need. -/
def quarters (m : Nat) (e : Int) : Quotient :=
  ⟨m * Nat.pow 2 e.toNat, 4 * Nat.pow 2 (-e).toNat⟩

def lt (x y : Quotient) : Bool :=
  x.num * y.den < y.num * x.den

def le (x y : Quotient) : Bool :=
  x.num * y.den ≤ y.num * x.den

end Quotient

/-- The reals that round to one number. -/
structure Interval where
  low : Quotient
  high : Quotient
  /-- Whether the ends belong to the interval. -/
  closed : Bool

namespace Interval

def contains (i : Interval) (x : Quotient) : Bool :=
  if i.closed then i.low.le x && x.le i.high else i.low.lt x && x.lt i.high

/-- The reals that round to the positive number `m * 2 ^ e`. Below a power of two the numbers lie
twice as dense, so that side is half as wide. -/
def around (m : Nat) (e : Int) : Interval where
  low := .quarters (4 * m - if m = Nat.pow 2 52 ∧ -1074 < e then 1 else 2) e
  high := .quarters (4 * m + 2) e
  closed := m % 2 = 0

end Interval

/-- The exponent `p` with `10 ^ (p - 1) ≤ x < 10 ^ p` for a quotient between the two powers of two
`2 ^ e` and `2 ^ (e + 1)`: an estimate from `e`, one too small at most. -/
def decimalPoint (x : Quotient) (e : Int) : Int :=
  let guess := e * 30103 / 100000
  let one : Quotient := ⟨1, 1⟩
  if (one.scale10 (guess + 1)).le x then guess + 2
  else if (one.scale10 guess).le x then guess + 1
  else guess

/-- Of the two neighbours of `x` on the grid of multiples of `10 ^ p`, the one in the interval; of
two the nearer, and at equal distance the even one. -/
def onGrid (i : Interval) (x : Quotient) (p : Int) : Option Nat :=
  let scaled := x.scale10 (-p)
  let below := scaled.num / scaled.den
  let rest := scaled.num % scaled.den
  let isIn (c : Nat) : Bool := i.contains ((Quotient.mk c 1).scale10 p)
  match isIn below, isIn (below + 1) with
  | true, false => some below
  | false, true => some (below + 1)
  | false, false => none
  | true, true =>
    if 2 * rest < scaled.den ∨ (2 * rest = scaled.den ∧ below % 2 = 0) then some below
    else some (below + 1)

/-- The first grid that has a point in the interval, from the coarsest on. -/
def firstGrid (i : Interval) (x : Quotient) : (tries : Nat) → (p : Int) → Decimal
  | 0, p => ⟨(x.scale10 (-p)).num / (x.scale10 (-p)).den, p⟩
  | tries + 1, p =>
    match onGrid i x p with
    | some c => ⟨c, p⟩
    | none => firstGrid i x tries (p - 1)

/-- The decimal without zeros at the end of its digits. -/
def Decimal.stripZeros : (steps : Nat) → Decimal → Decimal
  | 0, d => d
  | steps + 1, d =>
    if d.digits ≠ 0 ∧ d.digits % 10 = 0 then
      stripZeros steps ⟨d.digits / 10, d.exponent + 1⟩
    else d

/-- The shortest decimal that reads back as the positive number `m * 2 ^ e`. Seventeen digits
always do. -/
def shortest (m : Nat) (e : Int) : Decimal :=
  let x := Quotient.quarters (4 * m) e
  let point := decimalPoint x (m.log2 + e)
  (firstGrid (.around m e) x 17 (point - 1)).stripZeros 20

end JobConfig
