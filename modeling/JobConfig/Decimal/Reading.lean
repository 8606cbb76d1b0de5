import JobConfig.Decimal.Shortest

/-!
# Reading numbers

The numbers that digits stand for: `digits?` in a base, and `decimal?` for a decimal fraction or
exponent form.
-/

namespace JobConfig

/-- The value of a digit, letters counting from ten. -/
def digitValue? (base : Nat) (c : Char) : Option Nat :=
  let n :=
    if '0' ≤ c ∧ c ≤ '9' then c.toNat - 48
    else if 'a' ≤ c ∧ c ≤ 'f' then c.toNat - 87
    else if 'A' ≤ c ∧ c ≤ 'F' then c.toNat - 55
    else base
  if n < base then some n else none

/-- The number that some digits stand for behind a number already read. -/
def digitsFrom? (base : Nat) : (before : Nat) → List Char → Option Nat
  | before, [] => some before
  | before, c :: rest => do
    let d ← digitValue? base c
    digitsFrom? base (before * base + d) rest

/-- The number that some digits stand for; no digits stand for none. -/
def digits? (base : Nat) (cs : List Char) : Option Nat :=
  if cs.isEmpty then none else digitsFrom? base 0 cs

/-- A text without its sign. -/
def unsigned : List Char → List Char
  | '+' :: rest => rest
  | '-' :: rest => rest
  | cs => cs

/-- The number that digits with an optional sign stand for. -/
def signed? (cs : List Char) : Option Int :=
  (digits? 10 (unsigned cs)).map fun n => if cs.head? = some '-' then -(n : Int) else n

/-- A decimal fraction or exponent form: digits with a point among or next to them, and perhaps a
power of ten. -/
def decimal? (cs : List Char) : Option Decimal :=
  let whole := cs.takeWhile Char.isDigit
  let rest := cs.dropWhile Char.isDigit
  let (fraction, rest) := match rest with
    | '.' :: r => (r.takeWhile Char.isDigit, r.dropWhile Char.isDigit)
    | r => ([], r)
  let power : Option Int := match rest with
    | [] => some 0
    | e :: r => if e = 'e' ∨ e = 'E' then signed? r else none
  match digits? 10 (whole ++ fraction), power with
  | some n, some e => some ⟨n, e - fraction.length⟩
  | _, _ => none

end JobConfig
