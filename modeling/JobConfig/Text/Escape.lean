import JobConfig.Decimal.Reading

/-!
# Escapes

What stands behind a backslash between double quotes: a letter for one character, or a letter for
how many hexadecimal digits of a code point follow.
-/

namespace JobConfig

/-- Where in an escape a character stands. -/
inductive Escape where
  | outside
  | begun
  /-- So many digits are missing from a code point with the given upper digits. -/
  | digits (left value : Nat)
deriving DecidableEq, Repr

/-- What a letter behind a backslash stands for. -/
inductive Escaped where
  | char (c : Char)
  | codePoint (digits : Nat)
deriving DecidableEq, Repr

/-- The character of a code point. -/
def charOf? (n : Nat) : Option Char :=
  if h : n.isValidChar then some (Char.ofNatAux n h) else none

end JobConfig
