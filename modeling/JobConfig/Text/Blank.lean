/-!
# Blank characters

The characters that count as blank are those with Unicode's `White_Space` property. A name
(`isName`) is a text that is not empty and holds no blank, and `trim` takes the blanks off both
ends of a text.
-/

namespace JobConfig

/-- A character with the `White_Space` property. -/
def isBlank (c : Char) : Bool :=
  let n := c.toNat
  (9 ≤ n && n ≤ 13) || n == 0x20 || n == 0x85 || n == 0xA0 || n == 0x1680 ||
    (0x2000 ≤ n && n ≤ 0x200A) || n == 0x2028 || n == 0x2029 || n == 0x202F || n == 0x205F ||
    n == 0x3000

/-- The text without the blanks in front. -/
def trimLeft (cs : List Char) : List Char :=
  cs.dropWhile isBlank

/-- The text without the blanks at its end. -/
def trimRight (cs : List Char) : List Char :=
  (cs.reverse.dropWhile isBlank).reverse

/-- The text without the blanks at either end. -/
def trim (cs : List Char) : List Char :=
  trimRight (trimLeft cs)

/-- A text that can name a job or a parameter: not empty, and free of blanks. -/
def isName (cs : List Char) : Bool :=
  !cs.isEmpty && !cs.any isBlank

/-! ## Names -/

theorem isName_iff {cs : List Char} : isName cs = true ↔ cs ≠ [] ∧ ∀ c ∈ cs, isBlank c = false := by
  cases cs <;> simp [isName]

end JobConfig
