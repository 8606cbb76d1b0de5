import JobConfig.Text.Escape
import JobConfig.Value

/-!
# The scalars of TOML

Texts, numbers, dates and times of a TOML text, each read off the beginning of some characters:
the result is the value and what follows it, or nothing if there is no such scalar.
-/

namespace JobConfig.Toml

/-! ## Characters and lines -/

def isBlank (c : Char) : Bool := c = ' ' || c = '\t'

/-- A character that a comment or a text may hold; line breaks are none. -/
def isShown (c : Char) : Bool :=
  c = '\t' || (0x20 ≤ c.toNat && c.toNat ≤ 0x7E) || 0x80 ≤ c.toNat

def skipBlanks (cs : List Char) : List Char :=
  cs.dropWhile isBlank

/-- The text with every line break of two characters made one. A carriage return that is left has
no place in a text. -/
def unixLines : List Char → List Char
  | [] => []
  | '\r' :: '\n' :: rest => '\n' :: unixLines rest
  | c :: rest => c :: unixLines rest

/-- What follows a character that has to be there. -/
def expect? (c : Char) : List Char → Option (List Char)
  | [] => none
  | d :: rest => if d = c then some rest else none

/-- What follows a line of which no more than a comment is left. -/
def lineEnd? (cs : List Char) : Option (List Char) :=
  let rest := match skipBlanks cs with
    | '#' :: r => r.dropWhile isShown
    | r => r
  if rest.isEmpty then some [] else expect? '\n' rest

/-- What follows blanks, line breaks and comments. -/
def skipSpace : (comment : Bool) → List Char → List Char
  | _, [] => []
  | comment, c :: rest =>
    if c = '\n' then skipSpace false rest
    else if comment then if isShown c then skipSpace true rest else c :: rest
    else if c = '#' then skipSpace true rest
    else if isBlank c then skipSpace false rest
    else c :: rest

/-! ## Texts -/

/-- What a character behind a backslash stands for. -/
def escaped? (c : Char) : Option Escaped :=
  match c with
  | 'b' => some (.char '\x08')
  | 't' => some (.char '\t')
  | 'n' => some (.char '\n')
  | 'f' => some (.char '\x0c')
  | 'r' => some (.char '\r')
  | '"' => some (.char '"')
  | '\\' => some (.char '\\')
  | 'u' => some (.codePoint 4)
  | 'U' => some (.codePoint 8)
  | _ => none

/-- Puts characters in front of a text that has been read. -/
def putBefore (front : List Char) (r : Option (List Char × List Char)) :
    Option (List Char × List Char) :=
  r.map fun t => (front ++ t.1, t.2)

/-- The rest of a text between double quotes. -/
def basicText : Escape → List Char → Option (List Char × List Char)
  | .outside, '"' :: rest => some ([], rest)
  | .outside, '\\' :: rest => basicText .begun rest
  | .outside, c :: rest => if isShown c then putBefore [c] (basicText .outside rest) else none
  | .begun, c :: rest =>
    match escaped? c with
    | none => none
    | some (.char e) => putBefore [e] (basicText .outside rest)
    | some (.codePoint n) => basicText (.digits n 0) rest
  | .digits left value, c :: rest =>
    match digitValue? 16 c with
    | none => none
    | some d =>
      let value := value * 16 + d
      if left ≤ 1 then
        match charOf? value with
        | none => none
        | some e => putBefore [e] (basicText .outside rest)
      else basicText (.digits (left - 1) value) rest
  | _, [] => none

/-- The rest of a text between single quotes. -/
def literalText (cs : List Char) : Option (List Char × List Char) :=
  let text := cs.takeWhile fun c => c ≠ '\'' && isShown c
  match cs.drop text.length with
  | '\'' :: rest => some (text, rest)
  | _ => none

/-- Up to five quotes in a row: the last three close a text of several lines, those before them
belong to it. -/
def closing? (quote : Char) (cs : List Char) : Option (List Char × List Char) :=
  let run := ((cs.takeWhile (· = quote)).take 5).length
  if 3 ≤ run then some (List.replicate (run - 3) quote, cs.drop run) else none

/-- Where in a text of several lines a character stands. -/
inductive LinePlace where
  | text (escape : Escape)
  /-- Behind a backslash and blanks, which a line break has to follow. -/
  | joining
  /-- Behind a backslash and a line break, where blanks and line breaks do not count. -/
  | joined
deriving DecidableEq, Repr

/-- The rest of a text of several lines between double quotes. -/
def basicLines : LinePlace → List Char → Option (List Char × List Char)
  | _, [] => none
  | .joining, c :: rest =>
    if c = '\n' then basicLines .joined rest
    else if isBlank c then basicLines .joining rest
    else none
  | .text .begun, c :: rest =>
    if c = '\n' then basicLines .joined rest
    else if isBlank c then basicLines .joining rest
    else match escaped? c with
    | none => none
    | some (.char e) => putBefore [e] (basicLines (.text .outside) rest)
    | some (.codePoint n) => basicLines (.text (.digits n 0)) rest
  | .text (.digits left value), c :: rest =>
    match digitValue? 16 c with
    | none => none
    | some d =>
      let value := value * 16 + d
      if left ≤ 1 then
        match charOf? value with
        | none => none
        | some e => putBefore [e] (basicLines (.text .outside) rest)
      else basicLines (.text (.digits (left - 1) value)) rest
  | place, c :: rest =>
    if place = .joined && (isBlank c || c = '\n') then basicLines .joined rest
    else if c = '\\' then basicLines (.text .begun) rest
    else if c = '"' then
      match closing? '"' (c :: rest) with
      | some closed => some closed
      | none => putBefore ['"'] (basicLines (.text .outside) rest)
    else if isShown c || c = '\n' then putBefore [c] (basicLines (.text .outside) rest)
    else none

/-- The rest of a text of several lines between single quotes. -/
def literalLines : List Char → Option (List Char × List Char)
  | [] => none
  | c :: rest =>
    if c = '\'' then
      match closing? '\'' (c :: rest) with
      | some closed => some closed
      | none => putBefore ['\''] (literalLines rest)
    else if isShown c || c = '\n' then putBefore [c] (literalLines rest)
    else none

/-- The text without the line break that it begins with. -/
def skipNewline (cs : List Char) : List Char :=
  (expect? '\n' cs).getD cs

/-- A text. -/
def text? : List Char → Option (List Char × List Char)
  | '"' :: '"' :: '"' :: rest => basicLines (.text .outside) (skipNewline rest)
  | '\'' :: '\'' :: '\'' :: rest => literalLines (skipNewline rest)
  | '"' :: rest => basicText .outside rest
  | '\'' :: rest => literalText rest
  | _ => none

/-! ## Numbers -/

/-- More digits, each perhaps behind an underscore. -/
def moreDigits (p : Char → Bool) : List Char → Option (List Char × List Char)
  | [] => some ([], [])
  | '_' :: d :: rest => if p d then putBefore [d] (moreDigits p rest) else none
  | c :: rest => if p c then putBefore [c] (moreDigits p rest) else some ([], c :: rest)

/-- Digits, with single underscores between them. -/
def digitRun (p : Char → Bool) : List Char → Option (List Char × List Char)
  | [] => none
  | c :: rest => if p c then putBefore [c] (moreDigits p rest) else none

/-- An integer that 64 bits with sign hold. -/
def int? (negative : Bool) (n : Nat) : Option Value :=
  let i : Int := if negative then -n else n
  if fitsInt64 i then some (.int i) else none

/-- The digits of an integer in a base. -/
def inBase (base : Nat) (cs : List Char) : Option (Value × List Char) := do
  let (ds, rest) ← digitRun (fun c => (digitValue? base c).isSome) cs
  let n ← digits? base ds
  return (← int? false n, rest)

/-- A finite number; one that is too large has no positive value. -/
def finite? (negative : Bool) (text : List Char) : Option Value := do
  let d ← decimal? text
  let x := Double.ofDecimal negative d.digits d.exponent
  if x.isInfinite && !negative then none else some (.float x)

/-- The exponent of a number, if there is one. -/
def power? : List Char → Option (List Char × List Char)
  | [] => some ([], [])
  | e :: rest =>
    if e = 'e' ∨ e = 'E' then
      match rest with
      | '+' :: r => putBefore ['e'] (digitRun Char.isDigit r)
      | '-' :: r => putBefore ['e', '-'] (digitRun Char.isDigit r)
      | r => putBefore ['e'] (digitRun Char.isDigit r)
    else some ([], e :: rest)

/-- The digits of a decimal integer: a zero alone, or some that begin with none. -/
def wholeRun : List Char → Option (List Char × List Char)
  | '0' :: rest => some (['0'], rest)
  | cs => digitRun Char.isDigit cs

/-- A decimal number behind its sign. -/
def decimalNumber (negative : Bool) (cs : List Char) : Option (Value × List Char) := do
  let (whole, rest) ← wholeRun cs
  let (fraction, rest) ← match rest with
    | '.' :: r => putBefore ['.'] (digitRun Char.isDigit r)
    | r => some ([], r)
  let (power, rest) ← power? rest
  if fraction.isEmpty && power.isEmpty then
    let n ← digits? 10 whole
    return (← int? negative n, rest)
  else return (← finite? negative (whole ++ fraction ++ power), rest)

/-- A number behind its sign. -/
def unsignedNumber (negative : Bool) : List Char → Option (Value × List Char)
  | 'i' :: 'n' :: 'f' :: rest => some (.float (.infinity negative), rest)
  | 'n' :: 'a' :: 'n' :: rest => some (.float .nan, rest)
  | cs => decimalNumber negative cs

/-- A number. -/
def number? : List Char → Option (Value × List Char)
  | '0' :: 'x' :: rest => inBase 16 rest
  | '0' :: 'o' :: rest => inBase 8 rest
  | '0' :: 'b' :: rest => inBase 2 rest
  | '+' :: rest => unsignedNumber false rest
  | '-' :: rest => unsignedNumber true rest
  | cs => unsignedNumber false cs

/-! ## Dates and times -/

/-- A number of exactly `count` digits. -/
def fixed? (count : Nat) (cs : List Char) : Option (Nat × List Char) :=
  let ds := cs.take count
  if ds.length = count ∧ ds.all Char.isDigit then (digits? 10 ds).map fun n => (n, cs.drop count)
  else none

/-- A number of exactly two digits in a range. -/
def twoDigits? (low high : Nat) (cs : List Char) : Option (Nat × List Char) :=
  (fixed? 2 cs).filter fun n => low ≤ n.1 && n.1 ≤ high

/-- The days of a month. -/
def daysIn (year month : Nat) : Nat :=
  if month = 2 then
    if year % 4 = 0 ∧ (year % 100 ≠ 0 ∨ year % 400 = 0) then 29 else 28
  else if month ∈ [4, 6, 9, 11] then 30
  else 31

/-- What follows a date. -/
def date? (cs : List Char) : Option (List Char) := do
  let (year, rest) ← fixed? 4 cs
  let (month, rest) ← twoDigits? 1 12 (← expect? '-' rest)
  let (day, rest) ← twoDigits? 1 31 (← expect? '-' rest)
  if day ≤ daysIn year month then return rest else none

/-- What follows a time of the day. -/
def time? (cs : List Char) : Option (List Char) := do
  let (_, rest) ← twoDigits? 0 23 cs
  let (_, rest) ← twoDigits? 0 59 (← expect? ':' rest)
  let (_, rest) ← twoDigits? 0 60 (← expect? ':' rest)
  match rest with
  | '.' :: r =>
    let after := r.dropWhile Char.isDigit
    if after.length < r.length then return after else none
  | r => return r

/-- What follows the distance to universal time, if one is given. -/
def offset? : List Char → Option (List Char)
  | [] => some []
  | c :: rest =>
    if c = 'Z' ∨ c = 'z' then some rest
    else if c = '+' ∨ c = '-' then do
      let (_, rest) ← twoDigits? 0 23 rest
      let (_, rest) ← twoDigits? 0 59 (← expect? ':' rest)
      return rest
    else some (c :: rest)

/-- What follows the time behind a date, if there is one. -/
def timeBehind? (cs : List Char) : Option (List Char) :=
  match cs with
  | [] => some []
  | c :: rest =>
    if c = 'T' ∨ c = 't' ∨ c = ' ' then
      match twoDigits? 0 23 rest with
      | some (_, ':' :: _) => (time? rest).bind offset?
      | _ => some cs
    else some cs

/-- A date, a time or both, as a mapping of its text. -/
def moment? (cs : List Char) : Option (Value × List Char) := do
  let rest ← match fixed? 4 cs with
    | some (_, '-' :: _) => (date? cs).bind timeBehind?
    | _ => time? cs
  let text := String.ofList (cs.take (cs.length - rest.length))
  return (.keyed "moment" (.str text), rest)

/-- Whether what begins with digits is a date or a time. -/
def isMoment (cs : List Char) : Bool :=
  match fixed? 4 cs, fixed? 2 cs with
  | some (_, '-' :: _), _ => true
  | _, some (_, ':' :: _) => true
  | _, _ => false

end JobConfig.Toml
