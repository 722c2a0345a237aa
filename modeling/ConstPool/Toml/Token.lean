import ConstPool.Number.Integer
import ConstPool.Toml.Value

/-!
# The parts of a TOML line

Readers for blanks, comments, keys, strings, numbers and times. A reader takes characters from the
front of a text and gives a result and the rest, or fails.

Numbers and times may begin with the same characters. They are told apart by trying one reader
after another, a time before a float and a float before an integer: a reader that fails consumes
nothing, so the next one begins at the same place.
-/

namespace ConstPool.Toml

/-- Takes characters from the front of a text, or fails. -/
abbrev Reader := StateT (List Char) Option

namespace Reader

/-- Takes the next character if it passes a test. -/
def satisfy (test : Char → Bool) : Reader Char := fun cs =>
  match cs with
  | c :: rest => if test c then some (c, rest) else none
  | [] => none

/-- Takes a given character. -/
def symbol (c : Char) : Reader Unit := do
  let _ ← satisfy (· == c)

/-- Takes given characters. -/
def word (expected : String) : Reader Unit := fun cs =>
  if expected.toList.isPrefixOf cs then some ((), cs.drop expected.length) else none

/-- Takes all characters up to the first that fails a test. -/
def takeWhile (test : Char → Bool) : Reader (List Char) := fun cs =>
  some (cs.takeWhile test, cs.dropWhile test)

/-- Looks at the next character. -/
def peek : Reader (Option Char) := fun cs => some (cs.head?, cs)

/-- A result, or nothing if the reader fails. -/
def attempt {α : Type} (reader : Reader α) : Reader (Option α) := fun cs =>
  match reader cs with
  | some (a, rest) => some (some a, rest)
  | none => some (none, cs)

/-- One or more results with a separator between them; at most so many. -/
def separated {α : Type} (item : Reader α) (separator : Reader Unit) : Nat → Reader (List α)
  | 0 => return [← item]
  | bound + 1 => do
    let first ← item
    match ← attempt separator with
    | none => return [first]
    | some () => return first :: (← separated item separator bound)

end Reader

open Reader

/-! ### Blanks and comments -/

/-- Blanks and tabs. -/
def isSpace (c : Char) : Bool := c == ' ' || c == '\t'

/-- What may stand in a comment: all but the control characters, of which the tab may. -/
def isCommentChar (c : Char) : Bool := c == '\t' || (0x20 ≤ c.toNat && c.toNat != 0x7f)

/-- Skips blanks and tabs. -/
def spaces : Reader Unit := do
  let _ ← takeWhile isSpace

/-- The end of a line. -/
def newline : Reader Unit := fun cs =>
  match cs with
  | '\n' :: rest => some ((), rest)
  | '\r' :: '\n' :: rest => some ((), rest)
  | _ => none

/-- The end of a line or of the document. -/
def lineEnd : Reader Unit := fun cs =>
  match cs with
  | [] => some ((), [])
  | cs => newline cs

/-- A comment, up to the end of its line. -/
def comment : Reader Unit := do
  symbol '#'
  let _ ← takeWhile isCommentChar

/-- What may follow on a line: blanks, a comment, and the end of the line. -/
def lineRest : Reader Unit := do
  spaces
  let _ ← attempt comment
  lineEnd

/-- What follows blanks, comments and ends of lines, read from within a comment or not. A comment
ends with its line. -/
def behindGaps : (inComment : Bool) → List Char → Option (List Char)
  | _, '\n' :: rest => behindGaps false rest
  | _, '\r' :: '\n' :: rest => behindGaps false rest
  | true, c :: rest => if isCommentChar c then behindGaps true rest else none
  | true, [] => none
  | false, '#' :: rest => behindGaps true rest
  | false, '\r' :: _ => none
  | false, c :: rest => if isSpace c then behindGaps false rest else some (c :: rest)
  | false, [] => some []

/-- Skips blanks, comments and ends of lines. -/
def gaps : Reader Unit := fun cs => (behindGaps false cs).map ((), ·)

/-! ### Strings -/

/-- What may stand in a string without an escape, quotes and backslash apart. -/
def isStringChar (c : Char) : Bool := c == '\t' || (0x20 ≤ c.toNat && c.toNat != 0x7f)

/-- The character of a short escape. -/
def escaped? : Char → Option Char
  | 'b' => some '\x08'
  | 't' => some '\t'
  | 'n' => some '\n'
  | 'f' => some '\x0c'
  | 'r' => some '\r'
  | '"' => some '"'
  | '\\' => some '\\'
  | _ => none

/-- The value of a hexadecimal digit. -/
def hexValue? (c : Char) : Option Nat :=
  if '0' ≤ c ∧ c ≤ '9' then some (c.toNat - '0'.toNat)
  else if 'a' ≤ c ∧ c ≤ 'f' then some (c.toNat - 'a'.toNat + 10)
  else if 'A' ≤ c ∧ c ≤ 'F' then some (c.toNat - 'A'.toNat + 10)
  else none

/-- The character whose number is given in hexadecimal. -/
def charOfHex? (digits : List Char) : Option Char := do
  let n ← digits.foldlM (fun acc c => (hexValue? c).map (16 * acc + ·)) 0
  if h : n.isValidChar then some (Char.ofNatAux n h) else none

/-- Puts a character in front of what is read from the rest. -/
def consTo (c : Char) (read : Option (List Char × List Char)) : Option (List Char × List Char) :=
  read.map fun e => (c :: e.1, e.2)

/-- The rest of a string between double quotes. -/
def basicRest : List Char → Option (List Char × List Char)
  | '"' :: rest => some ([], rest)
  | '\\' :: 'u' :: a :: b :: c :: d :: rest => do
    consTo (← charOfHex? [a, b, c, d]) (basicRest rest)
  | '\\' :: 'U' :: a :: b :: c :: d :: e :: f :: g :: h :: rest => do
    consTo (← charOfHex? [a, b, c, d, e, f, g, h]) (basicRest rest)
  | '\\' :: c :: rest => do consTo (← escaped? c) (basicRest rest)
  | c :: rest => if isStringChar c then consTo c (basicRest rest) else none
  | [] => none

/-- Where a reader stands in a string of several lines: in its text, behind a backslash that has
to end its line, or in the blanks after such a line. -/
inductive LineMode where
  | text
  | ending
  | skipping
  deriving DecidableEq

/-- The rest of a string between triple double quotes. One or two quotes may stand right before
the closing ones. -/
def basicLinesRest : LineMode → List Char → Option (List Char × List Char)
  | .ending, ' ' :: rest => basicLinesRest .ending rest
  | .ending, '\t' :: rest => basicLinesRest .ending rest
  | .ending, '\n' :: rest => basicLinesRest .skipping rest
  | .ending, '\r' :: '\n' :: rest => basicLinesRest .skipping rest
  | .ending, _ => none
  | .skipping, ' ' :: rest => basicLinesRest .skipping rest
  | .skipping, '\t' :: rest => basicLinesRest .skipping rest
  | .skipping, '\n' :: rest => basicLinesRest .skipping rest
  | .skipping, '\r' :: '\n' :: rest => basicLinesRest .skipping rest
  | _, '"' :: '"' :: '"' :: '"' :: '"' :: rest => some (['"', '"'], rest)
  | _, '"' :: '"' :: '"' :: '"' :: rest => some (['"'], rest)
  | _, '"' :: '"' :: '"' :: rest => some ([], rest)
  | _, '"' :: rest => consTo '"' (basicLinesRest .text rest)
  | _, '\\' :: 'u' :: a :: b :: c :: d :: rest => do
    consTo (← charOfHex? [a, b, c, d]) (basicLinesRest .text rest)
  | _, '\\' :: 'U' :: a :: b :: c :: d :: e :: f :: g :: h :: rest => do
    consTo (← charOfHex? [a, b, c, d, e, f, g, h]) (basicLinesRest .text rest)
  | _, '\\' :: ' ' :: rest => basicLinesRest .ending rest
  | _, '\\' :: '\t' :: rest => basicLinesRest .ending rest
  | _, '\\' :: '\n' :: rest => basicLinesRest .skipping rest
  | _, '\\' :: '\r' :: '\n' :: rest => basicLinesRest .skipping rest
  | _, '\\' :: c :: rest => do consTo (← escaped? c) (basicLinesRest .text rest)
  | _, '\n' :: rest => consTo '\n' (basicLinesRest .text rest)
  | _, '\r' :: '\n' :: rest => consTo '\n' (basicLinesRest .text rest)
  | _, c :: rest => if isStringChar c then consTo c (basicLinesRest .text rest) else none
  | _, [] => none

/-- The rest of a string between single quotes. -/
def literalRest : List Char → Option (List Char × List Char)
  | '\'' :: rest => some ([], rest)
  | c :: rest => if isStringChar c then consTo c (literalRest rest) else none
  | [] => none

/-- The rest of a string between triple single quotes. -/
def literalLinesRest : List Char → Option (List Char × List Char)
  | '\'' :: '\'' :: '\'' :: '\'' :: '\'' :: rest => some (['\'', '\''], rest)
  | '\'' :: '\'' :: '\'' :: '\'' :: rest => some (['\''], rest)
  | '\'' :: '\'' :: '\'' :: rest => some ([], rest)
  | '\n' :: rest => consTo '\n' (literalLinesRest rest)
  | '\r' :: '\n' :: rest => consTo '\n' (literalLinesRest rest)
  | c :: rest => if isStringChar c then consTo c (literalLinesRest rest) else none
  | [] => none

/-- A string on one line. -/
def lineString : Reader String := fun cs =>
  match cs with
  | '"' :: rest => (basicRest rest).map fun e => (String.ofList e.1, e.2)
  | '\'' :: rest => (literalRest rest).map fun e => (String.ofList e.1, e.2)
  | _ => none

/-- A string, on one line or on several. A line end right after the opening quotes of the latter
is left out. -/
def anyString : Reader String := fun cs =>
  match cs with
  | '"' :: '"' :: '"' :: '\n' :: rest => finish (basicLinesRest .text rest)
  | '"' :: '"' :: '"' :: '\r' :: '\n' :: rest => finish (basicLinesRest .text rest)
  | '"' :: '"' :: '"' :: rest => finish (basicLinesRest .text rest)
  | '\'' :: '\'' :: '\'' :: '\n' :: rest => finish (literalLinesRest rest)
  | '\'' :: '\'' :: '\'' :: '\r' :: '\n' :: rest => finish (literalLinesRest rest)
  | '\'' :: '\'' :: '\'' :: rest => finish (literalLinesRest rest)
  | cs => lineString cs
where
  /-- The characters read as a string. -/
  finish (read : Option (List Char × List Char)) : Option (String × List Char) :=
    read.map fun e => (String.ofList e.1, e.2)

/-! ### Keys -/

/-- What may stand in a key without quotes. -/
def isBareChar (c : Char) : Bool :=
  ('A' ≤ c && c ≤ 'Z') || ('a' ≤ c && c ≤ 'z') || ('0' ≤ c && c ≤ '9') || c == '_' || c == '-'

/-- A part of a key. -/
def simpleKey : Reader String := do
  match ← peek with
  | some '"' => lineString
  | some '\'' => lineString
  | _ =>
    let first ← satisfy isBareChar
    return String.ofList (first :: (← takeWhile isBareChar))

/-- The greatest nesting of arrays and inline tables, and the greatest number of parts of a
key. -/
def maxNesting : Nat := 79

/-- A key: its parts, at least one. -/
def dottedKey : Reader (List String) := do
  let part : Reader String := do
    spaces
    let key ← simpleKey
    spaces
    return key
  let parts ← separated part (symbol '.') maxNesting
  if parts.length ≤ maxNesting then return parts else failure

/-! ### Numbers -/

/-- The decimal digits. -/
def isDigit (c : Char) : Bool := '0' ≤ c && c ≤ '9'

/-- The digits of a certain kind that follow a digit, with single underscores between them. -/
def moreDigits (test : Char → Bool) : List Char → Option (List Char × List Char)
  | '_' :: c :: rest => if test c then consTo c (moreDigits test rest) else none
  | ['_'] => none
  | c :: rest => if test c then consTo c (moreDigits test rest) else some ([], c :: rest)
  | [] => some ([], [])

/-- Digits of a certain kind with single underscores between them. -/
def digits (test : Char → Bool) : Reader (List Char) := do
  let first ← satisfy test
  return first :: (← moreDigits test)

/-- A sign, if there is one: whether it is a minus. -/
def sign : Reader Bool := do
  match ← attempt (satisfy fun c => c == '+' || c == '-') with
  | some '-' => return true
  | _ => return false

/-- A whole number without leading zeros. -/
def wholeDigits : Reader (List Char) := do
  match ← peek with
  | some '0' => do
    symbol '0'
    return ['0']
  | _ => digits isDigit

/-- The value of digits in a base. -/
def valueOf (base : Nat) (digits : List Char) : Nat :=
  digits.foldl (fun acc c => base * acc + (hexValue? c).getD 0) 0

/-- An integer of sixty-four bits. -/
def integer : Reader Int := do
  let based (base : Nat) (test : Char → Bool) : Reader Int :=
    return valueOf base (← digits test)
  let n ← (do
      word "0x"
      based 16 fun c => (hexValue? c).isSome) <|> (do
      word "0o"
      based 8 fun c => '0' ≤ c && c ≤ '7') <|> (do
      word "0b"
      based 2 fun c => c == '0' || c == '1') <|> (do
      let negative ← sign
      let n := (valueOf 10 (← wholeDigits) : Int)
      return if negative then -n else n)
  if (Integer.narrow? n).isSome then return n else failure

/-- Whether a decimal is too large for a double: it is not less than the point half way between
the greatest double and the next power of two. -/
def isTooLarge (mantissa : Nat) (exponent : Int) : Bool :=
  let width : Int := (Nat.toDigits 10 mantissa).length + exponent
  if mantissa = 0 ∨ width < 300 then false
  else if 320 < width then true
  else
    let limit := Nat.pow 2 1024 - Nat.pow 2 970
    if 0 ≤ exponent then limit ≤ mantissa * Nat.pow 10 exponent.toNat
    else limit * Nat.pow 10 (-exponent).toNat ≤ mantissa

/-- The exponent of a float. -/
def floatExponent : Reader Int := do
  let _ ← satisfy fun c => c == 'e' || c == 'E'
  let negative ← sign
  let n := (valueOf 10 (← digits isDigit) : Int)
  return if negative then -n else n

/-- The digits of a float after its point. -/
def floatFraction : Reader (List Char) := do
  symbol '.'
  digits isDigit

/-- A float: a fraction, an exponent, or both behind a whole number, or one of the special
numbers. -/
def float : Reader Unit := do
  let negative ← sign
  let special : Reader Unit := word "inf" <|> word "nan"
  let decimal : Reader Unit := do
    let whole ← wholeDigits
    let fraction ← attempt floatFraction
    let exponent ←
      match fraction with
      | some _ => attempt floatExponent
      | none => some <$> floatExponent
    let fraction := fraction.getD []
    let mantissa := valueOf 10 (whole ++ fraction)
    if !negative && isTooLarge mantissa (exponent.getD 0 - fraction.length) then failure
  special <|> decimal

/-! ### Times -/

/-- A number of exactly so many digits. -/
def fixedDigits : Nat → Nat → Reader Nat
  | 0, value => pure value
  | count + 1, value => do
    let c ← satisfy isDigit
    fixedDigits count (10 * value + (c.toNat - '0'.toNat))

/-- A number of so many digits that does not exceed a bound. -/
def boundedDigits (count bound : Nat) : Reader Nat := do
  let n ← fixedDigits count 0
  if n ≤ bound then return n else failure

/-- How many days a month has. -/
def daysIn (year month : Nat) : Nat :=
  if month = 2 then
    if year % 4 = 0 ∧ (year % 100 ≠ 0 ∨ year % 400 = 0) then 29 else 28
  else if month = 4 ∨ month = 6 ∨ month = 9 ∨ month = 11 then 30
  else 31

/-- A date of the calendar. -/
def date : Reader Unit := do
  let year ← fixedDigits 4 0
  symbol '-'
  let month ← boundedDigits 2 12
  symbol '-'
  let day ← boundedDigits 2 31
  if month = 0 ∨ day = 0 ∨ daysIn year month < day then failure

/-- A time of the day. The sixtieth second may be a leap second. -/
def timeOfDay : Reader Unit := do
  let _ ← boundedDigits 2 23
  symbol ':'
  let _ ← boundedDigits 2 59
  symbol ':'
  let _ ← boundedDigits 2 60
  match ← peek with
  | some '.' => do
    symbol '.'
    let _ ← satisfy isDigit
    let _ ← takeWhile isDigit
  | _ => pure ()

/-- The distance of a time from universal time. -/
def offset : Reader Unit := do
  match ← satisfy fun c => c == 'Z' || c == 'z' || c == '+' || c == '-' with
  | 'Z' => pure ()
  | 'z' => pure ()
  | _ => do
    let _ ← boundedDigits 2 23
    symbol ':'
    let _ ← boundedDigits 2 59

/-- A date with or without a time, or a time alone. -/
def time : Reader Unit := do
  let dated : Reader Unit := do
    date
    let clock : Reader Unit := do
      let _ ← satisfy fun c => c == 'T' || c == 't' || c == ' '
      timeOfDay
      let _ ← attempt offset
    let _ ← attempt clock
  dated <|> timeOfDay

end ConstPool.Toml
