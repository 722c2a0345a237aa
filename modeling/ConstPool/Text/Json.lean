/-!
# JSON texts

A JSON value and its two layouts: `compact`, without any blank, and `pretty`, with one member a
line and two blanks for each level. Members are written in the order in which they are given.
Characters above the controls stand for themselves; quote, backslash and the controls are
escaped.

Both layouts are made of the same texts for scalars and strings, so they differ in nothing but
blanks and line breaks. An empty array and an empty object take one line in either of them.
-/

namespace ConstPool

/-- A JSON value with integers for numbers. -/
inductive Json where
  | null
  | bool (b : Bool)
  | number (n : Int)
  | string (s : String)
  | array (items : List Json)
  | object (members : List (String × Json))

namespace Json

/-- The numeral of a natural number. -/
def ofNat (n : Nat) : Json := .number n

/-- An object with a single member. -/
def tagged (name : String) (content : Json) : Json := .object [(name, content)]

/-! ### Texts -/

/-- The form of a character in a JSON string. -/
def escapedChar (c : Char) : List Char :=
  match c with
  | '"' => ['\\', '"']
  | '\\' => ['\\', '\\']
  | '\n' => ['\\', 'n']
  | '\r' => ['\\', 'r']
  | '\t' => ['\\', 't']
  | '\x08' => ['\\', 'b']
  | '\x0c' => ['\\', 'f']
  | c =>
    if c.toNat < 0x20 then
      ['\\', 'u', '0', '0', Nat.digitChar (c.toNat / 16), Nat.digitChar (c.toNat % 16)]
    else [c]

/-- A JSON string with its quotes. -/
def stringChars (s : String) : List Char := '"' :: (s.toList.flatMap escapedChar ++ ['"'])

/-- The numeral of an integer. -/
def numberChars (n : Int) : List Char :=
  if n < 0 then '-' :: Nat.toDigits 10 n.natAbs else Nat.toDigits 10 n.natAbs

/-! ### The compact layout -/

mutual

/-- The characters of the compact layout. -/
def chars : Json → List Char
  | .null => ['n', 'u', 'l', 'l']
  | .bool true => ['t', 'r', 'u', 'e']
  | .bool false => ['f', 'a', 'l', 's', 'e']
  | .number n => numberChars n
  | .string s => stringChars s
  | .array items => '[' :: (itemsChars items ++ [']'])
  | .object members => '\x7b' :: (membersChars members ++ ['\x7d'])

/-- The items of an array with commas between them. -/
def itemsChars : List Json → List Char
  | [] => []
  | [item] => chars item
  | item :: rest => chars item ++ ',' :: itemsChars rest

/-- The members of an object with commas between them. -/
def membersChars : List (String × Json) → List Char
  | [] => []
  | [(name, value)] => stringChars name ++ ':' :: chars value
  | (name, value) :: rest => stringChars name ++ ':' :: (chars value ++ ',' :: membersChars rest)

end

/-- The text without any blank. -/
def compact (json : Json) : String := String.ofList json.chars

/-! ### The pretty layout -/

/-- The start of a line at a level. -/
def newline (level : Nat) : List Char := '\n' :: List.replicate (2 * level) ' '

mutual

/-- The characters of the pretty layout of a value that stands at a level. -/
def prettyChars (level : Nat) : Json → List Char
  | .array [] => ['[', ']']
  | .array (item :: rest) =>
    '[' :: (newline (level + 1) ++ prettyChars (level + 1) item ++ prettyItems (level + 1) rest ++
      newline level ++ [']'])
  | .object [] => ['\x7b', '\x7d']
  | .object ((name, value) :: rest) =>
    '\x7b' :: (newline (level + 1) ++ stringChars name ++ [':', ' '] ++
      prettyChars (level + 1) value ++ prettyMembers (level + 1) rest ++ newline level ++ ['\x7d'])
  | .null => ['n', 'u', 'l', 'l']
  | .bool true => ['t', 'r', 'u', 'e']
  | .bool false => ['f', 'a', 'l', 's', 'e']
  | .number n => numberChars n
  | .string s => stringChars s

/-- The further items of an array, each after a comma on a line of its own. -/
def prettyItems (level : Nat) : List Json → List Char
  | [] => []
  | item :: rest => ',' :: (newline level ++ prettyChars level item ++ prettyItems level rest)

/-- The further members of an object, each after a comma on a line of its own. -/
def prettyMembers (level : Nat) : List (String × Json) → List Char
  | [] => []
  | (name, value) :: rest =>
    ',' :: (newline level ++ stringChars name ++ [':', ' '] ++ prettyChars level value ++
      prettyMembers level rest)

end

/-- The text with one item or member a line. -/
def pretty (json : Json) : String := String.ofList (json.prettyChars 0)

end Json

end ConstPool
