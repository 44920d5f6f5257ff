import Munch.Text.Quoted

/-!
# What is assumed of TOML

The library that reads and writes TOML is not part of the project. What is assumed
of it beyond TOML 1.0, which the readers of numbers, strings and documents follow,
is named here: the bounds of what it reads, and the text that it writes. A record
is written as a line for each of its fields, in their order, and is read from a
table or from the array of its fields.
-/

namespace Munch.Toml

/-! ## Bounds of what is read -/

/-- Keys have fewer parts than this, and values less depth. -/
def limit : Nat := 80

/-- Integers are below this, and not below its negative. -/
def integerBound : Nat := Nat.pow 2 63

/-- From here on a number rounds to no double. A float so large is refused, but
not if there is a minus in front of it. -/
def floatBound : Nat := Nat.pow 2 1024 - Nat.pow 2 970

/-! ## What is written -/

/-- A code point below U+0100 as `\uXXXX`. -/
def shortCodePoint (c : Char) : List Char :=
  ['\\', 'u', '0', '0'] ++ (Nat.toDigits 16 (c.toNat / 16)).map Char.toUpper ++
    (Nat.toDigits 16 (c.toNat % 16)).map Char.toUpper

/-- A string of one symbol: between single quotes where double ones would need
escapes, a line feed over several lines. -/
def writeSymbol (c : Char) : List Char :=
  if c = '"' ∨ c = '\\' then ['\x27', c, '\x27']
  else if c = '\n' then ['"', '"', '"', '\n', '\n', '"', '"', '"']
  else if c = '\x08' then ['"', '\\', 'b', '"']
  else if c = '\t' then ['"', '\\', 't', '"']
  else if c = '\x0c' then ['"', '\\', 'f', '"']
  else if c = '\r' then ['"', '\\', 'r', '"']
  else if c < ' ' ∨ c = '\x7f' then ['"'] ++ shortCodePoint c ++ ['"']
  else ['"', c, '"']

def writeFlag (b : Bool) : List Char := if b then "true".toList else "false".toList

def writeNatural? (n : Nat) : Option (List Char) :=
  if n < integerBound then some (Text.decimal n) else none

def writeLine (key : String) (value : List Char) : List Char :=
  key.toList ++ " = ".toList ++ value ++ ['\n']

end Munch.Toml
