import Munch.Text.Properties

/-!
# Quoted text

Symbols are written so that any text fits on one line between quotes: the
quotes in use and the backslash behind a backslash, common controls by a
letter, and all else without a shape of its own by its code point.
-/

namespace Munch.Text

def decimal (n : Nat) : List Char := Nat.toDigits 10 n

def codePoint (c : Char) : List Char :=
  ['\\', 'u', '\x7b'] ++ Nat.toDigits 16 c.toNat ++ ['\x7d']

/-- One symbol, where the characters in `quotes` need a backslash. -/
def escape (quotes : List Char) (c : Char) : List Char :=
  if c = '\x00' then ['\\', '0']
  else if c = '\t' then ['\\', 't']
  else if c = '\r' then ['\\', 'r']
  else if c = '\n' then ['\\', 'n']
  else if c = '\\' ∨ c ∈ quotes then ['\\', c]
  else if isExtendingMark c || !isPrintable c then codePoint c
  else [c]

def quoted (s : List Char) : List Char := '"' :: s.flatMap (escape ['"']) ++ ['"']

def quotedSymbol (c : Char) : List Char := '\x27' :: escape ['\x27'] c ++ ['\x27']

def quote (s : String) : String := String.ofList (quoted s.toList)

def quoteSymbol (c : Char) : String := String.ofList (quotedSymbol c)

end Munch.Text
