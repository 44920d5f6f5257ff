/-!
# TOML strings and keys

Readers take a text and give what they read with the rest, or nothing if the
text does not begin with it. Control characters other than the tab may not
stand in a string or comment, and a line ends with LF or CR LF.
-/

namespace Munch.Toml

/-- A tab, or any character that is no control. -/
def isText (c : Char) : Bool := c = '\t' || (' ' ≤ c && c ≠ '\x7f')

def isBlank (c : Char) : Bool := c = ' ' || c = '\t'

def skipBlanks (cs : List Char) : List Char := cs.dropWhile isBlank

def newline? : List Char → Option (List Char)
  | '\n' :: r => some r
  | '\r' :: '\n' :: r => some r
  | _ => none

def startsLine (cs : List Char) : Bool := (newline? cs).isSome

/-- The rest of a line may hold blanks and a comment. -/
def lineEnd? (cs : List Char) : Option (List Char) :=
  let cs := match skipBlanks cs with
    | '#' :: r => r.dropWhile isText
    | r => r
  if cs.isEmpty then some [] else newline? cs

def skipLines (comment : Bool) : List Char → List Char
  | [] => []
  | c :: r =>
    if c = '\n' ∨ (c = '\r' ∧ r.head? = some '\n') then skipLines false r
    else if comment then if isText c then skipLines true r else c :: r
    else if isBlank c then skipLines false r
    else if c = '#' then skipLines true r
    else c :: r

/-! ## Strings -/

def push (c : Char) (r : Option (List Char × List Char)) : Option (List Char × List Char) :=
  r.map fun (s, rest) => (c :: s, rest)

/-- Behind the first of three closing quotes. Up to two more belong to the text. -/
def closing? (quote : Char) (r : List Char) : Option (List Char × List Char) :=
  match r with
  | a :: b :: r =>
    if a = quote ∧ b = quote then
      let extra := (r.take 2).takeWhile (· = quote)
      some (extra, r.drop extra.length)
    else none
  | _ => none

def hexValue? (c : Char) : Option Nat :=
  if c.isDigit then some (c.toNat - '0'.toNat)
  else if 'a' ≤ c ∧ c ≤ 'f' then some (c.toNat - 'a'.toNat + 10)
  else if 'A' ≤ c ∧ c ≤ 'F' then some (c.toNat - 'A'.toNat + 10)
  else none

/-- The letters that stand for a character behind a backslash. -/
def shortEscape? (c : Char) : Option Char :=
  match c with
  | 'b' => some '\x08'
  | 't' => some '\t'
  | 'n' => some '\n'
  | 'f' => some '\x0c'
  | 'r' => some '\r'
  | '"' => some '"'
  | '\\' => some '\\'
  | _ => none

/-- Where a reader of strings with escapes stands. -/
inductive Mode
  | text
  | escape
  /-- In a code point, before `more + 1` digits. -/
  | code (more value : Nat)
  /-- Behind a backslash at the end of a line. -/
  | swallow
  deriving DecidableEq

def basicBody (multiline : Bool) : Mode → List Char → Option (List Char × List Char)
  | _, [] => none
  | .escape, c :: r =>
    if c = 'u' then basicBody multiline (.code 3 0) r
    else if c = 'U' then basicBody multiline (.code 7 0) r
    else match shortEscape? c with
      | some d => push d (basicBody multiline .text r)
      | none =>
        if multiline && startsLine (skipBlanks (c :: r)) then basicBody multiline .swallow r
        else none
  | .code more value, c :: r =>
    match hexValue? c with
    | none => none
    | some d =>
      let value := value * 16 + d
      match more with
      | more + 1 => basicBody multiline (.code more value) r
      | 0 =>
        if value.isValidChar then push (Char.ofNat value) (basicBody multiline .text r) else none
  | mode, c :: r =>
    if mode = .swallow && (isBlank c || startsLine (c :: r)) then
      basicBody multiline .swallow r
    else if c = '"' then
      if !multiline then some ([], r)
      else match closing? '"' r with
        | some closed => some closed
        | none => push '"' (basicBody multiline .text r)
    else if c = '\\' then basicBody multiline .escape r
    else if multiline && c = '\n' then push '\n' (basicBody multiline .text r)
    else if multiline && startsLine (c :: r) then basicBody multiline .text r
    else if isText c then push c (basicBody multiline .text r)
    else none

def literalBody (multiline : Bool) : List Char → Option (List Char × List Char)
  | [] => none
  | c :: r =>
    if c = '\x27' then
      if !multiline then some ([], r)
      else match closing? '\x27' r with
        | some closed => some closed
        | none => push '\x27' (literalBody multiline r)
    else if multiline && c = '\n' then push '\n' (literalBody multiline r)
    else if multiline && startsLine (c :: r) then literalBody multiline r
    else if isText c then push c (literalBody multiline r)
    else none

/-- A line end right behind three opening quotes is dropped. -/
def skipNewline (cs : List Char) : List Char := (newline? cs).getD cs

def lineString? : List Char → Option (List Char × List Char)
  | '"' :: r => basicBody false .text r
  | '\x27' :: r => literalBody false r
  | _ => none

def string? : List Char → Option (List Char × List Char)
  | '"' :: '"' :: '"' :: r => basicBody true .text (skipNewline r)
  | '\x27' :: '\x27' :: '\x27' :: r => literalBody true (skipNewline r)
  | cs => lineString? cs

/-! ## Keys -/

def isBare (c : Char) : Bool := c.isAlphanum || c = '_' || c = '-'

def simpleKey? (cs : List Char) : Option (String × List Char) :=
  match cs with
  | '"' :: _ | '\x27' :: _ => (lineString? cs).map fun (s, r) => (String.ofList s, r)
  | _ =>
    let k := cs.takeWhile isBare
    if k.isEmpty then none else some (String.ofList k, cs.dropWhile isBare)

/-- A key of at most so many parts, with dots between them. -/
def key? : Nat → List Char → Option (List String × List Char)
  | 0, _ => none
  | n + 1, cs => do
    let (k, r) ← simpleKey? (skipBlanks cs)
    match skipBlanks r with
    | '.' :: r => do
      let (ks, r) ← key? n r
      return (k :: ks, r)
    | r => return ([k], r)

end Munch.Toml
