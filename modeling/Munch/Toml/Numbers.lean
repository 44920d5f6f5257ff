import Munch.Toml.Conventions

/-!
# TOML numbers, dates and times

Only integers have a value here. Of floats, dates and times it matters that they
are well-formed, so their readers just give the rest of the text.
-/

namespace Munch.Toml

/-! ## Integers -/

def digitTail? (isDigit : Char → Bool) : List Char → Option (List Char × List Char)
  | [] => some ([], [])
  | '_' :: d :: r =>
    if isDigit d then (digitTail? isDigit r).map fun (ds, rest) => (d :: ds, rest) else none
  | c :: r =>
    if isDigit c then (digitTail? isDigit r).map fun (ds, rest) => (c :: ds, rest)
    else some ([], c :: r)

def digitRun? (isDigit : Char → Bool) : List Char → Option (List Char × List Char)
  | [] => none
  | c :: r =>
    if isDigit c then (digitTail? isDigit r).map fun (ds, rest) => (c :: ds, rest) else none

def plainDigits? : List Char → Option (List Char × List Char)
  | '0' :: r => some (['0'], r)
  | cs => digitRun? Char.isDigit cs

def isHexDigit (c : Char) : Bool :=
  c.isDigit || ('a' ≤ c && c ≤ 'f') || ('A' ≤ c && c ≤ 'F')

def digitValue (c : Char) : Nat :=
  if c.isDigit then c.toNat - '0'.toNat
  else if 'a' ≤ c then c.toNat - 'a'.toNat + 10
  else c.toNat - 'A'.toNat + 10

def natOf (base : Nat) (ds : List Char) : Nat :=
  ds.foldl (fun n d => n * base + digitValue d) 0

def bounded? (n : Int) (r : List Char) : Option (Int × List Char) :=
  if -(integerBound : Int) ≤ n ∧ n < integerBound then some (n, r) else none

/-- Whether a minus stands in front, and the text behind the sign. -/
def sign : List Char → Bool × List Char
  | '+' :: r => (false, r)
  | '-' :: r => (true, r)
  | r => (false, r)

def integer? (cs : List Char) : Option (Int × List Char) :=
  match cs with
  | '0' :: 'x' :: r => do
    let (ds, r) ← digitRun? isHexDigit r
    bounded? (natOf 16 ds) r
  | '0' :: 'o' :: r => do
    let (ds, r) ← digitRun? (fun c => '0' ≤ c && c ≤ '7') r
    bounded? (natOf 8 ds) r
  | '0' :: 'b' :: r => do
    let (ds, r) ← digitRun? (fun c => c = '0' || c = '1') r
    bounded? (natOf 2 ds) r
  | _ => do
    let (negative, r) := sign cs
    let (ds, r) ← plainDigits? r
    bounded? (if negative then -(natOf 10 ds : Int) else natOf 10 ds) r

/-! ## Floats -/

/-- The word `w` and what is behind it. -/
def word? : List Char → List Char → Option (List Char)
  | [], cs => some cs
  | w :: ws, c :: cs => if w = c then word? ws cs else none
  | _ :: _, [] => none

/-- Behind a point: digits, and how many they are. -/
def fraction? : List Char → Option (List Char × List Char)
  | '.' :: r => digitRun? Char.isDigit r
  | _ => none

def exponent? : List Char → Option (Int × List Char)
  | c :: r =>
    if c = 'e' ∨ c = 'E' then do
      let (negative, r) := sign r
      let (ds, r) ← digitRun? Char.isDigit r
      return (if negative then -(natOf 10 ds : Int) else natOf 10 ds, r)
    else none
  | [] => none

/-- Whether `m * 10 ^ e` is at least the bound. -/
def overflows (m : Nat) (e : Int) : Bool :=
  if m = 0 then false
  else
    let top : Int := (Nat.toDigits 10 m).length + e
    if top > 400 then true
    else if top < 300 then false
    else decide (floatBound * Nat.pow 10 (-e).toNat ≤ m * Nat.pow 10 e.toNat)

/-- The rest behind a float. -/
def float? (cs : List Char) : Option (List Char) :=
  let (negative, r) := sign cs
  match word? ['i', 'n', 'f'] r, word? ['n', 'a', 'n'] r with
  | some r, _ => some r
  | _, some r => some r
  | none, none => do
    let (ds, r) ← plainDigits? r
    let (fs, r, pointed) := match fraction? r with
      | some (fs, r) => (fs, r, true)
      | none => ([], r, false)
    let (e, r) ← match exponent? r with
      | some (e, r) => some (e, r)
      | none => if pointed then some (0, r) else none
    if !negative && overflows (natOf 10 (ds ++ fs)) (e - fs.length) then none else some r

/-! ## Dates and times -/

def fixed? (n : Nat) (cs : List Char) : Option (Nat × List Char) :=
  let ds := cs.take n
  if ds.length = n ∧ ds.all Char.isDigit then some (natOf 10 ds, cs.drop n) else none

def daysIn (year month : Nat) : Nat :=
  if month = 2 then
    if year % 4 = 0 ∧ (year % 100 ≠ 0 ∨ year % 400 = 0) then 29 else 28
  else if month = 4 ∨ month = 6 ∨ month = 9 ∨ month = 11 then 30
  else 31

def date? (cs : List Char) : Option (List Char) := do
  let (year, r) ← fixed? 4 cs
  let r ← word? ['-'] r
  let (month, r) ← fixed? 2 r
  let r ← word? ['-'] r
  let (day, r) ← fixed? 2 r
  if 1 ≤ month ∧ month ≤ 12 ∧ 1 ≤ day ∧ day ≤ daysIn year month then some r else none

def time? (cs : List Char) : Option (List Char) := do
  let (hour, r) ← fixed? 2 cs
  let r ← word? [':'] r
  let (minute, r) ← fixed? 2 r
  let r ← word? [':'] r
  let (second, r) ← fixed? 2 r
  if hour ≤ 23 ∧ minute ≤ 59 ∧ second ≤ 60 then
    match r with
    | '.' :: s => if (s.takeWhile Char.isDigit).isEmpty then some r else some (s.dropWhile Char.isDigit)
    | _ => some r
  else none

def offset? (cs : List Char) : Option (List Char) :=
  match cs with
  | [] => some []
  | c :: r =>
    if c = 'Z' ∨ c = 'z' then some r
    else if c = '+' ∨ c = '-' then do
      let (hour, r) ← fixed? 2 r
      let r ← word? [':'] r
      let (minute, r) ← fixed? 2 r
      if hour ≤ 23 ∧ minute ≤ 59 then some r else none
    else some cs

/-- The rest behind a date, a time or both. -/
def moment? (cs : List Char) : Option (List Char) :=
  match date? cs with
  | none => time? cs
  | some r =>
    match r with
    | c :: s =>
      if c = 'T' ∨ c = 't' ∨ c = ' ' then
        match time? s with
        | some r => offset? r
        | none => some r
      else some r
    | [] => some []

end Munch.Toml
