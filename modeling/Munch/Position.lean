/-!
# Positions in a text

Lines and columns count from zero, and a column counts symbols. Only the line
terminator begins a line.
-/

namespace Munch

structure Position where
  line : Nat
  column : Nat
  /-- Symbols before this position. -/
  offset : Nat
  deriving DecidableEq

namespace Position

def start : Position := ⟨0, 0, 0⟩

/-- The position behind the symbol `c`. -/
def advance (terminator : Char) (p : Position) (c : Char) : Position :=
  if c = terminator then ⟨p.line + 1, 0, p.offset + 1⟩
  else ⟨p.line, p.column + 1, p.offset + 1⟩

def advanceAll (terminator : Char) (p : Position) (text : List Char) : Position :=
  text.foldl (advance terminator) p

/-- By line, then column, then offset. -/
def compare (p q : Position) : Ordering :=
  (Ord.compare p.line q.line).then
    ((Ord.compare p.column q.column).then (Ord.compare p.offset q.offset))

/-- People count from one. -/
def display (p : Position) : String := s!"line {p.line + 1}, column {p.column + 1}"

end Position

end Munch
