/-!
# Matches and their order

Every rule that can take the next symbols offers a match. The longest one wins,
and of the longest the one whose rule comes first.
-/

namespace Munch

structure Match where
  rule : Nat
  length : Nat
  deriving DecidableEq

namespace Match

def beats (m n : Match) : Bool :=
  decide (n.length < m.length) || (m.length == n.length && decide (m.rule < n.rule))

def offer : Option Match → Match → Option Match
  | none, m => some m
  | some n, m => if m.beats n then some m else some n

def offerAll (best : Option Match) (offers : List Match) : Option Match :=
  offers.foldl offer best

end Match

end Munch
