import Munch.Log
import Munch.Proofs.Reconstruction

/-!
# What a scan reports

The events of a scan are those of the pieces it has passed, in their order, and last of all
the end.
-/

namespace Munch

namespace ScanEvent

def text : ScanEvent → List Char
  | commit f => f.text
  | skip c _ => [c]
  | finish .. => []

def StandsBehind (e : ScanEvent) (terminator : Char) (before : List Char) : Prop :=
  match e with
  | commit f => f.StandsBehind terminator before
  | skip _ p | finish p _ => p = Position.start.advanceAll terminator before

end ScanEvent

/-! ## The trail of pieces -/

namespace Piece

def event (p : Position) : Piece → ScanEvent
  | token f => .commit f
  | gap c => .skip c p

section
variable (terminator : Char) (p : Position) (pieces : List Piece)

end

end Piece

namespace Scan

section
variable {feed : Feed} {options : Options} {items : List (Except ScanError Frame)} {pieces : List Piece}
  {s t : Scan}

end

end Scan

end Munch
