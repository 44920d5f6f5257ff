import Munch.Text.Quoted

/-!
# Frames

What a scan delivers: the text that a rule matched and where it began, and last
of all a sentinel at the end of the input.
-/

namespace Munch

inductive Frame
  | token (rule : Nat) (text : List Char) (line column : Nat)
  | sentinel (line column : Nat)
  deriving DecidableEq

namespace Frame

def isSentinel : Frame → Bool
  | sentinel .. => true
  | token .. => false

def rule? : Frame → Option Nat
  | token rule .. => some rule
  | sentinel .. => none

def text : Frame → List Char
  | token _ text .. => text
  | sentinel .. => []

def line : Frame → Nat
  | token _ _ line _ => line
  | sentinel line _ => line

def column : Frame → Nat
  | token _ _ _ column => column
  | sentinel _ column => column

/-- One line: where the frame begins, counted from one, and the rule and its
text, or the end. -/
def display : Frame → List Char
  | token rule text line column =>
    Text.decimal (line + 1) ++ [':'] ++ Text.decimal (column + 1) ++ [' ', '#'] ++
      Text.decimal rule ++ [' '] ++ Text.quoted text
  | sentinel line column =>
    Text.decimal (line + 1) ++ [':'] ++ Text.decimal (column + 1) ++ [' ', 'e', 'n', 'd']

end Frame

end Munch
