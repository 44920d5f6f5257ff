import Munch.Stream

/-!
# Listings

A listing shows all frames of a stream, each followed by the frames of the
nested scan of its text, indented by their level.
-/

namespace Munch

structure Record where
  level : Nat
  frame : Frame
  /-- The name of the frame's rule, empty if there is none. -/
  name : String
  deriving DecidableEq

def Record.line (r : Record) : List Char :=
  List.replicate (2 * r.level) ' ' ++ r.frame.display ++ [' '] ++ r.name.toList

/-- The rule that a family has a frame from. -/
def Frame.ruleIn? (f : Frame) (family : Family) : Option Rule := f.rule?.bind (family[·]?)

def Record.ofFrame (level : Nat) (family : Family) (f : Frame) : Record :=
  ⟨level, f, ((f.ruleIn? family).bind (·.name)).getD ""⟩

/-- The families to go on with behind a frame, where `family` is the deepest
open one and `outer` are those above it. -/
def familiesBehind (f : Frame) (family : Family) (outer : List Family) : List Family :=
  if f.isSentinel then outer
  else
    match f.ruleIn? family with
    | some r => if r.nested.isEmpty then family :: outer else r.nested :: family :: outer
    | none => family :: outer

namespace Stream

/-- At most `steps` records of the stream behind `records` (newest first), and
the error that ended them. The families are those of the open levels and perhaps
of the next to open, deepest first. -/
def listFrom (steps : Nat) (families : List Family) (s : Stream) (records : List Record) :
    List Record × Option StreamError :=
  match steps, families with
  | 0, _ => (records.reverse, none)
  | _, [] => (records.reverse, none)
  | steps + 1, family :: outer =>
    match s.next outer.length with
    | (.error e, _, _) => (records.reverse, some e)
    | (.ok f, _, t) =>
      listFrom steps (familiesBehind f family outer) t
        (Record.ofFrame outer.length family f :: records)

/-- More steps than a listing takes. A scan of `n` symbols has at most `n + 2`
frames, and each can be scanned again on the next level. -/
def listingBound (n height : Nat) : Nat := Nat.pow (n + 3) (height + 1)

/-- The whole listing of a stream of which nothing has been read. -/
def listing (s : Stream) : List Record × Option StreamError :=
  let symbols := match s.feed with
    | some f => f.pending.length
    | none => 0
  s.listFrom (listingBound symbols (Family.height s.family)) [s.family] []

end Stream

end Munch
