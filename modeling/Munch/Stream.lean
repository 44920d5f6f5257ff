import Munch.Scan

/-!
# Streams of nested scans

A stream is a stack of scans. Level 0 scans the input; a frame whose rule has a
nested family can be opened once, as a level that scans the frame's text. Asking
a level for a frame closes all levels below it, since they scan a frame that is
now behind, and a nested level is closed by its own sentinel.
-/

namespace Munch

inductive StreamError
  | scan (e : ScanError)
  | exhausted (level : Nat)
  | unopened (level : Nat)
  | noNestedFamily (level : Nat)
  | tooDeep (limit : Nat)
  deriving DecidableEq

def StreamError.message : StreamError → String
  | .scan e => e.message
  | .exhausted k => s!"level {k} has already delivered its end-of-stream frame"
  | .unopened k => s!"level {k} is not open; levels must be opened one deeper at a time"
  | .noNestedFamily k => s!"the most recent frame at level {k} has no nested rules to scan with"
  | .tooDeep k => s!"nested scans are limited to a depth of {k}"

inductive StreamEvent
  | opened
  | openedNested (level rules : Nat) (text : List Char)
  | finished (level line column : Nat)
  | scan (e : ScanEvent)
  deriving DecidableEq

/-! ## Levels -/

structure Level where
  scan : Scan
  /-- The frame delivered last. -/
  last : Option Frame
  /-- Whether `last` was opened as a level. -/
  expanded : Bool

namespace Level

def ofScan (scan : Scan) : Level := ⟨scan, none, false⟩

def pull (l : Level) (depth : Nat) : Except StreamError Frame × List ScanEvent × Level :=
  match l.scan.next with
  | (none, log, scan) => (.error (.exhausted depth), log, { l with scan })
  | (some (.error e), log, scan) => (.error (.scan e), log, { l with scan })
  | (some (.ok f), log, scan) => (.ok f, log, ⟨scan, some f, false⟩)

def nested? (l : Level) : Option (Family × List Char) :=
  match l.last with
  | some (.token rule text _ _) =>
    match l.scan.family[rule]? with
    | some r => if r.nested.isEmpty then none else some (r.nested, text)
    | none => none
  | _ => none

end Level

/-! ## The stack -/

structure Stream where
  family : Family
  options : Options
  /-- The input, until level 0 is opened. -/
  feed : Option Feed
  /-- The open levels, deepest first. -/
  levels : List Level
  /-- The frame that was delivered last, or the one above it if that was the
  sentinel of a nested level. -/
  current : Option Frame

namespace Stream

def ofFeed (family : Family) (options : Options) (feed : Feed) : Stream :=
  ⟨family, options, some feed, [], none⟩

/-- A stream over a text has the standard options. -/
def ofText (family : Family) (text : List Char) : Stream :=
  ofFeed family Options.standard (Feed.ofText text)

def depth (s : Stream) : Nat := s.levels.length

def text (s : Stream) : List Char :=
  match s.current with
  | some f => f.text
  | none => []

def line (s : Stream) : Nat :=
  match s.current with
  | some f => f.line
  | none => 0

def column (s : Stream) : Nat :=
  match s.current with
  | some f => f.column
  | none => 0

/-- The levels from `level` upwards, deepest first. -/
def upTo (s : Stream) (level : Nat) : List Level := s.levels.drop (s.depth - (level + 1))

def asked (s : Stream) : Nat :=
  match s.levels.getLast? with
  | some l => l.scan.window.feed.asked
  | none => match s.feed with
    | some f => f.asked
    | none => 0

def openLevel (s : Stream) : Except StreamError (StreamEvent × Stream) :=
  if s.options.maxDepth ≤ s.depth then .error (.tooDeep s.options.maxDepth)
  else
    match s.levels with
    | [] =>
      match s.feed with
      | none => .error (.exhausted 0)
      | some feed =>
        let level := Level.ofScan (Scan.ofFeed s.family s.options feed)
        .ok (.opened, { s with feed := none, levels := [level] })
    | l :: ls =>
      if l.expanded then .error (.exhausted s.depth)
      else
        match l.nested? with
        | none => .error (.noNestedFamily (s.depth - 1))
        | some (family, text) =>
          let level := Level.ofScan (Scan.ofFeed family s.options (Feed.ofText text))
          .ok (.openedNested s.depth family.length s.text,
            { s with levels := level :: { l with expanded := true } :: ls })

def lastOf : List Level → Option Frame
  | [] => none
  | l :: _ => l.last

def pull (s : Stream) : Except StreamError Frame × List StreamEvent × Stream :=
  match s.levels with
  | [] => (.error (.unopened 0), [], s)
  | l :: outer =>
    let level := outer.length
    match l.pull level with
    | (.error e, log, l) => (.error e, log.map .scan, { s with levels := l :: outer })
    | (.ok f, log, l) =>
      let log := log.map .scan
      if f.isSentinel then
        let log := log ++ [.finished level f.line f.column]
        if outer.isEmpty then (.ok f, log, { s with levels := [l], current := some f })
        else (.ok f, log, { s with levels := outer, current := lastOf outer })
      else (.ok f, log, { s with levels := l :: outer, current := some f })

/-- The next frame of `level`, which may be any open level or the next to open. -/
def next (s : Stream) (level : Nat) : Except StreamError Frame × List StreamEvent × Stream :=
  if s.depth < level then (.error (.unopened level), [], s)
  else if level = s.depth then
    match s.openLevel with
    | .error e => (.error e, [], s)
    | .ok (event, t) =>
      let (r, log, u) := t.pull
      (r, event :: log, u)
  else { s with levels := s.upTo level }.pull

end Stream

end Munch
