import Munch.Frame
import Munch.Options
import Munch.Position
import Munch.Window

/-!
# Scans

A scan cuts the input into frames. At each place the rules race; the winner's
text becomes a frame, and a symbol that no rule takes is skipped, or ends a
strict scan. An empty match is taken once at a place, so that a scan always
gets on, and a sentinel ends it.
-/

namespace Munch

inductive ScanError
  | input (e : InputError)
  | unrecognized (symbol : Char) (position : Position)
  deriving DecidableEq

def ScanError.message : ScanError → String
  | .input e => "failed to read input: " ++ e.message
  | .unrecognized c p =>
    "unrecognized symbol " ++ Text.quoteSymbol c ++ " at " ++ p.display

structure Stats where
  /-- The sentinel is not counted. -/
  frames : Nat
  skipped : Nat
  symbols : Nat
  deriving DecidableEq

structure Scan where
  family : Family
  options : Options
  window : Window
  /-- Where the next symbol of the window stands. -/
  position : Position
  /-- The offset of the last empty match. -/
  emptyAt : Option Nat
  stats : Stats
  done : Bool

inductive ScanEvent
  | commit (frame : Frame)
  | skip (symbol : Char) (position : Position)
  | finish (position : Position) (stats : Stats)
  deriving DecidableEq

inductive Settled
  | frame (f : Frame)
  | skip (symbol : Char)
  | failed (e : ScanError)
  deriving DecidableEq

namespace Scan

def ofFeed (family : Family) (options : Options) (feed : Feed) : Scan where
  family := family
  options := options
  window := ⟨[], false, feed⟩
  position := Position.start
  emptyAt := none
  stats := ⟨0, 0, 0⟩
  done := false

/-- The frame of the match `m` at the scan's place, and the scan behind it. -/
def commit (s : Scan) (m : Match) : Frame × Scan :=
  let text := s.window.ahead.take m.length
  (.token m.rule text s.position.line s.position.column,
    { s with
      window := { s.window with ahead := s.window.ahead.drop m.length }
      position := s.position.advanceAll s.options.terminator text
      emptyAt := if m.length = 0 then some s.position.offset else s.emptyAt
      stats :=
        { s.stats with frames := s.stats.frames + 1, symbols := s.stats.symbols + m.length } })

/-- What becomes of a place where no rule matches. -/
def miss (s : Scan) : Settled × Scan :=
  match s.window.pop with
  | (.error e, w) => (.failed (.input e), { s with window := w })
  | (.ok none, w) =>
    (.frame (.sentinel s.position.line s.position.column), { s with window := w })
  | (.ok (some c), w) =>
    if s.options.strict then
      (.failed (.unrecognized c s.position), { s with window := w })
    else
      (.skip c,
        { s with
          window := w
          position := s.position.advance s.options.terminator c
          stats := { s.stats with skipped := s.stats.skipped + 1 } })

def settle (s : Scan) : Settled × Scan :=
  match s.window.race s.family (s.emptyAt != some s.position.offset) with
  | (.error e, w) => (.failed (.input e), { s with window := w })
  | (.ok (some m), w) =>
    let (f, t) := commit { s with window := w } m
    (.frame f, t)
  | (.ok none, w) => miss { s with window := w }

theorem size_miss {s t : Scan} {c : Char} (h : s.miss = (.skip c, t)) :
    t.window.size < s.window.size := by
  simp only [miss] at h
  split at h
  · cases h
  · cases h
  · rename_i heq
    split at h
    · cases h
    · cases h; exact Window.size_pop heq

theorem size_settle {s t : Scan} {c : Char} (h : s.settle = (.skip c, t)) :
    t.window.size < s.window.size := by
  have hr := Window.size_race s.window s.family (s.emptyAt != some s.position.offset)
  simp only [settle] at h
  split at h
  · cases h
  · cases h
  · rename_i heq
    rw [heq] at hr
    exact Nat.lt_of_lt_of_le (size_miss h) hr

/-- What is reported of a delivered frame, given the scan behind it. -/
def report (f : Frame) (s : Scan) : ScanEvent :=
  if f.isSentinel then .finish s.position s.stats else .commit f

/-- Skips to the next frame; `log` holds the events so far, newest first. -/
def advance (s : Scan) (log : List ScanEvent) : Except ScanError Frame × List ScanEvent × Scan :=
  match _ : s.settle with
  | (.frame f, t) => (.ok f, (report f t :: log).reverse, { t with done := f.isSentinel })
  | (.failed e, t) => (.error e, log.reverse, { t with done := true })
  | (.skip c, t) => t.advance (.skip c s.position :: log)
termination_by s.window.size
decreasing_by exact size_settle ‹_›

/-- The next frame or error, nothing once the scan is done. -/
def next (s : Scan) : Option (Except ScanError Frame) × List ScanEvent × Scan :=
  if s.done then (none, [], s)
  else
    let (r, log, t) := s.advance []
    (some r, log, t)

/-! ## Whole scans -/

/-- The results of at most `n` calls, up to the first that gives none, and what
was reported on the way. -/
def results (s : Scan) : Nat → List (Except ScanError Frame) × List ScanEvent
  | 0 => ([], [])
  | n + 1 =>
    match s.next with
    | (none, log, _) => ([], log)
    | (some r, log, t) =>
      let (rs, later) := t.results n
      (r :: rs, log ++ later)

/-- All results. Each frame but two takes up a symbol: one empty match and the
sentinel may come at the end of the input. -/
def all (s : Scan) : List (Except ScanError Frame) × List ScanEvent :=
  s.results (s.window.size + 2)

end Scan

/-- The frames of a text, sentinel included, under the standard options. -/
def scanText (family : Family) (text : List Char) :
    Except ScanError (List Frame) × List ScanEvent :=
  let (results, log) := (Scan.ofFeed family Options.standard (Feed.ofText text)).all
  (results.mapM id, log)

end Munch
