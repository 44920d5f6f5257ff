import Munch.Description.Basic
import Munch.Graph.Drawing
import Munch.Stream

/-!
# The log

What the events of the library look like in a log: how serious they are, which
part they belong to, and their text.
-/

namespace Munch

inductive Severity
  | trace
  | debug
  | info
  | warn
  deriving DecidableEq

/-- The part of the library that an entry belongs to. -/
inductive Topic
  | scan
  | stream
  | description
  | drawing
  deriving DecidableEq

structure LogEntry where
  severity : Severity
  topic : Topic
  message : String
  stats : Option Stats
  deriving DecidableEq

def ScanEvent.entry : ScanEvent → LogEntry
  | .commit f => ⟨.trace, .scan, "commit " ++ String.ofList f.display, none⟩
  | .skip c p =>
    ⟨.debug, .scan,
      "skipping unrecognized symbol " ++ Text.quoteSymbol c ++ " at " ++ p.display, none⟩
  | .finish p stats => ⟨.debug, .scan, "end of scan at " ++ p.display, some stats⟩

def StreamEvent.entry : StreamEvent → LogEntry
  | .opened => ⟨.debug, .stream, "opened scan level 0", none⟩
  | .openedNested level rules text =>
    ⟨.debug, .stream,
      s!"opened scan level {level} with {rules} rules over " ++ String.ofList (Text.quoted text),
      none⟩
  | .finished level line column =>
    ⟨.debug, .stream, s!"scan level {level} finished at {line}:{column}", none⟩
  | .scan e => e.entry

def BuildEvent.entry (e : BuildEvent) : LogEntry :=
  ⟨.trace, .description, "building rule " ++ Text.quote e.name ++ s!" with {e.states} states", none⟩

def KeepEvent.entry : KeepEvent → LogEntry
  | .kept rules path => ⟨.info, .drawing, s!"DOT source for {rules} rules kept in " ++ path, none⟩
  | .failed error path =>
    ⟨.warn, .drawing,
      "could not keep DOT source: " ++ error ++ " at path " ++ Text.quote path, none⟩

end Munch
