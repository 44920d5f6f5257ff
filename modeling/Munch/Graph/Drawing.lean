import Munch.Graph.Basic
import Munch.Utf8

/-!
# Drawings of families

The `dot` command turns a graph into an SVG image. What it answers is the
input here; if it fails, or on request, the graph should be kept in a file.
-/

namespace Munch

inductive ExitStatus
  | code (n : Nat)
  | signal (n : Nat)
  deriving DecidableEq

/-- The signals from 1 on. -/
def signalNames : List String :=
  ["SIGHUP", "SIGINT", "SIGQUIT", "SIGILL", "SIGTRAP", "SIGABRT", "SIGBUS", "SIGFPE", "SIGKILL",
    "SIGUSR1", "SIGSEGV", "SIGUSR2", "SIGPIPE", "SIGALRM", "SIGTERM", "SIGSTKFLT", "SIGCHLD",
    "SIGCONT", "SIGSTOP", "SIGTSTP", "SIGTTIN", "SIGTTOU", "SIGURG", "SIGXCPU", "SIGXFSZ",
    "SIGVTALRM", "SIGPROF", "SIGWINCH", "SIGIO", "SIGPWR", "SIGSYS"]

def ExitStatus.message : ExitStatus → String
  | .code n => s!"exit status: {n}"
  | .signal n =>
    s!"signal: {n}" ++ match n with
      | 0 => ""
      | k + 1 => match signalNames[k]? with
        | some name => " (" ++ name ++ ")"
        | none => ""

inductive CommandAnswer
  | notFound
  | notPermitted
  | finished (status : ExitStatus) (stdout stderr : List UInt8)
  deriving DecidableEq

inductive DrawingError
  | notFound
  | notPermitted
  | unsuccessful (status : ExitStatus) (stderr : List Char)
  | invalid (m : Utf8.Malformation)
  deriving DecidableEq

def DrawingError.message : DrawingError → String
  | .notFound => "cannot run dot: No such file or directory (os error 2)"
  | .notPermitted => "cannot run dot: Permission denied (os error 13)"
  | .unsuccessful status stderr =>
    "dot exited with " ++ status.message ++ ": " ++ String.ofList stderr
  | .invalid m => "dot wrote invalid UTF-8: " ++ m.message

/-- The image in a command's answer. Standard error counts only if it failed. -/
def CommandAnswer.image : CommandAnswer → Except DrawingError (List Char)
  | .notFound => .error .notFound
  | .notPermitted => .error .notPermitted
  | .finished status stdout stderr =>
    if status = .code 0 then
      match Utf8.decode stdout with
      | .ok text => .ok text
      | .error m => .error (.invalid m)
    else .error (.unsuccessful status (Text.trim (Utf8.decodeLossy stderr)))

def dotArguments : List String := ["-Tsvg"]

/-- If this variable is set, graphs are kept. -/
def keepVariable : String := "LEXISH_SAVE_GRAPH"

structure Drawing where
  graph : List Char
  image : Except DrawingError (List Char)
  keep : Bool

def Family.draw (family : Family) (dot : List Char → CommandAnswer) (keepAlways : Bool) :
    Drawing :=
  let graph := family.dot
  let image := (dot graph).image
  ⟨graph, image, keepAlways || image.toOption.isNone⟩

inductive KeepEvent
  | kept (rules : Nat) (path : String)
  | failed (error path : String)
  deriving DecidableEq

end Munch
