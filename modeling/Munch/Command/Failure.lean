import Munch.Description.Basic
import Munch.Graph.Drawing
import Munch.Stream

/-!
# Failures of the programs

Why a program ends early, written out in full: the name of each cause with its
fields.
-/

namespace Munch

def Defect.detail : Defect → String
  | .noStates => "NoStates"
  | .stateOutOfRange q n => s!"StateOutOfRange \x7b state: {q}, states: {n} \x7d"
  | .emptyRange lo hi =>
    "EmptyRange \x7b lo: " ++ Text.quoteSymbol lo ++ ", hi: " ++ Text.quoteSymbol hi ++ " \x7d"
  | .overlap q c => s!"Overlap \x7b state: {q}, symbol: " ++ Text.quoteSymbol c ++ " \x7d"
  | .duplicateJump q kind =>
    s!"DuplicateJump \x7b state: {q}, kind: " ++ Text.quote kind.word ++ " \x7d"

def DescriptionError.detail : DescriptionError → String
  | .rule name d => "Rule \x7b rule: " ++ Text.quote name ++ ", source: " ++ d.detail ++ " \x7d"
  | .ambiguousSymbols name => "AmbiguousSymbols \x7b rule: " ++ Text.quote name ++ " \x7d"

def Position.detail (p : Position) : String :=
  s!"Position \x7b line: {p.line}, column: {p.column}, offset: {p.offset} \x7d"

def InputError.detail (e : InputError) : String :=
  match e with
  | .truncated =>
    "Error \x7b kind: " ++ e.kind ++ ", message: " ++ Text.quote e.message ++ " \x7d"
  | _ => "Custom \x7b kind: " ++ e.kind ++ ", error: " ++ Text.quote e.message ++ " \x7d"

def ScanError.detail : ScanError → String
  | .input e => "Input(" ++ e.detail ++ ")"
  | .unrecognized c p =>
    "Unrecognized \x7b symbol: " ++ Text.quoteSymbol c ++ ", position: " ++ p.detail ++ " \x7d"

def StreamError.detail : StreamError → String
  | .scan e => "Scan(" ++ e.detail ++ ")"
  | .exhausted k => s!"Exhausted({k})"
  | .unopened k => s!"Unopened({k})"
  | .noNestedFamily k => s!"NoNestedFamily({k})"
  | .tooDeep k => s!"TooDeep({k})"

/-- Why a file cannot be read as text. -/
inductive FileError
  | system (code : Nat) (kind message : String)
  | notUtf8
  deriving DecidableEq

namespace FileError

def missing : FileError := .system 2 "NotFound" "No such file or directory"

def forbidden : FileError := .system 13 "PermissionDenied" "Permission denied"

def notDirectory : FileError := .system 20 "NotADirectory" "Not a directory"

def isDirectory : FileError := .system 21 "IsADirectory" "Is a directory"

def nameTooLong : FileError := .system 36 "InvalidFilename" "File name too long"

end FileError

def FileError.detail : FileError → String
  | .system code kind message =>
    s!"Os \x7b code: {code}, kind: {kind}, message: " ++ Text.quote message ++ " \x7d"
  | .notUtf8 =>
    "Error \x7b kind: InvalidData, message: \"stream did not contain valid UTF-8\" \x7d"

inductive Failure
  | usage (text : String)
  | file (e : FileError)
  | parse
  | description (e : DescriptionError)
  | stream (e : StreamError)
  | drawing (e : DrawingError)
  deriving DecidableEq

def Failure.detail : Failure → String
  | .usage text => Text.quote text
  | .file e => e.detail
  | .parse => "Parse"
  | .description e => e.detail
  | .stream e => e.detail
  | .drawing e => Text.quote e.message

end Munch
