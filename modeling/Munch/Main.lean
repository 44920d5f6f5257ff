import Munch.Command.Basic

/-!
# The command line

The first argument names the program, the others are the program's own. No other
command is called from here, so the `dot` command counts as not installed.
-/

namespace Munch.Command

def fileError : IO.Error → FileError
  | .noFileOrDirectory .. => FileError.missing
  | .permissionDenied .. => FileError.forbidden
  | .inappropriateType _ code _ =>
    if code = 20 then FileError.notDirectory else FileError.isDirectory
  | e => .system 5 "Uncategorized" (toString e)

def readText (path : String) : IO (Except FileError (List Char)) := do
  try
    let bytes ← IO.FS.readBinFile path
    match Utf8.decode bytes.data.toList with
    | .ok text => return .ok text
    | .error _ => return .error .notUtf8
  catch e => return .error (fileError e)

partial def readAll (input : IO.FS.Stream) (bytes : ByteArray) : IO ByteArray := do
  let more ← input.read 65536
  if more.isEmpty then return bytes else readAll input (bytes ++ more)

/-- Keeps a graph in a new file; it is no failure of the program if that fails. -/
def keepGraph (graph : List Char) : IO Unit := do
  try
    let directory := (← IO.getEnv "TMPDIR").getD "/tmp"
    let n ← IO.rand 0 999999999999
    IO.FS.writeFile s!"{directory}/lexish-{n}.dot" (String.ofList graph)
  catch _ => return ()

def finish (o : Outcome) : IO UInt32 := do
  match o.drawing with
  | some d => if d.keep then keepGraph d.graph
  | none => pure ()
  IO.print (String.ofList o.output)
  match o.failure with
  | some f => IO.eprintln ("Error: " ++ f.detail)
  | none => pure ()
  return o.exitCode.toUInt32

/-- The files that a program may ask for, read beforehand. -/
def filesOf (arguments : List String) :
    IO (String → Except FileError (List Char)) := do
  let files ← arguments.mapM fun path => return (path, ← readText path)
  return fun path => (files.lookup path).getD (.error FileError.missing)

def listingMain (arguments : List String) : IO UInt32 := do
  let file ← filesOf (arguments.take 1)
  let strict ← IO.getEnv Options.strictVariable
  let depth ← IO.getEnv Options.depthVariable
  let setting? (name : String) : Option String :=
    if name = Options.strictVariable then strict
    else if name = Options.depthVariable then depth
    else none
  match listingSetup arguments file setting? with
  | .error f => finish (.failed f)
  | .ok (family, options) =>
    let bytes ← readAll (← IO.getStdin) ByteArray.empty
    finish (listing family options (Feed.ofReads [.bytes bytes.data.toList]))

def drawingMain (arguments : List String) : IO UInt32 := do
  let file ← filesOf (arguments.filter (· ≠ imageFlag))
  let keepAlways := (← IO.getEnv keepVariable).isSome
  finish (runDrawing arguments file (fun _ => .notFound) keepAlways)

end Munch.Command

def main (arguments : List String) : IO UInt32 := do
  match arguments with
  | "list" :: rest => Munch.Command.listingMain rest
  | "draw" :: rest => Munch.Command.drawingMain rest
  | _ =>
    IO.eprintln "usage: (list | draw) <arguments>"
    return 1
