import Munch.Command.Failure
import Munch.Description.Read
import Munch.Listing

/-!
# The programs

Two programs work on a file with a description: one lists the frames of its
standard input, the other draws the family. Both build the family before they do
anything else, and what they print before a failure stands.
-/

namespace Munch.Command

/-- What a program prints, and why it failed if it did. -/
structure Outcome where
  output : List Char
  failure : Option Failure
  drawing : Option Drawing

def Outcome.failed (f : Failure) : Outcome := ⟨[], some f, none⟩

def Outcome.exitCode (o : Outcome) : Nat := if o.failure.isSome then 1 else 0

def load (file : String → Except FileError (List Char)) (path : String) :
    Except Failure (Family × Options) :=
  match file path with
  | .error e => .error (.file e)
  | .ok text =>
    match Description.ofToml? text with
    | none => .error .parse
    | some d =>
      match d.build.1 with
      | .error e => .error (.description e)
      | .ok family => .ok (family, d.options)

/-! ## Listing the frames of the input -/

def listingUsage : String := "usage: scan_to_debug <rules.toml> <input"

/-- The family to scan with and the options, from the first argument. -/
def listingSetup (arguments : List String) (file : String → Except FileError (List Char))
    (setting? : String → Option String) : Except Failure (Family × Options) :=
  match arguments with
  | [] => .error (.usage listingUsage)
  | path :: _ => (load file path).map fun (family, options) => (family, options.override setting?)

def listing (family : Family) (options : Options) (input : Feed) : Outcome :=
  let (records, e) := (Stream.ofFeed family options input).listing
  ⟨records.flatMap (fun r => r.line ++ ['\n']), e.map .stream, none⟩

def runListing (arguments : List String) (file : String → Except FileError (List Char))
    (setting? : String → Option String) (input : Feed) : Outcome :=
  match listingSetup arguments file setting? with
  | .error f => .failed f
  | .ok (family, options) => listing family options input

/-! ## Drawing the family -/

def drawingUsage : String := "usage: family_to_graphviz [--svg] <rules.toml>"

def imageFlag : String := "--svg"

/-- The program that draws. The last argument that is no flag is the file. -/
def runDrawing (arguments : List String) (file : String → Except FileError (List Char))
    (dot : List Char → CommandAnswer) (keepAlways : Bool) : Outcome :=
  match (arguments.filter (· ≠ imageFlag)).getLast? with
  | none => .failed (.usage drawingUsage)
  | some path =>
    match load file path with
    | .error f => .failed f
    | .ok (family, _) =>
      if imageFlag ∈ arguments then
        let d := family.draw dot keepAlways
        match d.image with
        | .ok image => ⟨image, none, some d⟩
        | .error e => ⟨[], some (.drawing e), some d⟩
      else ⟨family.dot, none, none⟩

end Munch.Command
