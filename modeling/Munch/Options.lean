import Munch.Toml.Conventions

/-!
# Options of a scan

What ends a line, whether a symbol that no rule takes is an error, and how many
levels may be open. They can be overridden from outside, and written as the body
of an options table.
-/

namespace Munch

structure Options where
  terminator : Char
  strict : Bool
  maxDepth : Nat
  deriving DecidableEq

namespace Options

def standard : Options := ⟨'\n', false, 32⟩

/-! ## Overriding -/

def flag? (value : String) : Option Bool :=
  match String.ofList (Text.trim value.toList) with
  | "1" | "true" => some true
  | "0" | "false" => some false
  | _ => none

def depthBound : Nat := Nat.pow 2 64

def digits? (ds : List Char) : Option Nat :=
  if ds.isEmpty || !ds.all Char.isDigit then none
  else
    let n := ds.foldl (fun n d => n * 10 + (d.toNat - '0'.toNat)) 0
    if n < depthBound then some n else none

def depth? (value : String) : Option Nat :=
  match value.toList with
  | '+' :: ds => digits? ds
  | ds => digits? ds

def strictVariable : String := "LEXISH_STRICT"

def depthVariable : String := "LEXISH_MAX_DEPTH"

/-- Replaces what a variable of the environment has a legible value for. -/
def override (o : Options) (setting? : String → Option String) : Options where
  terminator := o.terminator
  strict := ((setting? strictVariable).bind flag?).getD o.strict
  maxDepth := ((setting? depthVariable).bind depth?).getD o.maxDepth

/-! ## Writing -/

/-- The body of an options table, unless the depth has no place in one. -/
def write? (o : Options) : Option (List Char) := do
  let depth ← Toml.writeNatural? o.maxDepth
  return Toml.writeLine "line_terminator" (Toml.writeSymbol o.terminator) ++
    Toml.writeLine "strict" (Toml.writeFlag o.strict) ++ Toml.writeLine "max_depth" depth

end Options

end Munch
