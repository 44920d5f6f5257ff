import Munch.Description.Basic
import Munch.Toml.Document

/-!
# Reading descriptions

A description is a TOML document of a fixed shape: unknown keys and missing
required ones are errors, and so are values of another kind. A table may also be
written as the array of its fields in order, where fields with a default may be
missing at the end and elements behind the last field are ignored.
-/

namespace Munch

open Toml (Node Entries)

namespace Description

/-! ## Simple values -/

def natural? : Node → Option Nat
  | .integer n => if 0 ≤ n then some n.toNat else none
  | _ => none

def boolean? : Node → Option Bool
  | .boolean b => some b
  | _ => none

def text? : Node → Option (List Char)
  | .string s => some s
  | _ => none

def symbol? : Node → Option Char
  | .string [c] => some c
  | _ => none

def list? {α} (f : Node → Option α) : Node → Option (List α)
  | .array _ items => items.mapM f
  | _ => none

/-- Elements behind the second are ignored. -/
def pair? {α} (f : Node → Option α) : Node → Option (α × α)
  | .array _ (a :: b :: _) => do return (← f a, ← f b)
  | _ => none

/-! ## Options -/

def option? (o : Options) : String × Node → Option Options
  | ("line_terminator", v) => (symbol? v).map fun c => { o with terminator := c }
  | ("strict", v) => (boolean? v).map fun b => { o with strict := b }
  | ("max_depth", v) => (natural? v).map fun n => { o with maxDepth := n }
  | _ => none

def optionKeys : List String := ["line_terminator", "strict", "max_depth"]

def options? : Node → Option Options
  | .table _ entries => entries.foldlM option? Options.standard
  | .array _ items => (optionKeys.zip items).foldlM option? Options.standard
  | _ => none

/-! ## Transitions -/

structure TransitionFields where
  source : Option Nat
  target : Option Nat
  symbols : Option (List Char)
  range : Option (Char × Char)

def transitionField? (t : TransitionFields) : String × Node → Option TransitionFields
  | ("from", v) => (natural? v).map fun n => { t with source := some n }
  | ("to", v) => (natural? v).map fun n => { t with target := some n }
  | ("symbols", v) => (text? v).map fun s => { t with symbols := some s }
  | ("range", v) => (pair? symbol? v).map fun p => { t with range := some p }
  | _ => none

def transition? : Node → Option TransitionDescription
  | .table _ entries => do
    let t ← entries.foldlM transitionField? ⟨none, none, none, none⟩
    return ⟨← t.source, ← t.target, t.symbols, t.range⟩
  | .array _ (source :: target :: symbols :: range :: _) => do
    return ⟨← natural? source, ← natural? target, some (← text? symbols),
      some (← pair? symbol? range)⟩
  | _ => none

/-! ## Rules -/

structure RuleFields where
  name : Option String
  states : Option Nat
  accept : List Nat
  transitions : List TransitionDescription
  startJumps : List (Nat × Nat)
  endJumps : List (Nat × Nat)
  nested : List RuleDescription

def RuleFields.none : RuleFields := ⟨.none, .none, [], [], [], [], []⟩

def RuleFields.rule? (r : RuleFields) : Option RuleDescription := do
  return ⟨← r.name, ← r.states, r.accept, r.transitions, r.startJumps, r.endJumps, r.nested⟩

/-- All fields but the nested rules. -/
def plainField? (r : RuleFields) (k : String) (v : Node) : Option RuleFields :=
  match k with
  | "name" => (text? v).map fun s => { r with name := some (String.ofList s) }
  | "states" => (natural? v).map fun n => { r with states := some n }
  | "accept" => (list? natural? v).map fun l => { r with accept := l }
  | "transitions" => (list? transition? v).map fun l => { r with transitions := l }
  | "start_jumps" => (list? (pair? natural?) v).map fun l => { r with startJumps := l }
  | "end_jumps" => (list? (pair? natural?) v).map fun l => { r with endJumps := l }
  | _ => Option.none

/-- The order of the fields of a rule, up to its nested rules. -/
def ruleKeys : List String :=
  ["name", "states", "accept", "transitions", "start_jumps", "end_jumps"]

mutual
def rule? : Node → Option RuleDescription
  | .table _ entries => do (← ruleEntries? entries).rule?
  | .array _ items => do (← ruleItems? ruleKeys items).rule?
  | _ => none
def ruleEntries? : List (String × Node) → Option RuleFields
  | [] => some RuleFields.none
  | (k, v) :: rest => do
    let r ← ruleEntries? rest
    if k = "nested" then return { r with nested := ← rules? v } else plainField? r k v
/-- The values of the fields `keys`, with nested rules last. -/
def ruleItems? : List String → List Node → Option RuleFields
  | _, [] => some RuleFields.none
  | [], v :: _ => do return { RuleFields.none with nested := ← rules? v }
  | k :: keys, v :: rest => do plainField? (← ruleItems? keys rest) k v
def rules? : Node → Option (List RuleDescription)
  | .array _ items => ruleList? items
  | _ => none
def ruleList? : List Node → Option (List RuleDescription)
  | [] => some []
  | v :: rest => do return (← rule? v) :: (← ruleList? rest)
end

/-! ## Documents -/

def entry? (d : Description) : String × Node → Option Description
  | ("options", v) => (options? v).map fun o => { d with options := o }
  | ("rules", v) => (rules? v).map fun rs => { d with rules := rs }
  | _ => none

def ofEntries? (entries : Entries) : Option Description :=
  entries.foldlM entry? ⟨Options.standard, []⟩

def ofToml? (text : List Char) : Option Description := do
  ofEntries? (← Toml.document? text)

end Description

end Munch
