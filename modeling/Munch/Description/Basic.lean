import Munch.Options
import Munch.Rule

/-!
# Descriptions of families

A description lists rules with the families nested in them, and options. It is
built rule by rule in the order of the document: of each rule first the
transitions are looked at, then its nested rules are built, and then its own
automaton. The first error ends the work.
-/

namespace Munch

/-- One line of a rule's transitions; it should have either symbols or a range. -/
structure TransitionDescription where
  source : Nat
  target : Nat
  symbols : Option (List Char)
  range : Option (Char × Char)
  deriving DecidableEq

structure RuleDescription where
  name : String
  states : Nat
  accept : List Nat
  transitions : List TransitionDescription
  startJumps : List (Nat × Nat)
  endJumps : List (Nat × Nat)
  nested : List RuleDescription

structure Description where
  options : Options
  rules : List RuleDescription

inductive DescriptionError
  | rule (name : String) (defect : Defect)
  | ambiguousSymbols (name : String)
  deriving DecidableEq

def DescriptionError.message : DescriptionError → String
  | .rule name defect => "rule " ++ Text.quote name ++ ": " ++ defect.message
  | .ambiguousSymbols name =>
    "rule " ++ Text.quote name ++ ": transition must give exactly one of \x60symbols\x60 or \x60range\x60"

structure BuildEvent where
  name : String
  states : Nat
  deriving DecidableEq

/-- An edge for every symbol, or one for the range. -/
def TransitionDescription.edges? (t : TransitionDescription) : Option (List (Nat × Edge)) :=
  match t.symbols, t.range with
  | some symbols, none => some (symbols.map fun c => (t.source, ⟨c, c, t.target⟩))
  | none, some (lo, hi) => some [(t.source, ⟨lo, hi, t.target⟩)]
  | _, _ => none

namespace RuleDescription

def edges? (r : RuleDescription) : Option (List (Nat × Edge)) :=
  (r.transitions.mapM TransitionDescription.edges?).map List.flatten

def declaration (r : RuleDescription) (edges : List (Nat × Edge)) : Declaration :=
  ⟨r.states, r.accept, edges, r.startJumps, r.endJumps⟩

end RuleDescription

mutual
def RuleDescription.build : RuleDescription → Except DescriptionError Rule × List BuildEvent
  | ⟨name, states, accept, transitions, startJumps, endJumps, nested⟩ =>
    let r : RuleDescription := ⟨name, states, accept, transitions, startJumps, endJumps, nested⟩
    match r.edges? with
    | none => (.error (.ambiguousSymbols name), [])
    | some edges =>
      match RuleDescription.buildAll nested with
      | (.error e, log) => (.error e, log)
      | (.ok family, log) =>
        let log := log ++ [⟨name, states⟩]
        match Rule.build (some name) (r.declaration edges) family with
        | .error defect => (.error (.rule name defect), log)
        | .ok rule => (.ok rule, log)
def RuleDescription.buildAll :
    List RuleDescription → Except DescriptionError Family × List BuildEvent
  | [] => (.ok [], [])
  | r :: rs =>
    match r.build with
    | (.error e, log) => (.error e, log)
    | (.ok rule, log) =>
      match RuleDescription.buildAll rs with
      | (.error e, later) => (.error e, log ++ later)
      | (.ok family, later) => (.ok (rule :: family), log ++ later)
end

def Description.build (d : Description) : Except DescriptionError Family × List BuildEvent :=
  RuleDescription.buildAll d.rules

end Munch
