import Munch.Declaration

/-!
# Rules and families

A rule is an automaton with an optional name and a family of its own, with which
the texts it matches can be scanned again. The order of a family is the priority
of its rules.
-/

namespace Munch

structure Rule where
  name : Option String
  automaton : Automaton
  nested : List Rule

abbrev Family := List Rule

namespace Rule

/-- The rule that matches one fixed text. -/
def literal (name : String) (text : List Char) : Rule :=
  ⟨some name, Automaton.literal text, []⟩

/-- The rule of a declared automaton. -/
def build (name : Option String) (d : Declaration) (nested : Family) : Except Defect Rule :=
  d.build.map fun a => ⟨name, a, nested⟩

end Rule

/-- The unnamed rules aside, the first of this name. -/
def Family.indexOf? (family : Family) (name : String) : Option Nat :=
  family.findIdx? (·.name == some name)

mutual
/-- The rules drawn for one rule: itself and all below it. -/
def Rule.count : Rule → Nat
  | ⟨_, _, nested⟩ => Family.count nested + 1
def Family.count : List Rule → Nat
  | [] => 0
  | r :: rs => r.count + Family.count rs
end

mutual
/-- How many levels a scan with this rule's family can open. -/
def Rule.height : Rule → Nat
  | ⟨_, _, nested⟩ => Family.height nested
def Family.height : List Rule → Nat
  | [] => 0
  | r :: rs => Nat.max (r.height + 1) (Family.height rs)
end

end Munch
