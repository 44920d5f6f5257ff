import Munch.Rule
import Munch.Text.Quoted

/-!
# Graphs of families

A family as the statements of a DOT graph: a cluster for each rule with a legend,
a node for each state, an edge for each transition and jump, and the clusters of
its nested rules. Nodes are named by the path of indices that leads to their rule.
-/

namespace Munch

/-- The indices of a rule and the rules around it, outermost first. -/
abbrev RulePath := List Nat

inductive Statement
  | legend (path : RulePath) (table : List Char)
  | state (path : RulePath) (q : Nat) (accepting : Bool)
  | edge (path : RulePath) (source target : Nat) (label : List Char) (dashed : Bool)
  | cluster (number : Nat) (label : List Char) (body : List Statement)

/-! ## Texts -/

/-- A symbol as in quoted text, and then as a part of a quoted DOT string. -/
def symbolLabel (c : Char) : List Char :=
  (Text.escape ['"', '\x27'] c).flatMap fun d =>
    if d = '\\' ∨ d = '"' then ['\\', d] else [d]

def Edge.label (e : Edge) : List Char :=
  if e.lo = e.hi then symbolLabel e.lo else symbolLabel e.lo ++ ['-'] ++ symbolLabel e.hi

def htmlEscape (c : Char) : List Char :=
  if c = '&' then "&amp;".toList
  else if c = '<' then "&lt;".toList
  else if c = '>' then "&gt;".toList
  else if c = '"' then "&quot;".toList
  else [c]

def legendRow (left right : List Char) : List Char :=
  "<tr><td align=\"left\">".toList ++ left ++ "</td><td align=\"left\">".toList ++ right ++
    "</td></tr>".toList

def Rule.legendTable (r : Rule) (index : Nat) : List Char :=
  "<table border=\"0\">".toList ++
    legendRow ("<b>#".toList ++ Text.decimal index ++ "</b>".toList)
      ((r.name.getD "").toList.flatMap htmlEscape) ++
    legendRow "states".toList (Text.decimal r.automaton.size) ++
    legendRow "accepting".toList (Text.decimal r.automaton.accepting.size) ++
    (if r.nested.isEmpty then []
      else legendRow "nested".toList (Text.decimal r.nested.length ++ " rules".toList)) ++
    "</table>".toList

def RulePath.text (path : RulePath) : List Char :=
  "rule".toList ++ path.flatMap fun i => '_' :: Text.decimal i

def legendName (path : RulePath) : List Char := path.text ++ "_legend".toList

def stateName (path : RulePath) (q : Nat) : List Char := path.text ++ "_s".toList ++ Text.decimal q

/-! ## Statements -/

namespace Automaton

def stateStatements (a : Automaton) (path : RulePath) : List Statement :=
  (List.range a.size).map fun q => .state path q (a.isAccepting q)

def edgeStatements (a : Automaton) (path : RulePath) (q : Nat) : List Statement :=
  (a.edges q).toList.map (fun e => .edge path q e.target e.label false) ++
    (a.startJump q).toList.map (fun r => .edge path q r "start".toList true) ++
    (a.endJump q).toList.map (fun r => .edge path q r "end".toList true)

end Automaton

mutual
/-- The cluster of a rule. Clusters are numbered in the order in which they open. -/
def Rule.cluster (path : RulePath) (index number : Nat) : Rule → Statement
  | ⟨name, automaton, nested⟩ =>
    let r : Rule := ⟨name, automaton, nested⟩
    .cluster number
      (match name with
        | some n => n.toList
        | none => RulePath.text path)
      (.legend path (r.legendTable index) :: automaton.stateStatements path ++
        (List.range automaton.size).flatMap (automaton.edgeStatements path) ++
        Family.clusters path 0 (number + 1) nested)
/-- The clusters of the rules of one family, from `index` on. -/
def Family.clusters (path : RulePath) (index number : Nat) : List Rule → List Statement
  | [] => []
  | r :: rs =>
    r.cluster (path ++ [index]) index number ::
      Family.clusters path (index + 1) (number + r.count) rs
end

def Family.graph (family : Family) : List Statement := Family.clusters [] 0 0 family

/-! ## Text of a graph -/

def indent (depth : Nat) : List Char := List.replicate (2 * depth) ' '

mutual
def Statement.lines (depth : Nat) : Statement → List (List Char)
  | .legend path table =>
    [indent depth ++ legendName path ++ " [shape=none, label=<".toList ++ table ++ ">];".toList]
  | .state path q accepting =>
    [indent depth ++ stateName path q ++ " [label=\"".toList ++ Text.decimal q ++
      "\", shape=".toList ++ (if accepting then "doublecircle" else "circle").toList ++ "];".toList]
  | .edge path source target label dashed =>
    [indent depth ++ stateName path source ++ " -> ".toList ++ stateName path target ++
      " [label=\"".toList ++ label ++ "\"".toList ++
      (if dashed then ", style=dashed" else "").toList ++ "];".toList]
  | .cluster number label body =>
    (indent depth ++ "subgraph cluster_".toList ++ Text.decimal number ++ " \x7b".toList) ::
      (indent (depth + 1) ++ "label=\"".toList ++ label ++ "\";".toList) ::
      Statement.allLines (depth + 1) body ++
      [indent depth ++ ['\x7d']]
def Statement.allLines (depth : Nat) : List Statement → List (List Char)
  | [] => []
  | s :: rest => s.lines depth ++ Statement.allLines depth rest
end

def Family.dot (family : Family) : List Char :=
  let lines := ["digraph \x7b".toList, "  rankdir=LR;".toList,
    "  node [fontname=\"monospace\"];".toList] ++ Statement.allLines 1 family.graph ++ [['\x7d']]
  lines.flatMap (· ++ ['\n'])

end Munch
