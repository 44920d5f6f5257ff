import Munch.Automaton
import Munch.Text.Quoted

/-!
# Declarations of automata

What an automaton is built from: a number of states, and accepting states,
edges and jumps in any order. `build` refuses a declaration that is not
deterministic, or that names a state it does not have, and says what is wrong
with it first.
-/

namespace Munch

inductive JumpKind
  | start
  | finish
  deriving DecidableEq

def JumpKind.word : JumpKind → String
  | .start => "start"
  | .finish => "end"

inductive Defect
  | noStates
  | stateOutOfRange (state states : Nat)
  | emptyRange (lo hi : Char)
  | overlap (state : Nat) (symbol : Char)
  | duplicateJump (state : Nat) (kind : JumpKind)
  deriving DecidableEq

def Defect.message : Defect → String
  | .noStates => "automaton must have at least one state"
  | .stateOutOfRange q n => s!"state {q} is out of range for an automaton with {n} states"
  | .emptyRange lo hi =>
    "transition range " ++ Text.quoteSymbol lo ++ "..=" ++ Text.quoteSymbol hi ++ " is empty"
  | .overlap q c => s!"state {q} has overlapping transitions on " ++ Text.quoteSymbol c
  | .duplicateJump q kind => s!"state {q} has more than one " ++ kind.word ++ " jump"

structure Declaration where
  states : Nat
  accept : List Nat
  /-- Edges with the state they leave. -/
  edges : List (Nat × Edge)
  startJumps : List (Nat × Nat)
  endJumps : List (Nat × Nat)
  deriving DecidableEq

namespace Declaration

/-! ## Declaring -/

inductive Step
  | accept (q : Nat)
  | edge (q : Nat) (e : Edge)
  /-- An edge for each of the symbols. -/
  | anyOf (q : Nat) (symbols : List Char) (target : Nat)
  | startJump (q r : Nat)
  | endJump (q r : Nat)
  deriving DecidableEq

/-- Nothing is looked at before the whole declaration is built. -/
def add (d : Declaration) : Step → Declaration
  | .accept q => { d with accept := d.accept ++ [q] }
  | .edge q e => { d with edges := d.edges ++ [(q, e)] }
  | .anyOf q symbols target =>
    { d with edges := d.edges ++ symbols.map fun c => (q, ⟨c, c, target⟩) }
  | .startJump q r => { d with startJumps := d.startJumps ++ [(q, r)] }
  | .endJump q r => { d with endJumps := d.endJumps ++ [(q, r)] }

def ofSteps (states : Nat) (steps : List Step) : Declaration :=
  steps.foldl add ⟨states, [], [], [], []⟩

/-! ## The edges of a state -/

/-- Puts an edge in front of the first that does not begin before it. -/
def insertEdge (e : Edge) : List Edge → List Edge
  | [] => [e]
  | f :: fs => if e.lo ≤ f.lo then e :: f :: fs else f :: insertEdge e fs

/-- Edges by their lower bounds; those with the same bound keep their order. -/
def sortEdges (es : List Edge) : List Edge := es.foldr insertEdge []

def dropRepeats : List Edge → List Edge
  | [] => []
  | [e] => [e]
  | e :: f :: fs => if e = f then dropRepeats (f :: fs) else e :: dropRepeats (f :: fs)

def edgesFrom (d : Declaration) (q : Nat) : List Edge :=
  dropRepeats (sortEdges (d.edges.filterMap fun (p, e) => if p = q then some e else none))

/-- The lower bound of the first edge that overlaps the one before it. -/
def overlap? : List Edge → Option Char
  | e :: f :: fs => if f.lo ≤ e.hi then some f.lo else overlap? (f :: fs)
  | _ => none

/-! ## Defects -/

def stateDefect? (n q : Nat) : Option Defect :=
  if q < n then none else some (.stateOutOfRange q n)

def edgeDefect? (n : Nat) : Nat × Edge → Option Defect
  | (q, e) => stateDefect? n q <|> stateDefect? n e.target <|>
    if e.hi < e.lo then some (.emptyRange e.lo e.hi) else none

/-- The first defect of jumps, where `seen` already have one. -/
def jumpDefect? (n : Nat) (kind : JumpKind) : List Nat → List (Nat × Nat) → Option Defect
  | _, [] => none
  | seen, (q, r) :: js =>
    stateDefect? n q <|> (if q ∈ seen then some (.duplicateJump q kind) else none) <|>
      stateDefect? n r <|> jumpDefect? n kind (q :: seen) js

/-- The first defect in the order of the checks. -/
def defect? (d : Declaration) : Option Defect :=
  (if d.states = 0 then some .noStates else none) <|>
  d.accept.findSome? (stateDefect? d.states) <|>
  d.edges.findSome? (edgeDefect? d.states) <|>
  (List.range d.states).findSome? (fun q => (overlap? (d.edgesFrom q)).map (.overlap q)) <|>
  jumpDefect? d.states .start [] d.startJumps <|>
  jumpDefect? d.states .finish [] d.endJumps

/-! ## Building -/

def automaton (d : Declaration) : Automaton where
  states := ((List.range d.states).map fun q =>
    ⟨(d.edgesFrom q).toArray, d.startJumps.lookup q, d.endJumps.lookup q⟩).toArray
  accepting := (BitSet.withCapacity d.states).insertAll d.accept

def build (d : Declaration) : Except Defect Automaton :=
  match d.defect? with
  | some defect => .error defect
  | none => .ok d.automaton

end Declaration

end Munch
