import Munch.Feed
import Munch.Match
import Munch.Rule

/-!
# Races

At one place of the input all rules run side by side. A rule is live until it
has no transition on a symbol, and it offers a match wherever it accepts. A race
asks its feed for no more symbols than the longest-lived rule needs.
-/

namespace Munch

/-- A live rule and the state it is in. -/
structure Runner where
  rule : Nat
  automaton : Automaton
  state : Nat

namespace Runner

def step (r : Runner) (c : Char) : Option Runner :=
  (r.automaton.transition r.state c).map fun q => { r with state := q }

def accepts (r : Runner) : Bool := r.automaton.isAccepting r.state

def acceptsAtEnd (r : Runner) : Bool := r.automaton.acceptsAtEnd r.state

end Runner

structure Race where
  live : List Runner
  best : Option Match
  /-- Symbols run over. -/
  length : Nat

namespace Race

/-- All rules in the states their start jumps lead to. An empty match is offered
only where `emptyAllowed`. -/
def start (family : Family) (emptyAllowed : Bool) : Race where
  live := family.zipIdx.map fun (r, i) => ⟨i, r.automaton, r.automaton.startState⟩
  best :=
    if emptyAllowed then
      Match.offerAll none
        ((family.zipIdx.filter fun (r, _) => r.automaton.acceptsEmpty).map fun (_, i) => ⟨i, 0⟩)
    else none
  length := 0

/-- The matches of `length` symbols of the runners that `accept`. -/
def offers (accept : Runner → Bool) (length : Nat) (live : List Runner) : List Match :=
  (live.filter accept).map fun r => ⟨r.rule, length⟩

def step (race : Race) (c : Char) : Race :=
  let live := race.live.filterMap (·.step c)
  ⟨live, Match.offerAll race.best (offers Runner.accepts (race.length + 1) live), race.length + 1⟩

/-- Runs over `text` for as long as a rule is live. -/
def run (race : Race) : List Char → Race
  | [] => race
  | c :: cs => if race.live.isEmpty then race else (race.step c).run cs

/-- At the end of the input, end jumps may still lead a live rule to a match. -/
def finish (race : Race) : Race :=
  if race.length = 0 then race
  else { race with
    best := Match.offerAll race.best (offers Runner.acceptsAtEnd race.length race.live) }

/-! ## Drawing on the feed -/

inductive Stop
  /-- No rule is live. -/
  | stuck
  | endOfInput
  | failed (e : InputError)
  deriving DecidableEq

structure Drawn where
  race : Race
  /-- The symbols obtained, newest first. -/
  symbols : List Char
  feed : Feed
  stop : Stop

/-- Runs over what the feed has pending, behind the `symbols` obtained already. -/
def draw (race : Race) (asked : Nat) (symbols : List Char) : List Reply → Drawn
  | [] =>
    if race.live.isEmpty then ⟨race, symbols, ⟨[], asked⟩, .stuck⟩
    else ⟨race, symbols, ⟨[], asked + 1⟩, .endOfInput⟩
  | reply :: rest =>
    if race.live.isEmpty then ⟨race, symbols, ⟨reply :: rest, asked⟩, .stuck⟩
    else
      match reply with
      | .symbol c => draw (race.step c) (asked + 1) (c :: symbols) rest
      | .endOfInput => ⟨race, symbols, ⟨rest, asked + 1⟩, .endOfInput⟩
      | .failed e => ⟨race, symbols, ⟨rest, asked + 1⟩, .failed e⟩

theorem size_draw (race : Race) (asked : Nat) (symbols : List Char) (replies : List Reply) :
    (draw race asked symbols replies).symbols.length +
      (draw race asked symbols replies).feed.pending.length ≤
      symbols.length + replies.length := by
  fun_induction draw race asked symbols replies with
  | case4 race asked symbols rest hl c ih => simp only [List.length_cons] at ih ⊢; omega
  | _ => simp

end Race

end Munch
