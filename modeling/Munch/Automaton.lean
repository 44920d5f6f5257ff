import Munch.BitSet

/-!
# Automata

A deterministic automaton over ranges of symbols. Apart from its edges a state
may have a start jump, followed from state 0 before anything is read, and an
end jump, followed once the input is over.
-/

namespace Munch

/-- An arrow for the symbols `lo` to `hi`, bounds included. -/
structure Edge where
  lo : Char
  hi : Char
  target : Nat
  deriving DecidableEq

structure State where
  /-- Ascending and disjoint in a well-formed automaton. -/
  edges : Array Edge
  startJump : Option Nat
  endJump : Option Nat
  deriving DecidableEq

structure Automaton where
  states : Array State
  accepting : BitSet
  deriving DecidableEq

/-! ## Look-up -/

/-- The first index from `low` on whose edge ends at `c` or behind it, by halving. -/
def Edge.firstReaching (edges : Array Edge) (c : Char) (low high : Nat) (h : high ≤ edges.size) :
    Nat :=
  if hl : low < high then
    let mid := (low + high) / 2
    have hm : mid < edges.size := by omega
    if edges[mid].hi < c then firstReaching edges c (mid + 1) high h
    else firstReaching edges c low mid (by omega)
  else low
termination_by high - low

/-! ## Walks along jumps -/

/-- The states come to, and the last of them. -/
structure Walk where
  seen : BitSet
  state : Nat

namespace Walk

/-- At `q`, with room for the states below `n`. -/
def start (n q : Nat) : Walk := ⟨(BitSet.withCapacity n).insert q, q⟩

/-- A jump to a state that is new to the walk. -/
def step? (jump : Nat → Option Nat) (w : Walk) : Option Walk :=
  match jump w.state with
  | none => none
  | some r =>
    match w.seen.add r with
    | (true, seen) => some ⟨seen, r⟩
    | (false, _) => none

theorem step?_eq_some_iff {jump : Nat → Option Nat} {w v : Walk} :
    w.step? jump = some v ↔
      ∃ r, jump w.state = some r ∧ w.seen.contains r = false ∧ ⟨w.seen.insert r, r⟩ = v := by
  unfold step?
  cases jump w.state with
  | none => simp
  | some r =>
    simp only [w.seen.add_eq r]
    cases hc : w.seen.contains r <;> simp [hc]

/-- The states below `n` that are new to the walk. -/
def unseen (n : Nat) (w : Walk) : List Nat := (List.range n).filter fun p => !w.seen.contains p

/-- Where the walk may still be: at these states, and once at a state from `n` on. -/
def ahead (n : Nat) (w : Walk) : Nat := (w.unseen n).length + if w.state < n then 1 else 0

theorem unseen_insert (n : Nat) (w : Walk) (r : Nat) :
    unseen n ⟨w.seen.insert r, r⟩ = (w.unseen n).filter (· ≠ r) := by
  unfold unseen
  rw [List.filter_filter]
  congr 1
  funext p
  rw [BitSet.contains_insert]
  by_cases hp : p = r <;> simp [hp]

theorem ahead_lt {jump : Nat → Option Nat} {n : Nat} (h : ∀ p r, jump p = some r → p < n) {w v : Walk}
    (hs : w.step? jump = some v) : v.ahead n < w.ahead n := by
  obtain ⟨r, hj, hnew, rfl⟩ := step?_eq_some_iff.mp hs
  unfold ahead
  rw [unseen_insert, if_pos (h _ r hj)]
  dsimp only
  by_cases hr : r < n
  · have hmem : r ∈ w.unseen n := by
      unfold unseen
      rw [List.mem_filter, hnew]
      exact ⟨List.mem_range.mpr hr, rfl⟩
    have hlt : ((w.unseen n).filter (· ≠ r)).length < (w.unseen n).length :=
      List.length_filter_lt_length_iff_exists.mpr ⟨r, hmem, by simp⟩
    rw [if_pos hr]
    exact Nat.add_lt_add_right hlt 1
  · have hle := List.length_filter_le (· ≠ r) (w.unseen n)
    rw [if_neg hr]
    exact Nat.lt_succ_of_le hle

/-- The states that jumps lead to, in order, and the state they end in. Only states below
`n` have a jump, so they do end. -/
def follow {jump : Nat → Option Nat} {n : Nat} (h : ∀ p r, jump p = some r → p < n) (w : Walk) :
    List Nat × Nat :=
  match _hs : w.step? jump with
  | none => ([], w.state)
  | some v =>
    let (path, last) := v.follow h
    (v.state :: path, last)
termination_by w.ahead n
decreasing_by exact ahead_lt h _hs

end Walk

namespace Automaton

def size (a : Automaton) : Nat := a.states.size

def edges (a : Automaton) (q : Nat) : Array Edge :=
  match a.states[q]? with
  | some s => s.edges
  | none => #[]

def transition (a : Automaton) (q : Nat) (c : Char) : Option Nat :=
  let edges := a.edges q
  match edges[Edge.firstReaching edges c 0 edges.size (Nat.le_refl _)]? with
  | some e => if e.lo ≤ c then some e.target else none
  | none => none

def isAccepting (a : Automaton) (q : Nat) : Bool := a.accepting.contains q

def startJump (a : Automaton) (q : Nat) : Option Nat := a.states[q]?.bind (·.startJump)

def endJump (a : Automaton) (q : Nat) : Option Nat := a.states[q]?.bind (·.endJump)

/-! ## Jump chains -/

theorem lt_size_of_jump (a : Automaton) {jump : State → Option Nat} {p r : Nat}
    (h : a.states[p]?.bind jump = some r) : p < a.size := by
  obtain ⟨_, hs, _⟩ := Option.bind_eq_some_iff.mp h
  exact (Array.getElem?_eq_some_iff.mp hs).1

theorem startJump_lt (a : Automaton) (p r : Nat) (h : a.startJump p = some r) : p < a.size :=
  a.lt_size_of_jump h

theorem endJump_lt (a : Automaton) (p r : Nat) (h : a.endJump p = some r) : p < a.size :=
  a.lt_size_of_jump h

/-- What start jumps lead to from state 0, and the state they end in. -/
def startWalk (a : Automaton) : List Nat × Nat :=
  (Walk.start a.size 0).follow a.startJump_lt

def startChain (a : Automaton) : List Nat := a.startWalk.1

def startState (a : Automaton) : Nat := a.startWalk.2

def acceptsEmpty (a : Automaton) : Bool := a.startChain.any a.isAccepting

def endChain (a : Automaton) (q : Nat) : List Nat := ((Walk.start a.size q).follow a.endJump_lt).1

def acceptsAtEnd (a : Automaton) (q : Nat) : Bool := (a.endChain q).any a.isAccepting

def literal (text : List Char) : Automaton where
  states := (text.zipIdx.map (fun (c, i) => State.mk #[⟨c, c, i + 1⟩] none none) ++
    [State.mk #[] none none]).toArray
  accepting := (BitSet.withCapacity (text.length + 1)).insert text.length

end Automaton

end Munch
