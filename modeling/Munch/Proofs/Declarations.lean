import Mathlib.Data.List.Nodup
import Mathlib.Data.Option.Basic
import Munch.Proofs.BitSets
import Munch.Proofs.Edges

/-!
# What a declaration declares

Steps are built if and only if they are lawful together, and the automaton then does what
was declared, step by step and for every state and symbol.
-/

namespace Munch.Declaration

structure Deterministic (d : Declaration) : Prop where
  states : 0 < d.states
  accept : ∀ q ∈ d.accept, q < d.states
  edges : ∀ q e, (q, e) ∈ d.edges → q < d.states ∧ e.target < d.states ∧ e.lo ≤ e.hi
  apart : ∀ q e f, (q, e) ∈ d.edges → (q, f) ∈ d.edges → e = f ∨ e.Apart f
  startJumps : ∀ q r, (q, r) ∈ d.startJumps → q < d.states ∧ r < d.states
  oneStartJump : (d.startJumps.map Prod.fst).Nodup
  endJumps : ∀ q r, (q, r) ∈ d.endJumps → q < d.states ∧ r < d.states
  oneEndJump : (d.endJumps.map Prod.fst).Nodup

/-! ## The checks -/

theorem stateDefect?_eq_none_iff {n q : Nat} : stateDefect? n q = none ↔ q < n := by
  unfold stateDefect?
  split <;> simp_all

theorem edgeDefect?_eq_none_iff {n q : Nat} {e : Edge} :
    edgeDefect? n (q, e) = none ↔ q < n ∧ e.target < n ∧ e.lo ≤ e.hi := by
  simp [edgeDefect?, stateDefect?_eq_none_iff]

theorem jumpDefect?_eq_none_iff {n : Nat} {kind : JumpKind} {seen : List Nat} {js : List (Nat × Nat)} :
    jumpDefect? n kind seen js = none ↔
      (∀ q r, (q, r) ∈ js → q < n ∧ r < n) ∧ (js.map Prod.fst).Nodup ∧ ∀ q ∈ js.map Prod.fst, q ∉ seen := by
  induction js generalizing seen with
  | nil => simp [jumpDefect?]
  | cons j js ih =>
    obtain ⟨q, r⟩ := j
    have hseen : (if q ∈ seen then some (Defect.duplicateJump q kind) else none) = none ↔ q ∉ seen := by
      split <;> simp_all
    simp only [jumpDefect?, Option.orElse_eq_none, stateDefect?_eq_none_iff, hseen, ih, List.map_cons,
      List.nodup_cons, List.forall_mem_cons]
    constructor
    · rintro ⟨hq, hnew, hr, hrange, hnodup, hfresh⟩
      refine ⟨fun p t hp => ?_, ⟨fun hm => hfresh q hm (by simp), hnodup⟩, hnew, fun p hp hm => ?_⟩
      · rcases List.mem_cons.mp hp with heq | hp
        · cases heq
          exact ⟨hq, hr⟩
        · exact hrange p t hp
      · exact hfresh p hp (List.mem_cons_of_mem q hm)
    · rintro ⟨hrange, ⟨hmem, hnodup⟩, hnew, hfresh⟩
      have hqr := hrange q r (by simp)
      refine ⟨hqr.1, hnew, hqr.2, fun p t hp => hrange p t (List.mem_cons_of_mem _ hp), hnodup, fun p hp hm => ?_⟩
      rcases List.mem_cons.mp hm with rfl | hm
      · exact hmem hp
      · exact hfresh p hp hm

theorem mem_edgesFrom {d : Declaration} {q : Nat} {e : Edge} : e ∈ d.edgesFrom q ↔ (q, e) ∈ d.edges := by
  unfold edgesFrom
  rw [mem_dropRepeats, mem_sortEdges, List.mem_filterMap]
  constructor
  · rintro ⟨⟨p, f⟩, hm, hf⟩
    dsimp only at hf
    split at hf
    · rename_i heq
      cases hf
      exact heq ▸ hm
    · cases hf
  · intro hm
    exact ⟨_, hm, if_pos rfl⟩

theorem overlap?_edgesFrom_eq_none_iff {d : Declaration} {q : Nat} (hvalid : ∀ e, (q, e) ∈ d.edges → e.lo ≤ e.hi) :
    overlap? (d.edgesFrom q) = none ↔ ∀ e f, (q, e) ∈ d.edges → (q, f) ∈ d.edges → e = f ∨ e.Apart f := by
  have hmem := fun e => mem_edgesFrom (d := d) (q := q) (e := e)
  unfold edgesFrom at hmem ⊢
  simp only [mem_dropRepeats, mem_sortEdges] at hmem
  rw [overlap?_eq_none_iff fun e he => hvalid e ((hmem e).mp he)]
  simp only [hmem]
  exact ⟨fun h e f he hf => h e he f hf, fun h e he f hf => h e f he hf⟩

theorem defect?_eq_none_iff {d : Declaration} : d.defect? = none ↔ d.Deterministic := by
  have hstates : (if d.states = 0 then some Defect.noStates else none) = none ↔ 0 < d.states := by
    split <;> simp_all
    omega
  simp only [defect?, Option.orElse_eq_none, hstates, List.findSome?_eq_none_iff, stateDefect?_eq_none_iff,
    jumpDefect?_eq_none_iff, Option.map_eq_none_iff, List.mem_range, Prod.forall, edgeDefect?_eq_none_iff,
    List.not_mem_nil, not_false_eq_true, implies_true, and_true]
  constructor
  · rintro ⟨h1, h2, h3, h4, ⟨h5, h6⟩, h7, h8⟩
    refine ⟨h1, h2, h3, fun q => ?_, h5, h6, h7, h8⟩
    intro e f he hf
    exact (overlap?_edgesFrom_eq_none_iff fun e he => (h3 q e he).2.2).mp (h4 q (h3 q e he).1) e f he hf
  · rintro ⟨h1, h2, h3, h4, h5, h6, h7, h8⟩
    exact ⟨h1, h2, h3,
      fun q _ => (overlap?_edgesFrom_eq_none_iff fun e he => (h3 q e he).2.2).mpr (h4 q), ⟨h5, h6⟩, h7, h8⟩

theorem build_eq_ok_iff {d : Declaration} {a : Automaton} : d.build = .ok a ↔ d.Deterministic ∧ d.automaton = a := by
  rw [← defect?_eq_none_iff]
  unfold build
  cases d.defect? <;> simp

theorem build_eq_error_iff_defect? {d : Declaration} {x : Defect} : d.build = .error x ↔ d.defect? = some x := by
  unfold build
  cases d.defect? <;> simp

/-! ## The automaton -/

section
variable (d : Declaration) (q : Nat)

theorem edges_automaton : d.automaton.edges q = if q < d.states then (d.edgesFrom q).toArray else #[] := by
  unfold automaton Automaton.edges
  by_cases h : q < d.states <;> simp [h]

variable {d q} in
theorem pairwise_edges {R : Edge → Edge → Prop} (h : (d.edgesFrom q).Pairwise R) :
    (d.automaton.edges q).toList.Pairwise R := by
  rw [edges_automaton]
  split
  · exact h
  · exact .nil

theorem startJump_automaton : d.automaton.startJump q = if q < d.states then d.startJumps.lookup q else none := by
  unfold automaton Automaton.startJump
  by_cases h : q < d.states <;> simp [h]

theorem endJump_automaton : d.automaton.endJump q = if q < d.states then d.endJumps.lookup q else none := by
  unfold automaton Automaton.endJump
  by_cases h : q < d.states <;> simp [h]

theorem isAccepting_automaton : d.automaton.isAccepting q = true ↔ q ∈ d.accept := by
  simp [automaton, Automaton.isAccepting, BitSet.contains_insertAll, BitSet.contains_withCapacity]

end

theorem lookup_eq_some_iff {js : List (Nat × Nat)} (h : (js.map Prod.fst).Nodup) {q r : Nat} :
    js.lookup q = some r ↔ (q, r) ∈ js := by
  induction js with
  | nil => simp
  | cons j js ih =>
    obtain ⟨p, t⟩ := j
    rw [List.map_cons, List.nodup_cons] at h
    rw [List.lookup_cons, List.mem_cons]
    by_cases hp : q = p
    · subst hp
      have hnot : (q, r) ∉ js := fun hm => h.1 (List.mem_map.mpr ⟨_, hm, rfl⟩)
      simp [hnot, eq_comm]
    · have hbeq : (q == p) = false := by simpa using hp
      simp [hp, hbeq, ih h.2]

theorem jump_iff {n : Nat} {js : List (Nat × Nat)} (hrange : ∀ q r, (q, r) ∈ js → q < n ∧ r < n)
    (hone : (js.map Prod.fst).Nodup) (q t : Nat) :
    (if q < n then js.lookup q else none) = some t ↔ (q, t) ∈ js := by
  by_cases hq : q < n
  · rw [if_pos hq, lookup_eq_some_iff hone]
  · rw [if_neg hq]
    constructor
    · intro ht
      cases ht
    · intro ht
      exact absurd (hrange q t ht).1 hq

section
variable {d : Declaration} (h : d.Deterministic) (q : Nat)
include h

theorem Deterministic.edgesFrom_apart : (d.edgesFrom q).Pairwise fun e f => e.hi < f.lo := by
  have hvalid : ∀ e ∈ d.edgesFrom q, e.lo ≤ e.hi := fun e he => (h.edges q e (mem_edgesFrom.mp he)).2.2
  apply pairwise_of_overlap? hvalid
  exact (overlap?_edgesFrom_eq_none_iff fun e he => (h.edges q e he).2.2).mpr (h.apart q)

theorem Deterministic.edges_apart : (d.automaton.edges q).toList.Pairwise fun e f => e.hi < f.lo :=
  pairwise_edges (h.edgesFrom_apart q)

theorem Deterministic.mem_edges {e : Edge} : e ∈ d.automaton.edges q ↔ (q, e) ∈ d.edges := by
  rw [edges_automaton]
  split
  · rw [List.mem_toArray, mem_edgesFrom]
  · rename_i hq
    simp only [Array.not_mem_empty, false_iff]
    exact fun he => hq (h.edges q e he).1

theorem Deterministic.transition_iff (c : Char) (t : Nat) :
    d.automaton.transition q c = some t ↔ ∃ e, (q, e) ∈ d.edges ∧ e.Takes c ∧ e.target = t := by
  rw [Automaton.transition_eq_some_iff _ q (h.edges_apart q)]
  · simp only [h.mem_edges q]
  · intro e he
    exact (h.edges q e ((h.mem_edges q).mp he)).2.2

theorem Deterministic.startJump_iff (t : Nat) : d.automaton.startJump q = some t ↔ (q, t) ∈ d.startJumps := by
  rw [startJump_automaton, jump_iff h.startJumps h.oneStartJump]

theorem Deterministic.endJump_iff (t : Nat) : d.automaton.endJump q = some t ↔ (q, t) ∈ d.endJumps := by
  rw [endJump_automaton, jump_iff h.endJumps h.oneEndJump]

end

/-! ## Step by step -/

namespace Step

/-- The step declares an edge from `q` to `t` that takes `c`. -/
def Draws (q : Nat) (c : Char) (t : Nat) : Step → Prop
  | .edge p e => p = q ∧ e.Takes c ∧ e.target = t
  | .anyOf p symbols target => p = q ∧ c ∈ symbols ∧ target = t
  | _ => False

/-! Steps of one kind are taken down in their order, whatever comes between them. -/

def accepts : Step → List Nat
  | .accept q => [q]
  | _ => []

def edges : Step → List (Nat × Edge)
  | .edge q e => [(q, e)]
  | .anyOf q symbols target => symbols.map fun c => (q, ⟨c, c, target⟩)
  | _ => []

def startJumps : Step → List (Nat × Nat)
  | .startJump q r => [(q, r)]
  | _ => []

def endJumps : Step → List (Nat × Nat)
  | .endJump q r => [(q, r)]
  | _ => []

section
variable {s : Step}

@[simp]
theorem mem_accepts {q : Nat} : q ∈ s.accepts ↔ s = .accept q := by
  cases s <;> simp [accepts, eq_comm]

@[simp]
theorem mem_startJumps {q r : Nat} : (q, r) ∈ s.startJumps ↔ s = .startJump q r := by
  cases s <;> simp [startJumps, eq_comm]

@[simp]
theorem mem_endJumps {q r : Nat} : (q, r) ∈ s.endJumps ↔ s = .endJump q r := by
  cases s <;> simp [endJumps, eq_comm]

theorem draws_iff {q : Nat} {c : Char} {t : Nat} :
    s.Draws q c t ↔ ∃ e, (q, e) ∈ s.edges ∧ e.Takes c ∧ e.target = t := by
  cases s with
  | accept | startJump | endJump => simp [edges, Draws]
  | edge p e => exact Edge.exists_mem_singleton_iff.symm
  | anyOf p symbols target => exact Edge.exists_single_iff.symm

end

end Step

/-- What steps must meet together. Even the same jump may not be declared twice. -/
structure Lawful (states : Nat) (steps : List Step) : Prop where
  nonempty : 0 < states
  accept : ∀ q, .accept q ∈ steps → q < states
  edges : ∀ s ∈ steps, ∀ q e, (q, e) ∈ s.edges → q < states ∧ e.target < states ∧ e.lo ≤ e.hi
  apart : ∀ s ∈ steps, ∀ s' ∈ steps, ∀ q e f, (q, e) ∈ s.edges → (q, f) ∈ s'.edges → e = f ∨ e.Apart f
  startJumps : ∀ q r, .startJump q r ∈ steps → q < states ∧ r < states
  oneStartJump : steps.Pairwise fun s s' => ∀ q r t, s = .startJump q r → s' ≠ .startJump q t
  endJumps : ∀ q r, .endJump q r ∈ steps → q < states ∧ r < states
  oneEndJump : steps.Pairwise fun s s' => ∀ q r t, s = .endJump q r → s' ≠ .endJump q t

theorem foldl_add (steps : List Step) (d : Declaration) :
    steps.foldl add d = ⟨d.states, d.accept ++ steps.flatMap Step.accepts, d.edges ++ steps.flatMap Step.edges,
      d.startJumps ++ steps.flatMap Step.startJumps, d.endJumps ++ steps.flatMap Step.endJumps⟩ := by
  induction steps generalizing d with
  | nil => simp
  | cons s steps ih =>
    rw [List.foldl_cons, ih]
    cases s <;> simp [add, Step.accepts, Step.edges, Step.startJumps, Step.endJumps]

theorem ofSteps_eq (states : Nat) (steps : List Step) :
    ofSteps states steps = ⟨states, steps.flatMap Step.accepts, steps.flatMap Step.edges,
      steps.flatMap Step.startJumps, steps.flatMap Step.endJumps⟩ := by
  rw [ofSteps, foldl_add]
  rfl

section
variable {states : Nat} {steps : List Step}

theorem nodup_jumps_iff {jumps : Step → List (Nat × Nat)} (hone : ∀ s, ((jumps s).map Prod.fst).Nodup) :
    ((steps.flatMap jumps).map Prod.fst).Nodup ↔
      steps.Pairwise fun s s' => ∀ q r t, (q, r) ∈ jumps s → (q, t) ∉ jumps s' := by
  have hapart : ∀ s s', (∀ q ∈ (jumps s).map Prod.fst, ∀ p ∈ (jumps s').map Prod.fst, q ≠ p) ↔
      ∀ q r t, (q, r) ∈ jumps s → (q, t) ∉ jumps s' := by
    intro s s'
    simp only [List.forall_mem_map, Prod.forall]
    constructor
    · intro h q r t hr ht
      exact h q r hr q t ht rfl
    · rintro h q r hr p t ht rfl
      exact h q r t hr ht
  simp only [List.Nodup, List.map_flatMap, List.pairwise_flatMap, hapart]
  exact and_iff_right fun s _ => hone s

theorem deterministic_ofSteps_iff : (ofSteps states steps).Deterministic ↔ Lawful states steps := by
  have hstart : ∀ s : Step, (s.startJumps.map Prod.fst).Nodup := by
    intro s
    cases s <;> simp [Step.startJumps]
  have hend : ∀ s : Step, (s.endJumps.map Prod.fst).Nodup := by
    intro s
    cases s <;> simp [Step.endJumps]
  rw [ofSteps_eq]
  constructor
  · rintro ⟨h1, h2, h3, h4, h5, h6, h7, h8⟩
    simp only [List.mem_flatMap] at h3 h4
    refine ⟨h1, by simpa using h2, fun s hs q e he => h3 q e ⟨s, hs, he⟩, ?_, by simpa using h5, ?_,
      by simpa using h7, ?_⟩
    · intro s hs s' hs' q e f he hf
      exact h4 q e f ⟨s, hs, he⟩ ⟨s', hs', hf⟩
    · simpa using (nodup_jumps_iff hstart).mp h6
    · simpa using (nodup_jumps_iff hend).mp h8
  · rintro ⟨h1, h2, h3, h4, h5, h6, h7, h8⟩
    refine ⟨h1, by simpa using h2, ?_, ?_, by simpa using h5, (nodup_jumps_iff hstart).mpr (by simpa using h6),
      by simpa using h7, (nodup_jumps_iff hend).mpr (by simpa using h8)⟩
    · intro q e he
      obtain ⟨s, hs, he⟩ := List.mem_flatMap.mp he
      exact h3 s hs q e he
    · intro q e f he hf
      obtain ⟨s, hs, he⟩ := List.mem_flatMap.mp he
      obtain ⟨s', hs', hf⟩ := List.mem_flatMap.mp hf
      exact h4 s hs s' hs' q e f he hf

end

/-- **Building.** It succeeds just for lawful steps, and what is built makes the transitions,
accepts the states and has the jumps that were declared. -/
theorem build_spec (states : Nat) (steps : List Step) :
    match (ofSteps states steps).build with
    | .ok a =>
      Lawful states steps ∧ ∀ q,
        (∀ c t, a.transition q c = some t ↔ ∃ s ∈ steps, s.Draws q c t) ∧
        (a.isAccepting q = true ↔ .accept q ∈ steps) ∧
        (∀ t, a.startJump q = some t ↔ .startJump q t ∈ steps) ∧
        ∀ t, a.endJump q = some t ↔ .endJump q t ∈ steps
    | .error _ => ¬ Lawful states steps := by
  unfold build
  cases hdefect : (ofSteps states steps).defect? with
  | some defect =>
    intro h
    rw [defect?_eq_none_iff.mpr (deterministic_ofSteps_iff.mpr h)] at hdefect
    cases hdefect
  | none =>
    have h := defect?_eq_none_iff.mp hdefect
    refine ⟨deterministic_ofSteps_iff.mp h, fun q => ⟨fun c t => ?_, ?_, fun t => ?_, fun t => ?_⟩⟩
    · rw [h.transition_iff, ofSteps_eq]
      simp only [Step.draws_iff, List.mem_flatMap]
      constructor
      · rintro ⟨e, ⟨s, hs, he⟩, htake⟩
        exact ⟨s, hs, e, he, htake⟩
      · rintro ⟨s, hs, e, he, htake⟩
        exact ⟨e, ⟨s, hs, he⟩, htake⟩
    · rw [isAccepting_automaton, ofSteps_eq]
      simp
    · rw [h.startJump_iff, ofSteps_eq]
      simp
    · rw [h.endJump_iff, ofSteps_eq]
      simp

def twice : List Step :=
  [.edge 0 ⟨'a', 'c', 1⟩, .anyOf 0 ['x', 'e', 'x'] 1, .edge 0 ⟨'a', 'c', 1⟩, .accept 1, .endJump 0 1]

theorem build_spec_twice :
    (∃ a, (ofSteps 2 twice).build = .ok a ∧ Lawful 2 twice ∧ a.transition 0 'e' = some 1 ∧ a.endJump 0 = some 1) ∧
      (ofSteps 2 (.edge 0 ⟨'c', 'd', 1⟩ :: twice)).build = .error (.overlap 0 'c') ∧
      ¬ Lawful 2 (.edge 0 ⟨'c', 'd', 1⟩ :: twice) := by
  have hok : (ofSteps 2 twice).build = .ok (ofSteps 2 twice).automaton :=
    build_eq_ok_iff.mpr ⟨defect?_eq_none_iff.mp (by decide +kernel), rfl⟩
  have hbad : (ofSteps 2 (.edge 0 ⟨'c', 'd', 1⟩ :: twice)).build = .error (.overlap 0 'c') :=
    build_eq_error_iff_defect?.mpr (by decide +kernel)
  have hspec := build_spec 2 twice
  have hclash := build_spec 2 (.edge 0 ⟨'c', 'd', 1⟩ :: twice)
  rw [hok] at hspec
  rw [hbad] at hclash
  obtain ⟨htransition, -, -, hend⟩ := hspec.2 0
  refine ⟨⟨_, hok, hspec.1, (htransition _ _).mpr ?_, (hend _).mpr (by decide)⟩, hbad, hclash⟩
  exact ⟨.anyOf 0 ['x', 'e', 'x'] 1, by decide, rfl, by decide, rfl⟩

end Munch.Declaration
