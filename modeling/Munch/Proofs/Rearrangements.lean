import Munch.Proofs.Declarations

/-!
# Declarations in another order

What is built is a normal form of what is declared: edges stand in the one order that apart
edges have, and the accepting states are a set.
-/

namespace Munch.Declaration

/-- The same is declared, in any order and, but for jumps, any number of times. -/
structure Alike (d d' : Declaration) : Prop where
  states : d.states = d'.states
  accept : ∀ q, q ∈ d.accept ↔ q ∈ d'.accept
  edges : ∀ p, p ∈ d.edges ↔ p ∈ d'.edges
  startJumps : d.startJumps.Perm d'.startJumps
  endJumps : d.endJumps.Perm d'.endJumps

theorem Alike.symm {d d' : Declaration} (h : d.Alike d') : d'.Alike d :=
  ⟨h.states.symm, fun q => (h.accept q).symm, fun p => (h.edges p).symm, h.startJumps.symm, h.endJumps.symm⟩

theorem nodup_of_lo_lt {es : List Edge} (h : es.Pairwise fun e f => e.lo < f.lo) : es.Nodup := by
  apply h.imp
  rintro e f hlt rfl
  exact lt_irrefl _ hlt

theorem eq_of_lo_lt {es fs : List Edge} (hes : es.Pairwise fun e f => e.lo < f.lo)
    (hfs : fs.Pairwise fun e f => e.lo < f.lo) (h : ∀ e, e ∈ es ↔ e ∈ fs) : es = fs := by
  apply List.Perm.eq_of_pairwise _ hes hfs
  · exact (List.perm_ext_iff_of_nodup (nodup_of_lo_lt hes) (nodup_of_lo_lt hfs)).mpr h
  · intro e f _ _ hef hfe
    exact absurd hef (lt_asymm hfe)

theorem lookup_of_perm {js js' : List (Nat × Nat)} (hperm : js.Perm js') (hone : (js.map Prod.fst).Nodup)
    (q : Nat) : js.lookup q = js'.lookup q := by
  apply Option.ext
  intro r
  rw [lookup_eq_some_iff hone, lookup_eq_some_iff ((hperm.map Prod.fst).nodup_iff.mp hone), hperm.mem_iff]

section
variable {d : Declaration} (h : d.Deterministic)
include h

theorem Deterministic.edgesFrom_lo_lt (q : Nat) : (d.edgesFrom q).Pairwise fun e f => e.lo < f.lo := by
  apply (h.edgesFrom_apart q).imp_of_mem
  intro e f he _ hlt
  exact lt_of_le_of_lt (h.edges q e (mem_edgesFrom.mp he)).2.2 hlt

theorem Deterministic.edges_lo_lt (q : Nat) : (d.automaton.edges q).toList.Pairwise fun e f => e.lo < f.lo :=
  pairwise_edges (h.edgesFrom_lo_lt q)

end

section
variable {d d' : Declaration} (h : d.Alike d')
include h

theorem Alike.deterministic (hd : d.Deterministic) : d'.Deterministic where
  states := h.states ▸ hd.states
  accept q hq := h.states ▸ hd.accept q ((h.accept q).mpr hq)
  edges q e he := h.states ▸ hd.edges q e ((h.edges _).mpr he)
  apart q e f he hf := hd.apart q e f ((h.edges _).mpr he) ((h.edges _).mpr hf)
  startJumps q r hj := h.states ▸ hd.startJumps q r (h.startJumps.mem_iff.mpr hj)
  oneStartJump := (h.startJumps.map Prod.fst).nodup_iff.mp hd.oneStartJump
  endJumps q r hj := h.states ▸ hd.endJumps q r (h.endJumps.mem_iff.mpr hj)
  oneEndJump := (h.endJumps.map Prod.fst).nodup_iff.mp hd.oneEndJump

theorem Alike.edgesFrom (hd : d.Deterministic) (q : Nat) : d.edgesFrom q = d'.edgesFrom q := by
  apply eq_of_lo_lt (hd.edgesFrom_lo_lt q) ((h.deterministic hd).edgesFrom_lo_lt q)
  intro e
  rw [mem_edgesFrom, mem_edgesFrom, h.edges]

theorem Alike.accepting : d.automaton.accepting = d'.automaton.accepting := by
  unfold Declaration.automaton
  rw [h.states]
  exact BitSet.insertAll_congr d'.states h.accept

theorem Alike.automaton (hd : d.Deterministic) : d.automaton = d'.automaton := by
  have hstates : d.automaton.states = d'.automaton.states := by
    unfold Declaration.automaton
    simp only [h.edgesFrom hd, lookup_of_perm h.startJumps hd.oneStartJump,
      lookup_of_perm h.endJumps hd.oneEndJump, h.states]
  calc d.automaton = ⟨d.automaton.states, d.automaton.accepting⟩ := rfl
    _ = ⟨d'.automaton.states, d'.automaton.accepting⟩ := by rw [hstates, h.accepting]
    _ = d'.automaton := rfl

theorem Alike.build_ok {a : Automaton} (ha : d.build = .ok a) : d'.build = .ok a := by
  obtain ⟨hd, rfl⟩ := build_eq_ok_iff.mp ha
  exact build_eq_ok_iff.mpr ⟨h.deterministic hd, (h.automaton hd).symm⟩

end

theorem alike_anyOf (states : Nat) (before after : List Step) (q target : Nat) {symbols symbols' : List Char}
    (h : ∀ c, c ∈ symbols ↔ c ∈ symbols') :
    (ofSteps states (before ++ .anyOf q symbols target :: after)).Alike
      (ofSteps states (before ++ .anyOf q symbols' target :: after)) := by
  simp only [ofSteps_eq, List.flatMap_append, List.flatMap_cons, Step.accepts, Step.edges, Step.startJumps,
    Step.endJumps]
  refine ⟨rfl, fun _ => Iff.rfl, fun p => ?_, .refl _, .refl _⟩
  simp only [List.mem_append, List.mem_map, h]

/-- **Declarations in another order.** Alike declarations are built alike, with the edges of a state
in the order of their symbols, and so are steps that list the same symbols otherwise. -/
theorem build_of_alike {d d' : Declaration} (h : d.Alike d') :
    (∀ a, d.build = .ok a ↔ d'.build = .ok a) ∧
      (∀ a, d.build = .ok a → ∀ q,
        (a.edges q).toList.Pairwise (fun e f => e.lo < f.lo) ∧ (a.edges q).toList.Pairwise Edge.Apart ∧
          (a.edges q).toList.Nodup) ∧
      ∀ (states : Nat) (before after : List Step) (q target : Nat) (symbols symbols' : List Char),
        (∀ c, c ∈ symbols ↔ c ∈ symbols') → ∀ a,
          (ofSteps states (before ++ .anyOf q symbols target :: after)).build = .ok a ↔
            (ofSteps states (before ++ .anyOf q symbols' target :: after)).build = .ok a := by
  refine ⟨fun a => ⟨h.build_ok, h.symm.build_ok⟩, fun a ha q => ?_, ?_⟩
  · obtain ⟨hd, rfl⟩ := build_eq_ok_iff.mp ha
    have hlt := hd.edges_lo_lt q
    exact ⟨hlt, (hd.edges_apart q).imp Edge.apart_of_lt, nodup_of_lo_lt hlt⟩
  · intro states before after q target symbols symbols' hsymbols a
    have hany := alike_anyOf states before after q target hsymbols
    exact ⟨hany.build_ok, hany.symm.build_ok⟩

def letters : Declaration :=
  ⟨3, [1, 2], [(0, ⟨'a', 'c', 1⟩), (0, ⟨'x', 'x', 2⟩), (1, ⟨'a', 'a', 1⟩)], [(0, 1), (1, 2)], [(2, 0)]⟩

def lettersShuffled : Declaration :=
  ⟨3, [2, 1, 2], [(0, ⟨'x', 'x', 2⟩), (0, ⟨'a', 'c', 1⟩), (1, ⟨'a', 'a', 1⟩), (0, ⟨'x', 'x', 2⟩)],
    [(1, 2), (0, 1)], [(2, 0)]⟩

theorem build_of_alike_letters :
    letters.Alike lettersShuffled ∧ lettersShuffled.build = .ok letters.automaton ∧
      (∀ q, (letters.automaton.edges q).toList.Nodup) ∧
      ∀ a, (ofSteps 2 [.anyOf 0 ['b', 'a', 'b'] 1]).build = .ok a ↔
        (ofSteps 2 [.anyOf 0 ['a', 'b'] 1]).build = .ok a := by
  have h : letters.Alike lettersShuffled := by
    refine ⟨rfl, fun q => ?_, fun p => ?_, by decide, by decide⟩
    · simp [letters, lettersShuffled]
      omega
    · simp [letters, lettersShuffled]
      tauto
  have hbuild : letters.build = .ok letters.automaton :=
    build_eq_ok_iff.mpr ⟨defect?_eq_none_iff.mp (by decide +kernel), rfl⟩
  have hsymbols : ∀ c, c ∈ ['b', 'a', 'b'] ↔ c ∈ ['a', 'b'] := by
    intro c
    simp
    tauto
  obtain ⟨halike, hnormal, hany⟩ := build_of_alike h
  exact ⟨h, (halike _).mp hbuild, fun q => (hnormal _ hbuild q).2.2, hany 2 [] [] 0 1 _ _ hsymbols⟩

end Munch.Declaration
