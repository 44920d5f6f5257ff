import Mathlib.Data.List.Forall2
import Munch.Description.Basic
import Munch.Proofs.Declarations

/-!
# What a description describes

A description is built if and only if it is well formed at all depths, and the family has
then the shape of its tree.
-/

namespace Munch

namespace TransitionDescription

def OneKind (t : TransitionDescription) : Prop := t.symbols.isSome ≠ t.range.isSome

def Takes (t : TransitionDescription) (c : Char) : Prop :=
  (∃ symbols, t.symbols = some symbols ∧ c ∈ symbols) ∨ ∃ lo hi, t.range = some (lo, hi) ∧ lo ≤ c ∧ c ≤ hi

def edges (t : TransitionDescription) : List (Nat × Edge) :=
  (t.symbols.getD []).map (fun c => (t.source, ⟨c, c, t.target⟩)) ++
    t.range.toList.map fun p => (t.source, ⟨p.1, p.2, t.target⟩)

theorem edges?_eq_some_iff {t : TransitionDescription} {es : List (Nat × Edge)} :
    t.edges? = some es ↔ t.OneKind ∧ t.edges = es := by
  obtain ⟨source, target, symbols, range⟩ := t
  cases symbols <;> cases range <;> simp [edges?, OneKind, edges]

theorem draws_iff (t : TransitionDescription) (q : Nat) (c : Char) (s : Nat) :
    (∃ e, (q, e) ∈ t.edges ∧ e.Takes c ∧ e.target = s) ↔ t.source = q ∧ t.target = s ∧ t.Takes c := by
  obtain ⟨source, target, symbols, range⟩ := t
  have hsymbols : (∃ e, (q, e) ∈ (symbols.getD []).map (fun b => (source, Edge.mk b b target)) ∧
      e.Takes c ∧ e.target = s) ↔ source = q ∧ target = s ∧ ∃ cs, symbols = some cs ∧ c ∈ cs := by
    rw [Edge.exists_single_iff]
    cases symbols <;> simp [and_comm]
  have hrange : (∃ e, (q, e) ∈ range.toList.map (fun p => (source, Edge.mk p.1 p.2 target)) ∧
      e.Takes c ∧ e.target = s) ↔ source = q ∧ target = s ∧ ∃ lo hi, range = some (lo, hi) ∧ lo ≤ c ∧ c ≤ hi := by
    cases range with
    | none => simp
    | some p =>
      obtain ⟨lo, hi⟩ := p
      rw [Option.toList_some, List.map_singleton, Edge.exists_mem_singleton_iff]
      simp [Edge.Takes, and_comm]
  simp only [edges, Takes, List.mem_append, or_and_right, exists_or, hsymbols, hrange, ← and_or_left]

end TransitionDescription

namespace RuleDescription

/-- What the rule says of its own automaton. -/
def tables (d : RuleDescription) : Declaration :=
  ⟨d.states, d.accept, d.transitions.flatMap TransitionDescription.edges, d.startJumps, d.endJumps⟩

inductive WellFormed : RuleDescription → Prop
  | intro {d : RuleDescription} : (∀ t ∈ d.transitions, t.OneKind) → d.tables.Deterministic →
      (∀ n ∈ d.nested, WellFormed n) → WellFormed d

inductive Describes : RuleDescription → Rule → Prop
  | intro {d : RuleDescription} {r : Rule} : r.name = some d.name → r.automaton.size = d.states →
      (∀ q c s, r.automaton.transition q c = some s ↔
        ∃ t ∈ d.transitions, t.source = q ∧ t.target = s ∧ t.Takes c) →
      (∀ q, r.automaton.isAccepting q = true ↔ q ∈ d.accept) →
      (∀ q s, r.automaton.startJump q = some s ↔ (q, s) ∈ d.startJumps) →
      (∀ q s, r.automaton.endJump q = some s ↔ (q, s) ∈ d.endJumps) →
      List.Forall₂ Describes d.nested r.nested → Describes d r

/-! ## One rule -/

theorem mapM_edges?_eq_some_iff {ts : List TransitionDescription} {ess : List (List (Nat × Edge))} :
    ts.mapM TransitionDescription.edges? = some ess ↔
      (∀ t ∈ ts, t.OneKind) ∧ ts.map TransitionDescription.edges = ess := by
  induction ts generalizing ess with
  | nil => simp
  | cons t ts ih =>
    rw [List.mapM_cons]
    simp only [Option.bind_eq_bind, Option.bind_eq_some_iff, Option.pure_def, Option.some.injEq,
      TransitionDescription.edges?_eq_some_iff, ih, List.forall_mem_cons, List.map_cons]
    constructor
    · rintro ⟨es, ⟨ht, rfl⟩, ess, ⟨hts, rfl⟩, rfl⟩
      exact ⟨⟨ht, hts⟩, rfl⟩
    · rintro ⟨⟨ht, hts⟩, rfl⟩
      exact ⟨_, ⟨ht, rfl⟩, _, ⟨hts, rfl⟩, rfl⟩

section
variable {d : RuleDescription}

theorem edges?_eq_some_iff {es : List (Nat × Edge)} :
    d.edges? = some es ↔
      (∀ t ∈ d.transitions, t.OneKind) ∧ d.transitions.flatMap TransitionDescription.edges = es := by
  unfold edges?
  simp only [Option.map_eq_some_iff, mapM_edges?_eq_some_iff, and_assoc, exists_and_left, exists_eq_left',
    List.flatMap_def]

theorem declaration_edges (d : RuleDescription) :
    d.declaration (d.transitions.flatMap TransitionDescription.edges) = d.tables := rfl

theorem tables_transition (h : d.tables.Deterministic) (q : Nat) (c : Char) (s : Nat) :
    d.tables.automaton.transition q c = some s ↔
      ∃ t ∈ d.transitions, t.source = q ∧ t.target = s ∧ t.Takes c := by
  rw [h.transition_iff]
  simp only [← TransitionDescription.draws_iff, tables, List.mem_flatMap]
  constructor
  · rintro ⟨e, ⟨t, ht, he⟩, hrest⟩
    exact ⟨t, ht, e, he, hrest⟩
  · rintro ⟨t, ht, e, he, hrest⟩
    exact ⟨e, ⟨t, ht, he⟩, hrest⟩

theorem describes_of_tables (h : d.tables.Deterministic) {family : Family}
    (hnested : List.Forall₂ Describes d.nested family) : d.Describes ⟨some d.name, d.tables.automaton, family⟩ := by
  refine .intro rfl ?_ (tables_transition h) ?_ ?_ ?_ hnested
  · simp [Declaration.automaton, Automaton.size, tables]
  · exact Declaration.isAccepting_automaton d.tables
  · exact h.startJump_iff
  · exact h.endJump_iff

end

/-! ## The tree -/

theorem build_eq (d : RuleDescription) :
    d.build.1 =
      match d.edges? with
      | none => .error (.ambiguousSymbols d.name)
      | some es =>
        match (buildAll d.nested).1 with
        | .error e => .error e
        | .ok family =>
          match (d.declaration es).build with
          | .error x => .error (.rule d.name x)
          | .ok a => .ok ⟨some d.name, a, family⟩ := by
  obtain ⟨name, states, accept, transitions, startJumps, endJumps, nested⟩ := d
  rw [build]
  dsimp only
  cases edges? ⟨name, states, accept, transitions, startJumps, endJumps, nested⟩ with
  | none => rfl
  | some es =>
    dsimp only
    rcases buildAll nested with ⟨_ | family, log⟩
    · rfl
    · dsimp only [Rule.build]
      cases (declaration ⟨name, states, accept, transitions, startJumps, endJumps, nested⟩ es).build <;> rfl

theorem buildAll_cons (d : RuleDescription) (ds : List RuleDescription) :
    (buildAll (d :: ds)).1 =
      match d.build.1 with
      | .error e => .error e
      | .ok r =>
        match (buildAll ds).1 with
        | .error e => .error e
        | .ok family => .ok (r :: family) := by
  rw [buildAll]
  rcases d.build with ⟨_ | r, log⟩
  · rfl
  · rcases buildAll ds with ⟨_ | family, later⟩ <;> rfl

def Meets (d : RuleDescription) : Except DescriptionError Rule → Prop
  | .ok r => d.WellFormed ∧ d.Describes r
  | .error _ => ¬ d.WellFormed

def AllMeet (ds : List RuleDescription) : Except DescriptionError Family → Prop
  | .ok family => (∀ d ∈ ds, d.WellFormed) ∧ List.Forall₂ Describes ds family
  | .error _ => ¬ ∀ d ∈ ds, d.WellFormed

theorem meets_of_nested {d : RuleDescription} (h : AllMeet d.nested (buildAll d.nested).1) : d.Meets d.build.1 := by
  rw [build_eq]
  cases hes : d.edges? with
  | none =>
    rintro ⟨hkind, -, -⟩
    rw [edges?_eq_some_iff.mpr ⟨hkind, rfl⟩] at hes
    cases hes
  | some es =>
    obtain ⟨hkind, rfl⟩ := edges?_eq_some_iff.mp hes
    cases hn : (buildAll d.nested).1 with
    | error e =>
      rw [hn] at h
      rintro ⟨-, -, hnested⟩
      exact h hnested
    | ok family =>
      rw [hn] at h
      obtain ⟨hnested, hfamily⟩ := h
      dsimp only
      rw [declaration_edges]
      cases hb : d.tables.build with
      | error x =>
        rintro ⟨-, hd, -⟩
        rw [Declaration.build_eq_ok_iff.mpr ⟨hd, rfl⟩] at hb
        cases hb
      | ok a =>
        obtain ⟨hd, rfl⟩ := Declaration.build_eq_ok_iff.mp hb
        exact ⟨.intro hkind hd hnested, describes_of_tables hd hfamily⟩

theorem allMeet_cons {d : RuleDescription} {ds : List RuleDescription} (h : d.Meets d.build.1)
    (hs : AllMeet ds (buildAll ds).1) : AllMeet (d :: ds) (buildAll (d :: ds)).1 := by
  rw [buildAll_cons]
  cases hd : d.build.1 with
  | error e =>
    rw [hd] at h
    exact fun hall => h (hall d (by simp))
  | ok r =>
    rw [hd] at h
    cases hds : (buildAll ds).1 with
    | error e =>
      rw [hds] at hs
      exact fun hall => hs fun n hn => hall n (List.mem_cons_of_mem d hn)
    | ok family =>
      rw [hds] at hs
      exact ⟨List.forall_mem_cons.mpr ⟨h.1, hs.1⟩, .cons h.2 hs.2⟩

mutual
theorem meets_build : (d : RuleDescription) → d.Meets d.build.1
  | ⟨_, _, _, _, _, _, nested⟩ => meets_of_nested (allMeet_buildAll nested)
theorem allMeet_buildAll : (ds : List RuleDescription) → AllMeet ds (buildAll ds).1
  | [] => by simp [buildAll, AllMeet]
  | d :: ds => allMeet_cons (meets_build d) (allMeet_buildAll ds)
end

end RuleDescription

/-- **What a description describes.** It is built just if all its rules are well formed, and
the family that is built is the one described: rule by rule, and so at all depths. -/
theorem Description.build_describes (d : Description) :
    match d.build.1 with
    | .ok family => (∀ r ∈ d.rules, r.WellFormed) ∧ List.Forall₂ RuleDescription.Describes d.rules family
    | .error _ => ¬ ∀ r ∈ d.rules, r.WellFormed := by
  have h := RuleDescription.allMeet_buildAll d.rules
  unfold build
  cases hb : (RuleDescription.buildAll d.rules).1 <;> rwa [hb] at h

/-- Words with a mark behind them, and the vowels in them. -/
def Description.words : Description :=
  ⟨.standard,
    [⟨"word", 3, [2], [⟨0, 1, none, some ('a', 'z')⟩, ⟨1, 1, none, some ('a', 'z')⟩, ⟨1, 2, some ['!', '?'], none⟩],
      [], [(1, 2)], [⟨"vowel", 2, [1], [⟨0, 1, some ['a', 'e', 'i', 'o', 'u'], none⟩], [], [], []⟩]⟩]⟩

def Description.wordsToNothing : Description :=
  ⟨.standard, words.rules ++ [⟨"nothing", 2, [1], [⟨0, 1, none, some ('z', 'a')⟩], [], [], []⟩]⟩

theorem Description.build_describes_words :
    (∃ family, words.build.1 = .ok family ∧ (∀ r ∈ words.rules, r.WellFormed) ∧
      List.Forall₂ RuleDescription.Describes words.rules family) ∧
    wordsToNothing.build.1 = .error (.rule "nothing" (.emptyRange 'z' 'a')) ∧
    ¬ ∀ r ∈ wordsToNothing.rules, r.WellFormed := by
  obtain ⟨family, hfamily⟩ : ∃ family, words.build.1 = .ok family := ⟨_, rfl⟩
  have hnothing : wordsToNothing.build.1 = .error (.rule "nothing" (.emptyRange 'z' 'a')) := rfl
  have hspec := build_describes words
  have hnot := build_describes wordsToNothing
  rw [hfamily] at hspec
  rw [hnothing] at hnot
  exact ⟨⟨family, hfamily, hspec⟩, hnothing, hnot⟩

end Munch
