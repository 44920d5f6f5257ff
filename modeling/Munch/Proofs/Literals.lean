import Munch.Proofs.MaximalMunch
import Munch.Proofs.Rearrangements

/-!
# Literals

The automaton of a text has a state behind each of its prefixes. It is what a declaration
builds that spells the text, so what is known of declared automata is known of it.
-/

namespace Munch

open Declaration (Step ofSteps mem_edgesFrom eq_of_lo_lt)

/-! ## Spelling a text -/

/-- An edge for each symbol of the text, and an accepting state behind the last one. -/
def spelling (t : List Char) : List Step :=
  t.zipIdx.map (fun (c, i) => .edge i ⟨c, c, i + 1⟩) ++ [.accept t.length]

def spelled (t : List Char) : Declaration := ofSteps (t.length + 1) (spelling t)

section
variable (t : List Char)

theorem spelled_eq :
    spelled t = ⟨t.length + 1, [t.length], t.zipIdx.map fun (c, i) => (i, ⟨c, c, i + 1⟩), [], []⟩ := by
  unfold spelled spelling
  rw [Declaration.ofSteps_eq]
  simp [List.flatMap_map, Step.accepts, Step.edges, Step.startJumps, Step.endJumps, ← List.map_eq_flatMap]

theorem mem_edges_spelled {q : Nat} {e : Edge} :
    (q, e) ∈ (spelled t).edges ↔ ∃ c, t[q]? = some c ∧ e = ⟨c, c, q + 1⟩ := by
  rw [spelled_eq, List.mem_map]
  constructor
  · rintro ⟨⟨c, i⟩, hm, heq⟩
    cases heq
    exact ⟨c, List.mem_zipIdx_iff_getElem?.mp hm, rfl⟩
  · rintro ⟨c, hc, rfl⟩
    exact ⟨(c, q), List.mem_zipIdx_iff_getElem?.mpr hc, rfl⟩

theorem deterministic_spelled : (spelled t).Deterministic where
  states := by simp [spelled_eq]
  accept := by simp [spelled_eq]
  edges q e he := by
    obtain ⟨c, hc, rfl⟩ := (mem_edges_spelled t).mp he
    have hq := (List.getElem?_eq_some_iff.mp hc).1
    refine ⟨?_, ?_, le_refl c⟩ <;> rw [spelled_eq] <;> dsimp only <;> omega
  apart q e f he hf := by
    obtain ⟨c, hc, rfl⟩ := (mem_edges_spelled t).mp he
    obtain ⟨b, hb, rfl⟩ := (mem_edges_spelled t).mp hf
    cases hc.symm.trans hb
    exact Or.inl rfl
  startJumps := by simp [spelled_eq]
  oneStartJump := by simp [spelled_eq]
  endJumps := by simp [spelled_eq]
  oneEndJump := by simp [spelled_eq]

theorem edgesFrom_spelled (q : Nat) :
    (spelled t).edgesFrom q = t[q]?.toList.map fun c => ⟨c, c, q + 1⟩ := by
  apply eq_of_lo_lt ((deterministic_spelled t).edgesFrom_lo_lt q)
  · cases t[q]? <;> simp
  · intro e
    rw [mem_edgesFrom, mem_edges_spelled]
    simp [eq_comm]

theorem automaton_spelled : (spelled t).automaton = Automaton.literal t := by
  unfold Declaration.automaton Automaton.literal
  congr 1
  · simp only [edgesFrom_spelled]
    simp only [spelled_eq, List.lookup_nil]
    congr 1
    -- the last state stands behind the whole text and has no edge
    rw [List.range_succ, List.map_append]
    congr 1
    · apply List.ext_getElem?
      intro q
      by_cases hq : q < t.length <;> simp [hq]
    · simp
  · rw [spelled_eq]
    rfl

theorem build_spelling (name : String) {steps : List Step} (h : steps.Perm (spelling t)) :
    Rule.build (some name) (ofSteps (t.length + 1) steps) [] = .ok (Rule.literal name t) := by
  have halike : (spelled t).Alike (ofSteps (t.length + 1) steps) := by
    unfold spelled
    rw [Declaration.ofSteps_eq, Declaration.ofSteps_eq]
    exact ⟨rfl, fun q => (h.flatMap_right _).mem_iff.symm, fun p => (h.flatMap_right _).mem_iff.symm,
      (h.flatMap_right _).symm, (h.flatMap_right _).symm⟩
  have hbuild := Declaration.build_eq_ok_iff.mpr ⟨deterministic_spelled t, automaton_spelled t⟩
  unfold Rule.build
  rw [halike.build_ok hbuild]
  rfl

end

/-! ## What its automaton takes -/

namespace Automaton

section
variable (t : List Char)

theorem transition_literal (q : Nat) (c : Char) (r : Nat) :
    (literal t).transition q c = some r ↔ t[q]? = some c ∧ r = q + 1 := by
  rw [← automaton_spelled, (deterministic_spelled t).transition_iff]
  constructor
  · rintro ⟨e, he, htake, rfl⟩
    obtain ⟨b, hb, rfl⟩ := (mem_edges_spelled t).mp he
    cases (Edge.takes_single ..).mp htake
    exact ⟨hb, rfl⟩
  · rintro ⟨hc, rfl⟩
    exact ⟨⟨c, c, q + 1⟩, (mem_edges_spelled t).mpr ⟨c, hc, rfl⟩, (Edge.takes_single ..).mpr rfl, rfl⟩

theorem isAccepting_literal (q : Nat) : (literal t).isAccepting q = true ↔ q = t.length := by
  rw [← automaton_spelled, Declaration.isAccepting_automaton, spelled_eq, List.mem_singleton]

theorem startJump_literal (q : Nat) : (literal t).startJump q = none := by
  rw [← automaton_spelled, Declaration.startJump_automaton, spelled_eq]
  simp

theorem endJump_literal (q : Nat) : (literal t).endJump q = none := by
  rw [← automaton_spelled, Declaration.endJump_automaton, spelled_eq]
  simp

theorem prefix_drop_iff {q : Nat} {c : Char} {w : List Char} :
    c :: w <+: t.drop q ↔ t[q]? = some c ∧ w <+: t.drop (q + 1) := by
  by_cases hq : q < t.length
  · rw [List.drop_eq_getElem_cons hq, List.cons_prefix_cons, List.getElem?_eq_getElem hq, Option.some.injEq, eq_comm]
  · rw [List.drop_of_length_le (by omega), List.getElem?_eq_none (by omega)]
    simp

theorem run_literal (q r : Nat) (w : List Char) :
    (literal t).run q w = some r ↔ w <+: t.drop q ∧ r = q + w.length := by
  induction w generalizing q with
  | nil => simp [run, eq_comm]
  | cons c w ih =>
    have hrun : (literal t).run q (c :: w) = some r ↔
        ∃ p, (literal t).transition q c = some p ∧ (literal t).run p w = some r := by
      unfold run
      rw [List.foldlM_cons]
      exact Option.bind_eq_some_iff
    rw [hrun, prefix_drop_iff, List.length_cons]
    constructor
    · rintro ⟨p, hp, hr⟩
      obtain ⟨hc, rfl⟩ := (transition_literal t q c p).mp hp
      obtain ⟨hw, rfl⟩ := (ih (q + 1)).mp hr
      exact ⟨⟨hc, hw⟩, by omega⟩
    · rintro ⟨⟨hc, hw⟩, rfl⟩
      exact ⟨q + 1, (transition_literal t q c (q + 1)).mpr ⟨hc, rfl⟩, (ih (q + 1)).mpr ⟨hw, by omega⟩⟩

theorem accepts_literal (w : List Char) :
    (∃ q, (literal t).run 0 w = some q ∧ (literal t).isAccepting q = true) ↔ w = t := by
  simp only [run_literal, isAccepting_literal, List.drop_zero, Nat.zero_add]
  constructor
  · rintro ⟨q, ⟨hw, rfl⟩, hlen⟩
    exact hw.eq_of_length hlen
  · rintro rfl
    exact ⟨w.length, ⟨List.prefix_rfl, rfl⟩, rfl⟩

theorem jumpPath_literal {path : List Nat} (h : JumpPath (literal t).startJump 0 path) : path = [] := by
  cases path with
  | nil => rfl
  | cons r path =>
    have := (List.isChain_cons_cons.mp h.steps).1
    rw [startJump_literal] at this
    cases this

theorem reads_literal (w : List Char) (q : Nat) : (literal t).Reads w q ↔ (literal t).run 0 w = some q := by
  constructor
  · rintro ⟨path, hpath, hrun⟩
    rwa [jumpPath_literal t hpath] at hrun
  · intro hrun
    refine ⟨[], ⟨.singleton 0, List.nodup_singleton 0, fun r hr => ?_⟩, hrun⟩
    rw [startJump_literal] at hr
    cases hr

theorem not_leads_literal (q p : Nat) : ¬ Leads (literal t).endJump q p := by
  intro h
  obtain ⟨r, hr, -⟩ := Relation.TransGen.head'_iff.mp h
  rw [endJump_literal] at hr
  cases hr

end

end Automaton

/-! ## Where it is found -/

/-- The places of `t` in `text` from `o` on, each the first one behind the one before. -/
inductive FoundAt (t text : List Char) : Nat → List Nat → Prop
  | next {o p : Nat} {places : List Nat} : IsLeast {q | o ≤ q ∧ t <+: text.drop q} p →
      FoundAt t text (p + t.length) places → FoundAt t text o (p :: places)
  | stop {o : Nat} : (∀ q, o ≤ q → ¬ t <+: text.drop q) → FoundAt t text o []

section
variable {name : String} {t text : List Char} {o : Nat} {places : List Nat}

theorem FoundAt.unique {places' : List Nat} (h : FoundAt t text o places) (h' : FoundAt t text o places') :
    places = places' := by
  induction h generalizing places' with
  | next hp _ ih =>
    cases h' with
    | next hp' hrest =>
      cases hp.unique hp'
      rw [ih hrest]
    | stop hnone => exact absurd hp.1.2 (hnone _ hp.1.1)
  | stop hnone =>
    cases h' with
    | next hp => exact absurd hp.1.2 (hnone _ hp.1.1)
    | stop => rfl

theorem FoundAt.skip (hnot : ¬ t <+: text.drop o) (h : FoundAt t text (o + 1) places) :
    FoundAt t text o places := by
  have hlater : ∀ q, o ≤ q → t <+: text.drop q → o + 1 ≤ q := by
    intro q hq ht
    rcases Nat.lt_or_eq_of_le hq with hlt | rfl
    · exact hlt
    · exact absurd ht hnot
  cases h with
  | next hp hrest =>
    exact .next ⟨⟨Nat.le_of_succ_le hp.1.1, hp.1.2⟩, fun q hq => hp.2 ⟨hlater q hq.1 hq.2, hq.2⟩⟩ hrest
  | stop hnone => exact .stop fun q hq ht => hnone q (hlater q hq ht) ht

theorem FoundAt.here (ht : t <+: text.drop o) (h : FoundAt t text (o + t.length) places) :
    FoundAt t text o (o :: places) :=
  .next ⟨⟨Nat.le_refl o, ht⟩, fun _ hq => hq.1⟩ h

theorem FoundAt.nil_of_le (ht : t ≠ []) (hle : text.length ≤ o) : FoundAt t text o [] := by
  refine .stop fun q hq hpre => ht ?_
  rw [List.drop_of_length_le (Nat.le_trans hle hq)] at hpre
  exact List.prefix_nil.mp hpre

/-! ## Scanning for it -/

theorem candidate_literal {rest : List Char} {emptyAllowed : Prop} {m : Match} :
    Candidate [Rule.literal name t] rest emptyAllowed m ↔ t ≠ [] ∧ t <+: rest ∧ m = ⟨0, t.length⟩ := by
  have hrule : ∀ {i : Nat} {rule : Rule}, [Rule.literal name t][i]? = some rule →
      i = 0 ∧ rule.automaton = Automaton.literal t := by
    intro i rule hi
    obtain ⟨hlt, rfl⟩ := List.getElem?_eq_some_iff.mp hi
    cases Nat.lt_one_iff.mp hlt
    exact ⟨rfl, rfl⟩
  constructor
  · intro h
    cases h with
    | @token i n q rule hi h1 hn hreads haccept =>
      obtain ⟨rfl, hauto⟩ := hrule hi
      rw [hauto, Automaton.reads_literal] at hreads
      rw [hauto] at haccept
      have htake := (Automaton.accepts_literal t _).mp ⟨q, hreads, haccept⟩
      have hlen : t.length = n := by rw [← htake, List.length_take_of_le hn]
      refine ⟨?_, htake ▸ List.take_prefix n rest, by rw [hlen]⟩
      rintro rfl
      exact absurd h1 (by rw [← hlen]; decide)
    | atEnd hi _ _ hleads =>
      rw [(hrule hi).2] at hleads
      exact absurd hleads (Automaton.not_leads_literal t _ _)
    | empty _ hi hpath hmem =>
      rw [(hrule hi).2] at hpath
      rw [Automaton.jumpPath_literal t hpath] at hmem
      cases hmem
  · rintro ⟨hne, hpre, rfl⟩
    have htake : rest.take t.length = t := (List.prefix_iff_eq_take.mp hpre).symm
    have hzero : [Rule.literal name t][0]? = some (Rule.literal name t) := rfl
    obtain ⟨q, hrun, haccept⟩ := (Automaton.accepts_literal t t).mpr rfl
    have hreads : (Automaton.literal t).Reads (rest.take t.length) q := by
      rw [htake, Automaton.reads_literal]
      exact hrun
    exact .token hzero (List.length_pos_iff.mpr hne) hpre.length_le hreads haccept

end

def foundFrame (terminator : Char) (t text : List Char) (p : Nat) : Frame :=
  .token 0 t (placeAt terminator text p).line (placeAt terminator text p).column

def endFrame (terminator : Char) (text : List Char) : Frame :=
  .sentinel (placeAt terminator text text.length).line (placeAt terminator text text.length).column

theorem placeAt_of_le (terminator : Char) {text : List Char} {o : Nat} (h : text.length ≤ o) :
    placeAt terminator text o = placeAt terminator text text.length := by
  unfold placeAt
  rw [List.take_of_length_le h, List.take_length]

theorem lays_literal {name : String} {terminator : Char} {t text : List Char} {o : Nat} {empties : List Nat}
    {frames : List Frame} (h : Lays [Rule.literal name t] terminator text o empties frames) :
    ∃ places, (t = [] → places = []) ∧ (t ≠ [] → FoundAt t text o places) ∧
      frames = places.map (foundFrame terminator t text) ++ [endFrame terminator text] := by
  -- by what is laid next: a text found here, or a place that is skipped as it does not begin here
  induction h with
  | @token o empties m frames hbest _ ih =>
    obtain ⟨hne, hpre, rfl⟩ := candidate_literal.mp hbest.1
    obtain ⟨places, -, hfound, hframes⟩ := ih
    refine ⟨o :: places, fun ht => absurd ht hne, fun _ => (hfound hne).here hpre, ?_⟩
    rw [hframes, ← List.prefix_iff_eq_take.mp hpre]
    rfl
  | @skip o empties frames hbest _ _ ih =>
    obtain ⟨places, hnil, hfound, hframes⟩ := ih
    refine ⟨places, hnil, fun hne => (hfound hne).skip fun hpre => ?_, hframes⟩
    exact hbest _ (candidate_literal.mpr ⟨hne, hpre, rfl⟩)
  | @stop o empties hbest hle =>
    refine ⟨[], fun _ => rfl, fun hne => .nil_of_le hne hle, ?_⟩
    rw [placeAt_of_le terminator hle]
    rfl

/-- **Literals.** The rule of a text is what spelling the text builds and accepts just the text. A
scan with no other rule finds it wherever it comes next, but never if it is empty. -/
theorem Rule.literal_spec (name : String) (t : List Char) :
    (∀ steps : List Step, steps.Perm (spelling t) →
      Rule.build (some name) (ofSteps (t.length + 1) steps) [] = .ok (Rule.literal name t)) ∧
    (∀ w : List Char,
      (∃ q, (Automaton.literal t).run 0 w = some q ∧ (Automaton.literal t).isAccepting q = true) ↔ w = t) ∧
    ∀ (terminator : Char) (maxDepth : Nat) (feed : Feed) (text : List Char), feed.Delivers text →
      ∃ places : List Nat,
        (t = [] → places = []) ∧ (t ≠ [] → ∀ ps, FoundAt t text 0 ps ↔ ps = places) ∧
        ∀ n, ((Scan.ofFeed [Rule.literal name t] ⟨terminator, false, maxDepth⟩ feed).results n).1 =
          ((places.map (foundFrame terminator t text) ++ [endFrame terminator text]).map .ok).take n := by
  refine ⟨fun steps h => build_spelling t name h, Automaton.accepts_literal t, ?_⟩
  intro terminator maxDepth feed text hd
  obtain ⟨frames, hres, hlays⟩ := Scan.results_lays hd (List.nil_append text)
    (Scan.stands_ofFeed [Rule.literal name t] terminator maxDepth feed)
  obtain ⟨places, hnil, hfound, rfl⟩ := lays_literal hlays
  refine ⟨places, hnil, fun hne ps => ⟨fun hps => hps.unique (hfound hne), ?_⟩, hres⟩
  rintro rfl
  exact hfound hne

theorem Rule.literal_spec_overlapping :
    let text := ['\n', 'a', 'a', 'a', 'a']
    let steps : List Step := [.edge 1 ⟨'a', 'a', 2⟩, .accept 2, .edge 0 ⟨'a', 'a', 1⟩]
    steps.Perm (spelling ['a', 'a']) ∧
      Rule.build (some "aa") (ofSteps 3 steps) [] = .ok (Rule.literal "aa" ['a', 'a']) ∧
      (Feed.ofText text).Delivers text ∧ FoundAt ['a', 'a'] text 0 [1, 3] ∧
      ∀ n, ((Scan.ofFeed [Rule.literal "aa" ['a', 'a']] Options.standard (Feed.ofText text)).results n).1 =
        ([Frame.token 0 ['a', 'a'] 1 0, .token 0 ['a', 'a'] 1 2, .sentinel 1 4].map .ok).take n := by
  intro text steps
  have hperm : steps.Perm (spelling ['a', 'a']) := by decide
  have hd : (Feed.ofText text).Delivers text := Feed.delivers_ofText text
  have hfirst : IsLeast {q | 0 ≤ q ∧ ['a', 'a'] <+: text.drop q} 1 := by
    refine ⟨by decide, fun q hq => Nat.one_le_iff_ne_zero.mpr ?_⟩
    rintro rfl
    exact absurd hq.2 (by decide)
  have hsecond : IsLeast {q | 3 ≤ q ∧ ['a', 'a'] <+: text.drop q} 3 := ⟨by decide, fun _ hq => hq.1⟩
  have hfound : FoundAt ['a', 'a'] text 0 [1, 3] :=
    .next hfirst (.next hsecond (.nil_of_le (by decide) (by decide)))
  obtain ⟨hbuild, -, hscan⟩ := Rule.literal_spec "aa" ['a', 'a']
  obtain ⟨places, -, hplaces, hres⟩ := hscan '\n' 32 _ text hd
  cases (hplaces (by decide) _).mp hfound
  exact ⟨hperm, hbuild steps hperm, hd, hfound, hres⟩

end Munch
