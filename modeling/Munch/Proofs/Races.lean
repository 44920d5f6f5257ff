import Munch.Proofs.Jumps
import Munch.Proofs.Matches
import Munch.Race

/-!
# Races over a text

`Candidate` says which matches the rules of a family have at the beginning of a
text, each rule on its own. A race over the text finds the best of them.
-/

namespace Munch

namespace Automaton

def run (a : Automaton) (q : Nat) (text : List Char) : Option Nat := text.foldlM a.transition q

/-- `text` leads to `q` from the state where the start jumps end. -/
def Reads (a : Automaton) (text : List Char) (q : Nat) : Prop :=
  ∃ path, JumpPath a.startJump 0 path ∧ a.run (path.getLastD 0) text = some q

section
variable (a : Automaton)

theorem reads_iff (text : List Char) (q : Nat) : a.Reads text q ↔ a.run a.startState text = some q := by
  constructor
  · rintro ⟨path, hp, hr⟩
    rw [startPath_iff] at hp
    rw [startState_eq, ← hp, hr]
  · intro hr
    rw [startState_eq] at hr
    exact ⟨a.startChain, (a.startPath_iff _).mpr rfl, hr⟩

theorem acceptsEmpty_iff :
    a.acceptsEmpty = true ↔ ∃ path, JumpPath a.startJump 0 path ∧ ∃ p ∈ path, a.isAccepting p = true := by
  simp only [acceptsEmpty, List.any_eq_true, startPath_iff, exists_eq_left]

theorem run_append (q : Nat) (s t : List Char) : a.run q (s ++ t) = (a.run q s).bind fun r => a.run r t := by
  simp only [run, List.foldlM_append]
  rfl

theorem run_snoc (q : Nat) (s : List Char) (c : Char) :
    a.run q (s ++ [c]) = (a.run q s).bind fun r => a.transition r c := by
  rw [run_append]
  congr 1
  funext r
  simp [run]

theorem run_of_append {q r : Nat} {s t : List Char} (h : a.run q (s ++ t) = some r) :
    ∃ p, a.run q s = some p := by
  rw [run_append] at h
  obtain ⟨p, hp, _⟩ := Option.bind_eq_some_iff.mp h
  exact ⟨p, hp⟩

end

end Automaton

/-- The matches at the beginning of `text`, the empty ones only where `emptyAllowed`. -/
inductive Candidate (family : Family) (text : List Char) (emptyAllowed : Prop) : Match → Prop
  | token {i n q : Nat} {rule : Rule} : family[i]? = some rule → 1 ≤ n → n ≤ text.length →
      rule.automaton.Reads (text.take n) q → rule.automaton.isAccepting q = true →
      Candidate family text emptyAllowed ⟨i, n⟩
  | atEnd {i q p : Nat} {rule : Rule} : family[i]? = some rule → 1 ≤ text.length →
      rule.automaton.Reads text q → Automaton.Leads rule.automaton.endJump q p →
      rule.automaton.isAccepting p = true → Candidate family text emptyAllowed ⟨i, text.length⟩
  | empty {i p : Nat} {rule : Rule} {path : List Nat} : emptyAllowed → family[i]? = some rule →
      Automaton.JumpPath rule.automaton.startJump 0 path → p ∈ path →
      rule.automaton.isAccepting p = true → Candidate family text emptyAllowed ⟨i, 0⟩

section
variable {family : Family} {text : List Char} {p : Prop} {m : Match}

theorem Candidate.length_le (h : Candidate family text p m) : m.length ≤ text.length := by
  cases h with
  | token _ _ hn => exact hn
  | atEnd => exact Nat.le_refl _
  | empty => exact Nat.zero_le _

theorem Candidate.allowed (h : Candidate family text p m) (hm : m.length = 0) : p := by
  cases h with
  | token _ h1 => simp only at hm; omega
  | atEnd _ h1 => simp only at hm; omega
  | empty hp => exact hp

theorem Candidate.rule (h : Candidate family text p m) : ∃ rule, family[m.rule]? = some rule := by
  cases h with
  | token hi | atEnd hi => exact ⟨_, hi⟩
  | empty _ hi => exact ⟨_, hi⟩

end

namespace Race

/-! ## The rules that live through a text -/

def survivors (family : Family) (text : List Char) : List Runner :=
  family.zipIdx.filterMap fun (rule, i) =>
    (rule.automaton.run rule.automaton.startState text).map fun q => ⟨i, rule.automaton, q⟩

theorem mem_survivors {family : Family} {text : List Char} {i q : Nat} {a : Automaton} :
    ⟨i, a, q⟩ ∈ survivors family text ↔
      ∃ rule, family[i]? = some rule ∧ rule.automaton = a ∧ a.run a.startState text = some q := by
  simp only [survivors, List.mem_filterMap, Prod.exists, List.mem_zipIdx_iff_getElem?,
    Option.map_eq_some_iff, Runner.mk.injEq]
  constructor
  · rintro ⟨rule, j, hj, p, hp, rfl, rfl, rfl⟩
    exact ⟨rule, hj, rfl, hp⟩
  · rintro ⟨rule, hi, rfl, hq⟩
    exact ⟨rule, i, hi, q, hq, rfl, rfl, rfl⟩

theorem survivors_snoc (family : Family) (text : List Char) (c : Char) :
    (survivors family text).filterMap (·.step c) = survivors family (text ++ [c]) := by
  simp only [survivors, List.filterMap_filterMap]
  congr 1
  funext ⟨rule, i⟩
  rw [Automaton.run_snoc]
  cases rule.automaton.run rule.automaton.startState text with
  | none => rfl
  | some q => simp [Runner.step]

theorem survivors_append {family : Family} {text : List Char} (h : survivors family text = [])
    (more : List Char) : survivors family (text ++ more) = [] := by
  refine List.eq_nil_iff_forall_not_mem.mpr fun ⟨i, a, q⟩ hm => ?_
  obtain ⟨rule, hi, ha, hr⟩ := mem_survivors.mp hm
  obtain ⟨p, hp⟩ := a.run_of_append hr
  have : ⟨i, a, p⟩ ∈ survivors family text := mem_survivors.mpr ⟨rule, hi, ha, hp⟩
  rw [h] at this
  cases this

/-! ## The matches offered on the way -/

/-- A match of at most `text`, found without looking for the end of the input. -/
inductive Offered (family : Family) (text : List Char) (emptyAllowed : Bool) : Match → Prop
  | token {i n q : Nat} {rule : Rule} : family[i]? = some rule → 1 ≤ n → n ≤ text.length →
      rule.automaton.run rule.automaton.startState (text.take n) = some q →
      rule.automaton.isAccepting q = true → Offered family text emptyAllowed ⟨i, n⟩
  | empty {i : Nat} {rule : Rule} : emptyAllowed = true → family[i]? = some rule →
      rule.automaton.acceptsEmpty = true → Offered family text emptyAllowed ⟨i, 0⟩

section
variable {family : Family} {emptyAllowed : Bool}

theorem mem_offers {accept : Runner → Bool} {n : Nat} {live : List Runner} {m : Match} :
    m ∈ offers accept n live ↔ m.length = n ∧ ∃ r ∈ live, accept r = true ∧ r.rule = m.rule := by
  simp only [offers, List.mem_map, List.mem_filter]
  constructor
  · rintro ⟨r, ⟨hr, ha⟩, rfl⟩
    exact ⟨rfl, r, hr, ha, rfl⟩
  · rintro ⟨rfl, r, hr, ha, hm⟩
    exact ⟨r, ⟨hr, ha⟩, by rw [hm]⟩

theorem offered_snoc (text : List Char) (c : Char) (m : Match) :
    Offered family text emptyAllowed m ∨
        m ∈ offers Runner.accepts (text.length + 1) (survivors family (text ++ [c])) ↔
      Offered family (text ++ [c]) emptyAllowed m := by
  constructor
  · rintro (h | h)
    · cases h with
      | token hi h1 hn hr ha =>
        refine .token hi h1 (by simp; omega) ?_ ha
        rwa [List.take_append_of_le_length hn]
      | empty he hi ha => exact .empty he hi ha
    · obtain ⟨hm, ⟨i, a, q⟩, hr, ha, rfl⟩ := mem_offers.mp h
      obtain ⟨rule, hi, rfl, hq⟩ := mem_survivors.mp hr
      obtain ⟨j, n⟩ := m
      simp only at hm hi ⊢
      subst hm
      exact .token hi (by omega) (by simp) (by rwa [List.take_of_length_le (by simp)]) ha
  · intro h
    cases h with
    | @token i n q rule hi h1 hn hr ha =>
      rw [List.length_append, List.length_singleton] at hn
      rcases Nat.lt_or_ge text.length n with hlt | hle
      · have hn' : n = text.length + 1 := by omega
        subst hn'
        rw [List.take_of_length_le (by simp)] at hr
        exact Or.inr (mem_offers.mpr ⟨rfl, _, mem_survivors.mpr ⟨rule, hi, rfl, hr⟩, ha, rfl⟩)
      · rw [List.take_append_of_le_length hle] at hr
        exact Or.inl (.token hi h1 hle hr ha)
    | empty he hi ha => exact Or.inl (.empty he hi ha)

theorem offered_append {text : List Char} (h : survivors family text = []) (more : List Char) (m : Match) :
    Offered family text emptyAllowed m ↔ Offered family (text ++ more) emptyAllowed m := by
  induction more using List.reverseRecOn with
  | nil => simp
  | append_singleton more c ih =>
    rw [ih, ← List.append_assoc, ← offered_snoc, List.append_assoc, survivors_append h]
    simp [offers]

/-! ## Running over a text -/

/-- What a race has found out after `text`. -/
structure Tracks (family : Family) (text : List Char) (emptyAllowed : Bool) (race : Race) : Prop where
  live : race.live = survivors family text
  best : Match.IsBest (Offered family text emptyAllowed) race.best
  length : race.live ≠ [] → race.length = text.length

theorem tracks_start : Tracks family [] emptyAllowed (start family emptyAllowed) := by
  refine ⟨?_, ?_, fun _ => rfl⟩
  · simp only [start, survivors, Automaton.run, List.foldlM_nil, ← List.filterMap_eq_map]
    rfl
  · simp only [start]
    split
    · rename_i he
      have h0 : Match.IsBest (fun _ => False) none := fun _ => id
      refine (Match.isBest_congr (fun m => ?_) _).mp (Match.isBest_offerAll h0 _)
      simp only [false_or, List.mem_map, List.mem_filter, Prod.exists, List.mem_zipIdx_iff_getElem?]
      constructor
      · rintro ⟨rule, i, ⟨hi, ha⟩, rfl⟩
        exact .empty he hi ha
      · intro h
        cases h with
        | token _ h1 hn => simp at hn; omega
        | empty _ hi ha => exact ⟨_, _, ⟨hi, ha⟩, rfl⟩
    · rename_i he
      intro m hm
      cases hm with
      | token _ h1 hn => simp at hn; omega
      | empty he' => exact he he'

theorem tracks_step {text : List Char} {race : Race} (h : Tracks family text emptyAllowed race)
    (hl : race.live ≠ []) (c : Char) : Tracks family (text ++ [c]) emptyAllowed (race.step c) := by
  have hlive : race.live.filterMap (·.step c) = survivors family (text ++ [c]) := by
    rw [h.live, survivors_snoc]
  refine ⟨hlive, ?_, fun _ => by simp [step, h.length hl]⟩
  simp only [step, hlive, h.length hl]
  exact (Match.isBest_congr (offered_snoc text c) _).mp (Match.isBest_offerAll h.best _)

theorem tracks_run {text : List Char} {race : Race} (h : Tracks family text emptyAllowed race)
    (more : List Char) : Tracks family (text ++ more) emptyAllowed (race.run more) := by
  induction more generalizing text race with
  | nil => simpa [run] using h
  | cons c more ih =>
    simp only [run]
    split
    · rename_i hl
      rw [List.isEmpty_iff] at hl
      have hs : survivors family text = [] := h.live ▸ hl
      refine ⟨?_, (Match.isBest_congr (offered_append hs _) _).mp h.best, fun hn => absurd hl hn⟩
      rw [hl, survivors_append hs]
    · rename_i hl
      rw [List.isEmpty_iff] at hl
      have := ih (tracks_step h hl c)
      rwa [List.append_assoc] at this

theorem tracks (text : List Char) : Tracks family text emptyAllowed ((start family emptyAllowed).run text) :=
  tracks_run tracks_start text

/-! ## The winner -/

theorem finish_of_live_nil {race : Race} (h : race.live = []) : race.finish.best = race.best := by
  simp only [finish]
  split
  · rfl
  · simp [h, offers, Match.offerAll]

theorem candidate_iff (text : List Char) (m : Match) :
    Offered family text emptyAllowed m ∨
        text ≠ [] ∧ m ∈ offers Runner.acceptsAtEnd text.length (survivors family text) ↔
      Candidate family text (emptyAllowed = true) m := by
  constructor
  · rintro (h | ⟨hne, h⟩)
    · cases h with
      | token hi h1 hn hr ha => exact .token hi h1 hn ((Automaton.reads_iff ..).mpr hr) ha
      | empty he hi ha =>
        obtain ⟨path, hp, p, hm, hacc⟩ := (Automaton.acceptsEmpty_iff _).mp ha
        exact .empty he hi hp hm hacc
    · obtain ⟨hm, ⟨i, a, q⟩, hr, ha, rfl⟩ := mem_offers.mp h
      obtain ⟨rule, hi, rfl, hq⟩ := mem_survivors.mp hr
      obtain ⟨p, _, hl, hacc⟩ := (Automaton.acceptsAtEnd_iff _ _).mp ha
      obtain ⟨j, n⟩ := m
      simp only at hm hi ⊢
      subst hm
      exact .atEnd hi (List.length_pos_iff.mpr hne) ((Automaton.reads_iff ..).mpr hq) hl hacc
  · intro h
    cases h with
    | token hi h1 hn hr ha => exact Or.inl (.token hi h1 hn ((Automaton.reads_iff ..).mp hr) ha)
    | @atEnd i q p rule hi h1 hr hl ha =>
      rw [Automaton.reads_iff] at hr
      by_cases hpq : p = q
      · -- jumps that lead back find what the text has reached without them
        subst hpq
        exact Or.inl (.token hi h1 (Nat.le_refl _) (by rwa [List.take_length]) ha)
      · refine Or.inr ⟨List.length_pos_iff.mp h1, mem_offers.mpr ⟨rfl, ⟨i, rule.automaton, q⟩, ?_, ?_, rfl⟩⟩
        · exact mem_survivors.mpr ⟨rule, hi, rfl, hr⟩
        · exact (Automaton.acceptsAtEnd_iff _ _).mpr ⟨p, hpq, hl, ha⟩
    | empty he hi hp hm ha => exact Or.inl (.empty he hi ((Automaton.acceptsEmpty_iff _).mpr ⟨_, hp, _, hm, ha⟩))

end

/-- **The winner.** A race over all that is left finds the best of all matches. -/
theorem isBest_finish (family : Family) (emptyAllowed : Bool) (text : List Char) :
    Match.IsBest (Candidate family text (emptyAllowed = true))
      ((start family emptyAllowed).run text).finish.best := by
  have h : Tracks family text emptyAllowed _ := tracks text
  refine (Match.isBest_congr (candidate_iff text) _).mp ?_
  by_cases hl : ((start family emptyAllowed).run text).live = []
  · have hs : survivors family text = [] := h.live ▸ hl
    rw [finish_of_live_nil hl]
    exact (Match.isBest_congr (by simp [hs, offers]) _).mp h.best
  · simp only [finish, h.length hl]
    split
    · rename_i h0
      rw [List.length_eq_zero_iff] at h0
      exact (Match.isBest_congr (by simp [h0]) _).mp h.best
    · rename_i h0
      rw [List.length_eq_zero_iff] at h0
      rw [h.live]
      exact (Match.isBest_congr (by simp [h0]) _).mp (Match.isBest_offerAll h.best _)

end Race

end Munch
