import Mathlib.Data.Nat.Find
import Munch.Proofs.MaximalMunch

/-!
# How far a race reads

A family survives a text if one of its rules has a run over it, and lives through a text
for as long as it survives what has come. A race reads as far as its family lives.
-/

namespace Munch

/-- Some rule has a run over `text` from the state where its start jumps end. -/
def Survives (family : Family) (text : List Char) : Prop := ∃ rule ∈ family, ∃ q, rule.automaton.Reads text q

section
variable {family : Family} {s t text : List Char}

theorem survives_iff : Survives family text ↔ (Race.survivors family text).isEmpty = false := by
  rw [List.isEmpty_eq_false_iff]
  constructor
  · rintro ⟨rule, hm, q, hr⟩
    obtain ⟨i, hi⟩ := List.mem_iff_getElem?.mp hm
    exact List.ne_nil_of_mem (Race.mem_survivors.mpr ⟨rule, hi, rfl, (Automaton.reads_iff ..).mp hr⟩)
  · intro h
    obtain ⟨⟨i, a, q⟩, hm⟩ := List.exists_mem_of_ne_nil _ h
    obtain ⟨rule, hi, rfl, hr⟩ := Race.mem_survivors.mp hm
    exact ⟨rule, List.mem_of_getElem? hi, q, (Automaton.reads_iff ..).mpr hr⟩

instance : Decidable (Survives family text) := decidable_of_iff _ survives_iff.symm

theorem Survives.of_append (h : Survives family (s ++ t)) : Survives family s := by
  rw [survives_iff, List.isEmpty_eq_false_iff] at h ⊢
  exact fun hs => h (Race.survivors_append hs t)

theorem survives_nil (h : family ≠ []) : Survives family [] := by
  obtain ⟨rule, hm⟩ := List.exists_mem_of_ne_nil _ h
  exact ⟨rule, hm, _, (Automaton.reads_iff ..).mpr rfl⟩

theorem live_ne_nil (emptyAllowed : Bool) :
    ((Race.start family emptyAllowed).run text).live ≠ [] ↔ Survives family text := by
  have h : Race.Tracks family text emptyAllowed _ := Race.tracks text
  rw [h.live, survives_iff, List.isEmpty_eq_false_iff]

end

/-! ## Lifetimes -/

/-- The number of symbols that it takes until no rule is left, or of all symbols. -/
def lifetime (family : Family) (text : List Char) : Nat :=
  if h : Survives family text then text.length
  else Nat.find (p := fun n => ¬ Survives family (text.take n)) ⟨text.length, by rwa [List.take_length]⟩

section
variable {family : Family} {s text : List Char}

theorem lifetime_of_survives (h : Survives family text) : lifetime family text = text.length := dif_pos h

theorem lifetime_le (hp : s <+: text) (h : ¬ Survives family s) : lifetime family text ≤ s.length := by
  obtain ⟨more, rfl⟩ := hp
  rw [lifetime, dif_neg fun hs => h hs.of_append]
  exact Nat.find_min' _ (by rwa [List.take_left])

theorem lifetime_le_length (family : Family) (text : List Char) : lifetime family text ≤ text.length := by
  by_cases h : Survives family text
  · exact (lifetime_of_survives h).le
  · exact lifetime_le List.prefix_rfl h

theorem lifetime_of_snoc {c : Char} (hp : s ++ [c] <+: text) (hs : Survives family s)
    (h : ¬ Survives family (s ++ [c])) : lifetime family text = s.length + 1 := by
  refine Nat.le_antisymm (by simpa using lifetime_le hp h) ?_
  obtain ⟨more, rfl⟩ := hp
  rw [lifetime, dif_neg fun hs => h hs.of_append, Nat.succ_le_iff, Nat.lt_find_iff]
  intro n hn
  rw [not_not, List.append_assoc, List.take_append_of_le_length hn]
  exact Survives.of_append (t := s.drop n) (by rwa [List.take_append_drop])

theorem eq_nil_of_lifetime (hf : family ≠ []) (h : lifetime family text = 0) : text = [] := by
  by_cases hs : Survives family text
  · rw [lifetime_of_survives hs] at h
    exact List.length_eq_zero_iff.mp h
  · rw [lifetime, dif_neg hs, Nat.find_eq_zero] at h
    exact absurd (survives_nil hf) h

end

/-! ## Reading -/

theorem Race.draw_live (race : Race) (asked : Nat) (symbols : List Char) (replies : List Reply)
    (h : race.live ≠ []) :
    match (draw race asked symbols replies).stop with
    | .stuck =>
      ∃ text c, (draw race asked symbols replies).symbols = (text ++ [c]).reverse ++ symbols ∧
        (race.run text).live ≠ [] ∧ (race.run (text ++ [c])).live = []
    | _ => (draw race asked symbols replies).race.live ≠ [] := by
  fun_induction draw race asked symbols replies with
  | case1 race asked symbols hl => exact absurd (List.isEmpty_iff.mp hl) h
  | case3 race asked symbols reply rest hl => exact absurd (List.isEmpty_iff.mp hl) h
  | case2 | case5 | case6 => exact h
  | case4 race asked symbols rest hl c ih =>
    by_cases hc : (race.step c).live = []
    · have hdraw : draw (race.step c) (asked + 1) (c :: symbols) rest =
          ⟨race.step c, c :: symbols, ⟨rest, asked + 1⟩, .stuck⟩ := by
        cases rest <;> simp [draw, hc]
      rw [hdraw]
      refine ⟨[], c, rfl, h, ?_⟩
      rwa [List.nil_append, run, if_neg hl, run_of_live_nil hc]
    · have ih := ih hc
      split at ih
      · obtain ⟨text, d, h1, h2, h3⟩ := ih
        refine ⟨c :: text, d, by simp [h1], ?_, ?_⟩
        · rwa [run, if_neg hl]
        · rwa [List.cons_append, run, if_neg hl]
      · exact ih

namespace Window

theorem race_of_stopped {w : Window} {family : Family} (h : w.ended = true ∨ ¬ Survives family w.ahead)
    (emptyAllowed : Bool) :
    w.race family emptyAllowed = (.ok ((Race.start family emptyAllowed).run w.ahead).finish.best, w) := by
  have hstop : w.ended = true ∨ ((Race.start family emptyAllowed).run w.ahead).live.isEmpty = true := by
    rwa [← live_ne_nil emptyAllowed, not_not, ← List.isEmpty_iff] at h
  rw [race, if_pos ((Bool.or_eq_true ..).mpr hstop)]

theorem race_survives (w : Window) (family : Family) (emptyAllowed : Bool) :
    match w.race family emptyAllowed with
    | (.ok _, w') =>
      w' = w ∧ (w.ended = true ∨ ¬ Survives family w.ahead) ∨
        w.ended = false ∧ (w'.ended = true ∧ Survives family w'.ahead ∨
          w'.ended = false ∧ ∃ text c, w'.ahead = text ++ [c] ∧ w.ahead <+: text ∧ Survives family text ∧
            ¬ Survives family (text ++ [c]))
    | (.error _, _) => True := by
  by_cases hstop : w.ended = true ∨ ¬ Survives family w.ahead
  · rw [race_of_stopped hstop]
    exact Or.inl ⟨rfl, hstop⟩
  · simp only [not_or, Bool.not_eq_true, ← live_ne_nil emptyAllowed, not_not] at hstop
    have hgo : (w.ended || ((Race.start family emptyAllowed).run w.ahead).live.isEmpty) = false := by
      rw [hstop.1, List.isEmpty_eq_false_iff.mpr hstop.2, Bool.or_false]
    simp only [race, hgo, Bool.false_eq_true, ite_false]
    obtain ⟨text, h1, h2, -, -⟩ := Race.draw_says ((Race.start family emptyAllowed).run w.ahead)
      w.feed.asked [] w.feed.pending
    have h3 := Race.draw_live _ w.feed.asked [] w.feed.pending hstop.2
    rw [← Race.run_append] at h2
    simp only [← Race.run_append] at h3
    generalize ((Race.start family emptyAllowed).run w.ahead).draw w.feed.asked [] w.feed.pending = d at *
    obtain ⟨drawn, symbols, g, stop⟩ := d
    simp only [List.append_nil] at h1 h2 h3
    subst h1 h2
    cases stop with
    | stuck =>
      obtain ⟨before, c, hb, hlive, hstuck⟩ := h3
      rw [List.reverse_inj] at hb
      subst hb
      refine Or.inr ⟨hstop.1, Or.inr ⟨rfl, w.ahead ++ before, c, by simp, List.prefix_append .., ?_, ?_⟩⟩
      · exact (live_ne_nil emptyAllowed).mp hlive
      · rw [List.append_assoc, ← live_ne_nil emptyAllowed, not_not]
        exact hstuck
    | endOfInput =>
      refine Or.inr ⟨hstop.1, Or.inl ⟨rfl, ?_⟩⟩
      rw [List.reverse_reverse]
      exact (live_ne_nil emptyAllowed).mp h3
    | failed e => trivial

theorem race_reads {feed : Feed} {passed rest : List Char} {w w' : Window} {family : Family}
    {emptyAllowed : Bool} {best : Option Match} (hd : feed.Delivers (passed ++ rest)) (hw : w.After feed passed)
    (hr : w.race family emptyAllowed = (.ok best, w')) :
    w'.ahead.length = max w.ahead.length (lifetime family rest) ∧
      (w'.ended = true ↔ w.ended = true ∨ Survives family rest) := by
  have hs := race_survives w family emptyAllowed
  have hw' := after_race hw family emptyAllowed
  rw [hr] at hs hw'
  obtain ⟨hp, hend⟩ := Scan.ahead_of_delivers hd hw
  obtain ⟨hp', hend'⟩ := Scan.ahead_of_delivers hd hw'.1
  rcases hs with ⟨rfl, he | hs⟩ | ⟨he, ⟨he', hs⟩ | ⟨he', text, c, ha, hle, hs, hno⟩⟩
  · rw [hend he]
    exact ⟨(Nat.max_eq_left (lifetime_le_length ..)).symm, by simp [he]⟩
  · refine ⟨(Nat.max_eq_left (lifetime_le hp hs)).symm, (or_iff_left_of_imp fun h => ?_).symm⟩
    obtain ⟨more, rfl⟩ := hp
    exact absurd h.of_append hs
  · rw [hend' he'] at hs ⊢
    rw [lifetime_of_survives hs]
    exact ⟨(Nat.max_eq_right hp.length_le).symm, by simp [he', hs]⟩
  · rw [ha] at hp' ⊢
    rw [lifetime_of_snoc hp' hs hno, List.length_append, List.length_singleton]
    refine ⟨(Nat.max_eq_right (Nat.le_succ_of_le hle.length_le)).symm, ?_⟩
    obtain ⟨more, rfl⟩ := hp'
    simp only [he', he, Bool.false_eq_true, false_or, false_iff]
    exact fun h => hno h.of_append

end Window

end Munch
