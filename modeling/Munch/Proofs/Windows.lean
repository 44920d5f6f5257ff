import Munch.Proofs.Races
import Munch.Window

/-!
# What a window has read

A window is `After` the symbols that were passed if its feed has said just these, what is
ahead, and the end if the window has seen it.
-/

namespace Munch

/-! ## Replies in order -/

namespace Feed

/-- Asked once for each of the replies, the feed gives them, and is then another. -/
inductive Says : Feed → List Reply → Feed → Prop
  | nil (f : Feed) : Says f [] f
  | cons {f g h : Feed} {r : Reply} {rs : List Reply} : f.next = (r, g) → Says g rs h → Says f (r :: rs) h

/-- The symbols of `text` come first, and behind them the end of the input. -/
def Delivers (f : Feed) (text : List Char) : Prop := ∃ g, f.Says (text.map .symbol ++ [.endOfInput]) g

theorem Says.append {f g h : Feed} {rs ss : List Reply} (hf : f.Says rs g) (hg : g.Says ss h) :
    f.Says (rs ++ ss) h := by
  induction hf with
  | nil => exact hg
  | cons hn _ ih => exact .cons hn (ih hg)

theorem Says.split {f g : Feed} {rs ss : List Reply} (h : f.Says (rs ++ ss) g) :
    ∃ k, f.Says rs k ∧ k.Says ss g := by
  induction rs generalizing f with
  | nil => exact ⟨f, .nil f, h⟩
  | cons r rs ih =>
    cases h with
    | cons hn h =>
      obtain ⟨k, hrs, hss⟩ := ih h
      exact ⟨k, .cons hn hrs, hss⟩

theorem says_one {f g : Feed} {r : Reply} (h : f.next = (r, g)) : f.Says [r] g := .cons h (.nil g)

theorem Says.asked {f g : Feed} {rs : List Reply} (h : f.Says rs g) : g.asked = f.asked + rs.length := by
  induction h with
  | nil => rfl
  | @cons f g h r rs hn _ ih =>
    have hg : g.asked = f.asked + 1 := by
      obtain ⟨pending, asked⟩ := f
      cases pending <;> (simp only [next, Prod.mk.injEq] at hn; rw [← hn.2])
    rw [ih, hg, List.length_cons]
    omega

theorem Says.comparable {f g : Feed} {rs : List Reply} (h : f.Says rs g) :
    ∀ {ss : List Reply} {k : Feed}, f.Says ss k → rs <+: ss ∨ ss <+: rs := by
  induction h with
  | nil => exact fun _ => Or.inl List.nil_prefix
  | @cons f g _ r rs hn _ ih =>
    intro ss k hs
    cases hs with
    | nil => exact Or.inr List.nil_prefix
    | @cons _ g' _ r' ss hn' hs =>
      rw [hn, Prod.mk.injEq] at hn'
      obtain ⟨rfl, rfl⟩ := hn'
      simp only [List.prefix_cons_inj]
      exact ih hs

theorem Says.unique {f g : Feed} {rs ss : List Reply} (h : f.Says rs g) (h' : f.Says ss g) : rs = ss := by
  have hlen : rs.length = ss.length := by
    have h1 := h.asked
    have h2 := h'.asked
    omega
  rcases h.comparable h' with hp | hp
  · exact hp.eq_of_length hlen
  · exact (hp.eq_of_length hlen.symm).symm

theorem delivers_ofText (text : List Char) : (ofText text).Delivers text := by
  have h : ∀ asked, ∃ g, Says ⟨text.map .symbol, asked⟩ (text.map .symbol ++ [.endOfInput]) g := by
    induction text with
    | nil => exact fun asked => ⟨⟨[], asked + 1⟩, says_one rfl⟩
    | cons c text ih =>
      intro asked
      obtain ⟨g, hg⟩ := ih (asked + 1)
      exact ⟨g, .cons rfl hg⟩
  exact h 0

theorem eq_of_symbols {s t : List Char} {r r' : Reply} (hr : ∀ c, r ≠ .symbol c)
    (h : s.map .symbol ++ [r] <+: t.map .symbol ++ [r']) : s = t ∧ r = r' := by
  induction s generalizing t with
  | nil =>
    cases t with
    | nil => simpa using h
    | cons c t =>
      simp only [List.map_nil, List.nil_append, List.map_cons, List.cons_append, List.cons_prefix_cons] at h
      exact absurd h.1 (hr c)
  | cons c s ih =>
    cases t with
    | nil => simp at h
    | cons d t =>
      simp only [List.map_cons, List.cons_append, List.cons_prefix_cons, Reply.symbol.injEq] at h
      obtain ⟨rfl, rfl⟩ := ih h.2
      exact ⟨by rw [h.1], rfl⟩

theorem Delivers.of_says {f g : Feed} {s t : List Char} {r : Reply} (h : f.Delivers s)
    (hr : ∀ c, r ≠ .symbol c) (hs : f.Says (t.map .symbol ++ [r]) g) : t = s ∧ r = .endOfInput := by
  obtain ⟨k, hk⟩ := h
  rcases hs.comparable hk with hp | hp
  · exact eq_of_symbols hr hp
  · obtain ⟨h1, h2⟩ := eq_of_symbols (fun _ => Reply.noConfusion) hp
    exact ⟨h1.symm, h2.symm⟩

theorem Delivers.of_says_symbols {f g : Feed} {s t : List Char} (h : f.Delivers s)
    (hs : f.Says (t.map .symbol) g) : t <+: s := by
  obtain ⟨k, hk⟩ := h
  rcases hs.comparable hk with hp | hp
  · rw [List.prefix_concat_iff] at hp
    rcases hp with hp | hp
    · have : Reply.endOfInput ∈ t.map .symbol := by rw [hp]; simp
      simp at this
    · exact (List.prefix_map_iff_of_injective fun _ _ => Reply.symbol.inj).mp hp
  · have : Reply.endOfInput ∈ t.map .symbol := hp.mem (by simp)
    simp at this

end Feed

/-! ## Races that read on -/

namespace Race

def Stop.replies : Stop → List Reply
  | .stuck => []
  | .endOfInput => [.endOfInput]
  | .failed e => [.failed e]

theorem run_of_live_nil {race : Race} (h : race.live = []) (text : List Char) : race.run text = race := by
  cases text <;> simp [run, h]

theorem run_append (race : Race) (s t : List Char) : race.run (s ++ t) = (race.run s).run t := by
  induction s generalizing race with
  | nil => rfl
  | cons c s ih =>
    simp only [List.cons_append, run]
    split
    · rename_i hl
      rw [run_of_live_nil (List.isEmpty_iff.mp hl)]
    · exact ih _

theorem draw_says (race : Race) (asked : Nat) (symbols : List Char) (replies : List Reply) :
    ∃ text, (draw race asked symbols replies).symbols = text.reverse ++ symbols ∧
      (draw race asked symbols replies).race = race.run text ∧
      Feed.Says ⟨replies, asked⟩ (text.map .symbol ++ (draw race asked symbols replies).stop.replies)
        (draw race asked symbols replies).feed ∧
      ((draw race asked symbols replies).stop = .stuck →
        (draw race asked symbols replies).race.live = []) := by
  fun_induction draw race asked symbols replies with
  | case1 race asked symbols hl => exact ⟨[], rfl, rfl, .nil _, fun _ => List.isEmpty_iff.mp hl⟩
  | case2 race asked symbols hl => exact ⟨[], rfl, rfl, Feed.says_one rfl, Stop.noConfusion⟩
  | case3 race asked symbols reply rest hl => exact ⟨[], rfl, rfl, .nil _, fun _ => List.isEmpty_iff.mp hl⟩
  | case4 race asked symbols rest hl c ih =>
    obtain ⟨text, h1, h2, h3, h4⟩ := ih
    refine ⟨c :: text, by simp [h1], ?_, .cons rfl h3, h4⟩
    rw [h2, run, if_neg hl]
  | case5 race asked symbols rest hl => exact ⟨[], rfl, rfl, Feed.says_one rfl, Stop.noConfusion⟩
  | case6 race asked symbols rest hl e => exact ⟨[], rfl, rfl, Feed.says_one rfl, Stop.noConfusion⟩

end Race

/-! ## The operations of a window -/

namespace Window

def ending (w : Window) : List Reply := if w.ended then [.endOfInput] else []

/-- The feed has given the symbols `passed` and those ahead, and the end if the
window has seen it. -/
def After (feed : Feed) (passed : List Char) (w : Window) : Prop :=
  feed.Says ((passed ++ w.ahead).map .symbol ++ w.ending) w.feed

theorem race_spec (w : Window) (family : Family) (emptyAllowed : Bool) :
    match w.race family emptyAllowed with
    | (.ok best, w') =>
      (w' = w ∨ w.ended = false ∧ ∃ text, w'.ahead = w.ahead ++ text ∧
        w.feed.Says (text.map .symbol ++ w'.ending) w'.feed) ∧
      best = ((Race.start family emptyAllowed).run w'.ahead).finish.best ∧
        (w'.ended = false → ((Race.start family emptyAllowed).run w'.ahead).live = [])
    | (.error e, w') =>
      w.ended = false ∧ ∃ text, w'.ahead = w.ahead ++ text ∧
        w.feed.Says (text.map .symbol ++ [.failed e]) w'.feed := by
  simp only [race, Bool.or_eq_true]
  by_cases hstop : w.ended = true ∨ ((Race.start family emptyAllowed).run w.ahead).live.isEmpty = true
  · rw [if_pos hstop]
    refine ⟨Or.inl rfl, rfl, fun he => ?_⟩
    simpa [he] using hstop
  · rw [if_neg hstop]
    simp only [not_or, Bool.not_eq_true] at hstop
    obtain ⟨text, h1, h2, h3, h4⟩ := Race.draw_says ((Race.start family emptyAllowed).run w.ahead)
      w.feed.asked [] w.feed.pending
    rw [← Race.run_append] at h2
    rw [List.append_nil] at h1
    generalize ((Race.start family emptyAllowed).run w.ahead).draw w.feed.asked [] w.feed.pending = d at *
    obtain ⟨drawn, symbols, g, stop⟩ := d
    simp only at h1 h2 h3 h4
    subst h1 h2
    cases stop with
    | stuck =>
      have hl := h4 rfl
      rw [List.reverse_reverse]
      refine ⟨Or.inr ⟨hstop.1, text, rfl, ?_⟩, (Race.finish_of_live_nil hl).symm, fun _ => hl⟩
      simpa [ending, Race.Stop.replies] using h3
    | endOfInput =>
      rw [List.reverse_reverse]
      refine ⟨Or.inr ⟨hstop.1, text, rfl, ?_⟩, rfl, fun he => by simp at he⟩
      simpa [ending, Race.Stop.replies] using h3
    | failed e =>
      refine ⟨hstop.1, text, by rw [List.reverse_reverse], ?_⟩
      simpa [Race.Stop.replies] using h3

theorem candidate_of_race {w w' : Window} {family : Family} {emptyAllowed : Bool} {m : Match}
    (h : w.race family emptyAllowed = (.ok (some m), w')) :
    Candidate family w'.ahead (emptyAllowed = true) m := by
  have hr := race_spec w family emptyAllowed
  rw [h] at hr
  have hbest := Race.isBest_finish family emptyAllowed w'.ahead
  rw [← hr.2.1] at hbest
  exact hbest.1

theorem length_le_of_race {w w' : Window} {family : Family} {emptyAllowed : Bool} {m : Match}
    (h : w.race family emptyAllowed = (.ok (some m), w')) : m.length ≤ w'.ahead.length :=
  (candidate_of_race h).length_le

section
variable {feed : Feed} {passed : List Char} {w : Window} (hw : After feed passed w)
include hw

theorem says_on (he : w.ended = false) (text : List Char) {r : List Reply} {g : Feed}
    (h : w.feed.Says (text.map .symbol ++ r) g) :
    feed.Says ((passed ++ (w.ahead ++ text)).map .symbol ++ r) g := by
  have h0 := Feed.Says.append hw h
  simpa [ending, he] using h0

theorem after_race (family : Family) (emptyAllowed : Bool) :
    match w.race family emptyAllowed with
    | (.ok best, w') =>
      After feed passed w' ∧ best = ((Race.start family emptyAllowed).run w'.ahead).finish.best ∧
        (w'.ended = false → ((Race.start family emptyAllowed).run w'.ahead).live = [])
    | (.error e, w') => feed.Says ((passed ++ w'.ahead).map .symbol ++ [.failed e]) w'.feed := by
  have hr := race_spec w family emptyAllowed
  rcases hrace : w.race family emptyAllowed with ⟨e | best, w'⟩
  · rw [hrace] at hr
    obtain ⟨he, text, ha, hsays⟩ := hr
    simp only [ha]
    exact says_on hw he text hsays
  · rw [hrace] at hr
    obtain ⟨hread, hwin⟩ := hr
    refine ⟨?_, hwin⟩
    rcases hread with rfl | ⟨he, text, ha, hsays⟩
    · exact hw
    · unfold After
      rw [ha]
      exact says_on hw he text hsays

theorem After.drop (n : Nat) : After feed (passed ++ w.ahead.take n) { w with ahead := w.ahead.drop n } := by
  simpa [After, ending] using hw

theorem after_pop :
    match w.pop with
    | (.ok (some c), w') => After feed (passed ++ [c]) w'
    | (.ok none, w') => After feed passed w' ∧ w'.ahead = [] ∧ w'.ended = true
    | (.error e, w') => feed.Says ((passed ++ w'.ahead).map .symbol ++ [.failed e]) w'.feed := by
  simp only [pop]
  cases ha : w.ahead with
  | cons c cs => simpa [After, ending, ha] using hw
  | nil =>
    cases he : w.ended with
    | true => exact ⟨hw, ha, he⟩
    | false =>
      rcases hn : w.feed.next with ⟨r, g⟩
      cases r with
      | symbol c =>
        have := says_on (r := []) hw he [c] (Feed.says_one hn)
        simpa [After, ending, ha] using this
      | endOfInput =>
        have := says_on hw he [] (Feed.says_one hn)
        exact ⟨by simpa [After, ending, ha] using this, rfl, rfl⟩
      | failed e =>
        have := says_on hw he [] (Feed.says_one hn)
        simpa [ha] using this

end

end Window

end Munch
