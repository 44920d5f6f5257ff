import Munch.Proofs.Lifetimes
import Munch.Proofs.Reconstruction

/-!
# Reading on demand

A scan asks its feed for a symbol only when a rule needs one that is not ahead, or when there
are no rules and it skips one.
-/

namespace Munch

/-- How far the family lives from any of these offsets on. -/
def reach (family : Family) (text : List Char) (offsets : List Nat) : Nat :=
  (offsets.map fun o => o + lifetime family (text.drop o)).foldr max 0

theorem reach_snoc (family : Family) (text : List Char) (offsets : List Nat) (o : Nat) :
    reach family text (offsets ++ [o]) = max (reach family text offsets) (o + lifetime family (text.drop o)) := by
  induction offsets with
  | nil => simp [reach]
  | cons p offsets ih =>
    unfold reach at ih ⊢
    rw [List.cons_append, List.map_cons, List.foldr_cons, ih, List.map_cons, List.foldr_cons, Nat.max_assoc]

namespace Scan

def places (s : Scan) : List Scan :=
  match _ : s.settle with
  | (.skip _, t) => s :: t.places
  | _ => [s]
termination_by s.window.size
decreasing_by exact size_settle ‹_›

def placesWithin (s : Scan) : Nat → List Scan
  | 0 => []
  | n + 1 => s.placesWithin n ++ if (s.after n).done then [] else (s.after n).places

section
variable {s t : Scan}

theorem places_of_skip {c : Char} (h : s.Settles (.skip c) t) : s.places = s :: t.places := by
  rw [places]
  split
  · rename_i heq
    rw [settle_of_settles h] at heq
    cases heq
    rfl
  · rename_i hne
    exact absurd (settle_of_settles h) (hne c t)

theorem places_of_settles {r : Settled} (h : s.Settles r t) (hr : ∀ c, r ≠ .skip c) : s.places = [s] := by
  rw [places]
  split
  · rename_i heq
    rw [settle_of_settles h] at heq
    cases heq
    exact absurd rfl (hr _)
  · rfl

end

/-! ## Some rules -/

/-- The rules have raced at the offsets `raced`, and the scan stands between `passed` and `rest`. -/
structure Demands (feed : Feed) (text : List Char) (raced : List Nat) (passed rest : List Char) (s : Scan) :
    Prop where
  lenient : s.options.strict = false
  rules : s.family ≠ []
  whole : passed ++ rest = text
  window : s.window.After feed passed
  offset : s.position.offset = passed.length
  read : passed.length + s.window.ahead.length = reach s.family text raced
  ended : s.window.ended = true ↔ ∃ o ∈ raced, Survives s.family (text.drop o)

section
variable {feed : Feed} {text passed rest : List Char} {raced : List Nat} {s t : Scan}

theorem pop_of_ended {w : Window} (h : w.ahead = [] → w.ended = true) :
    w.ahead = [] ∧ w.pop = (.ok none, w) ∨
      ∃ c cs, w.ahead = c :: cs ∧ w.pop = (.ok (some c), { w with ahead := cs }) := by
  unfold Window.pop
  split
  · rename_i c cs ha
    exact Or.inr ⟨c, cs, ha, rfl⟩
  · rename_i ha
    exact Or.inl ⟨ha, if_pos (h ha)⟩

theorem Demands.race (hd : feed.Delivers text) (hs : s.Demands feed text raced passed rest) :
    ∃ best w, s.race = (.ok best, w) ∧ (∀ m, best = some m → m.length ≤ w.ahead.length) ∧
      (w.ahead = [] → w.ended = true) ∧ w.ahead <+: rest ∧
      Demands feed text (raced ++ [s.position.offset]) passed rest { s with window := w } := by
  have hd' : feed.Delivers (passed ++ rest) := hs.whole ▸ hd
  have hdrop : text.drop passed.length = rest := by rw [← hs.whole, List.drop_left]
  obtain ⟨best, w, hrace, hw, hp, hbest⟩ := race_of_delivers hd' hs.window
  obtain ⟨hlen, hend⟩ := Window.race_reads hd' hs.window hrace
  have hended : w.ended = true ↔ ∃ o ∈ raced ++ [s.position.offset], Survives s.family (text.drop o) := by
    simp only [List.mem_append, or_and_right, exists_or, List.mem_singleton, exists_eq_left, hend, hs.ended,
      hs.offset, hdrop]
  refine ⟨best, w, hrace, fun m hm => ?_, fun ha => ?_, hp, hs.lenient, hs.rules, hs.whole, hw, hs.offset, ?_, hended⟩
  · subst hm
    exact Window.length_le_of_race hrace
  · have hrest : rest = [] := by
      refine eq_nil_of_lifetime hs.rules ?_
      rw [ha, List.length_nil] at hlen
      omega
    rw [hend, hrest]
    exact Or.inr (survives_nil hs.rules)
  · rw [hs.offset, reach_snoc, ← hs.read, hdrop, hlen, Nat.add_max_add_left]

theorem Demands.pass (hs : s.Demands feed text raced passed rest) {n : Nat} (hle : n ≤ s.window.ahead.length)
    (hp : s.window.ahead <+: rest) (position : Position) (ho : position.offset = passed.length + n)
    (emptyAt : Option Nat) (stats : Stats) :
    Demands feed text raced (passed ++ s.window.ahead.take n) (rest.drop n)
      { s with window := { s.window with ahead := s.window.ahead.drop n }, position, emptyAt, stats } := by
  have htake : rest.take n = s.window.ahead.take n := by
    obtain ⟨more, rfl⟩ := hp
    exact List.take_append_of_le_length hle
  have hlen : (passed ++ s.window.ahead.take n).length = passed.length + n := by
    rw [List.length_append, List.length_take_of_le hle]
  refine ⟨hs.lenient, hs.rules, ?_, hs.window.drop n, ho.trans hlen.symm, ?_, hs.ended⟩
  · rw [List.append_assoc, ← htake, List.take_append_drop]
    exact hs.whole
  · rw [hlen, ← hs.read, List.length_drop]
    omega

theorem Demands.settles (hd : feed.Delivers text) (hs : s.Demands feed text raced passed rest) {r : Settled}
    (h : s.Settles r t) :
    ∃ passed rest, t.Demands feed text (raced ++ [s.position.offset]) passed rest := by
  obtain ⟨best, w, hrace, hle, hahead, hp, hs'⟩ := hs.race hd
  cases h with
  | @token m _ hr =>
    cases hrace.symm.trans hr
    have hle := hle m rfl
    refine ⟨_, _, hs'.pass hle hp _ ?_ (if m.length = 0 then some s.position.offset else s.emptyAt)
      { s.stats with frames := s.stats.frames + 1, symbols := s.stats.symbols + m.length }⟩
    rw [Position.offset_advanceAll, List.length_take_of_le hle, hs.offset]
  | sentinel hr hpop =>
    cases hrace.symm.trans hr
    rcases pop_of_ended hahead with ⟨-, hw⟩ | ⟨c, cs, -, hw⟩
    · cases hw.symm.trans hpop
      exact ⟨_, _, hs'⟩
    · cases hw.symm.trans hpop
  | @skip c _ _ hr hpop =>
    cases hrace.symm.trans hr
    rcases pop_of_ended hahead with ⟨-, hw⟩ | ⟨c, cs, ha, hw⟩
    · cases hw.symm.trans hpop
    · cases hw.symm.trans hpop
      have hpass := hs'.pass (n := 1) (by simp [ha]) hp (s.position.advance s.options.terminator c)
        (by simp [hs.offset]) s.emptyAt { s.stats with skipped := s.stats.skipped + 1 }
      simp only [ha, List.drop_one, List.tail_cons] at hpass
      exact ⟨_, _, hpass⟩
  | unrecognized _ _ hstrict =>
    rw [hs.lenient] at hstrict
    cases hstrict
  | raceFailed hr => cases hrace.symm.trans hr
  | popFailed hr hpop =>
    cases hrace.symm.trans hr
    rcases pop_of_ended hahead with ⟨-, hw⟩ | ⟨c, cs, -, hw⟩ <;> cases hw.symm.trans hpop

theorem Demands.of_done (hs : s.Demands feed text raced passed rest) (done : Bool) :
    Demands feed text raced passed rest { s with done } :=
  ⟨hs.lenient, hs.rules, hs.whole, hs.window, hs.offset, hs.read, hs.ended⟩

theorem Demands.advances (hd : feed.Delivers text) {r : Except ScanError Frame} (h : s.Advances r t)
    (hs : s.Demands feed text raced passed rest) :
    ∃ passed rest, t.Demands feed text (raced ++ s.places.map (·.position.offset)) passed rest := by
  induction h generalizing raced passed rest with
  | frame h =>
    obtain ⟨passed, rest, ht⟩ := hs.settles hd h
    rw [places_of_settles h (fun _ => Settled.noConfusion)]
    exact ⟨passed, rest, ht.of_done _⟩
  | failed h =>
    obtain ⟨passed, rest, ht⟩ := hs.settles hd h
    rw [places_of_settles h (fun _ => Settled.noConfusion)]
    exact ⟨passed, rest, ht.of_done _⟩
  | skip h _ ih =>
    obtain ⟨passed, rest, ht⟩ := hs.settles hd h
    have ht' := ih ht
    rwa [List.append_assoc, List.singleton_append, ← List.map_cons (f := fun p : Scan => p.position.offset),
      ← places_of_skip h] at ht'

theorem Demands.after (hd : feed.Delivers text) (hs : s.Demands feed text raced passed rest) (n : Nat) :
    ∃ passed rest,
      (s.after n).Demands feed text (raced ++ (s.placesWithin n).map (·.position.offset)) passed rest := by
  induction n with
  | zero => exact ⟨passed, rest, by simpa [placesWithin, Scan.after] using hs⟩
  | succ n ih =>
    obtain ⟨passed, rest, ih⟩ := ih
    rw [after_snoc, placesWithin]
    cases hdone : (s.after n).done with
    | true =>
      rw [next_of_done hdone]
      exact ⟨passed, rest, by simpa using ih⟩
    | false =>
      obtain ⟨r, log, t, hn, hadv⟩ := next_of_live hdone
      rw [hn]
      simpa using Demands.advances hd hadv ih

theorem Demands.replies (hd : feed.Delivers text) (hs : s.Demands feed text raced passed rest) :
    reach s.family text raced ≤ text.length ∧
      feed.Says ((text.take (reach s.family text raced)).map .symbol ++
          if ∃ o ∈ raced, Survives s.family (text.drop o) then [.endOfInput] else [])
        s.window.feed := by
  obtain ⟨more, hmore⟩ := (read_of_delivers hd hs.window).1
  have hlen : (passed ++ s.window.ahead).length = reach s.family text raced := by
    rw [List.length_append, hs.read]
  have htake : text.take (reach s.family text raced) = passed ++ s.window.ahead := by
    rw [← hlen, ← hmore, List.take_left]
  constructor
  · rw [← hlen]
    exact (List.prefix_append ..).length_le.trans_eq (congrArg List.length hmore)
  · have hw := hs.window
    unfold Window.After Window.ending at hw
    rw [htake]
    simpa only [hs.ended] using hw

theorem demands_ofFeed {family : Family} {options : Options} (hf : family ≠ []) (hl : options.strict = false) :
    (ofFeed family options feed).Demands feed text [] [] text where
  lenient := hl
  rules := hf
  whole := rfl
  window := .nil feed
  offset := rfl
  read := rfl
  ended := by simp [ofFeed]

end

/-! ## No rules -/

structure Bare (feed : Feed) (s : Scan) : Prop where
  rules : s.family = []
  ahead : s.window.ahead = []
  going : s.window.ended = false
  asked : s.window.feed.asked = feed.asked + s.stats.skipped

section
variable {feed : Feed} {s t : Scan}

theorem race_bare (hs : s.Bare feed) : s.race = (.ok none, s.window) := by
  unfold race Window.race
  simp [hs.rules, hs.ahead, Race.run, Race.start, Race.finish, Match.offerAll]

theorem pop_bare (hs : s.Bare feed) :
    s.window.pop.2.feed.asked = feed.asked + s.stats.skipped + 1 ∧
      ∀ c, s.window.pop.1 = .ok (some c) → s.window.pop.2.ahead = [] ∧ s.window.pop.2.ended = false := by
  rcases hn : s.window.feed.next with ⟨reply, g⟩
  have hasked := (Feed.says_one hn).asked
  rw [hs.asked, List.length_singleton] at hasked
  unfold Window.pop
  rw [hs.ahead, hs.going, hn]
  cases reply <;> simp [hasked]

theorem Bare.settles (hs : s.Bare feed) {r : Settled} (h : s.Settles r t) :
    match r with
    | .skip _ => t.Bare feed
    | .frame f => f.isSentinel = true ∧ t.window.feed.asked = feed.asked + t.stats.skipped + 1
    | .failed _ => t.window.feed.asked = feed.asked + t.stats.skipped + 1 := by
  obtain ⟨hasked, hkept⟩ := pop_bare hs
  have hrace := race_bare hs
  cases h with
  | token hr | raceFailed hr => cases hrace.symm.trans hr
  | sentinel hr hpop =>
    cases hrace.symm.trans hr
    rw [hpop] at hasked
    exact ⟨rfl, hasked⟩
  | unrecognized hr hpop | popFailed hr hpop =>
    cases hrace.symm.trans hr
    rw [hpop] at hasked
    exact hasked
  | @skip c _ _ hr hpop =>
    cases hrace.symm.trans hr
    rw [hpop] at hasked hkept
    obtain ⟨ha, he⟩ := hkept c rfl
    refine ⟨hs.rules, ha, he, ?_⟩
    rwa [Nat.add_assoc] at hasked

theorem Bare.advances {r : Except ScanError Frame} (h : s.Advances r t) (hs : s.Bare feed) :
    (∀ p ∈ s.places, p.window.feed.asked = feed.asked + p.stats.skipped) ∧ t.done = true ∧
      t.window.feed.asked = feed.asked + t.stats.skipped + 1 := by
  induction h with
  | frame h =>
    obtain ⟨hend, hasked⟩ := hs.settles h
    rw [places_of_settles h (fun _ => Settled.noConfusion)]
    exact ⟨by simpa using hs.asked, hend, hasked⟩
  | failed h =>
    rw [places_of_settles h (fun _ => Settled.noConfusion)]
    exact ⟨by simpa using hs.asked, rfl, hs.settles h⟩
  | skip h _ ih =>
    obtain ⟨hp, hu⟩ := ih (hs.settles h)
    rw [places_of_skip h, List.forall_mem_cons]
    exact ⟨⟨hs.asked, hp⟩, hu⟩

theorem Bare.after (hs : s.Bare feed) (hdone : s.done = false) (n : Nat) :
    (∀ p ∈ s.placesWithin n, p.window.feed.asked = feed.asked + p.stats.skipped) ∧
      (s.after n).window.feed.asked =
        feed.asked + (s.after n).stats.skipped + if (s.after n).done then 1 else 0 := by
  -- the first call brings the scan to its end
  obtain ⟨r, log, t, hn, hadv⟩ := next_of_live hdone
  obtain ⟨hp, hdone', hasked⟩ := Bare.advances hadv hs
  have hafter : ∀ n, s.after (n + 1) = t := by
    intro n
    rw [Scan.after, hn]
    exact after_of_done hdone' n
  induction n with
  | zero => simp [placesWithin, Scan.after, hs.asked, hdone]
  | succ n ih =>
    rw [hafter, hdone', placesWithin]
    refine ⟨fun p hm => ?_, hasked⟩
    rcases List.mem_append.mp hm with hm | hm
    · exact ih.1 p hm
    · cases n with
      | zero => exact hp p (by simpa [Scan.after, hdone] using hm)
      | succ n => simp [hafter, hdone'] at hm

end

/-! ## Any feed -/

/-- Only the last of these replies may be something else than a symbol. -/
def SymbolsFirst (replies : List Reply) : Prop := ∀ r ∈ replies.dropLast, ∃ c, r = .symbol c

theorem symbolsFirst_append (text : List Char) {rs : List Reply} (h : rs.length ≤ 1) :
    SymbolsFirst (text.map .symbol ++ rs) := by
  intro r hr
  have hm : r ∈ text.map Reply.symbol := by
    match rs, h with
    | [], _ =>
      rw [List.append_nil] at hr
      exact List.dropLast_subset _ hr
    | [r'], _ => rwa [List.dropLast_concat] at hr
  obtain ⟨c, -, rfl⟩ := List.mem_map.mp hm
  exact ⟨c, rfl⟩

section
variable {feed : Feed} {passed : List Char} {s t : Scan}

theorem symbolsFirst_of_after {w : Window} (hw : w.After feed passed) :
    ∃ replies, feed.Says replies w.feed ∧ SymbolsFirst replies := by
  refine ⟨_, hw, symbolsFirst_append _ ?_⟩
  unfold Window.ending
  split <;> simp

theorem says_settles (hw : s.window.After feed passed) {r : Settled} (h : s.Settles r t) :
    match r with
    | .failed _ => ∃ replies, feed.Says replies t.window.feed ∧ SymbolsFirst replies
    | _ => ∃ passed, t.window.After feed passed := by
  cases h with
  | token hr => exact ⟨_, (after_of_race hw hr).drop _⟩
  | sentinel hr hpop =>
    have hw' := Window.after_pop (after_of_race hw hr)
    rw [hpop] at hw'
    exact ⟨_, hw'.1⟩
  | skip hr hpop =>
    have hw' := Window.after_pop (after_of_race hw hr)
    rw [hpop] at hw'
    exact ⟨_, hw'⟩
  | unrecognized hr hpop =>
    have hw' := Window.after_pop (after_of_race hw hr)
    rw [hpop] at hw'
    exact symbolsFirst_of_after hw'
  | raceFailed hr =>
    have hreplies := Window.after_race hw s.family (s.emptyAt != some s.position.offset)
    rw [← race, hr] at hreplies
    exact ⟨_, hreplies, symbolsFirst_append _ (by simp)⟩
  | popFailed hr hpop =>
    have hreplies := Window.after_pop (after_of_race hw hr)
    rw [hpop] at hreplies
    exact ⟨_, hreplies, symbolsFirst_append _ (by simp)⟩

theorem says_advances {r : Except ScanError Frame} (h : s.Advances r t) (hw : s.window.After feed passed) :
    (∃ replies, feed.Says replies t.window.feed ∧ SymbolsFirst replies) ∧
      (t.done = false → ∃ passed, t.window.After feed passed) := by
  induction h generalizing passed with
  | frame h =>
    obtain ⟨passed', ht⟩ := says_settles hw h
    exact ⟨symbolsFirst_of_after ht, fun _ => ⟨passed', ht⟩⟩
  | failed h => exact ⟨says_settles hw h, fun hdone => by cases hdone⟩
  | skip h _ ih =>
    obtain ⟨passed', ht⟩ := says_settles hw h
    exact ih ht

theorem says_after (hw : s.window.After feed passed) (n : Nat) :
    (∃ replies, feed.Says replies (s.after n).window.feed ∧ SymbolsFirst replies) ∧
      ((s.after n).done = false → ∃ passed, (s.after n).window.After feed passed) := by
  induction n with
  | zero => exact ⟨symbolsFirst_of_after hw, fun _ => ⟨passed, hw⟩⟩
  | succ n ih =>
    rw [after_snoc]
    cases hdone : (s.after n).done with
    | true =>
      rw [next_of_done hdone]
      exact ih
    | false =>
      obtain ⟨passed', hw'⟩ := ih.2 hdone
      obtain ⟨r, log, t, hn, hadv⟩ := next_of_live hdone
      rw [hn]
      exact says_advances hadv hw'

end

end Scan

/-- **Reading on demand.** With some rules, a lenient scan of a text has read as far as they live
from any place on, and the end if they survive it. With none, it has asked once for each symbol
skipped. Of any feed, what is not a symbol is asked for last. -/
theorem asked_on_demand (family : Family) (options : Options) (feed : Feed) :
    let s := Scan.ofFeed family options feed
    (∀ text, feed.Delivers text → options.strict = false → family ≠ [] → ∀ n,
      let offsets := (s.placesWithin n).map (·.position.offset)
      let ending := if ∃ o ∈ offsets, Survives family (text.drop o) then [Reply.endOfInput] else []
      reach family text offsets ≤ text.length ∧
        feed.Says ((text.take (reach family text offsets)).map .symbol ++ ending) (s.after n).window.feed ∧
        (s.after n).window.feed.asked = feed.asked + reach family text offsets + ending.length) ∧
    (family = [] → ∀ n,
      (∀ p ∈ s.placesWithin n, p.window.feed.asked = feed.asked + p.stats.skipped) ∧
        (s.after n).window.feed.asked =
          feed.asked + (s.after n).stats.skipped + if (s.after n).done then 1 else 0) ∧
    ∀ n, ∃ replies, feed.Says replies (s.after n).window.feed ∧
      ∀ r ∈ replies.dropLast, ∃ c, r = .symbol c := by
  intro s
  refine ⟨fun text hd hl hf n => ?_, fun hf n => ?_, fun n => ?_⟩
  · obtain ⟨passed, rest, hs⟩ := (Scan.demands_ofFeed hf hl).after hd n
    have hread := hs.replies hd
    rw [Scan.after_family, List.nil_append] at hread
    refine ⟨hread.1, hread.2, ?_⟩
    rw [hread.2.asked, List.length_append, List.length_map, List.length_take_of_le hread.1, Nat.add_assoc]
    rfl
  · have hs : s.Bare feed := ⟨hf, rfl, rfl, rfl⟩
    exact hs.after rfl n
  · have hw : s.window.After feed [] := .nil feed
    exact (Scan.says_after hw n).1

theorem asked_on_demand_marking :
    (Feed.ofText ['a', '?']).Delivers ['a', '?'] ∧
      ((Scan.ofFeed marking Options.standard (Feed.ofText ['a', '?'])).results 1).1 = [.ok (.token 1 ['a'] 0 0)] ∧
      reach marking ['a', '?'] [0] = 2 ∧
      ((Scan.ofFeed marking Options.standard (Feed.ofText ['a', '?'])).after 1).window.feed.asked = 2 ∧
      ((Scan.ofFeed [] Options.standard (Feed.ofText ['a', '?'])).after 1).window.feed.asked = 3 := by
  have hd := Feed.delivers_ofText ['a', '?']
  obtain ⟨hsome, -, -⟩ := asked_on_demand marking Options.standard (Feed.ofText ['a', '?'])
  obtain ⟨-, hnone, -⟩ := asked_on_demand [] Options.standard (Feed.ofText ['a', '?'])
  have hplaces : ((Scan.ofFeed marking Options.standard (Feed.ofText ['a', '?'])).placesWithin 1).map
      (·.position.offset) = [0] := by
    decide +kernel
  have hasked : ((Scan.ofFeed marking Options.standard (Feed.ofText ['a', '?'])).after 1).window.feed.asked = 2 := by
    decide +kernel
  have hdies : ¬ ∃ o ∈ [0], Survives marking (['a', '?'].drop o) := by decide +kernel
  obtain ⟨-, -, hread⟩ := hsome _ hd rfl (by simp [marking]) 1
  rw [hplaces, hasked, if_neg hdies, List.length_nil] at hread
  refine ⟨hd, by decide +kernel, ?_, hasked, ?_⟩
  · have hfresh : (Feed.ofText ['a', '?']).asked = 0 := rfl
    omega
  · rw [(hnone rfl 1).2]
    decide +kernel

end Munch
