import Munch.Proofs.Demand
import Munch.Proofs.Progress
import Munch.Proofs.Strictness

/-!
# Where frames begin

From one frame to the next the text before it grows, but for an empty frame. That leaves a
mark where no rule takes anything, so a symbol has to be skipped first.
-/

namespace Munch

def Frame.Precedes (f g : Frame) : Prop := f.line < g.line ∨ f.line = g.line ∧ f.column < g.column

theorem Frame.StandsBehind.precedes {f g : Frame} {terminator : Char} {before more : List Char}
    (hf : f.StandsBehind terminator before) (hg : g.StandsBehind terminator (before ++ more))
    (hm : more ≠ []) : f.Precedes g := by
  have h := Position.precedes_advanceAll terminator (Position.start.advanceAll terminator before) hm
  rw [← Position.advanceAll_append, Position.Precedes, ← hf.1, ← hf.2, ← hg.1, ← hg.2] at h
  exact h

namespace Scan

/-- The call behind `n` others gives the frame `f`, which begins behind `before`. -/
structure Begins (feed : Feed) (s : Scan) (n : Nat) (f : Frame) (before : List Char) : Prop where
  frame : (s.after n).next.1 = some (.ok f)
  stands : f.StandsBehind s.options.terminator before
  behind : (s.after (n + 1)).position = Position.start.advanceAll s.options.terminator (before ++ f.text)
  read : ∃ g, feed.Says ((before ++ f.text).map .symbol) g

section
variable {feed : Feed} {s t : Scan} {n : Nat} {f g : Frame} {u v : List Char}

theorem Begins.unique (h : s.Begins feed n f u) (h' : s.Begins feed n g v) : f = g ∧ u = v := by
  obtain rfl : f = g := Except.ok.inj (Option.some.inj (h.frame.symm.trans h'.frame))
  refine ⟨rfl, ?_⟩
  have hlen : (u ++ f.text).length = (v ++ f.text).length := by
    have hp := congrArg Position.offset (h.behind.symm.trans h'.behind)
    rwa [Position.offset_advanceAll, Position.offset_advanceAll, Nat.add_left_cancel_iff] at hp
  obtain ⟨k, hu⟩ := h.read
  obtain ⟨k', hv⟩ := h'.read
  have heq : (u ++ f.text).map Reply.symbol = (v ++ f.text).map Reply.symbol := by
    rcases hu.comparable hv with hp | hp
    · exact hp.eq_of_length (by rw [List.length_map, List.length_map, hlen])
    · exact (hp.eq_of_length (by rw [List.length_map, List.length_map, hlen])).symm
  exact List.append_cancel_right (List.map_injective_iff.mpr (fun _ _ => Reply.symbol.inj) heq)

/-! ## The mark of an empty frame -/

/-- The last frame was empty and began where the scan stands. No rule takes anything here, and
what comes next has been read. -/
structure Marked (s : Scan) : Prop where
  mark : s.emptyAt = some s.position.offset
  race : s.race = (.ok none, s.window)
  read : s.window.ahead = [] → s.window.ended = true

theorem race_of_empty {m : Match} {w : Window} (hr : s.race = (.ok (some m), w)) (hm : m.length = 0) :
    w.race s.family false = (.ok none, w) ∧ (w.ahead = [] → w.ended = true) := by
  have hspec := s.window.race_spec s.family (s.emptyAt != some s.position.offset)
  rw [← Scan.race, hr] at hspec
  obtain ⟨-, hbest, hlive⟩ := hspec
  have hwins := Race.isBest_finish s.family (s.emptyAt != some s.position.offset) w.ahead
  rw [← hbest] at hwins
  have hstop : w.ended = true ∨ ¬ Survives s.family w.ahead := by
    cases he : w.ended with
    | true => exact Or.inl rfl
    | false => exact Or.inr fun hs => (live_ne_nil _).mpr hs (hlive he)
  refine ⟨?_, fun ha => hstop.resolve_right fun hs => hs ?_⟩
  · rw [Window.race_of_stopped hstop]
    have hnone : Match.IsBest (Candidate s.family w.ahead (false = true)) none := fun n hn =>
      no_candidate_of_empty hwins hm n (hn.mono fun h => Bool.noConfusion h)
    rw [Match.isBest_unique (Race.isBest_finish s.family false w.ahead) hnone]
  · obtain ⟨rule, hi⟩ := hwins.1.rule
    rw [ha]
    exact survives_nil (List.ne_nil_of_mem (List.mem_of_getElem? hi))

/-- A scan that may go on, and the text that it has passed. -/
structure Poised (feed : Feed) (options : Options) (passed : List Char) (s : Scan) : Prop where
  same : s.options = options
  position : s.position = Position.start.advanceAll options.terminator passed
  window : s.window.After feed passed
  behind : ∀ o, s.emptyAt = some o → o ≤ s.position.offset
  marked : s.emptyAt = some s.position.offset → s.Marked

section
variable {options : Options} {passed : List Char}

theorem poised_ofFeed (family : Family) (options : Options) (feed : Feed) :
    Poised feed options [] (ofFeed family options feed) where
  same := rfl
  position := rfl
  window := .nil feed
  behind := by simp [ofFeed]
  marked := by simp [ofFeed]

theorem Poised.of_done (hs : s.Poised feed options passed) (done : Bool) :
    Poised feed options passed { s with done } :=
  ⟨hs.same, hs.position, hs.window, hs.behind, fun h => ⟨h, (hs.marked h).race, (hs.marked h).read⟩⟩

theorem marked_of_empty {m : Match} {w : Window} (hr : s.race = (.ok (some m), w)) (hm : m.length = 0)
    (position : Position) (hp : position.offset = s.position.offset) (stats : Stats) :
    Marked { s with window := w, position, emptyAt := some s.position.offset, stats } := by
  obtain ⟨hrace, hread⟩ := race_of_empty hr hm
  exact ⟨by rw [hp], by simpa only [Scan.race, hp, bne_self_eq_false] using hrace, hread⟩

theorem Poised.token (hs : s.Poised feed options passed) {f : Frame} (h : s.Settles (.frame f) t)
    (hf : f.isSentinel = false) :
    ¬ s.Marked ∧ f.StandsBehind options.terminator passed ∧ t.Poised feed options (passed ++ f.text) ∧
      (f.text = [] → t.Marked) := by
  obtain rfl := hs.same
  cases h with
  | sentinel => cases hf
  | @token m w hr =>
    have hlen := List.length_take_of_le (Window.length_le_of_race hr)
    have hoffset := Position.offset_advanceAll s.options.terminator s.position (w.ahead.take m.length)
    rw [hlen] at hoffset
    have hmarked : m.length = 0 → Marked
        { s with
          window := { w with ahead := w.ahead.drop m.length }
          position := s.position.advanceAll s.options.terminator (w.ahead.take m.length)
          emptyAt := if m.length = 0 then some s.position.offset else s.emptyAt
          stats :=
            { s.stats with frames := s.stats.frames + 1, symbols := s.stats.symbols + m.length } } := by
      intro h0
      rw [if_pos h0, h0, List.drop_zero]
      exact marked_of_empty hr h0 _ (by rw [List.take_zero]; rfl) _
    refine ⟨fun hm => ?_, ?_, ⟨rfl, ?_, ?_, fun o ho => ?_, fun he => ?_⟩, fun hnil => hmarked ?_⟩
    · cases hm.race.symm.trans hr
    · rw [Frame.StandsBehind, ← hs.position]
      exact ⟨rfl, rfl⟩
    · rw [Position.advanceAll_append, ← hs.position]
      rfl
    · exact (after_of_race hs.window hr).drop m.length
    · dsimp only at ho ⊢
      rw [hoffset]
      split at ho
      · cases ho
        omega
      · have := hs.behind o ho
        omega
    · by_cases h0 : m.length = 0
      · exact hmarked h0
      · dsimp only at he
        rw [if_neg h0, hoffset] at he
        have := hs.behind _ he
        omega
    · have hnil : w.ahead.take m.length = [] := hnil
      rw [← hlen, hnil, List.length_nil]

theorem Poised.skip (hs : s.Poised feed options passed) {c : Char} (h : s.Settles (.skip c) t) :
    t.Poised feed options (passed ++ [c]) := by
  obtain rfl := hs.same
  cases h with
  | @skip _ w w' hr hpop =>
    have hw := Window.after_pop (after_of_race hs.window hr)
    rw [hpop] at hw
    have hoffset := Position.offset_advance s.options.terminator s.position c
    have hne : s.emptyAt ≠ some (s.position.advance s.options.terminator c).offset := fun he => by
      have := hs.behind _ he
      omega
    refine ⟨rfl, ?_, hw, fun o ho => ?_, fun he => absurd he hne⟩
    · rw [Position.advanceAll_append, ← hs.position]
      rfl
    · have := hs.behind o ho
      dsimp only
      omega

theorem Poised.sentinel (hs : s.Poised feed options passed) {f : Frame} (h : s.Settles (.frame f) t)
    (hf : f.isSentinel = true) :
    f.StandsBehind options.terminator passed ∧ f.text = [] ∧ feed.Delivers passed ∧ t.position = s.position := by
  obtain rfl := hs.same
  cases h with
  | token => cases hf
  | @sentinel w w' hr hpop =>
    have hw := Window.after_pop (after_of_race hs.window hr)
    rw [hpop] at hw
    obtain ⟨hw, ha, he⟩ := hw
    refine ⟨?_, rfl, ⟨w'.feed, ?_⟩, rfl⟩
    · rw [Frame.StandsBehind, ← hs.position]
      exact ⟨rfl, rfl⟩
    · simpa [Window.After, Window.ending, ha, he] using hw

theorem Poised.advances {r : Except ScanError Frame} (h : s.Advances r t) (hs : s.Poised feed options passed)
    {f : Frame} (hr : r = .ok f) :
    ∃ skipped, f.StandsBehind options.terminator (passed ++ skipped) ∧
      t.position = Position.start.advanceAll options.terminator (passed ++ skipped ++ f.text) ∧
      (f.isSentinel = true → f.text = [] ∧ feed.Delivers (passed ++ skipped)) ∧
      (f.isSentinel = false → (s.Marked → skipped ≠ []) ∧
        t.Poised feed options (passed ++ skipped ++ f.text) ∧ (f.text = [] → t.Marked)) := by
  induction h generalizing passed with
  | @frame s t f' h =>
    cases hr
    refine ⟨[], ?_⟩
    rw [List.append_nil]
    cases hf : f.isSentinel with
    | true =>
      obtain ⟨hstands, htext, hdel, hpos⟩ := hs.sentinel h hf
      refine ⟨hstands, ?_, fun _ => ⟨htext, hdel⟩, Bool.noConfusion⟩
      rw [htext, List.append_nil, ← hs.position]
      exact hpos
    | false =>
      obtain ⟨hmark, hstands, ht, hempty⟩ := hs.token h hf
      refine ⟨hstands, ht.position, Bool.noConfusion, fun _ => ⟨fun hm => absurd hm hmark, ht.of_done _, ?_⟩⟩
      exact fun hnil => ⟨(hempty hnil).mark, (hempty hnil).race, (hempty hnil).read⟩
  | failed => cases hr
  | @skip s t u c r h _ ih =>
    obtain ⟨skipped, hstands, hpos, hend, htoken⟩ := ih (hs.skip h) hr
    refine ⟨c :: skipped, ?_⟩
    rw [List.append_cons]
    refine ⟨hstands, hpos, hend, fun hf => ?_⟩
    obtain ⟨-, ht, hempty⟩ := htoken hf
    exact ⟨fun _ => List.cons_ne_nil c skipped, ht, hempty⟩

end

section
variable {passed : List Char}

theorem Poised.begins (hs : (s.after n).Poised feed s.options passed) (hf : (s.after n).next.1 = some (.ok f)) :
    ∃ skipped, s.Begins feed n f (passed ++ skipped) ∧
      (f.isSentinel = true → f.text = [] ∧ feed.Delivers (passed ++ skipped)) ∧
      (f.isSentinel = false → ((s.after n).Marked → skipped ≠ []) ∧
        (s.after (n + 1)).Poised feed s.options (passed ++ skipped ++ f.text) ∧
        (f.text = [] → (s.after (n + 1)).Marked)) := by
  rcases hn : (s.after n).next with ⟨r, log, t⟩
  obtain rfl : r = some (.ok f) := by rw [← hf, hn]
  obtain ⟨skipped, hstands, hpos, hend, htoken⟩ := Poised.advances (advances_of_next hn) hs rfl
  have hafter : s.after (n + 1) = t := by rw [after_snoc, hn]
  rw [← hafter] at hpos htoken
  refine ⟨skipped, ⟨hf, hstands, hpos, ?_⟩, hend, htoken⟩
  cases hsent : f.isSentinel with
  | true =>
    obtain ⟨htext, g, hsays⟩ := hend hsent
    obtain ⟨k, hk, -⟩ := hsays.split
    exact ⟨k, by rwa [htext, List.append_nil]⟩
  | false =>
    obtain ⟨-, ht, -⟩ := htoken hsent
    have hsays := ht.window
    rw [Window.After, List.map_append, List.append_assoc] at hsays
    obtain ⟨k, hk, -⟩ := hsays.split
    exact ⟨k, hk⟩

end

theorem poised_after (h : s.Poised feed s.options []) (hd : (s.after n).done = false) :
    ∃ passed, (s.after n).Poised feed s.options passed ∧
      ∀ i < n, ∀ f u, s.Begins feed i f u →
        u <+: passed ∧ (u = passed → f.text = [] ∧ (s.after n).Marked) := by
  induction n with
  | zero => exact ⟨[], h, fun i hi => absurd hi (Nat.not_lt_zero i)⟩
  | succ n ih =>
    cases hdn : (s.after n).done with
    | true =>
      rw [after_snoc, next_of_done hdn, hdn] at hd
      cases hd
    | false =>
      obtain ⟨passed, hp, hbefore⟩ := ih hdn
      obtain ⟨r, log, t, hn, hadv⟩ := next_of_live hdn
      have hafter : s.after (n + 1) = t := by rw [after_snoc, hn]
      cases r with
      | error e =>
        rw [hafter, done_of_error hadv rfl] at hd
        cases hd
      | ok f =>
        have hf : f.isSentinel = false := by rw [← done_of_next hn, ← hafter, hd]
        obtain ⟨skipped, hbegins, -, htoken⟩ := hp.begins (f := f) (by rw [hn])
        obtain ⟨hmark, hp', hempty⟩ := htoken hf
        refine ⟨_, hp', fun i hi g u hg => ?_⟩
        rcases Nat.lt_succ_iff_lt_or_eq.mp hi with hi | rfl
        · obtain ⟨hpre, hsame⟩ := hbefore i hi g u hg
          rw [List.append_assoc]
          refine ⟨hpre.trans (List.prefix_append _ _), fun heq => ?_⟩
          -- at the mark of an empty frame this one would have begun behind a skip
          have hle := hpre.length_le
          rw [heq, List.length_append] at hle
          have hnil : skipped ++ f.text = [] := List.length_eq_zero_iff.mp (by omega)
          rw [hnil, List.append_nil] at heq
          exact absurd (List.append_eq_nil_iff.mp hnil).1 (hmark (hsame heq).2)
        · obtain ⟨rfl, rfl⟩ := hbegins.unique hg
          refine ⟨List.prefix_append _ _, fun heq => ?_⟩
          have hnil : f.text = [] := List.self_eq_append_right.mp heq
          exact ⟨hnil, hempty hnil⟩

/-! ## From one frame to the next -/

theorem Begins.lt {i j : Nat} (h : s.Poised feed s.options []) (hij : i < j) (hf : s.Begins feed i f u)
    (hg : s.Begins feed j g v) :
    if g.isSentinel then
      feed.Delivers v ∧ (u.length < v.length ∧ f.Precedes g ∨
        u = v ∧ f.text = [] ∧ f.line = g.line ∧ f.column = g.column)
    else u.length < v.length ∧ f.Precedes g := by
  obtain ⟨passed, hp, hbefore⟩ := poised_after h (live_of_next hg.frame)
  obtain ⟨⟨more, rfl⟩, hsame⟩ := hbefore i hij f u hf
  obtain ⟨skipped, hbegins, hend, htoken⟩ := hp.begins hg.frame
  obtain ⟨-, rfl⟩ := hbegins.unique hg
  have hlater : more ++ skipped ≠ [] →
      u.length < (u ++ more ++ skipped).length ∧ f.Precedes g := by
    intro hne
    have hpos := List.length_pos_iff.mpr hne
    have hstands := hg.stands
    rw [List.append_assoc] at hstands ⊢
    exact ⟨by rw [List.length_append]; omega, hf.stands.precedes hstands hne⟩
  have hhere : more ++ skipped = [] →
      u = u ++ more ++ skipped ∧ skipped = [] ∧ f.text = [] ∧ (s.after j).Marked := by
    intro hnil
    obtain ⟨rfl, rfl⟩ := List.append_eq_nil_iff.mp hnil
    obtain ⟨htext, hm⟩ := hsame (List.append_nil u).symm
    exact ⟨by simp, rfl, htext, hm⟩
  cases hsent : g.isSentinel with
  | true =>
    refine ⟨(hend hsent).2, ?_⟩
    by_cases hnil : more ++ skipped = []
    · obtain ⟨heq, -, htext, -⟩ := hhere hnil
      refine Or.inr ⟨heq, htext, ?_, ?_⟩
      · rw [hf.stands.1, hg.stands.1, ← heq]
      · rw [hf.stands.2, hg.stands.2, ← heq]
    · exact Or.inl (hlater hnil)
  | false =>
    refine hlater fun hnil => ?_
    obtain ⟨-, hskipped, -, hm⟩ := hhere hnil
    exact (htoken hsent).1 hm hskipped

theorem Begins.poised (h : s.Poised feed s.options []) (hf : s.Begins feed n f u) (ht : f.isSentinel = false) :
    (s.after (n + 1)).Poised feed s.options (u ++ f.text) ∧ (s.after (n + 1)).done = false ∧
      (f.text = [] → (s.after (n + 1)).Marked) := by
  obtain ⟨passed, hp, -⟩ := poised_after h (live_of_next hf.frame)
  obtain ⟨skipped, hbegins, -, htoken⟩ := hp.begins hf.frame
  obtain ⟨-, rfl⟩ := hbegins.unique hf
  obtain ⟨-, hp', hempty⟩ := htoken ht
  refine ⟨hp', ?_, hempty⟩
  rcases hn : (s.after n).next with ⟨r, log, t⟩
  obtain rfl : r = some (.ok f) := by rw [← hf.frame, hn]
  rw [after_snoc, hn, ← ht]
  exact done_of_next hn

theorem Marked.next {options : Options} {passed : List Char} (hm : s.Marked) (hd : s.done = false)
    (hs : s.Poised feed options passed) :
    feed.Delivers passed ∧ s.next.1 = some (.ok (.sentinel s.position.line s.position.column)) ∨
      ∃ c, (∃ k, feed.Says ((passed ++ [c]).map .symbol) k) ∧
        if options.strict then s.next.1 = some (.error (.unrecognized c s.position))
        else ∃ later, s.next.2.1 = .skip c s.position :: later := by
  rcases pop_of_ended hm.read with ⟨-, hpop⟩ | ⟨c, cs, ha, hpop⟩
  · have hset := Settles.sentinel hm.race hpop
    obtain ⟨-, -, hdel, -⟩ := hs.sentinel hset rfl
    rw [next_of_frame hd (settle_of_settles hset)]
    exact Or.inl ⟨hdel, rfl⟩
  · refine Or.inr ⟨c, ?_, ?_⟩
    · have hsays := hs.window
      rw [Window.After, ha, List.append_cons, List.map_append, List.append_assoc] at hsays
      obtain ⟨k, hk, -⟩ := hsays.split
      exact ⟨k, hk⟩
    · rw [← hs.same]
      cases hstrict : s.options.strict with
      | true =>
        rw [next_of_failed hd (settle_of_settles (.unrecognized hm.race hpop hstrict))]
        rfl
      | false => exact next_of_skip hd (settle_of_settles (.skip hm.race hpop hstrict))

theorem column_of_next (hd : s.done = false) (hf : s.next.1 = some (.ok f))
    (hlog : s.next.2.1.filterMap ScanEvent.skip? = []) : f.column = s.position.column := by
  rcases hset : s.settle with ⟨f' | c | e, t⟩
  · rw [next_of_frame hd hset] at hf
    cases hf
    cases settles_of_eq hset with
    | token | sentinel => rfl
  · obtain ⟨later, hl⟩ := next_of_skip hd hset
    rw [hl] at hlog
    cases hlog
  · rw [next_of_failed hd hset] at hf
    cases hf

end

/-- **Frames begin further and further on,** but for the sentinel behind an empty frame. Behind an
empty frame elsewhere a symbol is skipped or refused, and behind a terminator a line begins. -/
theorem begins_in_order (family : Family) (options : Options) (feed : Feed) :
    let s := ofFeed family options feed
    (∀ n f, (s.after n).next.1 = some (.ok f) → ∃ before, s.Begins feed n f before) ∧
      (∀ i j f g u v, i < j → s.Begins feed i f u → s.Begins feed j g v →
        if g.isSentinel then
          feed.Delivers v ∧ (u.length < v.length ∧ f.Precedes g ∨
            u = v ∧ f.text = [] ∧ f.line = g.line ∧ f.column = g.column)
        else u.length < v.length ∧ f.Precedes g) ∧
      (∀ n f u, s.Begins feed n f u → f.isSentinel = false → f.text = [] →
        let p := Position.start.advanceAll options.terminator u
        feed.Delivers u ∧ (s.after (n + 1)).next.1 = some (.ok (.sentinel p.line p.column)) ∨
          ∃ c, (∃ k, feed.Says ((u ++ [c]).map .symbol) k) ∧
            if options.strict then (s.after (n + 1)).next.1 = some (.error (.unrecognized c p))
            else ∃ later, (s.after (n + 1)).next.2.1 = .skip c p :: later) ∧
      ∀ n f g u, s.Begins feed n f u → f.text.getLast? = some options.terminator →
        (s.after (n + 1)).next.1 = some (.ok g) →
        (s.after (n + 1)).next.2.1.filterMap ScanEvent.skip? = [] → g.column = 0 := by
  intro s
  have h0 : s.Poised feed s.options [] := poised_ofFeed family options feed
  refine ⟨fun n f hf => ?_, fun i j f g u v hij hf hg => hf.lt h0 hij hg, fun n f u hf ht htext => ?_,
    fun n f g u hf hlast hg hlog => ?_⟩
  · obtain ⟨passed, hp, -⟩ := poised_after h0 (live_of_next hf)
    obtain ⟨skipped, hbegins, -⟩ := hp.begins hf
    exact ⟨_, hbegins⟩
  · obtain ⟨hp, hd, hm⟩ := hf.poised h0 ht
    have hnext := (hm htext).next hd hp
    rw [hp.position, htext, List.append_nil] at hnext
    exact hnext
  · have ht : f.isSentinel = false := by
      cases f with
      | token => rfl
      | sentinel => cases hlast
    obtain ⟨hp, hd, -⟩ := hf.poised h0 ht
    rw [column_of_next hd hg hlog, hp.position, Position.advanceAll_append]
    exact Position.column_advanceAll _ _ hlast

end Scan

end Munch
