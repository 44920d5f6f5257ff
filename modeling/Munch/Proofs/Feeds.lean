import Munch.Proofs.Calls
import Munch.Proofs.Devices

/-!
# Feeds that reply alike

Two feeds are alike if they were asked as often and give the same replies from now on. Reads
of the same bytes make feeds that are alike, and a scan does not tell them apart.
-/

namespace Munch

namespace Feed

def answers (f : Feed) : Nat → List Reply
  | 0 => []
  | n + 1 => f.next.1 :: f.next.2.answers n

structure Alike (f g : Feed) : Prop where
  asked : f.asked = g.asked
  answers : ∀ n, f.answers n = g.answers n

theorem asked_next (f : Feed) : f.next.2.asked = f.asked + 1 := by
  obtain ⟨pending, asked⟩ := f
  cases pending <;> rfl

theorem Alike.next {f g : Feed} (h : f.Alike g) : ∃ g', g.next = (f.next.1, g') ∧ f.next.2.Alike g' := by
  obtain ⟨hreply, -⟩ := List.cons.inj (h.answers 1)
  refine ⟨g.next.2, by rw [hreply], ?_, fun n => ?_⟩
  · rw [asked_next, asked_next, h.asked]
  · exact (List.cons.inj (h.answers (n + 1))).2

/-! ## Replies given beforehand -/

theorem answers_nil (asked n : Nat) : Feed.answers ⟨[], asked⟩ n = List.replicate n .endOfInput := by
  induction n generalizing asked with
  | zero => rfl
  | succ n ih => exact congrArg _ (ih _)

theorem answers_symbols (text : List Char) (asked n : Nat) :
    Feed.answers ⟨text.map .symbol, asked⟩ (text.length + n) =
      text.map .symbol ++ List.replicate n .endOfInput := by
  induction text generalizing asked with
  | nil => rw [List.length_nil, Nat.zero_add, List.map_nil, answers_nil, List.nil_append]
  | cons c text ih =>
    rw [List.length_cons, Nat.add_right_comm, answers, List.map_cons, List.cons_append, ← ih (asked + 1)]
    rfl

end Feed

namespace Device

theorem repliesFrom_append (replies : List Reply) (d : Device) :
    repliesFrom replies d = replies.reverse ++ repliesFrom [] d := by
  induction hn : d.size using Nat.strongRecOn generalizing replies d with
  | ind n ih =>
    by_cases h : d.isOver = true
    · rw [repliesFrom, if_pos h, repliesFrom, if_pos h, List.reverse_nil, List.append_nil]
    · have hlt := hn ▸ size_next (Bool.not_eq_true _ ▸ h)
      rw [repliesFrom, if_neg h, repliesFrom.eq_def [], if_neg h]
      dsimp only
      rw [ih _ hlt _ _ rfl, ih _ hlt [d.next.1] _ rfl]
      simp

theorem next_of_isOver {d : Device} (h : d.isOver = true) : d.next = (.endOfInput, d) := by
  obtain ⟨buffer, reads⟩ := d
  obtain ⟨rfl, rfl⟩ : buffer = [] ∧ reads = [] := by simpa [isOver] using h
  rfl

theorem answers_replies (d : Device) (asked n : Nat) :
    Feed.answers ⟨repliesFrom [] d, asked⟩ n = d.answers n := by
  induction n generalizing d asked with
  | zero => rfl
  | succ n ih =>
    rw [repliesFrom]
    by_cases h : d.isOver = true
    · rw [if_pos h, answers, next_of_isOver h, ← ih d (asked + 1), repliesFrom, if_pos h]
      rfl
    · rw [if_neg h]
      dsimp only
      rw [repliesFrom_append, answers, ← ih d.next.2 (asked + 1)]
      rfl

theorem answers_bytes (bytes : List UInt8) (n : Nat) :
    Device.answers ⟨[], [.bytes bytes]⟩ n = Device.answers ⟨bytes, []⟩ n := by
  have hnext : Device.next ⟨[], [.bytes bytes]⟩ = Device.next ⟨bytes, []⟩ := by cases bytes <;> rfl
  cases n with
  | zero => rfl
  | succ n => rw [answers, answers, hnext]

theorem answers_text {d : Device} (h : d.Steady) {text : List Char} (hl : d.left = Utf8.encode text)
    (asked n : Nat) : d.answers n = Feed.answers ⟨text.map .symbol, asked⟩ n := by
  induction n generalizing d text asked with
  | zero => rfl
  | succ n ih =>
    obtain ⟨t, hn, ht, htl⟩ := next_spec h
    cases text with
    | nil => rw [List.map_nil, Feed.answers_nil, answers_of_left_nil h hl]
    | cons c text =>
      rw [hl, Utf8.encode_cons, Reply.ofBytes_encodeChar] at hn htl
      rw [answers, hn, ih ht htl (asked + 1)]
      rfl

end Device

/-! ## Scans over feeds that are alike -/

namespace Race

theorem draw_next (race : Race) (symbols : List Char) (f : Feed) :
    race.draw f.asked symbols f.pending =
      if race.live.isEmpty then ⟨race, symbols, f, .stuck⟩
      else
        match f.next with
        | (.symbol c, g) => (race.step c).draw g.asked (c :: symbols) g.pending
        | (.endOfInput, g) => ⟨race, symbols, g, .endOfInput⟩
        | (.failed e, g) => ⟨race, symbols, g, .failed e⟩ := by
  obtain ⟨pending, asked⟩ := f
  cases pending with
  | nil => rfl
  | cons reply rest => cases reply <;> rfl

theorem draw_alike (race : Race) (asked : Nat) (symbols : List Char) (replies : List Reply) {g : Feed}
    (h : Feed.Alike ⟨replies, asked⟩ g) :
    ∃ g', race.draw g.asked symbols g.pending = { race.draw asked symbols replies with feed := g' } ∧
      (race.draw asked symbols replies).feed.Alike g' := by
  fun_induction draw race asked symbols replies generalizing g with
  | case1 race asked symbols hl | case3 race asked symbols reply rest hl =>
    exact ⟨g, by rw [draw_next, if_pos hl], h⟩
  | case2 race asked symbols hl | case5 race asked symbols rest hl | case6 race asked symbols rest hl e =>
    obtain ⟨g', hg, ha⟩ := h.next
    refine ⟨g', ?_, ha⟩
    rw [draw_next, if_neg hl, hg]
    rfl
  | case4 race asked symbols rest hl c ih =>
    obtain ⟨g', hg, ha⟩ := h.next
    obtain ⟨g'', hd, ha⟩ := ih ha
    refine ⟨g'', ?_, ha⟩
    rw [draw_next, if_neg hl, hg]
    exact hd

end Race

namespace Window

def withFeed (w : Window) (g : Feed) : Window := { w with feed := g }

theorem race_alike (w : Window) (family : Family) (emptyAllowed : Bool) {g : Feed} (h : w.feed.Alike g) :
    ∃ g', (w.withFeed g).race family emptyAllowed =
        ((w.race family emptyAllowed).1, (w.race family emptyAllowed).2.withFeed g') ∧
      (w.race family emptyAllowed).2.feed.Alike g' := by
  obtain ⟨ahead, ended, f⟩ := w
  obtain ⟨g', hd, ha⟩ := Race.draw_alike ((Race.start family emptyAllowed).run ahead) f.asked [] f.pending h
  simp only [withFeed]
  simp only [race]
  by_cases hover : (ended || ((Race.start family emptyAllowed).run ahead).live.isEmpty) = true
  · rw [if_pos hover, if_pos hover]
    exact ⟨g, rfl, h⟩
  · rw [if_neg hover, if_neg hover, hd]
    generalize ((Race.start family emptyAllowed).run ahead).draw f.asked [] f.pending = d at ha
    obtain ⟨drawn, symbols, f', stop⟩ := d
    refine ⟨g', ?_, ?_⟩ <;> cases stop <;> first | rfl | exact ha

theorem pop_alike (w : Window) {g : Feed} (h : w.feed.Alike g) :
    ∃ g', (w.withFeed g).pop = (w.pop.1, w.pop.2.withFeed g') ∧ w.pop.2.feed.Alike g' := by
  obtain ⟨ahead, ended, f⟩ := w
  cases ahead with
  | cons c ahead => exact ⟨g, rfl, h⟩
  | nil =>
    cases ended with
    | true => exact ⟨g, rfl, h⟩
    | false =>
      obtain ⟨g', hg, ha⟩ := h.next
      refine ⟨g', ?_, ?_⟩
      · simp only [pop, withFeed, Bool.false_eq_true, if_false, hg]
        rcases f.next with ⟨_ | _ | _, f'⟩ <;> rfl
      · simp only [pop, Bool.false_eq_true, if_false]
        rcases hf : f.next with ⟨_ | _ | _, f'⟩ <;> rw [hf] at ha <;> exact ha

end Window

namespace Scan

def withFeed (s : Scan) (g : Feed) : Scan := { s with window := s.window.withFeed g }

section
variable {s : Scan} {g : Feed}

theorem race_alike (h : s.window.feed.Alike g) {r : Except InputError (Option Match)} {w : Window}
    (hr : s.race = (r, w)) :
    ∃ g', (s.withFeed g).race = (r, w.withFeed g') ∧ w.feed.Alike g' := by
  have := s.window.race_alike s.family (s.emptyAt != some s.position.offset) h
  rwa [← race, hr] at this

theorem pop_alike {w w' : Window} (h : w.feed.Alike g) {r : Except InputError (Option Char)}
    (hp : w.pop = (r, w')) : ∃ g', (w.withFeed g).pop = (r, w'.withFeed g') ∧ w'.feed.Alike g' := by
  have := w.pop_alike h
  rwa [hp] at this

theorem settles_alike {t : Scan} {r : Settled} (h : s.window.feed.Alike g) (hs : s.Settles r t) :
    ∃ g', (s.withFeed g).Settles r (t.withFeed g') ∧ t.window.feed.Alike g' := by
  cases hs with
  | token hr =>
    obtain ⟨g', hr, ha⟩ := race_alike h hr
    exact ⟨g', .token hr, ha⟩
  | raceFailed hr =>
    obtain ⟨g', hr, ha⟩ := race_alike h hr
    exact ⟨g', .raceFailed hr, ha⟩
  | sentinel hr hp =>
    obtain ⟨g', hr, ha⟩ := race_alike h hr
    obtain ⟨g'', hp, ha⟩ := pop_alike ha hp
    exact ⟨g'', .sentinel hr hp, ha⟩
  | skip hr hp hs =>
    obtain ⟨g', hr, ha⟩ := race_alike h hr
    obtain ⟨g'', hp, ha⟩ := pop_alike ha hp
    exact ⟨g'', .skip hr hp hs, ha⟩
  | unrecognized hr hp hs =>
    obtain ⟨g', hr, ha⟩ := race_alike h hr
    obtain ⟨g'', hp, ha⟩ := pop_alike ha hp
    exact ⟨g'', .unrecognized hr hp hs, ha⟩
  | popFailed hr hp =>
    obtain ⟨g', hr, ha⟩ := race_alike h hr
    obtain ⟨g'', hp, ha⟩ := pop_alike ha hp
    exact ⟨g'', .popFailed hr hp, ha⟩

theorem advance_alike (s : Scan) (log : List ScanEvent) {g : Feed} (h : s.window.feed.Alike g) :
    ∃ g', (s.withFeed g).advance log =
        ((s.advance log).1, (s.advance log).2.1, (s.advance log).2.2.withFeed g') ∧
      (s.advance log).2.2.window.feed.Alike g' := by
  fun_induction advance s log generalizing g with
  | case1 s log f t hset =>
    obtain ⟨g', hs, ha⟩ := settles_alike h (settles_of_eq hset)
    refine ⟨g', ?_, ha⟩
    rw [advance_settle, settle_of_settles hs]
    rfl
  | case2 s log e t hset =>
    obtain ⟨g', hs, ha⟩ := settles_alike h (settles_of_eq hset)
    refine ⟨g', ?_, ha⟩
    rw [advance_settle, settle_of_settles hs]
    rfl
  | case3 s log c t hset ih =>
    obtain ⟨g', hs, ha⟩ := settles_alike h (settles_of_eq hset)
    obtain ⟨g'', hadv, ha⟩ := ih ha
    refine ⟨g'', ?_, ha⟩
    rw [advance_settle, settle_of_settles hs]
    exact hadv

theorem next_alike (h : s.window.feed.Alike g) :
    ∃ g', (s.withFeed g).next = (s.next.1, s.next.2.1, s.next.2.2.withFeed g') ∧
      s.next.2.2.window.feed.Alike g' := by
  cases hd : s.done with
  | true =>
    refine ⟨g, ?_, ?_⟩
    · rw [next_of_done hd, next_of_done (s := s.withFeed g) hd]
    · rwa [next_of_done hd]
  | false =>
    obtain ⟨g', hadv, ha⟩ := s.advance_alike [] h
    refine ⟨g', ?_, ?_⟩
    · have hd' : (s.withFeed g).done = false := hd
      simp [next, hd, hd', hadv]
    · simpa [next, hd] using ha

/-- **A scan does not tell feeds apart that are alike.** -/
theorem results_alike (h : s.window.feed.Alike g) (n : Nat) :
    (s.withFeed g).results n = s.results n ∧
      ∃ g', (s.withFeed g).after n = (s.after n).withFeed g' ∧ (s.after n).window.feed.Alike g' := by
  induction n generalizing s g with
  | zero => exact ⟨rfl, g, rfl, h⟩
  | succ n ih =>
    obtain ⟨g', hn, ha⟩ := next_alike h
    obtain ⟨hres, g'', hafter, ha⟩ := ih ha
    refine ⟨?_, g'', by rw [after, hn, hafter, after], ha⟩
    rcases hs : s.next with ⟨_ | r, log, t⟩
    · rw [hs] at hn
      simp [results, hn, hs]
    · rw [hs] at hn hres
      rw [results_next hn, results_next hs, hres]

end

end Scan

/-! ## The same bytes -/

namespace Feed

section
variable {reads : List Read} (h : ∀ r ∈ reads, r.Steady)
include h

theorem ofReads_alike_ofText {text : List Char} (ht : reads.flatMap Read.given = Utf8.encode text) :
    (ofReads reads).Alike (ofText text) where
  asked := rfl
  answers n := by
    have hd : Device.Steady ⟨[], reads⟩ := h
    exact (Device.answers_replies _ 0 n).trans (Device.answers_text hd ht 0 n)

/-- **Only the bytes matter.** Reads give what their bytes give in one read, and if these are
the encoding of a text, its symbols and then the end; a scan of the one is a scan of the other. -/
theorem ofReads_spec :
    (∀ n, (ofReads reads).answers n = (ofReads [.bytes (reads.flatMap Read.given)]).answers n) ∧
      ∀ text, reads.flatMap Read.given = Utf8.encode text →
        (∀ n, (ofReads reads).answers (text.length + n) =
          text.map .symbol ++ List.replicate n .endOfInput) ∧
        ∀ (family : Family) (options : Options) (n : Nat),
          let s := Scan.ofFeed family options (ofReads reads)
          let t := Scan.ofFeed family options (ofText text)
          s.results n = t.results n ∧ (s.after n).position = (t.after n).position ∧
            (s.after n).stats = (t.after n).stats ∧
            (s.after n).window.feed.asked = (t.after n).window.feed.asked := by
  refine ⟨fun n => ?_, fun text ht => ⟨fun n => ?_, fun family options n => ?_⟩⟩
  · have hd : Device.Steady ⟨[], reads⟩ := h
    have he : Device.Steady ⟨reads.flatMap Read.given, []⟩ := fun r hr => nomatch hr
    have hleft : Device.left ⟨[], reads⟩ = Device.left ⟨reads.flatMap Read.given, []⟩ :=
      (List.append_nil _).symm
    calc (ofReads reads).answers n
        = Device.answers ⟨[], reads⟩ n := Device.answers_replies _ 0 n
      _ = Device.answers ⟨reads.flatMap Read.given, []⟩ n := Device.answers_congr hd he hleft n
      _ = Device.answers ⟨[], [.bytes (reads.flatMap Read.given)]⟩ n := (Device.answers_bytes _ n).symm
      _ = (ofReads [.bytes (reads.flatMap Read.given)]).answers n := (Device.answers_replies _ 0 n).symm
  · rw [(ofReads_alike_ofText h ht).answers]
    exact answers_symbols text 0 n
  · obtain ⟨hres, g, hafter, ha⟩ :=
      Scan.results_alike (s := Scan.ofFeed family options (ofReads reads)) (ofReads_alike_ofText h ht) n
    have heq : Scan.ofFeed family options (ofText text) =
        (Scan.ofFeed family options (ofReads reads)).withFeed (ofText text) := rfl
    dsimp only
    rw [heq, hafter, hres]
    exact ⟨rfl, rfl, rfl, ha.asked⟩

end

def halved : List Read :=
  [.failed "Interrupted" "", .bytes [0xCE], .failed "Interrupted" "", .bytes [0xBB], .bytes [0x61],
    .failed "Interrupted" ""]

theorem ofReads_spec_halved :
    (∀ r ∈ halved, r.Steady) ∧ halved.flatMap Read.given = Utf8.encode ['λ', 'a'] ∧
      (∀ n, (ofReads halved).answers n = (ofReads [.bytes [0xCE, 0xBB, 0x61]]).answers n) ∧
      (∀ n, (ofReads halved).answers (2 + n) = [.symbol 'λ', .symbol 'a'] ++ List.replicate n .endOfInput) ∧
      ∀ (family : Family) (options : Options) (n : Nat),
        let s := Scan.ofFeed family options (ofReads halved)
        let t := Scan.ofFeed family options (ofText ['λ', 'a'])
        s.results n = t.results n ∧ (s.after n).position = (t.after n).position ∧
          (s.after n).stats = (t.after n).stats ∧
          (s.after n).window.feed.asked = (t.after n).window.feed.asked := by
  have h : ∀ r ∈ halved, r.Steady := by simp [halved, Read.Steady]
  have ht : halved.flatMap Read.given = Utf8.encode ['λ', 'a'] := by decide +kernel
  obtain ⟨hone, htext⟩ := ofReads_spec h
  obtain ⟨hanswers, hscan⟩ := htext _ ht
  exact ⟨h, ht, hone, hanswers, hscan⟩

end Feed

end Munch
