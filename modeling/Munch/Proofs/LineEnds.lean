import Munch.Proofs.Calls
import Munch.Proofs.Positions

/-!
# What the line terminator decides

`placeless` takes lines and columns from what a scan gives. Two scans with different
terminators are `Aligned` at all times, and without lines and columns they give the same.
-/

namespace Munch

def Frame.placeless : Frame → Frame
  | .token rule text _ _ => .token rule text 0 0
  | .sentinel _ _ => .sentinel 0 0

def ScanError.placeless : ScanError → ScanError
  | .input e => .input e
  | .unrecognized c p => .unrecognized c ⟨0, 0, p.offset⟩

namespace Scan

def placeless : Except ScanError Frame → Except ScanError Frame
  | .ok f => .ok f.placeless
  | .error e => .error e.placeless

/-- Two scans at the same place of the same input, whatever they call a line. -/
structure Aligned (s t : Scan) : Prop where
  family : s.family = t.family
  strict : s.options.strict = t.options.strict
  window : s.window = t.window
  offset : s.position.offset = t.position.offset
  emptyAt : s.emptyAt = t.emptyAt
  stats : s.stats = t.stats
  done : s.done = t.done

/-- The same but for lines and columns. -/
inductive Matches : Settled → Settled → Prop
  | frame {f g : Frame} : f.placeless = g.placeless → Matches (.frame f) (.frame g)
  | skip (c : Char) : Matches (.skip c) (.skip c)
  | failed {e e' : ScanError} : e.placeless = e'.placeless → Matches (.failed e) (.failed e')

section
variable {s s' t : Scan} (h : s.Aligned t)
include h

theorem Aligned.race : t.race = s.race := by
  unfold Scan.race
  rw [h.family, h.window, h.emptyAt, h.offset]

theorem Aligned.settles {r : Settled} (hs : s.Settles r s') :
    ∃ r' t', t.Settles r' t' ∧ Matches r r' ∧ s'.Aligned t' := by
  cases hs with
  | token hr =>
    refine ⟨_, _, .token (h.race.trans hr), .frame rfl, h.family, h.strict, rfl, ?_, ?_, ?_, h.done⟩
    · simp only [Position.offset_advanceAll, h.offset]
    · simp only [h.offset, h.emptyAt]
    · simp only [h.stats]
  | sentinel hr hp =>
    exact ⟨_, _, .sentinel (h.race.trans hr) hp, .frame rfl, h.family, h.strict, rfl, h.offset, h.emptyAt,
      h.stats, h.done⟩
  | skip hr hp hstrict =>
    refine ⟨_, _, .skip (h.race.trans hr) hp (h.strict ▸ hstrict), .skip _, h.family, h.strict, rfl, ?_,
      h.emptyAt, ?_, h.done⟩
    · simp only [Position.offset_advance, h.offset]
    · simp only [h.stats]
  | unrecognized hr hp hstrict =>
    refine ⟨_, _, .unrecognized (h.race.trans hr) hp (h.strict ▸ hstrict), .failed ?_, h.family, h.strict, rfl,
      h.offset, h.emptyAt, h.stats, h.done⟩
    simp only [ScanError.placeless, h.offset]
  | raceFailed hr =>
    exact ⟨_, _, .raceFailed (h.race.trans hr), .failed rfl, h.family, h.strict, rfl, h.offset, h.emptyAt,
      h.stats, h.done⟩
  | popFailed hr hp =>
    exact ⟨_, _, .popFailed (h.race.trans hr) hp, .failed rfl, h.family, h.strict, rfl, h.offset, h.emptyAt,
      h.stats, h.done⟩

theorem Aligned.finish (b : Bool) : Aligned { s with done := b } { t with done := b } :=
  ⟨h.family, h.strict, h.window, h.offset, h.emptyAt, h.stats, rfl⟩

end

theorem isSentinel_placeless (f : Frame) : f.placeless.isSentinel = f.isSentinel := by cases f <;> rfl

theorem Aligned.advance {s t : Scan} (h : s.Aligned t) (log log' : List ScanEvent) :
    placeless (s.advance log).1 = placeless (t.advance log').1 ∧
      (s.advance log).2.2.Aligned (t.advance log').2.2 := by
  fun_induction Scan.advance s log generalizing t log' with
  | case1 s log f s' hset =>
    obtain ⟨_, t', ht, hm, ha⟩ := h.settles (settles_of_eq hset)
    cases hm with
    | @frame _ g hfg =>
      have hend : f.isSentinel = g.isSentinel := by
        rw [← isSentinel_placeless f, hfg, isSentinel_placeless]
      rw [advance_settle t, settle_of_settles ht, hend]
      exact ⟨congrArg Except.ok hfg, ha.finish _⟩
  | case2 s log e s' hset =>
    obtain ⟨_, t', ht, hm, ha⟩ := h.settles (settles_of_eq hset)
    cases hm with
    | failed he =>
      rw [advance_settle t, settle_of_settles ht]
      exact ⟨congrArg Except.error he, ha.finish true⟩
  | case3 s log c s' hset ih =>
    obtain ⟨_, t', ht, hm, ha⟩ := h.settles (settles_of_eq hset)
    cases hm with
    | skip =>
      rw [advance_settle t, settle_of_settles ht]
      exact ih ha _

theorem Aligned.next {s t : Scan} (h : s.Aligned t) :
    s.next.1.map placeless = t.next.1.map placeless ∧ s.next.2.2.Aligned t.next.2.2 := by
  cases hd : s.done with
  | true =>
    rw [next_of_done hd, next_of_done (h.done ▸ hd)]
    exact ⟨rfl, h⟩
  | false =>
    have hd' : t.done = false := h.done ▸ hd
    obtain ⟨hr, ha⟩ := h.advance [] []
    simp only [Scan.next, hd, hd', Bool.false_eq_true, if_false]
    exact ⟨congrArg some hr, ha⟩

theorem Aligned.after {s t : Scan} (h : s.Aligned t) (n : Nat) : (s.after n).Aligned (t.after n) := by
  induction n generalizing s t with
  | zero => exact h
  | succ n ih => exact ih h.next.2

end Scan

/-- **What the line terminator decides.** With another one every call gives the same, but
for lines and columns, reads as much of the input and counts the same. -/
theorem terminator_places_only (family : Family) (options : Options) (feed : Feed) (a b : Char) (n : Nat) :
    let s := (Scan.ofFeed family { options with terminator := a } feed).after n
    let t := (Scan.ofFeed family { options with terminator := b } feed).after n
    s.next.1.map Scan.placeless = t.next.1.map Scan.placeless ∧
      s.position.offset = t.position.offset ∧ s.stats = t.stats ∧
      s.window.feed.asked = t.window.feed.asked := by
  have h : (Scan.ofFeed family { options with terminator := a } feed).Aligned
      (Scan.ofFeed family { options with terminator := b } feed) := ⟨rfl, rfl, rfl, rfl, rfl, rfl, rfl⟩
  have hn := h.after n
  exact ⟨hn.next.1, hn.offset, hn.stats, congrArg (fun w => w.feed.asked) hn.window⟩

end Munch
