import Munch.Scan

/-!
# Calls of a scan

`Settles` lists all that can come of one place, and `Advances` all that can come of
one call. Nothing about a scan is proved by opening its functions again.
-/

namespace Munch.Scan

def race (s : Scan) : Except InputError (Option Match) × Window :=
  s.window.race s.family (s.emptyAt != some s.position.offset)

/-- What comes of a place, and the scan behind it. -/
inductive Settles (s : Scan) : Settled → Scan → Prop
  | token {m : Match} {w : Window} : s.race = (.ok (some m), w) →
      Settles s (.frame (.token m.rule (w.ahead.take m.length) s.position.line s.position.column))
        { s with
          window := { w with ahead := w.ahead.drop m.length }
          position := s.position.advanceAll s.options.terminator (w.ahead.take m.length)
          emptyAt := if m.length = 0 then some s.position.offset else s.emptyAt
          stats :=
            { s.stats with frames := s.stats.frames + 1, symbols := s.stats.symbols + m.length } }
  | sentinel {w w' : Window} : s.race = (.ok none, w) → w.pop = (.ok none, w') →
      Settles s (.frame (.sentinel s.position.line s.position.column)) { s with window := w' }
  | skip {c : Char} {w w' : Window} : s.race = (.ok none, w) → w.pop = (.ok (some c), w') →
      s.options.strict = false →
      Settles s (.skip c)
        { s with
          window := w'
          position := s.position.advance s.options.terminator c
          stats := { s.stats with skipped := s.stats.skipped + 1 } }
  | unrecognized {c : Char} {w w' : Window} : s.race = (.ok none, w) → w.pop = (.ok (some c), w') →
      s.options.strict = true →
      Settles s (.failed (.unrecognized c s.position)) { s with window := w' }
  | raceFailed {e : InputError} {w : Window} : s.race = (.error e, w) →
      Settles s (.failed (.input e)) { s with window := w }
  | popFailed {e : InputError} {w w' : Window} : s.race = (.ok none, w) → w.pop = (.error e, w') →
      Settles s (.failed (.input e)) { s with window := w' }

theorem settles (s : Scan) : s.Settles s.settle.1 s.settle.2 := by
  rw [settle, ← race]
  rcases hr : s.race with ⟨_ | _ | m, w⟩
  · exact .raceFailed hr
  · rcases hp : w.pop with ⟨_ | _ | c, w'⟩
    · simpa only [miss, hp] using .popFailed hr hp
    · simpa only [miss, hp] using .sentinel hr hp
    · cases hs : s.options.strict with
      | true => simpa only [miss, hp, hs, ite_true] using .unrecognized hr hp hs
      | false => simpa only [miss, hp, hs, Bool.false_eq_true, ite_false] using .skip hr hp hs
  · exact .token hr

theorem settles_of_eq {s t : Scan} {r : Settled} (h : s.settle = (r, t)) : s.Settles r t := by
  have := s.settles
  rwa [h] at this

theorem settle_of_settles {s t : Scan} {r : Settled} (h : s.Settles r t) : s.settle = (r, t) := by
  unfold settle
  rw [← race]
  cases h with
  | token hr => rw [hr]; rfl
  | raceFailed hr => rw [hr]
  | sentinel hr hp | popFailed hr hp => simp only [hr, miss, hp]
  | skip hr hp hs | unrecognized hr hp hs => simp [hr, miss, hp, hs]

/-- The frame or error of one call that is not made too late, and the scan behind it. -/
inductive Advances : Scan → Except ScanError Frame → Scan → Prop
  | frame {s t : Scan} {f : Frame} : s.Settles (.frame f) t →
      Advances s (.ok f) { t with done := f.isSentinel }
  | failed {s t : Scan} {e : ScanError} : s.Settles (.failed e) t →
      Advances s (.error e) { t with done := true }
  | skip {s t u : Scan} {c : Char} {r : Except ScanError Frame} : s.Settles (.skip c) t →
      Advances t r u → Advances s r u

theorem advances (s : Scan) (log : List ScanEvent) : s.Advances (s.advance log).1 (s.advance log).2.2 := by
  fun_induction advance s log with
  | case1 s log f t h => exact .frame (settles_of_eq h)
  | case2 s log e t h => exact .failed (settles_of_eq h)
  | case3 s log c t h ih => exact .skip (settles_of_eq h) ih

theorem next_of_done {s : Scan} (h : s.done = true) : s.next = (none, [], s) := by simp [next, h]

theorem next_of_live {s : Scan} (h : s.done = false) :
    ∃ r log t, s.next = (some r, log, t) ∧ s.Advances r t :=
  ⟨_, _, _, by rw [next, h]; rfl, s.advances []⟩

theorem advances_of_next {s t : Scan} {r : Except ScanError Frame} {log : List ScanEvent}
    (h : s.next = (some r, log, t)) : s.Advances r t := by
  cases hd : s.done with
  | true =>
    rw [next_of_done hd] at h
    cases h
  | false =>
    obtain ⟨r', log', t', hn, ha⟩ := next_of_live hd
    rw [h] at hn
    cases hn
    exact ha

/-! What the first place of a call comes to decides the call, but for a skip, which it reports. -/

theorem advance_settle (s : Scan) (log : List ScanEvent) :
    s.advance log =
      match s.settle with
      | (.frame f, t) => (.ok f, (report f t :: log).reverse, { t with done := f.isSentinel })
      | (.failed e, t) => (.error e, log.reverse, { t with done := true })
      | (.skip c, t) => t.advance (.skip c s.position :: log) := by
  rw [advance]
  split <;> simp [*]

theorem next_of_frame {s t : Scan} {f : Frame} (hd : s.done = false) (h : s.settle = (.frame f, t)) :
    s.next = (some (.ok f), [report f t], { t with done := f.isSentinel }) := by
  unfold next
  rw [hd, advance_settle, h]
  rfl

theorem next_of_failed {s t : Scan} {e : ScanError} (hd : s.done = false) (h : s.settle = (.failed e, t)) :
    s.next = (some (.error e), [], { t with done := true }) := by
  unfold next
  rw [hd, advance_settle, h]
  rfl

theorem log_advance (s : Scan) (log : List ScanEvent) : ∃ later, (s.advance log).2.1 = log.reverse ++ later := by
  fun_induction advance s log with
  | case1 s log f t h => exact ⟨[report f t], by simp⟩
  | case2 s log e t h => exact ⟨[], by simp⟩
  | case3 s log c t h ih =>
    obtain ⟨later, ih⟩ := ih
    exact ⟨.skip c s.position :: later, by simp [ih]⟩

theorem next_of_skip {s t : Scan} {c : Char} (hd : s.done = false) (h : s.settle = (.skip c, t)) :
    ∃ later, s.next.2.1 = .skip c s.position :: later := by
  obtain ⟨later, hl⟩ := t.log_advance [.skip c s.position]
  refine ⟨later, ?_⟩
  unfold next
  rw [hd, advance_settle, h]
  simpa using hl

/-! ## Many calls -/

def after (s : Scan) : Nat → Scan
  | 0 => s
  | n + 1 => s.next.2.2.after n

theorem after_of_done {s : Scan} (h : s.done = true) (n : Nat) : s.after n = s := by
  induction n with
  | zero => rfl
  | succ n ih => rw [after, next_of_done h, ih]

theorem results_of_done {s : Scan} (h : s.done = true) (n : Nat) : (s.results n).1 = [] := by
  cases n with
  | zero => rfl
  | succ n => simp [results, next_of_done h]

theorem results_next {s t : Scan} {r : Except ScanError Frame} {log : List ScanEvent}
    (h : s.next = (some r, log, t)) (n : Nat) :
    s.results (n + 1) = (r :: (t.results n).1, log ++ (t.results n).2) := by
  simp [results, h]

theorem results_succ {s t : Scan} {r : Except ScanError Frame} {log : List ScanEvent}
    (h : s.next = (some r, log, t)) (n : Nat) : (s.results (n + 1)).1 = r :: (t.results n).1 := by
  simp [results, h]

theorem after_snoc (s : Scan) (n : Nat) : s.after (n + 1) = (s.after n).next.2.2 := by
  induction n generalizing s with
  | zero => rfl
  | succ n ih => rw [after, ih, after]

theorem after_add (s : Scan) (n m : Nat) : s.after (n + m) = (s.after n).after m := by
  induction m with
  | zero => rfl
  | succ m ih => rw [← Nat.add_assoc, after_snoc, after_snoc, ih]

theorem results_add (s : Scan) (n m : Nat) :
    (s.results (n + m)).1 = (s.results n).1 ++ ((s.after n).results m).1 := by
  induction n generalizing s with
  | zero => rw [Nat.zero_add]; rfl
  | succ n ih =>
    cases hd : s.done with
    | true => simp [results_of_done hd, after_of_done hd]
    | false =>
      obtain ⟨r, log, t, hn, -⟩ := next_of_live hd
      rw [Nat.add_right_comm, results_succ hn, results_succ hn, ih, after, hn, List.cons_append]

theorem results_one (s : Scan) : (s.results 1).1 = s.next.1.toList := by
  cases hd : s.done with
  | true => rw [results_of_done hd, next_of_done hd]; rfl
  | false =>
    obtain ⟨r, log, t, hn, -⟩ := next_of_live hd
    rw [results_succ hn, hn]
    rfl

theorem results_snoc (s : Scan) (n : Nat) :
    (s.results (n + 1)).1 = (s.results n).1 ++ (s.after n).next.1.toList := by
  rw [results_add, results_one]

/-! ## What a call keeps -/

theorem settles_family {s t : Scan} {r : Settled} (h : s.Settles r t) : t.family = s.family := by
  cases h <;> rfl

theorem advances_family {s t : Scan} {r : Except ScanError Frame} (h : s.Advances r t) :
    t.family = s.family := by
  induction h with
  | frame h =>
    rw [← settles_family h]
  | failed h =>
    rw [← settles_family h]
  | skip h _ ih => rw [ih, settles_family h]

theorem next_family (s : Scan) : s.next.2.2.family = s.family := by
  cases hd : s.done with
  | true => rw [next_of_done hd]
  | false =>
    obtain ⟨r, log, t, hn, ha⟩ := next_of_live hd
    rw [hn]
    exact advances_family ha

theorem after_family (s : Scan) (n : Nat) : (s.after n).family = s.family := by
  induction n generalizing s with
  | zero => rfl
  | succ n ih => rw [after, ih, next_family]

theorem advances_done {s t : Scan} {r : Except ScanError Frame} (h : s.Advances r t) {f : Frame}
    (hr : r = .ok f) : t.done = f.isSentinel := by
  induction h with
  | frame => cases hr; rfl
  | failed => cases hr
  | skip _ _ ih => exact ih hr

theorem done_of_next {s t : Scan} {f : Frame} {log : List ScanEvent} (h : s.next = (some (.ok f), log, t)) :
    t.done = f.isSentinel := advances_done (advances_of_next h) rfl

theorem done_of_error {s t : Scan} {r : Except ScanError Frame} (h : s.Advances r t) {e : ScanError}
    (hr : r = .error e) : t.done = true := by
  induction h with
  | frame => cases hr
  | failed => rfl
  | skip _ _ ih => exact ih hr

theorem live_of_next {s : Scan} {r : Except ScanError Frame} (h : s.next.1 = some r) : s.done = false := by
  cases hd : s.done with
  | false => rfl
  | true =>
    rw [next_of_done hd] at h
    cases h

end Munch.Scan
