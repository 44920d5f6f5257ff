import Munch.Proofs.Lifetimes
import Munch.Proofs.Progress

/-!
# Whole scans

`Gives` tells what a scan gives in all, up to its sentinel or an error. That is no more than
`Scan.all` asks for, whatever its feed replies.
-/

namespace Munch.Scan

/-- Everything that a scan gives from here on. -/
inductive Gives : Scan → List (Except ScanError Frame) → Prop
  | failed {s t : Scan} {e : ScanError} {log : List ScanEvent} : s.next = (some (.error e), log, t) →
      t.done = true → Gives s [.error e]
  | sentinel {s t : Scan} {f : Frame} {log : List ScanEvent} : s.next = (some (.ok f), log, t) →
      f.isSentinel = true → Gives s [.ok f]
  | frame {s t : Scan} {f : Frame} {log : List ScanEvent} {items : List (Except ScanError Frame)} :
      s.next = (some (.ok f), log, t) → f.isSentinel = false → Gives t items → Gives s (.ok f :: items)

section
variable {s t : Scan} {items : List (Except ScanError Frame)}

theorem Gives.results (h : s.Gives items) (n : Nat) : (s.results n).1 = items.take n := by
  induction h generalizing n with
  | failed hn hdone =>
    cases n with
    | zero => rfl
    | succ n => rw [results_succ hn, results_of_done hdone, List.take_succ_cons, List.take_nil]
  | sentinel hn hf =>
    cases n with
    | zero => rfl
    | succ n => rw [results_succ hn, results_of_done ((done_of_next hn).trans hf), List.take_succ_cons, List.take_nil]
  | frame hn hf _ ih =>
    cases n with
    | zero => rfl
    | succ n => rw [results_succ hn, ih, List.take_succ_cons]

theorem Gives.last (h : s.Gives items) :
    ∃ (frames : List Frame) (last : Except ScanError Frame), items = frames.map .ok ++ [last] ∧
      (∀ f ∈ frames, f.isSentinel = false) ∧ ∀ f, last = .ok f → f.isSentinel = true := by
  induction h with
  | failed => exact ⟨[], _, rfl, by simp, fun _ h => by cases h⟩
  | sentinel _ hf => exact ⟨[], _, rfl, by simp, fun _ h => by cases h; exact hf⟩
  | @frame s t f log items _ hf _ ih =>
    obtain ⟨frames, last, rfl, hframes, hlast⟩ := ih
    exact ⟨f :: frames, last, rfl, List.forall_mem_cons.mpr ⟨hf, hframes⟩, hlast⟩

/-! ## The text of a frame is passed -/

theorem size_of_pop {w w' : Window} (h : w.pop = (.ok none, w')) : w'.size ≤ w.size := by
  unfold Window.pop at h
  split at h
  · cases h
  · split at h
    · cases h
      exact Nat.le_refl _
    · split at h
      · cases h
      · rename_i feed heq
        cases h
        obtain ⟨ahead, ended, ⟨pending, asked⟩⟩ := w
        cases pending <;> (cases heq; simp [Window.size])
      · cases h

theorem size_of_race (h : s.race = (r, w)) : w.size ≤ s.window.size := by
  have hsize := Window.size_race s.window s.family (s.emptyAt != some s.position.offset)
  rwa [← race, h] at hsize

theorem settles_size {r : Settled} (h : s.Settles r t) :
    match r with
    | .frame f => f.text.length + t.window.size ≤ s.window.size
    | .skip _ => t.window.size < s.window.size
    | .failed _ => True := by
  cases h with
  | @token m w hr =>
    have hle := Window.length_le_of_race hr
    have hsize := size_of_race hr
    simp only [Frame.text, Window.size, List.length_take_of_le hle, List.length_drop] at hsize ⊢
    omega
  | sentinel hr hpop =>
    have hsize := Nat.le_trans (size_of_pop hpop) (size_of_race hr)
    simpa [Frame.text] using hsize
  | skip hr hpop => exact Nat.lt_of_lt_of_le (Window.size_pop hpop) (size_of_race hr)
  | unrecognized | raceFailed | popFailed => trivial

theorem advances_size {r : Except ScanError Frame} (h : s.Advances r t) {f : Frame} (hr : r = .ok f) :
    f.text.length + t.window.size ≤ s.window.size := by
  induction h with
  | frame h =>
    cases hr
    exact settles_size h
  | failed => cases hr
  | skip h _ ih => exact Nat.le_trans (ih hr) (Nat.le_of_lt (settles_size h))

theorem size_of_next {log : List ScanEvent} {f : Frame} (h : s.next = (some (.ok f), log, t)) :
    f.text.length + t.window.size ≤ s.window.size := advances_size (advances_of_next h) rfl

theorem Gives.text_length_le (h : s.Gives items) {f : Frame} (hf : .ok f ∈ items) :
    f.text.length ≤ s.window.size := by
  induction h with
  | failed => cases List.mem_singleton.mp hf
  | sentinel hn =>
    cases List.mem_singleton.mp hf
    exact Nat.le_trans (Nat.le_add_right ..) (size_of_next hn)
  | frame hn _ _ ih =>
    have hsize := size_of_next hn
    rcases List.mem_cons.mp hf with heq | hf
    · cases heq
      omega
    · have := ih hf
      omega

/-! ## One place, one call -/

/-- Where an empty frame was cut the rules need nothing that is not ahead, and take nothing of it. -/
structure Fit (s : Scan) : Prop where
  behind : ∀ o, s.emptyAt = some o → o ≤ s.position.offset
  spent : s.emptyAt = some s.position.offset →
    (s.window.ended = true ∨ ¬ Survives s.family s.window.ahead) ∧ ∀ m, ¬ Candidate s.family s.window.ahead False m

/-- How many frames and errors there may be, for what is to come. -/
def allowance (s : Scan) : Nat := s.window.size + if s.emptyAt = some s.position.offset then 1 else 2

theorem allowance_pos (s : Scan) : s.window.size + 1 ≤ s.allowance := by
  unfold allowance
  split <;> omega

theorem allowance_le (s : Scan) : s.allowance ≤ s.window.size + 2 := by
  unfold allowance
  split <;> omega

theorem Fit.race (hs : s.Fit) (he : s.emptyAt = some s.position.offset) : s.race = (.ok none, s.window) := by
  obtain ⟨hstop, hnone⟩ := hs.spent he
  unfold Scan.race
  rw [he, bne_self_eq_false, Window.race_of_stopped hstop]
  have hbest := Race.isBest_finish s.family false s.window.ahead
  cases hb : ((Race.start s.family false).run s.window.ahead).finish.best with
  | none => rfl
  | some m =>
    rw [hb] at hbest
    exact absurd (hbest.1.mono Bool.false_ne_true) (hnone m)

theorem spent_of_race {m : Match} {w : Window} (hr : s.race = (.ok (some m), w)) (hm : m.length = 0) :
    (w.ended = true ∨ ¬ Survives s.family w.ahead) ∧ ∀ n, ¬ Candidate s.family w.ahead False n := by
  have hspec := Window.race_spec s.window s.family (s.emptyAt != some s.position.offset)
  rw [← Scan.race, hr] at hspec
  obtain ⟨-, hwin, hstuck⟩ := hspec
  have hbest := Race.isBest_finish s.family (s.emptyAt != some s.position.offset) w.ahead
  rw [← hwin] at hbest
  refine ⟨?_, no_candidate_of_empty hbest hm⟩
  cases he : w.ended with
  | true => exact Or.inl rfl
  | false => exact Or.inr fun hs => (live_ne_nil _).mpr hs (hstuck he)

theorem Fit.settles (hs : s.Fit) {r : Settled} (h : s.Settles r t) :
    match r with
    | .frame f => f.isSentinel = true ∨ f.isSentinel = false ∧ t.Fit ∧ t.allowance < s.allowance
    | .skip _ => t.Fit ∧ t.allowance ≤ s.allowance
    | .failed _ => True := by
  have hsize := settles_size h
  cases h with
  | sentinel => exact Or.inl rfl
  | unrecognized | raceFailed | popFailed => trivial
  | skip =>
    refine ⟨⟨fun o ho => ?_, fun he => ?_⟩, Nat.le_trans (allowance_le _) (Nat.le_trans ?_ (allowance_pos s))⟩
    · have := hs.behind o ho
      rw [Position.offset_advance]
      omega
    · have := hs.behind _ he
      rw [Position.offset_advance] at this
      omega
    · exact Nat.succ_le_succ hsize
  | @token m w hr =>
    have hlen := List.length_take_of_le (Window.length_le_of_race hr)
    have hne : s.emptyAt ≠ some s.position.offset := fun he => by cases (hs.race he).symm.trans hr
    have hoffset : (s.position.advanceAll s.options.terminator (w.ahead.take m.length)).offset =
        s.position.offset + m.length := by
      rw [Position.offset_advanceAll, hlen]
    have hfull : s.allowance = s.window.size + 2 := by rw [allowance, if_neg hne]
    simp only [Frame.text, hlen] at hsize
    refine Or.inr ⟨rfl, ⟨fun o ho => ?_, fun he => ?_⟩, ?_⟩
    · rw [hoffset]
      split at ho
      · cases ho
        exact Nat.le_add_right ..
      · exact Nat.le_add_right_of_le (hs.behind o ho)
    · rw [hoffset] at he
      split at he
      · rename_i h0
        simp only [h0, List.drop_zero]
        exact spent_of_race hr h0
      · have := hs.behind _ he
        omega
    · rw [hfull]
      by_cases h0 : m.length = 0
      · -- as much is to come as before, but no other frame begins here
        simp only [allowance, h0, Nat.add_zero, ite_true] at hsize hoffset ⊢
        rw [if_pos (congrArg some hoffset.symm)]
        omega
      · exact Nat.lt_of_le_of_lt (allowance_le _) (by dsimp only; omega)

theorem Fit.advances {r : Except ScanError Frame} (h : s.Advances r t) (hs : s.Fit) :
    match r with
    | .ok f => f.isSentinel = true ∨ f.isSentinel = false ∧ t.done = false ∧ t.Fit ∧ t.allowance < s.allowance
    | .error _ => t.done = true := by
  -- by the skips of the call, none of which adds to the allowance
  induction h with
  | frame h =>
    rcases hs.settles h with hf | ⟨hf, hfit, hlt⟩
    · exact Or.inl hf
    · exact Or.inr ⟨hf, hf, ⟨hfit.behind, hfit.spent⟩, hlt⟩
  | failed => rfl
  | @skip s t u c r h _ ih =>
    obtain ⟨hfit, hle⟩ := hs.settles h
    have hu := ih hfit
    cases r with
    | error e => exact hu
    | ok f => exact hu.imp_right fun ⟨hf, hdone, hfit, hlt⟩ => ⟨hf, hdone, hfit, Nat.lt_of_lt_of_le hlt hle⟩

theorem Fit.gives (hs : s.Fit) (hd : s.done = false) : ∃ items, s.Gives items ∧ items.length ≤ s.allowance := by
  induction hb : s.allowance using Nat.strongRecOn generalizing s with
  | ind b ih =>
    have hpos := allowance_pos s
    obtain ⟨r, log, t, hn, ha⟩ := next_of_live hd
    have ht := Fit.advances ha hs
    cases r with
    | error e => exact ⟨_, .failed hn ht, by rw [List.length_singleton]; omega⟩
    | ok f =>
      rcases ht with hf | ⟨hf, hdone, hfit, hlt⟩
      · exact ⟨_, .sentinel hn hf, by rw [List.length_singleton]; omega⟩
      · obtain ⟨items, hg, hle⟩ := ih _ (hb ▸ hlt) hfit hdone rfl
        exact ⟨_, .frame hn hf hg, by rw [List.length_cons]; omega⟩

end

theorem fit_ofFeed (family : Family) (options : Options) (feed : Feed) : (ofFeed family options feed).Fit where
  behind := by simp [ofFeed]
  spent := by simp [ofFeed]

theorem gives_all (family : Family) (options : Options) (feed : Feed) :
    (ofFeed family options feed).Gives (ofFeed family options feed).all.1 ∧
      (ofFeed family options feed).all.1.length ≤ feed.pending.length + 2 := by
  obtain ⟨items, hg, hle⟩ := (fit_ofFeed family options feed).gives rfl
  have hsize : (ofFeed family options feed).window.size = feed.pending.length := Nat.zero_add _
  have hlen : items.length ≤ feed.pending.length + 2 := hsize ▸ Nat.le_trans hle (allowance_le _)
  have hall : (ofFeed family options feed).all.1 = items := by
    rw [all, hg.results, hsize, List.take_of_length_le hlen]
  rw [hall]
  exact ⟨hg, hlen⟩

end Munch.Scan
