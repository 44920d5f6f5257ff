import Mathlib.Data.Nat.Find
import Munch.Proofs.Calls

/-!
# Strict scans

A strict scan does what the lenient one does until that skips a symbol for the first time.
This symbol it refuses, and is done.
-/

namespace Munch

def ScanEvent.skip? : ScanEvent → Option (Char × Position)
  | .skip c p => some (c, p)
  | _ => none

namespace Scan

def tightened (s : Scan) : Scan := { s with options := { s.options with strict := true } }

def Skips (s : Scan) : Prop := s.done = false ∧ ∃ c t, s.settle = (.skip c, t)

section
variable {s t : Scan}

theorem settles_tightened {r : Settled} (h : s.Settles r t) (hr : ∀ c, r ≠ .skip c) :
    s.tightened.Settles r t.tightened := by
  cases h with
  | token hrace => exact .token (s := s.tightened) hrace
  | sentinel hrace hpop => exact .sentinel (s := s.tightened) hrace hpop
  | skip => exact absurd rfl (hr _)
  | unrecognized hrace hpop => exact .unrecognized (s := s.tightened) hrace hpop rfl
  | raceFailed hrace => exact .raceFailed (s := s.tightened) hrace
  | popFailed hrace hpop => exact .popFailed (s := s.tightened) hrace hpop

theorem settles_refused {c : Char} (h : s.Settles (.skip c) t) :
    ∃ w, s.tightened.Settles (.failed (.unrecognized c s.position)) { s.tightened with window := w } := by
  cases h with
  | skip hrace hpop => exact ⟨_, .unrecognized (s := s.tightened) hrace hpop rfl⟩

theorem skipped_of_settles {r : Settled} (h : s.Settles r t) (hr : ∀ c, r ≠ .skip c) :
    t.stats.skipped = s.stats.skipped := by
  cases h with
  | skip => exact absurd rfl (hr _)
  | token | sentinel | unrecognized | raceFailed | popFailed => rfl

theorem skip?_report (f : Frame) (t : Scan) : (report f t).skip? = none := by
  unfold report
  split <;> rfl

theorem next_tightened (h : ¬ s.Skips) :
    s.tightened.next = (s.next.1, s.next.2.1, s.next.2.2.tightened) ∧
      s.next.2.1.filterMap ScanEvent.skip? = [] ∧ s.next.2.2.stats.skipped = s.stats.skipped := by
  by_cases hd : s.done = true
  · have hd' : s.tightened.done = true := hd
    rw [next_of_done hd, next_of_done hd']
    exact ⟨rfl, rfl, rfl⟩
  · rw [Bool.not_eq_true] at hd
    have hd' : s.tightened.done = false := hd
    rcases hset : s.settle with ⟨r, t⟩
    have hs := settles_of_eq hset
    cases r with
    | frame f =>
      have hr : ∀ c, Settled.frame f ≠ .skip c := fun _ => Settled.noConfusion
      have hskipped := skipped_of_settles hs hr
      rw [next_of_frame hd hset, next_of_frame hd' (settle_of_settles (settles_tightened hs hr))]
      exact ⟨rfl, by simp [skip?_report], hskipped⟩
    | failed e =>
      have hr : ∀ c, Settled.failed e ≠ .skip c := fun _ => Settled.noConfusion
      have hskipped := skipped_of_settles hs hr
      rw [next_of_failed hd hset, next_of_failed hd' (settle_of_settles (settles_tightened hs hr))]
      exact ⟨rfl, rfl, hskipped⟩
    | skip c => exact absurd ⟨hd, c, t, hset⟩ h

theorem next_refused (h : s.Skips) :
    ∃ c later u, s.next.2.1 = .skip c s.position :: later ∧
      s.tightened.next = (some (.error (.unrecognized c s.position)), [], u) ∧ u.done = true ∧
      u.position = s.position ∧ u.stats = s.stats := by
  obtain ⟨hd, c, t, hset⟩ := h
  obtain ⟨later, hlog⟩ := next_of_skip hd hset
  obtain ⟨w, hw⟩ := settles_refused (settles_of_eq hset)
  have hd' : s.tightened.done = false := hd
  exact ⟨c, later, _, hlog, next_of_failed hd' (settle_of_settles hw), rfl, rfl, rfl⟩

theorem results_tightened {n : Nat} (h : ∀ k < n, ¬ (s.after k).Skips) :
    s.tightened.results n = s.results n ∧ s.tightened.after n = (s.after n).tightened ∧
      (s.results n).2.filterMap ScanEvent.skip? = [] ∧ (s.after n).stats.skipped = s.stats.skipped := by
  induction n generalizing s with
  | zero => exact ⟨rfl, rfl, rfl, rfl⟩
  | succ n ih =>
    have hfirst : ¬ s.Skips := h 0 (Nat.succ_pos n)
    obtain ⟨hn, hlog, hskipped⟩ := next_tightened hfirst
    obtain ⟨h1, h2, h3, h4⟩ := @ih s.next.2.2 fun k hk => h (k + 1) (Nat.succ_lt_succ hk)
    have hafter : s.tightened.after (n + 1) = s.next.2.2.tightened.after n := by rw [after, hn]
    refine ⟨?_, by rw [hafter, h2, after], ?_, by rw [after, h4, hskipped]⟩
    · rcases hs : s.next with ⟨_ | r, log, t⟩
      · rw [hs] at hn
        simp [results, hn, hs]
      · rw [hs] at hn h1
        rw [results_next hn, results_next hs, h1]
    · rcases hs : s.next with ⟨_ | r, log, t⟩
      · rw [hs] at hlog
        simpa [results, hs] using hlog
      · rw [hs] at hlog h3
        rw [results_next hs, List.filterMap_append, hlog, h3]
        rfl

theorem results_refused {k : Nat} (hk : ∀ j < k, ¬ (s.after j).Skips) (h : (s.after k).Skips) :
    ∃ c later, (s.after k).next.2.1 = .skip c (s.after k).position :: later ∧
      ∀ n, k < n → (s.tightened.results n).1 =
          (s.results k).1 ++ [.error (.unrecognized c (s.after k).position)] ∧
        (s.tightened.after n).position = (s.after k).position ∧
        (s.tightened.after n).stats = (s.after k).stats ∧
        (s.tightened.after n).next = (none, [], s.tightened.after n) := by
  obtain ⟨c, later, u, hlog, hn, hdone, hposition, hstats⟩ := next_refused h
  refine ⟨c, later, hlog, fun n hkn => ?_⟩
  obtain ⟨hresults, hafter, -, -⟩ := results_tightened hk
  obtain ⟨m, rfl⟩ : ∃ m, n = k + (m + 1) := ⟨n - (k + 1), by omega⟩
  have hu : s.tightened.after (k + (m + 1)) = u := by
    rw [after_add, hafter, after, hn, after_of_done hdone]
  rw [hu, results_add, hafter, results_succ hn, results_of_done hdone, hresults]
  exact ⟨rfl, hposition, hstats, next_of_done hdone⟩

end

end Scan

/-- **Strict scans.** The strict scan does what the lenient one does until that skips for the first
time. With that call it refuses the first symbol skipped, and gives nothing more. -/
theorem strict_cut (family : Family) (terminator : Char) (maxDepth : Nat) (feed : Feed) :
    let lenient := Scan.ofFeed family ⟨terminator, false, maxDepth⟩ feed
    let strict := Scan.ofFeed family ⟨terminator, true, maxDepth⟩ feed
    (∀ n, (lenient.results n).2.filterMap ScanEvent.skip? = [] ∧ strict.results n = lenient.results n ∧
      strict.after n = (lenient.after n).tightened) ∨
    ∃ k c later,
      (∀ n ≤ k, (lenient.results n).2.filterMap ScanEvent.skip? = [] ∧ strict.results n = lenient.results n ∧
        strict.after n = (lenient.after n).tightened) ∧
      (lenient.after k).next.2.1 = .skip c (lenient.after k).position :: later ∧
      (lenient.after k).stats.skipped = 0 ∧
      ∀ n, k < n →
        (strict.results n).1 = (lenient.results k).1 ++ [.error (.unrecognized c (lenient.after k).position)] ∧
          (strict.after n).position = (lenient.after k).position ∧
          (strict.after n).stats = (lenient.after k).stats ∧
          (strict.after n).next = (none, [], strict.after n) := by
  intro lenient strict
  have hstrict : strict = lenient.tightened := rfl
  have hsame : ∀ n, (∀ k < n, ¬ (lenient.after k).Skips) →
      (lenient.results n).2.filterMap ScanEvent.skip? = [] ∧ strict.results n = lenient.results n ∧
        strict.after n = (lenient.after n).tightened := by
    intro n h
    obtain ⟨h1, h2, h3, -⟩ := Scan.results_tightened h
    exact ⟨h3, hstrict ▸ h1, hstrict ▸ h2⟩
  by_cases hskip : ∃ k, (lenient.after k).Skips
  · classical
    have hfirst : ∀ j < Nat.find hskip, ¬ (lenient.after j).Skips := fun j hj => Nat.find_min hskip hj
    obtain ⟨c, later, hlog, hrest⟩ := Scan.results_refused hfirst (Nat.find_spec hskip)
    refine Or.inr ⟨Nat.find hskip, c, later, fun n hn => hsame n fun j hj => hfirst j (by omega), hlog, ?_, hrest⟩
    exact (Scan.results_tightened hfirst).2.2.2
  · exact Or.inl fun n => hsame n fun k _ hk => hskip ⟨k, hk⟩

end Munch
