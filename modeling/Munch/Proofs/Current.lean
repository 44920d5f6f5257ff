import Mathlib.Data.List.Induction
import Munch.Proofs.Streams

/-!
# What the current frame is

The current frame is the last one of the deepest level that has delivered, until a call on a
level above fails and closes it. Only the next call that succeeds replaces the frame.
-/

namespace Munch.Stream

/-- The deepest level that has delivered a frame, and its last one. -/
def topOf : List Level → Option (Nat × Frame)
  | [] => none
  | l :: outer =>
    match l.last with
    | some f => some (outer.length, f)
    | none => topOf outer

def top (s : Stream) : Option (Nat × Frame) := topOf s.levels

section
variable {family : Family} {options : Options} {feed : Feed} {s t : Stream}

theorem topOf_lt : ∀ {levels : List Level} {x : Nat × Frame}, topOf levels = some x → x.1 < levels.length
  | [], _, h => by cases h
  | l :: outer, x, h => by
    rw [topOf] at h
    rw [List.length_cons]
    split at h
    · cases h
      exact Nat.lt_succ_self _
    · exact Nat.lt_succ_of_lt (topOf_lt h)

theorem topOf_append (inner outer : List Level)
    (h : ∀ x, topOf (inner ++ outer) = some x → x.1 < outer.length) :
    topOf (inner ++ outer) = topOf outer := by
  induction inner with
  | nil => rfl
  | cons l inner ih =>
    rw [List.cons_append, topOf] at h ⊢
    cases hl : l.last with
    | some f =>
      have := h _ (by rw [hl])
      simp only [List.length_append] at this
      omega
    | none =>
      rw [hl] at h
      exact ih h

theorem current_of_pulls (hs : s.Stands family options feed) {f : Frame} (h : s.Pulls (.ok f) t) :
    t.current = t.top.map Prod.snd := by
  cases h with
  | token => rfl
  | finished => rfl
  | @closed l m outer _ _ _ hl =>
    obtain ⟨_, g, hg⟩ := hs.above m (by rw [hl]; exact List.mem_cons_self)
    simp [top, topOf, hg]

theorem current_of_ok (hs : s.Stands family options feed) {level : Nat} {f : Frame}
    (h : s.Answers level (.ok f) t) : t.current = t.top.map Prod.snd := by
  cases h with
  | asked hr hp => exact current_of_pulls (hs.reaches hr) hp

/-! ## Calls that fail -/

theorem pulls_error {e : StreamError} (h : s.Pulls (.error e) t) :
    ∃ l outer scan, s.levels = l :: outer ∧ t = { s with levels := { l with scan } :: outer } := by
  cases h with
  | exhausted hl => exact ⟨_, _, _, hl, rfl⟩
  | failed hl => exact ⟨_, _, _, hl, rfl⟩

theorem current_of_error {level : Nat} {e : StreamError} (h : s.Answers level (.error e) t) :
    t.current = s.current := by
  cases h with
  | refused => rfl
  | asked hr hp =>
    obtain ⟨_, _, _, _, rfl⟩ := pulls_error hp
    cases hr <;> rfl

theorem top_of_error {level : Nat} {e : StreamError} (h : s.Answers level (.error e) t)
    (hle : ∀ x, s.top = some x → x.1 ≤ level) : t.top = s.top := by
  cases h with
  | refused => rfl
  | asked hr hp =>
    obtain ⟨l, outer, scan, hl, rfl⟩ := pulls_error hp
    have hsame : topOf ({ l with scan } :: outer) = topOf (l :: outer) := rfl
    rw [top, hsame, ← hl, top]
    cases hr with
    | @back inner outer l hl' =>
      rw [top, hl'] at hle
      rw [hl']
      refine (topOf_append inner _ fun x hx => ?_).symm
      exact Nat.lt_succ_of_le (hle x hx)
    | input _ hl' => rw [hl']; rfl
    | nested _ hl' => rw [hl']; rfl

def Shut (level : Nat) (s : Stream) : Prop :=
  ∃ l outer, s.levels = l :: outer ∧ l.expanded = true ∧ outer.length < level

theorem shut_of_error (hs : s.Stands family options feed) {level k : Nat} {e : StreamError}
    (h : s.Answers k (.error e) t) (hlt : level < s.depth) (hk : k < level) : t.Shut level := by
  cases h with
  | refused hr =>
    cases hr with
    | unopened hd => omega
    | tooDeep | noInput | expanded | noNested => omega
  | asked hr hp =>
    obtain ⟨l, outer, scan, hl, rfl⟩ := pulls_error hp
    cases hr with
    | @back inner outer' l' hl' =>
      cases hl
      rw [depth, hl', List.length_append, List.length_cons] at hlt
      refine ⟨_, _, rfl, ?_, hk⟩
      -- a level was open below the one that is asked, so that has opened its last frame
      cases inner with
      | nil => rw [List.length_nil] at hlt; omega
      | cons m inner => exact (hs.above l (by rw [hl']; simp)).1
    | input _ hl' => rw [depth, hl', List.length_nil] at hlt; omega
    | nested _ hl' => rw [depth, hl', List.length_cons] at hlt; omega

theorem Shut.of_error (hs : s.Stands family options feed) {level k : Nat} {e : StreamError}
    (h : s.Answers k (.error e) t) (hshut : s.Shut level) : t.Shut level := by
  obtain ⟨m, above, hm, he, hlt⟩ := hshut
  cases h with
  | refused => exact ⟨m, above, hm, he, hlt⟩
  | asked hr hp =>
    obtain ⟨l, outer, scan, hl, rfl⟩ := pulls_error hp
    cases hr with
    | @back inner outer' l' hl' =>
      cases hl
      rw [hm] at hl'
      cases inner with
      | nil =>
        cases hl'
        exact ⟨_, _, rfl, he, hlt⟩
      | cons n inner =>
        rw [List.cons_append, List.cons.injEq] at hl'
        obtain ⟨rfl, rfl⟩ := hl'
        refine ⟨_, _, rfl, (hs.above l (by rw [hm]; simp)).1, ?_⟩
        simp only [List.length_append, List.length_cons] at hlt
        omega
    | input _ hl' => rw [hm] at hl'; cases hl'
    | nested _ hl' he' =>
      rw [hm] at hl'
      cases hl'
      rw [he] at he'
      cases he'

/-! ## Runs -/

/-- What the calls `behind` leave of a top, if they all fail. -/
def Keeps (before : Option (Nat × Frame)) (behind : List Nat) (s : Stream) : Prop :=
  match before with
  | none => s.top = none
  | some (level, f) => if ∃ k ∈ behind, k < level then s.Shut level else s.top = some (level, f)

theorem Keeps.of_error (hs : s.Stands family options feed) {before : Option (Nat × Frame)}
    {behind : List Nat} {k : Nat} {e : StreamError} (h : Keeps before behind s)
    (ha : s.Answers k (.error e) t) : Keeps before (behind ++ [k]) t := by
  rcases before with _ | ⟨level, f⟩
  · simp only [Keeps] at h ⊢
    rw [top_of_error ha (by simp [h]), h]
  · simp only [Keeps] at h ⊢
    by_cases hout : ∃ k ∈ behind, k < level
    · rw [if_pos hout] at h
      obtain ⟨j, hj, hlt⟩ := hout
      rw [if_pos ⟨j, List.mem_append_left _ hj, hlt⟩]
      exact h.of_error hs ha
    · rw [if_neg hout] at h
      by_cases hk : k < level
      · rw [if_pos ⟨k, by simp, hk⟩]
        exact shut_of_error hs ha (topOf_lt h) hk
      · rw [if_neg, top_of_error ha, h]
        · intro x hx
          rw [h, Option.some.injEq] at hx
          rw [← hx]
          exact Nat.le_of_not_lt hk
        · rintro ⟨j, hj, hlt⟩
          rcases List.mem_append.mp hj with hj | hj
          · exact hout ⟨j, hj, hlt⟩
          · rw [List.mem_singleton.mp hj] at hlt
            exact hk hlt

theorem Keeps.refl (s : Stream) : Keeps s.top [] s := by
  rcases h : s.top with _ | ⟨level, f⟩
  · exact h
  · simp [Keeps, h]

theorem depth_le_of_shut {level : Nat} (h : s.Shut level) : s.depth ≤ level := by
  obtain ⟨l, outer, hl, _, hlt⟩ := h
  rw [depth, hl]
  exact hlt

theorem exists_keeps (hs : s.Stands family options feed) (h0 : s.current = s.top.map Prod.snd)
    (calls : List Nat) :
    ∃ before behind, calls = before ++ behind ∧
      (∀ a ∈ (s.answers before).getLast?, ∃ f, a.2 = .ok f) ∧
      (∀ a ∈ (s.after before).answers behind, ∃ e, a.2 = .error e) ∧
      (s.after calls).current = (s.after before).top.map Prod.snd ∧
      Keeps (s.after before).top behind (s.after calls) := by
  induction calls using List.reverseRecOn with
  | nil => exact ⟨[], [], rfl, by simp [answers], by simp [answers], h0, Keeps.refl _⟩
  | append_singleton calls k ih =>
    obtain ⟨before, behind, heq, hlast, hfail, hcur, hkeep⟩ := ih
    have hs' := hs.after calls
    have ha := (s.after calls).answers_next k
    have hafter : s.after (calls ++ [k]) = ((s.after calls).next k).2.2 := after_append ..
    rw [← hafter] at ha
    rcases hr : ((s.after calls).next k).1 with e | f
    · rw [hr] at ha
      refine ⟨before, behind ++ [k], by rw [heq, List.append_assoc], hlast, ?_, ?_, hkeep.of_error hs' ha⟩
      · rw [answers_append, ← after_append, ← heq]
        intro a hm
        rcases List.mem_append.mp hm with hm | hm
        · exact hfail a hm
        · rw [answers, answers, List.mem_singleton] at hm
          exact ⟨e, by rw [hm, hr]⟩
      · rw [current_of_error ha, hcur]
    · rw [hr] at ha
      refine ⟨calls ++ [k], [], by simp, ?_, by simp [answers], current_of_ok hs' ha, Keeps.refl _⟩
      intro a hm
      rw [answers_append, answers, answers, List.getLast?_concat, Option.mem_some_iff] at hm
      exact ⟨f, by rw [← hm, hr]⟩

end

/-- **The current frame.** It is the last frame of the deepest level that had delivered when a call
succeeded for the last time, even if a call above has failed since then and closed that level. -/
theorem current_spec (family : Family) (options : Options) (feed : Feed) (calls : List Nat) :
    let start := ofFeed family options feed
    ∃ before behind, calls = before ++ behind ∧
      (∀ a ∈ (start.answers before).getLast?, ∃ f, a.2 = .ok f) ∧
      (∀ a ∈ (start.after before).answers behind, ∃ e, a.2 = .error e) ∧
      match (start.after before).top with
      | none => (start.after calls).current = none ∧ (start.after calls).top = none
      | some (level, f) =>
        (start.after calls).current = some f ∧
          if ∃ k ∈ behind, k < level then (start.after calls).depth ≤ level
          else (start.after calls).top = some (level, f) := by
  intro start
  have hs : start.Stands family options feed := stands_ofFeed
  obtain ⟨before, behind, heq, hlast, hfail, hcur, hkeep⟩ := exists_keeps hs rfl calls
  refine ⟨before, behind, heq, hlast, hfail, ?_⟩
  rcases htop : (start.after before).top with _ | ⟨level, f⟩
  · rw [htop] at hcur hkeep
    exact ⟨hcur, hkeep⟩
  · rw [htop] at hcur hkeep
    refine ⟨hcur, ?_⟩
    simp only [Keeps] at hkeep
    split
    · rw [if_pos ‹_›] at hkeep
      exact depth_le_of_shut hkeep
    · rwa [if_neg ‹_›] at hkeep

/-- The third call closes level 1, fails, and leaves the frame of that level behind. -/
theorem current_stale :
    let s := (ofFeed pairs ⟨'\n', true, 32⟩ (Feed.ofText ['a', 'b', '?'])).after [0, 1, 0]
    s.depth = 1 ∧ s.top = some (0, .token 0 ['a', 'b'] 0 0) ∧ s.current = some (.token 0 ['a'] 0 0) ∧
      s.current ≠ s.top.map Prod.snd := by
  decide +kernel

end Munch.Stream
