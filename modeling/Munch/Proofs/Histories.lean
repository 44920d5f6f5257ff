import Mathlib.Data.List.Basic
import Munch.Proofs.Stack

/-!
# What the answers say of a level

`Latest` says which frame an open level gave last, and `Spent` that a level was opened below
for it: one that has answered since. `Knows` ties the level to them, call by call.
-/

namespace Munch.Stream

/-- What a scan has given: a frame, or its error. -/
def FromScan (r : Except StreamError Frame) : Prop := (∃ f, r = .ok f) ∨ ∃ e, r = .error (.scan e)

/-- The open level gave `f` last. Since then no level above was asked, and the others gave
`behind`. -/
def Latest (level : Nat) (history : List (Nat × Except StreamError Frame)) (f : Frame)
    (behind : List (Nat × Except StreamError Frame)) : Prop :=
  (∃ before, history = before ++ (level, .ok f) :: behind) ∧
    ∀ a ∈ behind, level ≤ a.1 ∧ ∀ g, a ≠ (level, .ok g)

/-- The level below was opened: it has answered. -/
def Opened (level : Nat) (behind : List (Nat × Except StreamError Frame)) : Prop :=
  ∃ a ∈ behind, a.1 = level + 1 ∧ FromScan a.2

def Spent (level : Nat) (history : List (Nat × Except StreamError Frame)) : Prop :=
  ∃ f behind, Latest level history f behind ∧ Opened level behind

/-- The level is as the answers say. -/
structure Tells (level : Nat) (history : List (Nat × Except StreamError Frame)) (l : Level) : Prop where
  last : ∀ f, l.last = some f ↔ ∃ behind, Latest level history f behind
  mark : l.expanded = true ↔ Spent level history

/-- An open level is as the answers say, and one that was closed has come to its own end. -/
structure Knows (level : Nat) (history : List (Nat × Except StreamError Frame)) (s : Stream) : Prop where
  tells : ∀ l, levelAt? s.levels level = some l → Tells level history l
  shut : s.depth ≤ level → ∀ f behind, Latest level history f behind →
    ∃ m outer, s.levels = m :: outer ∧ m.expanded = true

section
variable {level k : Nat} {history : List (Nat × Except StreamError Frame)} {r : Except StreamError Frame}

theorem latest_snoc (f : Frame) (behind : List (Nat × Except StreamError Frame)) :
    Latest level (history ++ [(k, r)]) f behind ↔
      (k = level ∧ r = .ok f ∧ behind = []) ∨
        ∃ behind', behind = behind' ++ [(k, r)] ∧ Latest level history f behind' ∧
          level ≤ k ∧ ∀ g, (k, r) ≠ (level, .ok g) := by
  constructor
  · rintro ⟨⟨before, heq⟩, hall⟩
    rcases behind.eq_nil_or_concat' with rfl | ⟨behind, a, rfl⟩
    · have hlast := (List.append_inj' heq rfl).2
      simp only [List.cons.injEq, Prod.mk.injEq, and_true] at hlast
      exact Or.inl ⟨hlast.1, hlast.2, rfl⟩
    · rw [← List.cons_append, ← List.append_assoc] at heq
      obtain ⟨hbefore, ha⟩ := List.append_inj' heq rfl
      rw [List.singleton_inj] at ha
      subst ha
      have hk := hall (k, r) (by simp)
      exact Or.inr ⟨behind, rfl, ⟨⟨before, hbefore⟩, fun a ha => hall a (List.mem_append_left _ ha)⟩, hk⟩
  · rintro (⟨rfl, rfl, rfl⟩ | ⟨behind', rfl, ⟨⟨before, rfl⟩, hall⟩, hk⟩)
    · exact ⟨⟨history, rfl⟩, by simp⟩
    · refine ⟨⟨before, by simp⟩, fun a ha => ?_⟩
      rcases List.mem_append.mp ha with ha | ha
      · exact hall a ha
      · rw [List.mem_singleton.mp ha]
        exact hk

theorem latest_snoc_of_ne (hk : level ≤ k) (hne : ∀ g, (k, r) ≠ (level, .ok g)) (f : Frame)
    (behind : List (Nat × Except StreamError Frame)) :
    Latest level (history ++ [(k, r)]) f behind ↔
      ∃ behind', behind = behind' ++ [(k, r)] ∧ Latest level history f behind' := by
  rw [latest_snoc]
  constructor
  · rintro (⟨rfl, rfl, -⟩ | ⟨behind', heq, hl, -⟩)
    · exact absurd rfl (hne f)
    · exact ⟨behind', heq, hl⟩
  · rintro ⟨behind', heq, hl⟩
    exact Or.inr ⟨behind', heq, hl, hk, hne⟩

theorem opened_snoc (behind : List (Nat × Except StreamError Frame)) :
    Opened level (behind ++ [(k, r)]) ↔ Opened level behind ∨ k = level + 1 ∧ FromScan r := by
  simp [Opened, or_and_right, exists_or]

theorem delivered_between {later behind : List (Nat × Except StreamError Frame)} {f : Frame} (hr : FromScan r)
    (hl : Latest level (history ++ (level + 1, r) :: later) f behind) (hn : ¬ Opened level behind) :
    (level, .ok f) ∈ later := by
  obtain ⟨⟨before, heq⟩, -⟩ := hl
  have hne : (level, .ok f) :: behind ≠ (level + 1, r) :: later := by
    intro h
    rw [List.cons.injEq, Prod.mk.injEq] at h
    omega
  have hs : (level, .ok f) :: behind <:+ history ++ (level + 1, r) :: later := ⟨before, heq.symm⟩
  rcases List.suffix_or_suffix_of_suffix hs (List.suffix_append history _) with h | h
  · rcases List.suffix_cons_iff.mp h with h | h
    · exact absurd h hne
    · exact h.subset List.mem_cons_self
  · rcases List.suffix_cons_iff.mp h with h | h
    · exact absurd h.symm hne
    · exact absurd ⟨_, h.subset List.mem_cons_self, rfl, hr⟩ hn

/-! ## One answer more -/

theorem Tells.keeps {l : Level} (h : Tells level history l) (hk : level ≤ k) (hne : ∀ g, (k, r) ≠ (level, .ok g))
    (scan : Scan) (b : Bool)
    (hb : b = true ↔ l.expanded = true ∨ k = level + 1 ∧ FromScan r ∧ ∃ f, l.last = some f) :
    Tells level (history ++ [(k, r)]) { l with scan, expanded := b } := by
  have hlatest : ∀ f behind, Latest level (history ++ [(k, r)]) f behind ↔
      ∃ behind', behind = behind' ++ [(k, r)] ∧ Latest level history f behind' := latest_snoc_of_ne hk hne
  constructor
  · intro f
    simp only [h.last f, hlatest]
    constructor
    · rintro ⟨behind, hl⟩
      exact ⟨_, behind, rfl, hl⟩
    · rintro ⟨_, behind, _, hl⟩
      exact ⟨behind, hl⟩
  · simp only [hb, h.mark, h.last, Spent, hlatest]
    constructor
    · rintro (⟨f, behind, hl, ho⟩ | ⟨heq, hr, f, behind, hl⟩)
      · exact ⟨f, _, ⟨behind, rfl, hl⟩, (opened_snoc behind).mpr (Or.inl ho)⟩
      · exact ⟨f, _, ⟨behind, rfl, hl⟩, (opened_snoc behind).mpr (Or.inr ⟨heq, hr⟩)⟩
    · rintro ⟨f, _, ⟨behind, rfl, hl⟩, ho⟩
      rcases (opened_snoc behind).mp ho with ho | ⟨heq, hr⟩
      · exact Or.inl ⟨f, behind, hl, ho⟩
      · exact Or.inr ⟨heq, hr, f, behind, hl⟩

theorem Tells.below {l : Level} (h : Tells level history l) (hk : level < k) (b : Bool)
    (hb : b = true ↔ l.expanded = true ∨ k = level + 1 ∧ FromScan r ∧ ∃ f, l.last = some f) :
    Tells level (history ++ [(k, r)]) { l with expanded := b } := by
  apply h.keeps (Nat.le_of_lt hk) ?_ l.scan b hb
  intro g heq
  rw [Prod.mk.injEq] at heq
  omega

theorem Tells.failed {l : Level} (h : Tells level history l) (e : StreamError) (scan : Scan) :
    Tells level (history ++ [(level, .error e)]) { l with scan } := by
  apply h.keeps (Nat.le_refl level) ?_ scan l.expanded
  · simp
  · intro g heq
    cases heq

theorem tells_delivered (f : Frame) (scan : Scan) :
    Tells level (history ++ [(level, .ok f)]) ⟨scan, some f, false⟩ := by
  have hlatest : ∀ g behind, Latest level (history ++ [(level, .ok f)]) g behind ↔ f = g ∧ behind = [] := by
    intro g behind
    rw [latest_snoc]
    simp
  constructor
  · intro g
    simp [hlatest]
  · simp [Spent, hlatest, Opened]

theorem tells_fresh (h : ∀ f behind, ¬ Latest level history f behind) (scan : Scan) :
    Tells level history (Level.ofScan scan) := by
  constructor
  · intro f
    simp [Level.ofScan, h]
  · simp [Level.ofScan, Spent, h]

variable {family : Family} {options : Options} {feed : Feed} {s t u : Stream}

theorem not_fromScan_of_refuses {e : StreamError} (h : s.Refuses k e) : ¬ FromScan (.error e) := by
  rintro (⟨f, hf⟩ | ⟨g, hg⟩)
  · cases hf
  · cases h <;> cases hg

theorem fromScan_of_pulls {l : Level} {outer : List Level} (hl : s.levels = l :: outer) (hd : l.scan.done = false)
    (hp : s.Pulls r t) : FromScan r := by
  cases hp with
  | exhausted hl' hn =>
    rw [hl] at hl'
    cases hl'
    obtain ⟨r, log, scan, hn', -⟩ := Scan.next_of_live hd
    rw [hn] at hn'
    cases hn'
  | failed => exact Or.inr ⟨_, rfl⟩
  | token | finished | closed => exact Or.inl ⟨_, rfl⟩

theorem Knows.reaches (h : Knows level history s) (hr : s.Reaches level u) {l : Level} {outer : List Level}
    (hu : u.levels = l :: outer) : Tells level history l := by
  by_cases hd : s.depth ≤ level
  · obtain ⟨scan, outer', hu', -⟩ := fresh_of_reaches hd hr
    rw [hu] at hu'
    cases hu'
    apply tells_fresh
    intro f behind hl
    -- the level was closed by its own end, and the frame above it is not opened twice
    obtain ⟨m, outer', hm, he⟩ := h.shut hd f behind hl
    exact not_reaches_of_expanded hm he hd hr
  · obtain ⟨l', hl'⟩ := exists_levelAt? (Nat.lt_of_not_le hd)
    obtain ⟨outer', hu', -⟩ := reaches_open hr hl'
    rw [hu] at hu'
    cases hu'
    exact h.tells l hl'

theorem Knows.below (hs : s.Stands family options feed) (h : Knows level history s) (hk : level < k)
    (hr : s.Reaches k u) (hp : u.Pulls r t) {l : Level} (hl : levelAt? t.levels level = some l) :
    Tells level (history ++ [(k, r)]) l := by
  obtain ⟨m, outer, hu, hlen⟩ := reaches_length hr
  obtain ⟨l', hl'⟩ := exists_levelAt? (hlen.symm ▸ hk : level < outer.length)
  have hsame := pulls_below hp hu hl'
  rw [hl] at hsame
  cases hsame
  have hopen : levelAt? s.levels level = some l → l ∈ s.levels.tail → Tells level (history ++ [(k, r)]) l := by
    intro hsl hmem
    have he := (hs.above l hmem).1
    exact (h.tells l hsl).below hk l.expanded (by simp [he])
  cases hr with
  | @back inner outer' m' hs' =>
    cases hu
    apply hopen
    · rw [hs', levelAt?_append inner (Nat.lt_succ_of_lt hk), levelAt?_cons_of_lt hk, hl']
    · have hmem := levelAt?_mem hl'
      rw [hs']
      cases inner with
      | nil => exact hmem
      | cons n inner => exact List.mem_append_right inner (List.mem_cons_of_mem m hmem)
  | input => omega
  | @nested n outer' _ _ _ hs' he hn =>
    cases hu
    by_cases heq : outer'.length = level
    · -- the level is opened by this call, for the frame that it gave last
      rw [levelAt?, if_pos heq] at hl'
      cases hl'
      obtain ⟨rule, line, column, -, hlast, -⟩ := Level.nested?_eq_some hn
      have htell := h.tells n (by rw [hs', ← heq, levelAt?_self])
      apply htell.below hk true
      simp [heq, hlast, fromScan_of_pulls rfl rfl hp]
    · rw [levelAt?, if_neg heq] at hl'
      apply hopen
      · rw [hs', levelAt?, if_neg heq, hl']
      · rw [hs']
        exact levelAt?_mem hl'

theorem Knows.tells_answers (hs : s.Stands family options feed) (h : Knows level history s) (ha : s.Answers k r t)
    {l : Level} (hl : levelAt? t.levels level = some l) : Tells level (history ++ [(k, r)]) l := by
  have hlt := levelAt?_lt hl
  cases ha with
  | refused hr =>
    have hk : level < k := by
      rw [← depth] at hlt
      cases hr <;> omega
    exact (h.tells l hl).below hk l.expanded (by simp [not_fromScan_of_refuses hr])
  | asked hr hp =>
    have hd := depth_le_of_asked hr hp
    rcases Nat.lt_trichotomy level k with hk | rfl | hk
    · exact h.below hs hk hr hp hl
    · obtain ⟨m, outer, hu, hlen⟩ := reaches_length hr
      have htell := h.reaches hr hu
      cases hp with
      | exhausted hu' | failed hu' =>
        rw [hu] at hu'
        cases hu'
        rw [← hlen, levelAt?_self] at hl
        cases hl
        exact htell.failed _ _
      | token hu' | finished hu' =>
        rw [hu] at hu'
        cases hu'
        rw [← hlen, levelAt?_self] at hl
        cases hl
        exact tells_delivered _ _
      | closed hu' =>
        rw [hu] at hu'
        cases hu'
        exact absurd hlt (by rw [hlen]; exact Nat.lt_irrefl _)
    · rw [depth] at hd
      omega

theorem Knows.shut_answers (hs : s.Stands family options feed) (h : Knows level history s) (ha : s.Answers k r t)
    (hd : t.depth ≤ level) {f : Frame} {behind : List (Nat × Except StreamError Frame)}
    (hl : Latest level (history ++ [(k, r)]) f behind) : ∃ m outer, t.levels = m :: outer ∧ m.expanded = true := by
  rcases (latest_snoc f behind).mp hl with ⟨rfl, rfl, -⟩ | ⟨behind', -, hl', hk, hne⟩
  · cases ha with
    | asked hr hp =>
      obtain ⟨m, outer, hu, rfl⟩ := reaches_length hr
      cases hp with
      | token hu' | finished hu' =>
        rw [hu] at hu'
        cases hu'
        exact absurd hd (Nat.not_succ_le_self _)
      | @closed _ n _ _ _ _ hu' =>
        have habove := (hs.reaches hr).above n
        rw [hu'] at habove
        exact ⟨n, _, rfl, (habove List.mem_cons_self).1⟩
  · by_cases hlt : s.depth ≤ level
    · obtain ⟨m, outer, hm, he⟩ := h.shut hlt f behind' hl'
      cases ha with
      | refused => exact ⟨m, outer, hm, he⟩
      | asked hr => exact absurd hr (not_reaches_of_expanded hm he (Nat.le_trans hlt hk))
    · obtain ⟨l, hl⟩ := exists_levelAt? (Nat.lt_of_not_le hlt)
      have hserves : s.Serves level l.scan := .opened hl rfl
      rcases hserves.closes ha hk hd with hle | ⟨heq, g, hr, -⟩
      · exact absurd hle hlt
      · exact absurd (by rw [heq, hr]) (hne g)

theorem Knows.answers (hs : s.Stands family options feed) (h : Knows level history s) (ha : s.Answers k r t) :
    Knows level (history ++ [(k, r)]) t :=
  ⟨fun _ hl => h.tells_answers hs ha hl, fun hd _ _ hl => h.shut_answers hs ha hd hl⟩

theorem knows (family : Family) (options : Options) (feed : Feed) (calls : List Nat) (level : Nat) :
    Knows level ((ofFeed family options feed).answers calls) ((ofFeed family options feed).after calls) := by
  apply history_induction
  · constructor
    · intro l hl
      cases hl
    · rintro - f behind ⟨⟨before, hb⟩, -⟩
      simp at hb
  · intro history s k r t hs h ha
    exact h.answers hs ha

end

end Munch.Stream
