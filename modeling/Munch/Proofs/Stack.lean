import Munch.Proofs.Levels

/-!
# What the stack of a stream is made of

Each level below the first was opened for the last frame of the one above it, and has asked
the scan of that frame's text for some things, none of which was the sentinel.
-/

namespace Munch

namespace Level

structure Ran (start : Scan) (n : Nat) (l : Level) : Prop where
  scan : l.scan = start.after n
  last : l.last = ((start.results n).1.filterMap Except.toOption).getLast?

section
variable {start scan : Scan} {n : Nat} {l : Level} {log : List ScanEvent}

theorem ran_ofScan (start : Scan) : (ofScan start).Ran start 0 := ⟨rfl, rfl⟩

theorem Ran.ok (h : l.Ran start n) {f : Frame} (hn : l.scan.next = (some (.ok f), log, scan)) (expanded : Bool) :
    Ran start (n + 1) ⟨scan, some f, expanded⟩ := by
  rw [h.scan] at hn
  refine ⟨by rw [Scan.after_snoc, hn], ?_⟩
  rw [Scan.results_snoc, hn]
  simp [Except.toOption]

theorem Ran.failed (h : l.Ran start n) {e : ScanError} (hn : l.scan.next = (some (.error e), log, scan)) :
    Ran start (n + 1) { l with scan } := by
  have hlast := h.last
  rw [h.scan] at hn
  refine ⟨by rw [Scan.after_snoc, hn], ?_⟩
  rw [Scan.results_snoc, hn]
  simpa [Except.toOption] using hlast

theorem Ran.exhausted (h : l.Ran start n) (hn : l.scan.next = (none, log, scan)) :
    Ran start (n + 1) { l with scan } := by
  have hlast := h.last
  rw [h.scan] at hn
  refine ⟨by rw [Scan.after_snoc, hn], ?_⟩
  rw [Scan.results_snoc, hn]
  simpa using hlast

end

theorem nested?_eq_some {l : Level} {rules : Family} {text : List Char} (h : l.nested? = some (rules, text)) :
    ∃ rule line column r, l.last = some (.token rule text line column) ∧ l.scan.family[rule]? = some r ∧
      r.nested = rules ∧ rules ≠ [] := by
  unfold nested? at h
  split at h
  · rename_i rule text' line column hlast
    split at h
    · rename_i r hr
      split at h
      · cases h
      · rename_i hne
        cases h
        exact ⟨rule, line, column, r, hlast, hr, rfl, by simpa using hne⟩
    · cases h
  · cases h

end Level

namespace Stream

/-- The frames that the scan has given in `n` calls are not its sentinel. -/
def Unfinished (start : Scan) (n : Nat) : Prop := ∀ f, .ok f ∈ (start.results n).1 → f.isSentinel = false

/-- The levels, deepest first, that a stream over `feed` can have. -/
inductive Stacked (family : Family) (options : Options) (feed : Feed) : List Level → Prop
  | none : Stacked family options feed []
  | input {l : Level} {n : Nat} : l.Ran (Scan.ofFeed family options feed) n → Stacked family options feed [l]
  | nested {l m : Level} {outer : List Level} {rules : Family} {text : List Char} {n : Nat} :
      Stacked family options feed (m :: outer) → m.expanded = true → m.nested? = some (rules, text) →
      l.Ran (Scan.ofFeed rules options (Feed.ofText text)) n →
      Unfinished (Scan.ofFeed rules options (Feed.ofText text)) n → Stacked family options feed (l :: m :: outer)

structure Sound (family : Family) (options : Options) (feed : Feed) (s : Stream) : Prop where
  depth_le : s.depth ≤ options.maxDepth
  held : s.feed = if s.depth = 0 then some feed else none
  levels : Stacked family options feed s.levels
  family : s.family = family
  options : s.options = options

section
variable {family : Family} {options : Options} {feed : Feed} {s t : Stream} {level : Nat}

theorem unfinished_zero (start : Scan) : Unfinished start 0 := by
  intro f hf
  cases hf

theorem Unfinished.snoc {start : Scan} {n : Nat} (h : Unfinished start n) {r : Option (Except ScanError Frame)}
    {log : List ScanEvent} {scan : Scan} (hn : (start.after n).next = (r, log, scan))
    (hr : ∀ f, r = some (.ok f) → f.isSentinel = false) : Unfinished start (n + 1) := by
  intro f hf
  rw [Scan.results_snoc, hn] at hf
  rcases List.mem_append.mp hf with hf | hf
  · exact h f hf
  · apply hr
    simpa using hf

theorem Stacked.above {l : Level} {outer : List Level} (h : Stacked family options feed (l :: outer)) :
    Stacked family options feed outer := by
  cases h with
  | input => exact .none
  | nested h => exact h

theorem Stacked.ran {l : Level} {outer : List Level} (h : Stacked family options feed (l :: outer)) :
    ∃ start n, l.Ran start n := by
  cases h with
  | input hr => exact ⟨_, _, hr⟩
  | nested _ _ _ hr => exact ⟨_, _, hr⟩

theorem Stacked.append {inner outer : List Level} (h : Stacked family options feed (inner ++ outer)) :
    Stacked family options feed outer := by
  induction inner with
  | nil => exact h
  | cons l inner ih => exact ih (Stacked.above h)

theorem Stacked.mark {l : Level} {outer : List Level} (h : Stacked family options feed (l :: outer)) :
    Stacked family options feed ({ l with expanded := true } :: outer) := by
  cases h with
  | input hr => exact .input ⟨hr.scan, hr.last⟩
  | nested h he hn hr hu => exact .nested h he hn ⟨hr.scan, hr.last⟩ hu

theorem Stacked.go_on {l : Level} {outer : List Level} (h : Stacked family options feed (l :: outer))
    {r : Option (Except ScanError Frame)} {log : List ScanEvent} {scan : Scan} (hn : l.scan.next = (r, log, scan))
    (hend : ∀ f, r = some (.ok f) → f.isSentinel = true → outer = []) (m : Level)
    (hm : ∀ start n, l.Ran start n → m.Ran start (n + 1)) : Stacked family options feed (m :: outer) := by
  cases h with
  | input hr => exact .input (hm _ _ hr)
  | nested h he hs hr hu =>
    refine .nested h he hs (hm _ _ hr) (hu.snoc (hr.scan ▸ hn) ?_)
    intro f hf
    cases hsent : f.isSentinel with
    | false => rfl
    | true =>
      have := hend f hf hsent
      cases this

theorem Sound.reaches (h : s.Sound family options feed) (hr : s.Reaches level t) :
    t.Sound family options feed := by
  have hd := h.depth_le
  cases hr with
  | @back inner outer l hl =>
    have hdepth : s.depth = inner.length + (outer.length + 1) := by
      rw [depth, hl, List.length_append, List.length_cons]
    have hf := h.held
    rw [if_neg (by omega)] at hf
    refine ⟨?_, hf, ?_, h.family, h.options⟩
    · simp only [depth, List.length_cons]
      omega
    · have hlevels := h.levels
      rw [hl] at hlevels
      exact hlevels.append
  | @input feed' hlt hl hf =>
    have h0 : s.depth = 0 := by rw [depth, hl]; rfl
    have hfeed := h.held
    rw [if_pos h0, hf, Option.some.injEq] at hfeed
    subst hfeed
    rw [h.options] at hlt
    refine ⟨Nat.lt_of_le_of_lt (Nat.zero_le _) hlt, rfl, ?_, h.family, h.options⟩
    rw [h.family, h.options]
    exact .input (Level.ran_ofScan _)
  | @nested l outer rules text hlt hl he hn =>
    have h1 : s.depth = outer.length + 1 := by rw [depth, hl]; rfl
    have hf := h.held
    rw [if_neg (by omega)] at hf
    rw [h.options, h1] at hlt
    have hlevels := h.levels
    rw [hl] at hlevels
    refine ⟨hlt, hf, ?_, h.family, h.options⟩
    rw [h.options]
    exact .nested hlevels.mark rfl hn (Level.ran_ofScan _) (unfinished_zero _)

theorem Sound.go_on (h : s.Sound family options feed) {l m : Level} {outer : List Level} (hl : s.levels = l :: outer)
    {r : Option (Except ScanError Frame)} {log : List ScanEvent} {scan : Scan} (hn : l.scan.next = (r, log, scan))
    (hend : ∀ f, r = some (.ok f) → f.isSentinel = true → outer = [])
    (hm : ∀ start n, l.Ran start n → m.Ran start (n + 1)) (current : Option Frame) :
    Sound family options feed { s with levels := m :: outer, current } := by
  obtain ⟨hd, hfeed, hlevels, hfamily, hoptions⟩ := h
  rw [depth, hl] at hd hfeed
  rw [hl] at hlevels
  exact ⟨hd, hfeed, hlevels.go_on hn hend m hm, hfamily, hoptions⟩

theorem Sound.pulls (h : s.Sound family options feed) {r : Except StreamError Frame} (hp : s.Pulls r t) :
    t.Sound family options feed := by
  cases hp with
  | exhausted hl hn => exact h.go_on hl hn (fun _ hf => by cases hf) (fun _ _ hr => hr.exhausted hn) s.current
  | failed hl hn => exact h.go_on hl hn (fun _ hf => by cases hf) (fun _ _ hr => hr.failed hn) s.current
  | token hl hn hf =>
    refine h.go_on hl hn (fun f hr hend => ?_) (fun _ _ hr => hr.ok hn false) _
    cases hr
    rw [hf] at hend
    cases hend
  | finished hl hn hf => exact h.go_on hl hn (fun _ _ _ => rfl) (fun _ _ hr => hr.ok hn false) _
  | closed hl =>
    obtain ⟨hd, hfeed, hlevels, hfamily, hoptions⟩ := h
    rw [depth, hl, List.length_cons] at hd hfeed
    rw [if_neg (Nat.succ_ne_zero _)] at hfeed
    rw [hl] at hlevels
    exact ⟨Nat.le_of_succ_le hd, hfeed, hlevels.above, hfamily, hoptions⟩

theorem Sound.answers (h : s.Sound family options feed) {r : Except StreamError Frame} (ha : s.Answers level r t) :
    t.Sound family options feed := by
  cases ha with
  | refused => exact h
  | asked hr hp => exact (h.reaches hr).pulls hp

theorem sound (family : Family) (options : Options) (feed : Feed) (calls : List Nat) :
    ((ofFeed family options feed).after calls).Sound family options feed := by
  apply history_induction (p := fun _ s => s.Sound family options feed)
  · exact ⟨Nat.zero_le _, rfl, .none, rfl, rfl⟩
  · intro history s k r t _ h ha
    exact h.answers ha

theorem Stacked.at_zero {levels : List Level} (h : Stacked family options feed levels) {l : Level}
    (hl : levelAt? levels 0 = some l) : ∃ n, l.Ran (Scan.ofFeed family options feed) n := by
  induction h with
  | none => cases hl
  | input hr =>
    cases hl
    exact ⟨_, hr⟩
  | nested _ _ _ _ _ ih =>
    rw [levelAt?_cons_of_lt (by simp)] at hl
    exact ih hl

theorem Stacked.at_succ {levels : List Level} (h : Stacked family options feed levels) {k : Nat} {l : Level}
    (hl : levelAt? levels (k + 1) = some l) :
    ∃ m rules text n, levelAt? levels k = some m ∧ m.expanded = true ∧ m.nested? = some (rules, text) ∧
      l.Ran (Scan.ofFeed rules options (Feed.ofText text)) n ∧
      Unfinished (Scan.ofFeed rules options (Feed.ofText text)) n := by
  induction h with
  | none => cases hl
  | input => exact absurd (levelAt?_lt hl) (by simp)
  | @nested l' m outer rules text n _ he hn hr hu ih =>
    rw [levelAt?, List.length_cons] at hl
    split at hl
    · rename_i heq
      cases hl
      have hk : outer.length = k := by omega
      refine ⟨m, rules, text, n, ?_, he, hn, hr, hu⟩
      rw [levelAt?_cons_of_lt (by rw [List.length_cons]; omega), ← hk, levelAt?_self]
    · obtain ⟨m', rules', text', n', hm', h'⟩ := ih hl
      exact ⟨m', rules', text', n', by rw [levelAt?_cons_of_lt (levelAt?_lt hm'), hm'], h'⟩

theorem depth_of_pulls {r : Except StreamError Frame} {l : Level} {outer : List Level}
    (hl : s.levels = l :: outer) : s.Pulls r t →
      match r with
      | .ok f => t.depth = if f.isSentinel then max outer.length 1 else outer.length + 1
      | .error _ => t.depth = outer.length + 1 := by
  intro hp
  cases hp with
  | exhausted hl' | failed hl' =>
    rw [hl] at hl'
    cases hl'
    rfl
  | token hl' _ hf =>
    rw [hl] at hl'
    cases hl'
    simp [depth, hf]
  | finished hl' _ hf =>
    rw [hl] at hl'
    cases hl'
    simp [depth, hf]
  | closed hl' _ hf =>
    rw [hl] at hl'
    cases hl'
    simp [depth, hf]

theorem depth_of_answers {r : Except StreamError Frame} : s.Answers level r t →
    match r with
    | .ok f => t.depth = if f.isSentinel then max level 1 else level + 1
    | .error (.scan _) => t.depth = level + 1
    | .error e => e ≠ .unopened 0 := by
  intro ha
  cases ha with
  | refused hr =>
    cases hr with
    | unopened hlt =>
      intro heq
      cases heq
      omega
    | tooDeep | noInput | expanded | noNested => exact StreamError.noConfusion
  | asked hr hp =>
    obtain ⟨l, outer, hu, rfl⟩ := reaches_length hr
    have hd := depth_of_pulls hu hp
    cases hp with
    | exhausted => exact StreamError.noConfusion
    | failed | token | finished | closed => exact hd

theorem Sound.openLevel (h : s.Sound family options feed) :
    match s.openLevel with
    | .ok (_, t) => t.depth = s.depth + 1
    | .error e => e ≠ .exhausted 0 ∧ e ≠ .unopened 0 := by
  have ho := s.openLevel_spec
  rcases hs : s.openLevel with e | ⟨event, t⟩
  · rw [hs] at ho
    simp only at ho ⊢
    generalize hk : s.depth = k at ho
    cases ho with
    | unopened hlt => omega
    | tooDeep | noNested => exact ⟨StreamError.noConfusion, StreamError.noConfusion⟩
    | noInput hd hl hf =>
      have hheld := h.held
      rw [depth, hl, if_pos (by rfl), hf] at hheld
      cases hheld
    | expanded hd hl =>
      refine ⟨fun heq => ?_, StreamError.noConfusion⟩
      rw [depth, hl] at heq
      cases heq
  · rw [hs] at ho
    obtain ⟨l, outer, ht, hlen⟩ := reaches_length ho.1
    show t.levels.length = s.depth + 1
    rw [ht, List.length_cons, hlen]

end

/-- **The stack.** It is never deeper than allowed, and each level scans the text of the last frame of
the one above it, with the nested rules of the frame's own rule. As all levels are one list here, it
holds of any stream that those up to its depth are there, and that level 0 is not unopened. -/
theorem stack_spec (family : Family) (options : Options) (feed : Feed) (calls : List Nat) :
    let s := (ofFeed family options feed).after calls
    s.depth ≤ options.maxDepth ∧ s.feed = (if s.depth = 0 then some feed else none) ∧
    (∀ l, levelAt? s.levels 0 = some l → ∃ n, l.Ran (Scan.ofFeed family options feed) n) ∧
    (∀ k l, levelAt? s.levels (k + 1) = some l →
      ∃ m rule text line column r n, levelAt? s.levels k = some m ∧
        m.last = some (.token rule text line column) ∧ m.expanded = true ∧
        m.scan.family[rule]? = some r ∧ r.nested ≠ [] ∧
        l.Ran (Scan.ofFeed r.nested options (Feed.ofText text)) n ∧
        Unfinished (Scan.ofFeed r.nested options (Feed.ofText text)) n) ∧
    (∀ level, level < s.depth → ∃ l outer, s.upTo level = l :: outer ∧ outer.length = level) ∧
    (match s.openLevel with
      | .ok (_, t) => t.depth = s.depth + 1
      | .error e => e ≠ .exhausted 0 ∧ e ≠ .unopened 0) ∧
    ∀ level, match (s.next level).1 with
      | .ok f => (s.next level).2.2.depth = if f.isSentinel then max level 1 else level + 1
      | .error (.scan _) => (s.next level).2.2.depth = level + 1
      | .error e => e ≠ .unopened 0 := by
  intro s
  have h : s.Sound family options feed := sound family options feed calls
  refine ⟨h.depth_le, h.held, fun l hl => h.levels.at_zero hl, fun k l hl => ?_, fun level hlt => ?_, h.openLevel,
    fun level => depth_of_answers (s.answers_next level)⟩
  · obtain ⟨m, rules, text, n, hm, he, hn, hr, hu⟩ := h.levels.at_succ hl
    obtain ⟨rule, line, column, r, hlast, hfamily, rfl, hne⟩ := Level.nested?_eq_some hn
    exact ⟨m, rule, text, line, column, r, n, hm, hlast, he, hfamily, hne, hr, hu⟩
  · obtain ⟨inner, l, outer, -, hu, hlen⟩ := s.upTo_spec hlt
    exact ⟨l, outer, hu, hlen⟩

theorem stack_spec_pairs :
    let s := (ofFeed pairs Options.standard (Feed.ofText ['a', 'b'])).after [0, 1]
    ∃ l m r n, levelAt? s.levels 1 = some l ∧ levelAt? s.levels 0 = some m ∧ 0 < s.depth ∧
      m.last = some (.token 0 ['a', 'b'] 0 0) ∧ m.expanded = true ∧ m.scan.family[0]? = some r ∧
      l.Ran (Scan.ofFeed r.nested Options.standard (Feed.ofText ['a', 'b'])) n := by
  intro s
  have hspec := stack_spec pairs Options.standard (Feed.ofText ['a', 'b']) [0, 1]
  have hd : 0 < s.depth := by decide +kernel
  have hone : (levelAt? s.levels 1).isSome = true := by decide +kernel
  have hlast : (levelAt? s.levels 0).bind (·.last) = some (.token 0 ['a', 'b'] 0 0) := by decide +kernel
  obtain ⟨l, hl⟩ := Option.isSome_iff_exists.mp hone
  obtain ⟨m, rule, text, line, column, r, n, hm, hm', he, hr, -, hran, -⟩ := hspec.2.2.2.1 0 l hl
  rw [hm, Option.bind_some, hm'] at hlast
  cases hlast
  exact ⟨l, m, r, n, hl, hm, hd, hm', he, hr, hran⟩

end Stream

end Munch
