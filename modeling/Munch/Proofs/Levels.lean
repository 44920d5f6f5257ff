import Munch.Proofs.Streams

/-!
# Each level is one scan

The answers of a level are those of a scan of its own, over the input or over the
frame that it was opened for. What is asked of other levels has no part in them.
-/

namespace Munch

/-! ## What a scan serves -/

def answerOf (level : Nat) : Option (Except ScanError Frame) → Except StreamError Frame
  | some (.ok f) => .ok f
  | some (.error e) => .error (.scan e)
  | none => .error (.exhausted level)

namespace Scan

/-- The answers to `n` calls of a level that scans like this. -/
def serve (s : Scan) (level n : Nat) : List (Except StreamError Frame) :=
  (s.results n).1.map (fun r => answerOf level (some r)) ++
    List.replicate (n - (s.results n).1.length) (.error (.exhausted level))

theorem serve_succ (s : Scan) (level n : Nat) :
    s.serve level (n + 1) = answerOf level s.next.1 :: s.next.2.2.serve level n := by
  cases hd : s.done with
  | true =>
    simp only [serve, next_of_done hd, results_of_done hd]
    rfl
  | false =>
    obtain ⟨r, log, t, hn, -⟩ := next_of_live hd
    rw [serve, results_succ hn, hn, List.length_cons, Nat.add_sub_add_right]
    rfl

end Scan

namespace Stream

/-! ## Levels by their numbers -/

/-- Of some levels, deepest first, the one of this number. -/
def levelAt? : List Level → Nat → Option Level
  | [], _ => none
  | l :: outer, level => if outer.length = level then some l else levelAt? outer level

section
variable {family : Family} {options : Options} {feed : Feed} {s t : Stream} {level : Nat}

theorem levelAt?_lt : ∀ {levels : List Level} {l : Level}, levelAt? levels level = some l → level < levels.length
  | [], _, h => by cases h
  | m :: outer, l, h => by
    rw [levelAt?] at h
    rw [List.length_cons]
    split at h
    · omega
    · exact Nat.lt_succ_of_lt (levelAt?_lt h)

theorem levelAt?_cons_of_lt {l : Level} {outer : List Level} (h : level < outer.length) :
    levelAt? (l :: outer) level = levelAt? outer level := by
  rw [levelAt?, if_neg (by omega)]

theorem levelAt?_append (inner : List Level) {outer : List Level} (h : level < outer.length) :
    levelAt? (inner ++ outer) level = levelAt? outer level := by
  induction inner with
  | nil => rfl
  | cons l inner ih =>
    rw [List.cons_append, levelAt?_cons_of_lt (by rw [List.length_append]; omega), ih]

theorem levelAt?_self (l : Level) (outer : List Level) : levelAt? (l :: outer) outer.length = some l := by
  rw [levelAt?, if_pos rfl]

theorem levelAt?_mem : ∀ {levels : List Level} {l : Level}, levelAt? levels level = some l → l ∈ levels
  | [], _, h => by cases h
  | m :: outer, l, h => by
    rw [levelAt?] at h
    split at h
    · cases h
      exact List.mem_cons_self
    · exact List.mem_cons_of_mem m (levelAt?_mem h)

theorem exists_levelAt? : ∀ {levels : List Level}, level < levels.length → ∃ l, levelAt? levels level = some l
  | [], h => by cases h
  | m :: outer, h => by
    by_cases heq : outer.length = level
    · exact ⟨m, by rw [levelAt?, if_pos heq]⟩
    · rw [List.length_cons] at h
      rw [levelAt?, if_neg heq]
      exact exists_levelAt? (by omega)

/-! ## One call -/

theorem reaches_length (h : s.Reaches level t) : ∃ l outer, t.levels = l :: outer ∧ outer.length = level := by
  cases h with
  | back => exact ⟨_, _, rfl, rfl⟩
  | input => exact ⟨_, _, rfl, rfl⟩
  | nested => exact ⟨_, _, rfl, rfl⟩

theorem reaches_open (h : s.Reaches level t) {l : Level} (hl : levelAt? s.levels level = some l) :
    ∃ outer, t.levels = l :: outer ∧ outer.length = level := by
  have hlt := levelAt?_lt hl
  cases h with
  | @back inner outer l' hs =>
    rw [hs, levelAt?_append _ (Nat.lt_succ_self _), levelAt?_self] at hl
    cases hl
    exact ⟨_, rfl, rfl⟩
  | input _ hs => rw [hs] at hlt; cases hlt
  | nested _ hs => rw [hs, List.length_cons] at hlt; omega

theorem fresh_of_reaches (hd : s.depth ≤ level) (h : s.Reaches level t) :
    ∃ scan outer, t.levels = Level.ofScan scan :: outer ∧ scan.done = false := by
  cases h with
  | back hs =>
    rw [depth, hs, List.length_append, List.length_cons] at hd
    omega
  | input => exact ⟨_, _, rfl, rfl⟩
  | nested => exact ⟨_, _, rfl, rfl⟩

theorem reaches_below {k : Nat} (h : s.Reaches k t) (hk : level < k) {l : Level}
    (hl : levelAt? s.levels level = some l) :
    ∃ m outer l', t.levels = m :: outer ∧ levelAt? outer level = some l' ∧ l'.scan = l.scan := by
  cases h with
  | @back inner outer l' hs =>
    rw [hs, levelAt?_append _ (Nat.lt_succ_of_lt hk), levelAt?_cons_of_lt hk] at hl
    exact ⟨_, _, _, rfl, hl, rfl⟩
  | input => omega
  | @nested m outer _ _ _ hs =>
    rw [hs, levelAt?] at hl
    by_cases heq : outer.length = level
    · rw [if_pos heq, Option.some.injEq] at hl
      exact ⟨_, _, { m with expanded := true }, rfl, by rw [levelAt?, if_pos heq], by rw [← hl]⟩
    · rw [if_neg heq] at hl
      exact ⟨_, _, _, rfl, by rw [levelAt?, if_neg heq, hl], rfl⟩

theorem pulls_below {r : Except StreamError Frame} (h : s.Pulls r t) {m l : Level} {outer : List Level}
    (hs : s.levels = m :: outer) (hl : levelAt? outer level = some l) : levelAt? t.levels level = some l := by
  have hlt := levelAt?_lt hl
  cases h with
  | exhausted hs' | failed hs' | token hs' =>
    rw [hs] at hs'
    cases hs'
    rw [levelAt?_cons_of_lt hlt, hl]
  | finished hs' =>
    rw [hs] at hs'
    cases hs'
    cases hlt
  | closed hs' =>
    rw [hs] at hs'
    cases hs'
    exact hl

end

/-! ## The scan of a level -/

/-- The level goes on with `scan`, or that is done and its frame cannot be opened again. -/
inductive Serves (level : Nat) (scan : Scan) (s : Stream) : Prop
  | opened {l : Level} : levelAt? s.levels level = some l → l.scan = scan → Serves level scan s
  | closed {m : Level} {outer : List Level} : s.levels = m :: outer → outer.length + 1 = level →
      m.expanded = true → level < s.options.maxDepth → scan.done = true → Serves level scan s

section
variable {family : Family} {options : Options} {feed : Feed} {s t : Stream} {level : Nat} {scan : Scan}
  {r : Except StreamError Frame}

theorem pulls_serves (hs : s.Stands family options feed) {l : Level} {outer : List Level}
    (hl : s.levels = l :: outer) (hp : s.Pulls r t) :
    r = answerOf outer.length l.scan.next.1 ∧ t.Serves outer.length l.scan.next.2.2 := by
  cases hp with
  | exhausted hl' hn | failed hl' hn | token hl' hn =>
    rw [hl] at hl'
    cases hl'
    rw [hn]
    exact ⟨rfl, .opened (levelAt?_self ..) rfl⟩
  | finished hl' hn =>
    rw [hl] at hl'
    cases hl'
    rw [hn]
    exact ⟨rfl, .opened (levelAt?_self ..) rfl⟩
  | @closed _ m outer _ _ _ hl' hn hend =>
    rw [hl] at hl'
    cases hl'
    have hd := hs.depth_le
    rw [depth, hl] at hd
    rw [hn]
    -- the level above has opened its last frame, and cannot do so again
    refine ⟨rfl, .closed rfl rfl (hs.above m (by rw [hl]; exact List.mem_cons_self)).1 ?_ ?_⟩
    · rw [hs.same]
      exact hd
    · rw [← hend]
      exact Scan.done_of_next hn

theorem answers_opened (hs : s.Stands family options feed) {l : Level} (hl : levelAt? s.levels level = some l)
    {k : Nat} (ha : s.Answers k r t) (hk : level ≤ k) :
    if k = level then r = answerOf level l.scan.next.1 ∧ t.Serves level l.scan.next.2.2
    else t.Serves level l.scan := by
  have hlt : level < s.depth := levelAt?_lt hl
  cases ha with
  | refused hr =>
    have hne : k ≠ level := by cases hr <;> omega
    rw [if_neg hne]
    exact .opened hl rfl
  | asked hr hp =>
    by_cases heq : k = level
    · rw [if_pos heq]
      obtain ⟨outer, hu, hlen⟩ := reaches_open (heq ▸ hr) hl
      have := pulls_serves (hs.reaches hr) hu hp
      rwa [hlen] at this
    · rw [if_neg heq]
      obtain ⟨m, outer, l', hu, hl', hscan⟩ := reaches_below hr (by omega) hl
      exact .opened (pulls_below hp hu hl') hscan

theorem not_reaches_of_expanded {m : Level} {outer : List Level} (hm : s.levels = m :: outer)
    (he : m.expanded = true) {k : Nat} (hk : s.depth ≤ k) : ¬ s.Reaches k t := by
  intro hr
  cases hr with
  | back hm' =>
    rw [depth, hm', List.length_append, List.length_cons] at hk
    omega
  | input _ hm' =>
    rw [hm] at hm'
    cases hm'
  | nested _ hm' he' =>
    rw [hm] at hm'
    cases hm'
    rw [he] at he'
    cases he'

theorem answers_closed {m : Level} {outer : List Level} (hm : s.levels = m :: outer)
    (hlen : outer.length + 1 = level) (he : m.expanded = true) (hlt : level < s.options.maxDepth) {k : Nat}
    (ha : s.Answers k r t) (hk : level ≤ k) :
    t = s ∧ (k = level → r = .error (.exhausted level)) := by
  have hd : s.depth = level := by rw [depth, hm, ← hlen]; rfl
  cases ha with
  | refused hr =>
    refine ⟨rfl, fun heq => ?_⟩
    cases hr with
    | unopened => omega
    | tooDeep => omega
    | noInput _ hm' => rw [hm] at hm'; cases hm'
    | expanded => rw [hd]
    | noNested _ hm' he' =>
      rw [hm] at hm'
      cases hm'
      rw [he] at he'
      cases he'
  | asked hr => exact absurd hr (not_reaches_of_expanded hm he (hd ▸ hk))

theorem Serves.answers (hs : s.Stands family options feed) (h : s.Serves level scan) {k : Nat}
    (ha : s.Answers k r t) (hk : level ≤ k) :
    if k = level then r = answerOf level scan.next.1 ∧ t.Serves level scan.next.2.2
    else t.Serves level scan := by
  cases h with
  | opened hl hscan =>
    rw [← hscan]
    exact answers_opened hs hl ha hk
  | closed hm hlen he hlt hdone =>
    obtain ⟨rfl, hr⟩ := answers_closed hm hlen he hlt ha hk
    rw [Scan.next_of_done hdone]
    split
    · exact ⟨hr ‹_›, .closed hm hlen he hlt hdone⟩
    · exact .closed hm hlen he hlt hdone

theorem pulls_closes {l : Level} {outer : List Level} (hl : s.levels = l :: outer) (hp : s.Pulls r t)
    (hd : t.depth ≤ outer.length) : ∃ f, r = .ok f ∧ f.isSentinel = true := by
  cases hp with
  | exhausted hl' | failed hl' | token hl' =>
    rw [hl] at hl'
    cases hl'
    exact absurd hd (Nat.not_succ_le_self _)
  | finished _ _ hend | closed _ _ hend => exact ⟨_, rfl, hend⟩

theorem Serves.closes (h : s.Serves level scan) {k : Nat} (ha : s.Answers k r t) (hk : level ≤ k)
    (hd : t.depth ≤ level) : s.depth ≤ level ∨ k = level ∧ ∃ f, r = .ok f ∧ f.isSentinel = true := by
  cases h with
  | closed hm hlen =>
    left
    rw [depth, hm, ← hlen]
    exact Nat.le_refl _
  | opened hl =>
    have hlt : level < s.depth := levelAt?_lt hl
    cases ha with
    | refused => omega
    | asked hr hp =>
      by_cases heq : k = level
      · obtain ⟨outer, hu, hlen⟩ := reaches_open (heq ▸ hr) hl
        exact Or.inr ⟨heq, pulls_closes hu hp (by omega)⟩
      · obtain ⟨m, outer, l', hu, hl', _⟩ := reaches_below hr (by omega) hl
        have : level < t.depth := levelAt?_lt (pulls_below hp hu hl')
        omega

theorem Serves.le_depth (h : s.Serves level scan) : level ≤ s.depth := by
  cases h with
  | opened hl => exact Nat.le_of_lt (levelAt?_lt hl)
  | closed hm hlen =>
    rw [depth, hm, ← hlen]
    exact Nat.le_refl _

theorem Serves.done_of_depth_le (h : s.Serves level scan) (hd : s.depth ≤ level) : scan.done = true := by
  cases h with
  | opened hl => exact absurd hd (Nat.not_le.mpr (levelAt?_lt hl))
  | closed _ _ _ _ hdone => exact hdone

theorem depth_le_of_asked {k : Nat} {u : Stream} (hr : s.Reaches k u) (hp : u.Pulls r t) : t.depth ≤ k + 1 := by
  obtain ⟨m, outer, hu, hlen⟩ := reaches_length hr
  rw [← hlen]
  cases hp with
  | exhausted hu' | failed hu' | token hu' | finished hu' =>
    rw [hu] at hu'
    cases hu'
    exact Nat.le_refl _
  | closed hu' =>
    rw [hu] at hu'
    cases hu'
    exact Nat.le_succ _

theorem Answers.depth_le {k : Nat} (ha : s.Answers k r t) (hk : k < s.depth) : t.depth ≤ k + 1 := by
  cases ha with
  | refused hr => cases hr <;> omega
  | asked hr hp => exact depth_le_of_asked hr hp

end

/-! ## Many calls -/

def answersAt (level : Nat) (history : List (Nat × Except StreamError Frame)) : List (Except StreamError Frame) :=
  (history.filter (·.1 == level)).map Prod.snd

theorem answersAt_cons (level k : Nat) (r : Except StreamError Frame)
    (history : List (Nat × Except StreamError Frame)) :
    answersAt level ((k, r) :: history) =
      if k = level then r :: answersAt level history else answersAt level history := by
  by_cases h : k = level <;> simp [answersAt, h]

section
variable {family : Family} {options : Options} {feed : Feed} {s t : Stream} {level : Nat} {scan : Scan}
  {calls : List Nat}

theorem Serves.run (hs : s.Stands family options feed) (h : s.Serves level scan)
    (hc : ∀ k ∈ calls, level ≤ k) :
    answersAt level (s.answers calls) = scan.serve level (calls.count level) ∧
      (s.after calls).Serves level (scan.after (calls.count level)) := by
  induction calls generalizing s scan with
  | nil => exact ⟨rfl, h⟩
  | cons k calls ih =>
    have ha := s.answers_next k
    have hstep := h.answers hs ha (hc k List.mem_cons_self)
    rw [Stream.answers, Stream.after, answersAt_cons]
    by_cases hk : k = level
    · rw [if_pos hk] at hstep ⊢
      obtain ⟨h1, h2⟩ := ih (hs.answers ha) hstep.2 fun j hj => hc j (List.mem_cons_of_mem k hj)
      rw [h1, hstep.1, hk, List.count_cons_self, Scan.serve_succ, Scan.after]
      exact ⟨rfl, hk ▸ h2⟩
    · rw [if_neg hk] at hstep ⊢
      rw [List.count_cons_of_ne hk]
      exact ih (hs.answers ha) hstep fun j hj => hc j (List.mem_cons_of_mem k hj)

theorem Serves.closes_run (hs : s.Stands family options feed) (h : s.Serves level scan)
    (hc : ∀ k ∈ calls, level ≤ k) (hd : (s.after calls).depth ≤ level) :
    s.depth ≤ level ∨ ∃ f, .ok f ∈ answersAt level (s.answers calls) ∧ f.isSentinel = true := by
  induction calls generalizing s scan with
  | nil => exact Or.inl hd
  | cons k calls ih =>
    have ha := s.answers_next k
    have hk := hc k List.mem_cons_self
    have hserves : ∃ scan, (s.next k).2.2.Serves level scan := by
      have hstep := h.answers hs ha hk
      split at hstep
      · exact ⟨_, hstep.2⟩
      · exact ⟨_, hstep⟩
    obtain ⟨scan', h'⟩ := hserves
    rw [Stream.answers, answersAt_cons]
    rcases ih (hs.answers ha) h' (fun j hj => hc j (List.mem_cons_of_mem k hj)) hd with hle | ⟨f, hf, hend⟩
    · rcases h.closes ha hk hle with hle | ⟨heq, f, hr, hend⟩
      · exact Or.inl hle
      · rw [if_pos heq, hr]
        exact Or.inr ⟨f, List.mem_cons_self, hend⟩
    · refine Or.inr ⟨f, ?_, hend⟩
      split
      · exact List.mem_cons_of_mem _ hf
      · exact hf

theorem run_of_openLevel (hs : s.Stands family options feed) {event : StreamEvent} {outer : List Level}
    (ho : s.openLevel = .ok (event, t)) (ht : t.levels = Level.ofScan scan :: outer)
    (hc : ∀ k ∈ calls, s.depth ≤ k) :
    answersAt s.depth (s.answers (s.depth :: calls)) = scan.serve s.depth (calls.count s.depth + 1) ∧
      (s.after (s.depth :: calls)).Serves s.depth (scan.after (calls.count s.depth + 1)) ∧
      ((s.after (s.depth :: calls)).depth ≤ s.depth →
        ∃ f, .ok f ∈ answersAt s.depth (s.answers (s.depth :: calls)) ∧ f.isSentinel = true) := by
  have hr := s.openLevel_spec
  rw [ho] at hr
  obtain ⟨l, outer', ht', hlen⟩ := reaches_length hr.1
  rw [ht] at ht'
  cases ht'
  have hfirst : (s.next s.depth).1 = t.pull.1 ∧ (s.next s.depth).2.2 = t.pull.2.2 := by
    simp [next, ho]
  have hst := hs.reaches hr.1
  have hp := pulls ht
  obtain ⟨hanswer, hserves⟩ := pulls_serves hst ht hp
  rw [hlen] at hanswer hserves
  obtain ⟨hrun, hafter⟩ := hserves.run (hst.pulls hp) hc
  rw [Stream.answers, Stream.after, answersAt_cons, if_pos rfl, hfirst.1, hfirst.2]
  refine ⟨by rw [hrun, hanswer, Scan.serve_succ]; rfl, hafter, fun hd => ?_⟩
  rcases hserves.closes_run (hst.pulls hp) hc hd with hle | ⟨f, hf, hend⟩
  · obtain ⟨f, hf, hend⟩ := pulls_closes ht hp (hlen ▸ hle)
    exact ⟨f, hf ▸ List.mem_cons_self, hend⟩
  · exact ⟨f, List.mem_cons_of_mem _ hf, hend⟩

theorem openLevel_nested (hd : s.depth ≠ 0) {event : StreamEvent} (ho : s.openLevel = .ok (event, t)) :
    ∃ l outer nested text, s.levels = l :: outer ∧ l.nested? = some (nested, text) ∧
      t.levels = Level.ofScan (Scan.ofFeed nested s.options (Feed.ofText text)) ::
        { l with expanded := true } :: outer := by
  have hr := s.openLevel_spec
  rw [ho] at hr
  generalize hk : s.depth = k at hr hd
  cases hr.1 with
  | back hl =>
    rw [depth, hl, List.length_append, List.length_cons] at hk
    omega
  | input => exact absurd rfl hd
  | nested _ hl _ hn => exact ⟨_, _, _, _, hl, hn, rfl⟩

theorem answers_unopened (h : s.levels = []) {k : Nat} {r : Except StreamError Frame} (ha : s.Answers k r t)
    (hk : k ≠ 0) : t = s := by
  cases ha with
  | refused => rfl
  | asked hr =>
    cases hr with
    | back h' => rw [h] at h'; simp at h'
    | input => exact absurd rfl hk
    | nested _ h' => rw [h] at h'; cases h'

end

theorem answersAt_zero (family : Family) (options : Options) (feed : Feed) (calls : List Nat) :
    answersAt 0 ((ofFeed family options feed).answers calls) =
      if options.maxDepth = 0 then List.replicate (calls.count 0) (.error (.tooDeep 0))
      else (Scan.ofFeed family options feed).serve 0 (calls.count 0) := by
  induction calls with
  | nil => split <;> rfl
  | cons k calls ih =>
    have ha := (ofFeed family options feed).answers_next k
    by_cases hk : k = 0
    · subst hk
      by_cases h0 : options.maxDepth = 0
      · have hnext : (ofFeed family options feed).next 0 =
            (.error (.tooDeep 0), [], ofFeed family options feed) := by
          simp [next, openLevel, ofFeed, depth, h0]
        rw [if_pos h0] at ih ⊢
        rw [answers, answersAt_cons, if_pos rfl, hnext, ih, List.count_cons_self, List.replicate_succ]
      · have ho : (ofFeed family options feed).openLevel = .ok (.opened, { ofFeed family options feed with
            feed := none, levels := [Level.ofScan (Scan.ofFeed family options feed)] }) := by
          simp [openLevel, ofFeed, depth, h0]
        have hs : (ofFeed family options feed).Stands family options feed := stands_ofFeed
        have hc : ∀ k ∈ calls, (ofFeed family options feed).depth ≤ k := fun _ _ => Nat.zero_le _
        rw [if_neg h0, List.count_cons_self]
        exact (run_of_openLevel hs ho rfl hc).1
    · have hnext : ((ofFeed family options feed).next k).2.2 = ofFeed family options feed :=
        answers_unopened rfl ha hk
      rw [answers, answersAt_cons, if_neg hk, hnext, ih, List.count_cons_of_ne hk]

end Stream

end Munch
