import Munch.Listing
import Munch.Proofs.Levels

/-!
# What a level is opened for

`Reflects` ties the open levels to the history of a stream: a level scans the text of
the frame that the level above had delivered last, with the family of its rule.
-/

namespace Munch.Stream

/-- The frame that the level `level` delivered last. -/
def delivered? (level : Nat) (history : List (Nat × Except StreamError Frame)) : Option Frame :=
  ((answersAt level history).filterMap Except.toOption).getLast?

/-- The rules that the level `level` scans with. -/
def familyAt (family : Family) (history : List (Nat × Except StreamError Frame)) : Nat → Family
  | 0 => family
  | level + 1 =>
    match (delivered? level history).bind (·.ruleIn? (familyAt family history level)) with
    | some rule => rule.nested
    | none => []

section
variable {family : Family} {history : List (Nat × Except StreamError Frame)}

theorem answersAt_snoc (level k : Nat) (r : Except StreamError Frame) :
    answersAt level (history ++ [(k, r)]) =
      if k = level then answersAt level history ++ [r] else answersAt level history := by
  by_cases h : k = level <;> simp [answersAt, h]

theorem delivered?_error (level k : Nat) (e : StreamError) :
    delivered? level (history ++ [(k, .error e)]) = delivered? level history := by
  rw [delivered?, delivered?, answersAt_snoc]
  split
  · simp [Except.toOption]
  · rfl

theorem delivered?_of_ne {level k : Nat} (h : k ≠ level) (r : Except StreamError Frame) :
    delivered? level (history ++ [(k, r)]) = delivered? level history := by
  rw [delivered?, answersAt_snoc, if_neg h, delivered?]

theorem delivered?_ok (level : Nat) (f : Frame) :
    delivered? level (history ++ [(level, .ok f)]) = some f := by
  simp [delivered?, answersAt_snoc, Except.toOption]

theorem familyAt_congr {history' : List (Nat × Except StreamError Frame)} {level : Nat}
    (h : ∀ k < level, delivered? k history' = delivered? k history) :
    familyAt family history' level = familyAt family history level := by
  induction level with
  | zero => rfl
  | succ level ih =>
    rw [familyAt, familyAt, h level (Nat.lt_succ_self level),
      ih fun k hk => h k (Nat.lt_succ_of_lt hk)]

/-- The open levels are what the history says. -/
def Reflects (family : Family) (history : List (Nat × Except StreamError Frame)) (s : Stream) : Prop :=
  ∀ level l, levelAt? s.levels level = some l →
    l.scan.family = familyAt family history level ∧ ∀ f, l.last = some f → delivered? level history = some f

variable {options : Options} {feed : Feed} {s t : Stream} {r : Except StreamError Frame}

theorem Reflects.nested (h : s.Reflects family history) {l : Level} {outer : List Level}
    (hl : s.levels = l :: outer) {family' : Family} {text : List Char} (hn : l.nested? = some (family', text)) :
    ∃ f rule, delivered? outer.length history = some f ∧
      f.ruleIn? (familyAt family history outer.length) = some rule ∧ family' = rule.nested ∧ text = f.text := by
  obtain ⟨hfamily, hlast⟩ := h _ l (by rw [hl]; exact levelAt?_self l outer)
  unfold Level.nested? at hn
  split at hn
  · rename_i rule text' line column hf
    split at hn
    · rename_i r hr
      split at hn
      · cases hn
      · cases hn
        rw [hfamily] at hr
        exact ⟨_, r, hlast _ hf, hr, rfl, rfl⟩
    · cases hn
  · cases hn

theorem Reflects.reaches (hs : s.Stands family options feed) (h : s.Reflects family history) {k : Nat}
    (hr : s.Reaches k t) : t.Reflects family history := by
  intro level l hl
  have hlt := levelAt?_lt hl
  cases hr with
  | back hs' => exact h level l (by rw [hs', levelAt?_append _ hlt, hl])
  | input _ hs' =>
    rw [List.length_singleton, Nat.lt_one_iff] at hlt
    subst hlt
    cases hl
    rw [hs.fresh hs']
    exact ⟨rfl, fun f hf => by cases hf⟩
  | @nested m outer family' text _ hs' _ hn =>
    rw [levelAt?] at hl
    split at hl
    · rename_i heq
      cases hl
      obtain ⟨f, rule, hf, hrule, rfl, rfl⟩ := h.nested hs' hn
      refine ⟨?_, fun f hf => by cases hf⟩
      rw [← heq, List.length_cons, familyAt, hf, Option.bind_some, hrule]
      rfl
    · rw [levelAt?] at hl
      split at hl
      · rename_i heq
        cases hl
        exact h level m (by rw [hs', levelAt?, if_pos heq])
      · rename_i hne
        exact h level l (by rw [hs', levelAt?, if_neg hne, hl])

theorem Reflects.above (h : s.Reflects family history) {m : Level} {outer : List Level}
    (hs : s.levels = m :: outer) {level : Nat} {l : Level} (hl : levelAt? outer level = some l) :
    l.scan.family = familyAt family (history ++ [(outer.length, r)]) level ∧
      ∀ f, l.last = some f → delivered? level (history ++ [(outer.length, r)]) = some f := by
  have hlt := levelAt?_lt hl
  obtain ⟨h1, h2⟩ := h level l (by rw [hs, levelAt?_cons_of_lt hlt, hl])
  refine ⟨?_, fun f hf => ?_⟩
  · rw [h1]
    exact (familyAt_congr fun k hk => delivered?_of_ne (by omega) r).symm
  · rw [delivered?_of_ne (by omega), h2 f hf]

theorem Reflects.pulls (h : s.Reflects family history) {m : Level} {outer : List Level}
    (hs : s.levels = m :: outer) (hp : s.Pulls r t) :
    t.Reflects family (history ++ [(outer.length, r)]) := by
  obtain ⟨hfamily, hlast⟩ := h _ m (by rw [hs]; exact levelAt?_self m outer)
  have hsame : ∀ r, familyAt family (history ++ [(outer.length, r)]) outer.length =
      familyAt family history outer.length :=
    fun r => familyAt_congr fun k hk => delivered?_of_ne (by omega) r
  have hscan : ∀ {r log scan}, m.scan.next = (r, log, scan) → scan.family = m.scan.family := by
    intro r log scan hn
    have := m.scan.next_family
    rwa [hn] at this
  intro level l hl
  cases hp with
  | exhausted hs' hn | failed hs' hn =>
    rw [hs] at hs'
    cases hs'
    rw [levelAt?] at hl
    split at hl
    · rename_i heq
      cases hl
      rw [← heq, hsame, delivered?_error]
      exact ⟨by rw [hscan hn, hfamily], hlast⟩
    · exact h.above hs hl
  | token hs' hn | finished hs' hn =>
    rw [hs] at hs'
    cases hs'
    rw [levelAt?] at hl
    split at hl
    · rename_i heq
      cases hl
      rw [← heq, hsame, delivered?_ok]
      exact ⟨by rw [hscan hn, hfamily], fun f hf => hf⟩
    · exact h.above hs hl
  | closed hs' =>
    rw [hs] at hs'
    cases hs'
    exact h.above hs hl

theorem Reflects.answers (hs : s.Stands family options feed) (h : s.Reflects family history) {k : Nat}
    (ha : s.Answers k r t) : t.Reflects family (history ++ [(k, r)]) := by
  cases ha with
  | refused =>
    intro level l hl
    obtain ⟨h1, h2⟩ := h level l hl
    rw [delivered?_error, familyAt_congr fun _ _ => delivered?_error ..]
    exact ⟨h1, h2⟩
  | asked hr hp =>
    obtain ⟨m, outer, hu, hlen⟩ := reaches_length hr
    rw [← hlen]
    exact (h.reaches hs hr).pulls hu hp

theorem reflects (family : Family) (options : Options) (feed : Feed) (calls : List Nat) :
    ((ofFeed family options feed).after calls).Reflects family ((ofFeed family options feed).answers calls) := by
  apply history_induction (p := fun history s => s.Reflects family history)
  · intro level l hl
    cases hl
  · intro history s k r t hs h ha
    exact h.answers hs ha

end

/-- **Each level is one scan.** Level 0 serves the scan of the input, and a level below, until one
above it is asked, that of the text it was opened for. Only the sentinel closes it in that time,
and nothing is left of its scan then. -/
theorem levels_serve (family : Family) (options : Options) (feed : Feed) :
    (∀ calls : List Nat, answersAt 0 ((ofFeed family options feed).answers calls) =
      if options.maxDepth = 0 then List.replicate (calls.count 0) (.error (.tooDeep 0))
      else (Scan.ofFeed family options feed).serve 0 (calls.count 0)) ∧
    ∀ (before : List Nat) (level : Nat) (during : List Nat),
      let s := (ofFeed family options feed).after before
      let history := (ofFeed family options feed).answers before
      let calls := (level + 1) :: during
      s.depth = level + 1 → s.openLevel.isOk = true → (∀ k ∈ during, level < k) →
      ∃ f rule, delivered? level history = some f ∧ f.ruleIn? (familyAt family history level) = some rule ∧
        let scan := Scan.ofFeed rule.nested options (Feed.ofText f.text)
        let n := calls.count (level + 1)
        answersAt (level + 1) (s.answers calls) = scan.serve (level + 1) n ∧
          ((s.after calls).depth ≤ level + 1 →
            (∃ f, .ok f ∈ answersAt (level + 1) (s.answers calls) ∧ f.isSentinel = true) ∧
              ∀ m, (scan.results (n + m)).1 = (scan.results n).1) ∧
          ∀ k ≤ level, ((s.after calls).next k).2.2.depth ≤ level + 1 := by
  refine ⟨answersAt_zero family options feed, fun before level during => ?_⟩
  intro s history calls hd ho hc
  have hs : s.Stands family options feed := stands family options feed before
  have hreflects : s.Reflects family history := reflects family options feed before
  rcases ho' : s.openLevel with e | ⟨event, t⟩
  · rw [ho'] at ho
    cases ho
  · obtain ⟨l, outer, nested, text, hl, hn, ht⟩ := openLevel_nested (by omega) ho'
    obtain ⟨f, rule, hf, hrule, rfl, rfl⟩ := hreflects.nested hl hn
    have hlen : outer.length = level := by
      rw [depth, hl, List.length_cons] at hd
      omega
    rw [hlen] at hf hrule
    rw [hs.same] at ht
    obtain ⟨hanswers, hserves, hcloses⟩ := run_of_openLevel hs ho' ht fun k hk => hd ▸ hc k hk
    rw [hd] at hanswers hserves hcloses
    refine ⟨f, rule, hf, hrule, ?_⟩
    intro scan n
    have hn : n = during.count (level + 1) + 1 := List.count_cons_self
    rw [← hn] at hanswers hserves
    refine ⟨hanswers, fun hle => ⟨hcloses hle, fun m => ?_⟩, fun k hk => ?_⟩
    · rw [Scan.results_add, Scan.results_of_done (hserves.done_of_depth_le hle), List.append_nil]
    · have hle : level + 1 ≤ (s.after calls).depth := hserves.le_depth
      have := ((s.after calls).answers_next k).depth_le (show k < (s.after calls).depth by omega)
      omega

theorem levels_serve_pairs :
    let s := (ofFeed pairs Options.standard (Feed.ofText ['a', 'b'])).after [0]
    s.depth = 1 ∧ s.openLevel.isOk = true ∧ (∀ k ∈ [1, 3, 1], 0 < k) ∧
      (answersAt (1) (s.answers [1, 1, 3, 1])).map Except.toOption =
        [some (.token 0 ['a'] 0 0), some (.token 1 ['b'] 0 1), some (.sentinel 0 2)] := by
  intro s
  have hd : s.depth = 1 := by decide +kernel
  have ho : s.openLevel.isOk = true := by decide +kernel
  have hc : ∀ k ∈ [1, 3, 1], 0 < k := by decide
  obtain ⟨f, rule, hf, hrule, hanswers, -⟩ :=
    (levels_serve pairs Options.standard (Feed.ofText ['a', 'b'])).2 [0] 0 [1, 3, 1] hd ho hc
  have hlast : delivered? 0 ((ofFeed pairs Options.standard (Feed.ofText ['a', 'b'])).answers [0]) =
      some (.token 0 ['a', 'b'] 0 0) := by
    decide +kernel
  rw [hlast] at hf
  cases hf
  cases hrule
  refine ⟨hd, ho, hc, (congrArg (List.map Except.toOption) hanswers).trans ?_⟩
  decide +kernel

end Munch.Stream
