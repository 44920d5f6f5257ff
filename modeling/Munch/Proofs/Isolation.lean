import Munch.Proofs.Levels

/-!
# Inner levels do not reach the outer ones

`Agrees k` compares a stream with another that was asked for the levels up to `k` only. They
have these levels in common but for a mark, which no call up to `k` looks at.
-/

namespace Munch.Stream

/-- The levels are the same down to the level `k`, but for the mark of that one. -/
inductive SameTo (k : Nat) (s t : List Level) : Prop
  | shallow : s = t → s.length ≤ k → SameTo k s t
  | deep {l m : Level} {outer : List Level} : l :: outer <:+ s → t = m :: outer → outer.length = k →
      l.scan = m.scan → l.last = m.last → SameTo k s t

structure Agrees (k : Nat) (s t : Stream) : Prop where
  family : s.family = t.family
  options : s.options = t.options
  feed : s.feed = t.feed
  levels : SameTo k s.levels t.levels

/-! ## Levels in common -/

section
variable {k : Nat} {levels : List Level}

theorem SameTo.of_length (h : levels.length ≤ k + 1) : SameTo k levels levels := by
  by_cases hk : levels.length ≤ k
  · exact .shallow rfl hk
  · cases levels with
    | nil => exact absurd (Nat.zero_le k) hk
    | cons l outer =>
      rw [List.length_cons] at h hk
      exact .deep List.suffix_rfl rfl (by omega) rfl rfl

theorem SameTo.eq_of_length {s : List Level} (h : SameTo k s levels) (hk : s.length ≤ k) : s = levels := by
  cases h with
  | shallow heq => exact heq
  | deep hsuf _ hlen =>
    have hle := hsuf.length_le
    rw [List.length_cons] at hle
    omega

theorem SameTo.of_suffix {inner outer : List Level} (h : SameTo k outer levels) (hs : outer <:+ inner)
    (hk : k < outer.length) : SameTo k inner levels := by
  cases h with
  | shallow _ hle => omega
  | deep hsuf ht hlen hscan hlast => exact .deep (hsuf.trans hs) ht hlen hscan hlast

/-- Two levels of which only the marks may differ, and these only at the level `k`. -/
structure Twins (k : Nat) (outer : List Level) (l m : Level) : Prop where
  scan : l.scan = m.scan
  last : l.last = m.last
  mark : outer.length = k ∨ l = m

theorem SameTo.of_twins {outer : List Level} {l m : Level} (h : Twins k outer l m) (hk : outer.length ≤ k) :
    SameTo k (l :: outer) (m :: outer) := by
  rcases h.mark with heq | rfl
  · exact .deep List.suffix_rfl rfl heq h.scan h.last
  · exact .of_length (Nat.succ_le_succ hk)

theorem SameTo.split {inner outer : List Level} {l : Level} (h : SameTo k (inner ++ l :: outer) levels)
    (hk : outer.length ≤ k) : ∃ inner' m, levels = inner' ++ m :: outer ∧ Twins k outer l m := by
  cases h with
  | shallow heq => exact ⟨inner, l, heq.symm, rfl, rfl, Or.inr rfl⟩
  | @deep n m above hsuf ht hlen hscan hlast =>
    have hsuf' : l :: outer <:+ inner ++ l :: outer := List.suffix_append inner _
    rcases Nat.lt_or_ge outer.length k with hlt | hge
    · have habove : above <:+ inner ++ l :: outer := (List.suffix_cons n above).trans hsuf
      have hle : (l :: outer).length ≤ above.length := by
        rw [List.length_cons]
        omega
      obtain ⟨between, rfl⟩ := List.suffix_of_suffix_length_le hsuf' habove hle
      exact ⟨m :: between, l, ht, rfl, rfl, Or.inr rfl⟩
    · have heq : n :: above = l :: outer := by
        have hle : (n :: above).length ≤ (l :: outer).length := by
          simp only [List.length_cons]
          omega
        have hsub := List.suffix_of_suffix_length_le hsuf hsuf' hle
        apply hsub.eq_of_length
        simp only [List.length_cons]
        omega
      cases heq
      exact ⟨[], m, ht, hscan, hlast, Or.inl hlen⟩

end

section
variable {k j : Nat} {s t u : Stream} {r : Except StreamError Frame}

/-! ## Calls on the levels below -/

theorem pulls_keep (h : s.Pulls r t) : t.family = s.family ∧ t.options = s.options ∧ t.feed = s.feed := by
  cases h <;> exact ⟨rfl, rfl, rfl⟩

theorem suffix_of_pulls (h : s.Pulls r t) {l : Level} {outer : List Level} (hs : s.levels = l :: outer) :
    outer <:+ t.levels := by
  cases h with
  | exhausted hs' | failed hs' | token hs' | finished hs' =>
    rw [hs] at hs'
    cases hs'
    exact List.suffix_cons _ _
  | closed hs' =>
    rw [hs] at hs'
    cases hs'
    exact List.suffix_rfl

theorem reaches_deeper {levels : List Level} (h : SameTo k s.levels levels) (hr : s.Reaches j u) (hj : k < j) :
    u.family = s.family ∧ u.options = s.options ∧ u.feed = s.feed ∧
      ∃ l outer, u.levels = l :: outer ∧ k < outer.length ∧ SameTo k outer levels := by
  cases hr with
  | @back inner outer l hs =>
    refine ⟨rfl, rfl, rfl, l, outer, rfl, hj, ?_⟩
    rw [hs] at h
    cases h with
    | shallow _ hle =>
      rw [List.length_append, List.length_cons] at hle
      omega
    | deep hsuf ht hlen hscan hlast =>
      have hsuf' : outer <:+ inner ++ l :: outer := (List.suffix_cons l outer).trans (List.suffix_append _ _)
      refine .deep (List.suffix_of_suffix_length_le hsuf hsuf' ?_) ht hlen hscan hlast
      rw [List.length_cons]
      omega
  | input => omega
  | @nested l outer family text _ hs =>
    refine ⟨rfl, rfl, rfl, _, _, rfl, hj, ?_⟩
    rw [hs] at h
    cases h with
    | shallow _ hle =>
      rw [List.length_cons] at hle
      omega
    | deep hsuf ht hlen hscan hlast =>
      rcases List.suffix_cons_iff.mp hsuf with heq | hsuf
      · -- the frame that is opened is the one of level `k`, and only its mark changes
        cases heq
        exact .deep List.suffix_rfl ht hlen hscan hlast
      · exact .deep (hsuf.trans (List.suffix_cons _ _)) ht hlen hscan hlast

theorem Agrees.deeper (h : Agrees k s t) (hj : k < j) (ha : s.Answers j r u) : Agrees k u t := by
  cases ha with
  | refused => exact h
  | asked hr hp =>
    obtain ⟨hfamily, hoptions, hfeed, l, outer, hl, hlen, hsame⟩ := reaches_deeper h.levels hr hj
    obtain ⟨hfamily', hoptions', hfeed'⟩ := pulls_keep hp
    refine ⟨?_, ?_, ?_, hsame.of_suffix (suffix_of_pulls hp hl) hlen⟩
    · rw [hfamily', hfamily, h.family]
    · rw [hoptions', hoptions, h.options]
    · rw [hfeed', hfeed, h.feed]

/-! ## Calls on the levels in common -/

theorem Agrees.refuses (h : Agrees k s t) (hj : j ≤ k) {e : StreamError} (hr : s.Refuses j e) :
    t.Refuses j e := by
  have hle : s.depth ≤ k := by cases hr <;> omega
  have hlevels : s.levels = t.levels := h.levels.eq_of_length hle
  have hdepth : s.depth = t.depth := by rw [depth, depth, hlevels]
  cases hr with
  | unopened hlt => exact .unopened (hdepth ▸ hlt)
  | tooDeep hd =>
    rw [hdepth, h.options] at hd ⊢
    exact .tooDeep hd
  | noInput hd hl hf =>
    rw [hdepth, h.options] at hd
    rw [hdepth]
    exact .noInput hd (hlevels ▸ hl) (h.feed ▸ hf)
  | expanded hd hl he =>
    rw [hdepth, h.options] at hd
    rw [hdepth]
    exact .expanded hd (hlevels ▸ hl) he
  | noNested hd hl he hn =>
    rw [hdepth, h.options] at hd
    rw [hdepth]
    exact .noNested hd (hlevels ▸ hl) he hn

theorem Agrees.reaches (h : Agrees k s t) (hj : j ≤ k) (hr : s.Reaches j u) :
    ∃ v l m outer, t.Reaches j v ∧ Agrees k u v ∧ outer.length ≤ k ∧
      u.levels = l :: outer ∧ v.levels = m :: outer ∧ Twins k outer l m := by
  cases hr with
  | @back inner outer l hs =>
    have hsame := h.levels
    rw [hs] at hsame
    obtain ⟨inner', m, ht, htwins⟩ := hsame.split hj
    exact ⟨_, l, m, outer, .back ht, ⟨h.family, h.options, h.feed, .of_twins htwins hj⟩, hj, rfl, rfl, htwins⟩
  | @input feed hd hs hf =>
    have hlevels : s.levels = t.levels := h.levels.eq_of_length (by rw [hs]; exact hj)
    have hdepth : s.depth = t.depth := by rw [depth, depth, hlevels]
    rw [hdepth, h.options] at hd
    refine ⟨_, _, _, [], .input hd (hlevels ▸ hs) (h.feed ▸ hf), ⟨h.family, h.options, rfl, ?_⟩, hj, rfl, rfl, ?_⟩
    · rw [h.family, h.options]
      exact .of_length (Nat.succ_le_succ hj)
    · rw [h.family, h.options]
      exact ⟨rfl, rfl, Or.inr rfl⟩
  | @nested l outer family text hd hs he hn =>
    have hlevels : s.levels = t.levels := h.levels.eq_of_length (by rw [hs]; exact hj)
    have hdepth : s.depth = t.depth := by rw [depth, depth, hlevels]
    rw [hdepth, h.options] at hd
    refine ⟨_, _, _, _ :: outer, .nested hd (hlevels ▸ hs) he hn, ⟨h.family, h.options, h.feed, ?_⟩, hj, rfl, rfl, ?_⟩
    · rw [h.options]
      exact .of_length (Nat.succ_le_succ hj)
    · rw [h.options]
      exact ⟨rfl, rfl, Or.inr rfl⟩

theorem Agrees.pulls (h : Agrees k s t) {l m : Level} {outer : List Level} (hs : s.levels = l :: outer)
    (ht : t.levels = m :: outer) (htwins : Twins k outer l m) (hk : outer.length ≤ k) (hp : s.Pulls r u) :
    ∃ v, t.Pulls r v ∧ Agrees k u v := by
  have htwins' : ∀ scan, Twins k outer { l with scan } { m with scan } := by
    intro scan
    refine ⟨rfl, htwins.last, ?_⟩
    rcases htwins.mark with heq | rfl
    · exact Or.inl heq
    · exact Or.inr rfl
  have hlen : ∀ n : Level, (n :: outer).length ≤ k + 1 := fun _ => Nat.succ_le_succ hk
  cases hp with
  | exhausted hl hn =>
    rw [hs] at hl
    cases hl
    rw [htwins.scan] at hn
    exact ⟨_, .exhausted ht hn, h.family, h.options, h.feed, .of_twins (htwins' _) hk⟩
  | failed hl hn =>
    rw [hs] at hl
    cases hl
    rw [htwins.scan] at hn
    exact ⟨_, .failed ht hn, h.family, h.options, h.feed, .of_twins (htwins' _) hk⟩
  | token hl hn hf =>
    rw [hs] at hl
    cases hl
    rw [htwins.scan] at hn
    exact ⟨_, .token ht hn hf, h.family, h.options, h.feed, .of_length (hlen _)⟩
  | finished hl hn hf =>
    rw [hs] at hl
    cases hl
    rw [htwins.scan] at hn
    exact ⟨_, .finished ht hn hf, h.family, h.options, h.feed, .of_length (hlen _)⟩
  | closed hl hn hf =>
    rw [hs] at hl
    cases hl
    rw [htwins.scan] at hn
    exact ⟨_, .closed ht hn hf, h.family, h.options, h.feed, .of_length (Nat.le_succ_of_le hk)⟩

theorem Agrees.answers (h : Agrees k s t) (hj : j ≤ k) (ha : s.Answers j r u) :
    ∃ v, t.Answers j r v ∧ Agrees k u v := by
  cases ha with
  | refused hr => exact ⟨t, .refused (h.refuses hj hr), h⟩
  | asked hr hp =>
    obtain ⟨v, l, m, outer, hr', h', hk, hl, hm, htwins⟩ := h.reaches hj hr
    obtain ⟨w, hp', h''⟩ := h'.pulls hl hm htwins hk hp
    exact ⟨w, .asked hr' hp', h''⟩

/-! ## Many calls -/

/-- What `calls` give, each with its level and how often the input has been asked by then. -/
def trace (s : Stream) : List Nat → List (Nat × Except StreamError Frame × Nat)
  | [] => []
  | level :: calls =>
    (level, (s.next level).1, (s.next level).2.2.asked) :: (s.next level).2.2.trace calls

theorem Agrees.asked (h : Agrees k s t) : s.asked = t.asked := by
  unfold Stream.asked
  cases h.levels with
  | shallow heq => rw [heq, h.feed]
  | @deep l m outer hsuf ht hlen hscan hlast =>
    obtain ⟨inner, hs⟩ := hsuf
    rw [← hs, ht, List.getLast?_append]
    cases outer with
    | nil => simp [hscan]
    | cons n outer => simp [List.getLast?_cons]

theorem Agrees.trace (h : Agrees k s t) (calls : List Nat) :
    (s.trace calls).filter (·.1 ≤ k) = t.trace (calls.filter (· ≤ k)) := by
  induction calls generalizing s t with
  | nil => rfl
  | cons j calls ih =>
    have ha := s.answers_next j
    rw [Stream.trace]
    by_cases hj : j ≤ k
    · obtain ⟨v, ha', h'⟩ := h.answers hj ha
      obtain ⟨hr, ht⟩ := next_of_answers ha'
      have hasked := h'.asked
      rw [List.filter_cons_of_pos (by simpa using hj), List.filter_cons_of_pos (by simpa using hj), ih h',
        Stream.trace, hr, ht, hasked]
    · rw [List.filter_cons_of_neg (by simpa using hj), List.filter_cons_of_neg (by simpa using hj)]
      exact ih (h.deeper (Nat.lt_of_not_le hj) ha)

end

/-- **Inner levels do not reach the outer ones.** Without its calls below the level `k` a
run gives on the other levels what it gives with them, and asks the input as often. -/
theorem trace_filter (family : Family) (options : Options) (feed : Feed) (k : Nat) (calls : List Nat) :
    ((ofFeed family options feed).trace calls).filter (·.1 ≤ k) =
      (ofFeed family options feed).trace (calls.filter (· ≤ k)) := by
  have h : Agrees k (ofFeed family options feed) (ofFeed family options feed) :=
    ⟨rfl, rfl, rfl, .shallow rfl (Nat.zero_le k)⟩
  exact h.trace calls

end Munch.Stream
