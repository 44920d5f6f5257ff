import Munch.Proofs.Calls
import Munch.Stream

/-!
# Calls of a stream

A call is refused, or it reaches a level and pulls that. `Refuses`, `Reaches` and
`Pulls` list the ways, and `Stands` is what holds of the levels at any time.
-/

namespace Munch.Stream

/-! ## One call -/

/-- The calls that change nothing. -/
inductive Refuses (s : Stream) : Nat → StreamError → Prop
  | unopened {level : Nat} : s.depth < level → Refuses s level (.unopened level)
  | tooDeep : s.options.maxDepth ≤ s.depth → Refuses s s.depth (.tooDeep s.options.maxDepth)
  | noInput : s.depth < s.options.maxDepth → s.levels = [] → s.feed = none →
      Refuses s s.depth (.exhausted 0)
  | expanded {l : Level} {outer : List Level} : s.depth < s.options.maxDepth → s.levels = l :: outer →
      l.expanded = true → Refuses s s.depth (.exhausted s.depth)
  | noNested {l : Level} {outer : List Level} : s.depth < s.options.maxDepth → s.levels = l :: outer →
      l.expanded = false → l.nested? = none → Refuses s s.depth (.noNestedFamily (s.depth - 1))

/-- The other calls make the level they ask the deepest one. -/
inductive Reaches (s : Stream) : Nat → Stream → Prop
  | back {inner outer : List Level} {l : Level} : s.levels = inner ++ l :: outer →
      Reaches s outer.length { s with levels := l :: outer }
  | input {feed : Feed} : s.depth < s.options.maxDepth → s.levels = [] → s.feed = some feed →
      Reaches s 0
        { s with feed := none, levels := [Level.ofScan (Scan.ofFeed s.family s.options feed)] }
  | nested {l : Level} {outer : List Level} {family : Family} {text : List Char} :
      s.depth < s.options.maxDepth → s.levels = l :: outer → l.expanded = false →
      l.nested? = some (family, text) →
      Reaches s (outer.length + 1)
        { s with
          levels := Level.ofScan (Scan.ofFeed family s.options (Feed.ofText text)) ::
            { l with expanded := true } :: outer }

/-- What comes of asking the deepest level. -/
inductive Pulls (s : Stream) : Except StreamError Frame → Stream → Prop
  | exhausted {l : Level} {outer : List Level} {log : List ScanEvent} {scan : Scan} :
      s.levels = l :: outer → l.scan.next = (none, log, scan) →
      Pulls s (.error (.exhausted outer.length)) { s with levels := { l with scan } :: outer }
  | failed {l : Level} {outer : List Level} {log : List ScanEvent} {scan : Scan} {e : ScanError} :
      s.levels = l :: outer → l.scan.next = (some (.error e), log, scan) →
      Pulls s (.error (.scan e)) { s with levels := { l with scan } :: outer }
  | token {l : Level} {outer : List Level} {log : List ScanEvent} {scan : Scan} {f : Frame} :
      s.levels = l :: outer → l.scan.next = (some (.ok f), log, scan) → f.isSentinel = false →
      Pulls s (.ok f) { s with levels := ⟨scan, some f, false⟩ :: outer, current := some f }
  | finished {l : Level} {log : List ScanEvent} {scan : Scan} {f : Frame} :
      s.levels = [l] → l.scan.next = (some (.ok f), log, scan) → f.isSentinel = true →
      Pulls s (.ok f) { s with levels := [⟨scan, some f, false⟩], current := some f }
  | closed {l m : Level} {outer : List Level} {log : List ScanEvent} {scan : Scan} {f : Frame} :
      s.levels = l :: m :: outer → l.scan.next = (some (.ok f), log, scan) → f.isSentinel = true →
      Pulls s (.ok f) { s with levels := m :: outer, current := m.last }

inductive Answers (s : Stream) (level : Nat) : Except StreamError Frame → Stream → Prop
  | refused {e : StreamError} : s.Refuses level e → Answers s level (.error e) s
  | asked {u t : Stream} {r : Except StreamError Frame} : s.Reaches level u → u.Pulls r t →
      Answers s level r t

theorem pulls {s : Stream} {l : Level} {outer : List Level} (h : s.levels = l :: outer) :
    s.Pulls s.pull.1 s.pull.2.2 := by
  simp only [pull, h, Level.pull]
  rcases hn : l.scan.next with ⟨_ | e | f, log, scan⟩
  · exact .exhausted h hn
  · exact .failed h hn
  · cases hf : f.isSentinel with
    | false => simpa only [hf, Bool.false_eq_true, ite_false] using .token h hn hf
    | true =>
      cases outer with
      | nil => simpa only [hf, List.isEmpty_nil, ite_true] using .finished h hn hf
      | cons m outer =>
        simpa only [hf, List.isEmpty_cons, Bool.false_eq_true, ite_true, ite_false, lastOf] using
          .closed h hn hf

theorem upTo_spec (s : Stream) {level : Nat} (h : level < s.depth) :
    ∃ inner l outer, s.levels = inner ++ l :: outer ∧ s.upTo level = l :: outer ∧ outer.length = level := by
  have hlen : (s.upTo level).length = level + 1 := by
    simp only [upTo, List.length_drop]
    simp only [depth] at h ⊢
    omega
  rcases hu : s.upTo level with _ | ⟨l, outer⟩
  · rw [hu] at hlen
    cases hlen
  · rw [hu, List.length_cons, Nat.add_right_cancel_iff] at hlen
    refine ⟨s.levels.take (s.depth - (level + 1)), l, outer, ?_, rfl, hlen⟩
    rw [← hu, upTo, List.take_append_drop]

theorem openLevel_spec (s : Stream) :
    match s.openLevel with
    | .error e => s.Refuses s.depth e
    | .ok (_, t) => s.Reaches s.depth t ∧ ∃ l outer, t.levels = l :: outer := by
  unfold openLevel
  by_cases hd : s.options.maxDepth ≤ s.depth
  · rw [if_pos hd]
    exact .tooDeep hd
  · rw [if_neg hd]
    rw [Nat.not_le] at hd
    cases hl : s.levels with
    | nil =>
      have h0 : s.depth = 0 := by rw [depth, hl]; rfl
      cases hf : s.feed with
      | none => exact .noInput hd hl hf
      | some feed =>
        refine ⟨?_, _, _, rfl⟩
        rw [h0]
        exact .input hd hl hf
    | cons l outer =>
      have h1 : s.depth = outer.length + 1 := by rw [depth, hl]; rfl
      cases he : l.expanded with
      | true =>
        simp only [he, ite_true]
        exact .expanded hd hl he
      | false =>
        rcases hn : l.nested? with _ | ⟨family, text⟩
        · simp only [he, hn, Bool.false_eq_true, ite_false]
          exact .noNested hd hl he hn
        · simp only [he, hn, Bool.false_eq_true, ite_false]
          refine ⟨?_, _, _, rfl⟩
          rw [h1]
          exact .nested hd hl he hn

theorem answers_next (s : Stream) (level : Nat) : s.Answers level (s.next level).1 (s.next level).2.2 := by
  unfold next
  by_cases hlt : s.depth < level
  · rw [if_pos hlt]
    exact .refused (.unopened hlt)
  · rw [if_neg hlt]
    by_cases heq : level = s.depth
    · rw [if_pos heq]
      have hs := s.openLevel_spec
      rcases ho : s.openLevel with e | ⟨event, t⟩
      · rw [ho] at hs
        exact .refused (heq ▸ hs)
      · rw [ho] at hs
        obtain ⟨hr, l, outer, hl⟩ := hs
        exact .asked (heq ▸ hr) (pulls hl)
    · rw [if_neg heq]
      obtain ⟨inner, l, outer, hl, hu, hlen⟩ := s.upTo_spec (show level < s.depth by omega)
      have hr : s.Reaches level { s with levels := s.upTo level } := by
        rw [hu, ← hlen]
        exact .back hl
      exact .asked hr (pulls hu)

theorem exists_answers {s : Stream} {level : Nat} {r : Except StreamError Frame} (hr : (s.next level).1 = r) :
    ∃ t, s.Answers level r t :=
  ⟨_, hr ▸ s.answers_next level⟩

/-! What a call gives is among these, and there is no choice. -/

theorem pull_of_pulls {s t : Stream} {r : Except StreamError Frame} (h : s.Pulls r t) :
    s.pull.1 = r ∧ s.pull.2.2 = t := by
  cases h with
  | exhausted hl hn | failed hl hn => simp [pull, Level.pull, hl, hn]
  | token hl hn hf | finished hl hn hf => simp [pull, Level.pull, hl, hn, hf]
  | closed hl hn hf => simp [pull, Level.pull, hl, hn, hf, lastOf]

theorem openLevel_of_refuses {s : Stream} {e : StreamError} (h : s.Refuses s.depth e) : s.openLevel = .error e := by
  generalize hk : s.depth = k at h
  cases h with
  | unopened hlt => omega
  | tooDeep hd => rw [openLevel, if_pos hd]
  | noInput hd hl hf =>
    rw [openLevel, if_neg (Nat.not_le.mpr hd)]
    simp only [hl, hf]
  | expanded hd hl he =>
    rw [openLevel, if_neg (Nat.not_le.mpr hd)]
    simp only [hl, he, ite_true]
  | noNested hd hl he hn =>
    rw [openLevel, if_neg (Nat.not_le.mpr hd)]
    simp only [hl, he, hn, Bool.false_eq_true, ite_false]

theorem next_of_refuses {s : Stream} {level : Nat} {e : StreamError} (h : s.Refuses level e) :
    s.next level = (.error e, [], s) := by
  by_cases hlt : s.depth < level
  · rw [next, if_pos hlt]
    cases h with
    | unopened => rfl
    | tooDeep | noInput | expanded | noNested => omega
  · have heq : level = s.depth := by
      cases h with
      | unopened => omega
      | tooDeep | noInput | expanded | noNested => rfl
    subst heq
    rw [next, if_neg hlt, if_pos rfl, openLevel_of_refuses h]

theorem openLevel_of_reaches {s u : Stream} (h : s.Reaches s.depth u) : ∃ event, s.openLevel = .ok (event, u) := by
  generalize hk : s.depth = k at h
  cases h with
  | back hl =>
    rw [depth, hl, List.length_append, List.length_cons] at hk
    omega
  | input hd hl hf =>
    refine ⟨.opened, ?_⟩
    rw [openLevel, if_neg (Nat.not_le.mpr hd)]
    simp only [hl, hf]
  | @nested l outer family text hd hl he hn =>
    refine ⟨.openedNested s.depth family.length s.text, ?_⟩
    rw [openLevel, if_neg (Nat.not_le.mpr hd)]
    simp only [hl, he, hn, Bool.false_eq_true, ite_false]

theorem next_of_reaches {s u : Stream} {level : Nat} (h : s.Reaches level u) :
    (s.next level).1 = u.pull.1 ∧ (s.next level).2.2 = u.pull.2.2 := by
  by_cases heq : level = s.depth
  · subst heq
    obtain ⟨event, ho⟩ := openLevel_of_reaches h
    rw [next, if_neg (Nat.lt_irrefl _), if_pos rfl, ho]
    exact ⟨rfl, rfl⟩
  · cases h with
    | @back inner outer l hl =>
      have hd : s.depth = inner.length + (outer.length + 1) := by rw [depth, hl, List.length_append, List.length_cons]
      have hu : s.upTo outer.length = l :: outer := by
        rw [upTo, hd, Nat.add_sub_cancel, hl, List.drop_left]
      rw [next, if_neg (by omega), if_neg heq, hu]
      exact ⟨rfl, rfl⟩
    | input _ hl => exact absurd (by rw [depth, hl]; rfl) heq
    | nested _ hl => exact absurd (by rw [depth, hl]; rfl) heq

theorem next_of_answers {s t : Stream} {level : Nat} {r : Except StreamError Frame} (h : s.Answers level r t) :
    (s.next level).1 = r ∧ (s.next level).2.2 = t := by
  cases h with
  | refused hr =>
    rw [next_of_refuses hr]
    exact ⟨rfl, rfl⟩
  | asked hr hp =>
    obtain ⟨h1, h2⟩ := next_of_reaches hr
    obtain ⟨h3, h4⟩ := pull_of_pulls hp
    exact ⟨h1.trans h3, h2.trans h4⟩

/-! ## Many calls -/

def after (s : Stream) : List Nat → Stream
  | [] => s
  | level :: calls => (s.next level).2.2.after calls

def answers (s : Stream) : List Nat → List (Nat × Except StreamError Frame)
  | [] => []
  | level :: calls => (level, (s.next level).1) :: (s.next level).2.2.answers calls

theorem after_append (s : Stream) (calls more : List Nat) :
    s.after (calls ++ more) = (s.after calls).after more := by
  induction calls generalizing s with
  | nil => rfl
  | cons level calls ih => exact ih _

theorem answers_append (s : Stream) (calls more : List Nat) :
    s.answers (calls ++ more) = s.answers calls ++ (s.after calls).answers more := by
  induction calls generalizing s with
  | nil => rfl
  | cons level calls ih => rw [List.cons_append, answers, ih, after, answers, List.cons_append]

/-! ## The levels at any time -/

/-- A level with another below it has delivered the frame that this one scans. -/
structure Stands (family : Family) (options : Options) (feed : Feed) (s : Stream) : Prop where
  same : s.options = options
  depth_le : s.depth ≤ options.maxDepth
  above : ∀ l ∈ s.levels.tail, l.expanded = true ∧ ∃ f, l.last = some f
  fresh : s.levels = [] → s = ofFeed family options feed

section
variable {family : Family} {options : Options} {feed : Feed} {s t : Stream}

theorem stands_ofFeed : (ofFeed family options feed).Stands family options feed where
  same := rfl
  depth_le := Nat.zero_le _
  above := by simp [ofFeed]
  fresh := fun _ => rfl

theorem Stands.reaches (h : s.Stands family options feed) {level : Nat} (hr : s.Reaches level t) :
    t.Stands family options feed := by
  have hd := h.depth_le
  cases hr with
  | @back inner outer l hl =>
    refine ⟨h.same, ?_, fun m hm => h.above m ?_, fun hn => by cases hn⟩
    · rw [Stream.depth, hl, List.length_append] at hd
      simp only [Stream.depth]
      omega
    · rw [hl]
      cases inner with
      | nil => exact hm
      | cons _ inner => exact List.mem_append_right inner (List.mem_cons_of_mem l hm)
  | input hlt hl =>
    rw [h.same, Stream.depth, hl] at hlt
    exact ⟨h.same, hlt, by simp, fun hn => by cases hn⟩
  | @nested l outer family text hlt hl he hn =>
    rw [h.same, Stream.depth, hl] at hlt
    refine ⟨h.same, hlt, fun m hm => ?_, fun hn => by cases hn⟩
    rcases List.mem_cons.mp hm with rfl | hm
    · refine ⟨rfl, ?_⟩
      cases hlast : l.last with
      | some f => exact ⟨f, rfl⟩
      | none => simp [Level.nested?, hlast] at hn
    · exact h.above m (by rwa [hl])

theorem Stands.pulls (h : s.Stands family options feed) {r : Except StreamError Frame} (hp : s.Pulls r t) :
    t.Stands family options feed := by
  have hd := h.depth_le
  have ha := h.above
  cases hp with
  | exhausted hl | failed hl | token hl | finished hl =>
    rw [Stream.depth, hl] at hd
    rw [hl] at ha
    exact ⟨h.same, hd, ha, fun hn => by cases hn⟩
  | closed hl =>
    rw [Stream.depth, hl] at hd
    rw [hl] at ha
    refine ⟨h.same, ?_, fun m hm => ha m (List.mem_cons_of_mem _ hm), fun hn => by cases hn⟩
    simp only [List.length_cons] at hd
    simp only [Stream.depth, List.length_cons]
    omega

theorem Stands.answers (h : s.Stands family options feed) {level : Nat} {r : Except StreamError Frame}
    (ha : s.Answers level r t) : t.Stands family options feed := by
  cases ha with
  | refused => exact h
  | asked hr hp => exact (h.reaches hr).pulls hp

theorem Stands.after (h : s.Stands family options feed) (calls : List Nat) :
    (s.after calls).Stands family options feed := by
  induction calls generalizing s with
  | nil => exact h
  | cons level calls ih => exact ih (h.answers (s.answers_next level))

theorem stands (family : Family) (options : Options) (feed : Feed) (calls : List Nat) :
    ((ofFeed family options feed).after calls).Stands family options feed :=
  stands_ofFeed.after calls

theorem history_induction {p : List (Nat × Except StreamError Frame) → Stream → Prop}
    (h0 : p [] (ofFeed family options feed))
    (hstep : ∀ history s k r t, s.Stands family options feed → p history s → s.Answers k r t →
      p (history ++ [(k, r)]) t) (calls : List Nat) :
    p ((ofFeed family options feed).answers calls) ((ofFeed family options feed).after calls) := by
  have run : ∀ (calls : List Nat) history s, s.Stands family options feed → p history s →
      p (history ++ s.answers calls) (s.after calls) := by
    intro calls
    induction calls with
    | nil =>
      intro history s _ h
      rwa [answers, List.append_nil]
    | cons k calls ih =>
      intro history s hs h
      have ha := s.answers_next k
      have := ih _ _ (hs.answers ha) (hstep _ _ _ _ _ hs h ha)
      rwa [List.append_assoc] at this
  exact run calls [] _ stands_ofFeed h0

end

def pairs : Family :=
  [⟨some "pair", Automaton.literal ['a', 'b'], [Rule.literal "a" ['a'], Rule.literal "b" ['b']]⟩]

end Munch.Stream
