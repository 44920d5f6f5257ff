import Munch.Proofs.Histories
import Munch.Proofs.Openings
import Munch.Proofs.Windows

/-!
# Which calls are refused

The answers to the calls before it say whether a call is refused: which frame a level gave
last, and whether a level was opened for it.
-/

namespace Munch

/-! ## Frames and their rules -/

def Frame.Of (family : Family) (f : Frame) : Prop :=
  f.isSentinel = true ∨ ∃ rule, f.ruleIn? family = some rule

namespace Scan

theorem of_advances {s t : Scan} {r : Except ScanError Frame} (h : s.Advances r t) {f : Frame} (hr : r = .ok f) :
    f.Of s.family := by
  induction h with
  | @frame s t g h =>
    cases hr
    cases h with
    | @token m w hrace =>
      obtain ⟨rule, hrule⟩ := (Window.candidate_of_race hrace).rule
      exact Or.inr ⟨rule, hrule⟩
    | sentinel => exact Or.inl rfl
  | failed => cases hr
  | skip h _ ih =>
    have hf := ih hr
    rwa [settles_family h] at hf

theorem of_results (s : Scan) (n : Nat) : ∀ f, .ok f ∈ (s.results n).1 → f.Of s.family := by
  induction n generalizing s with
  | zero =>
    intro f hf
    cases hf
  | succ n ih =>
    intro f hf
    cases hd : s.done with
    | true =>
      rw [results_of_done hd] at hf
      cases hf
    | false =>
      obtain ⟨r, log, t, hn, ha⟩ := next_of_live hd
      rw [results_succ hn] at hf
      rcases List.mem_cons.mp hf with heq | hf
      · exact of_advances ha heq.symm
      · have := ih t f hf
        rwa [advances_family ha] at this

end Scan

theorem Level.Ran.of_last {start : Scan} {n : Nat} {l : Level} (h : l.Ran start n) {f : Frame}
    (hf : l.last = some f) : f.Of l.scan.family := by
  rw [h.last] at hf
  have hm := List.mem_of_getLast? hf
  obtain ⟨r, hr, hok⟩ := List.mem_filterMap.mp hm
  cases r with
  | error => cases hok
  | ok g =>
    cases hok
    rw [h.scan, Scan.after_family]
    exact Scan.of_results start n f hr

theorem Level.nested?_eq_none_iff {l : Level} (h : ∀ f, l.last = some f → f.Of l.scan.family) :
    l.nested? = none ↔ l.last = none ∨ ∃ f, l.last = some f ∧
      (f.isSentinel = true ∨ ∃ rule, f.ruleIn? l.scan.family = some rule ∧ rule.nested = []) := by
  rcases hlast : l.last with _ | f
  · simp [nested?, hlast]
  · rcases h f hlast with hend | ⟨rule, hrule⟩
    · cases f with
      | token => cases hend
      | sentinel => simp [nested?, hlast, Frame.isSentinel]
    · cases f with
      | token i =>
        have hi : l.scan.family[i]? = some rule := hrule
        simp [nested?, hlast, hi, hrule, Frame.isSentinel]
      | sentinel => cases hrule

namespace Stream

/-- There is nothing to open below the level. -/
def Barren (family : Family) (level : Nat) (history : List (Nat × Except StreamError Frame)) : Prop :=
  (∀ f behind, ¬ Latest level history f behind) ∨
    ∃ f behind, Latest level history f behind ∧
      (f.isSentinel = true ∨ ∃ rule, f.ruleIn? (familyAt family history level) = some rule ∧ rule.nested = [])

/-- The next level is opened over `scan`, which gives a frame or an error at once. -/
def Opens (s : Stream) (scan : Scan) : Prop :=
  FromScan (s.next s.depth).1 ∧ (s.next s.depth).1 = answerOf s.depth scan.next.1 ∧
    ∃ event t outer, s.openLevel = .ok (event, t) ∧ t.levels = Level.ofScan scan :: outer ∧ outer.length = s.depth

/-- What becomes of a call on a level that is not open, below the last frame of `above`. -/
structure Admits (family : Family) (options : Options) (above : Nat)
    (history : List (Nat × Except StreamError Frame)) (s : Stream) : Prop where
  spent : (s.next s.depth).1 = .error (.exhausted s.depth) ↔ Spent above history
  barren : ¬ Spent above history →
    ((s.next s.depth).1 = .error (.noNestedFamily above) ↔ Barren family above history)
  opens : ¬ Spent above history → ¬ Barren family above history →
    ∃ f behind rule, Latest above history f behind ∧ f.ruleIn? (familyAt family history above) = some rule ∧
      rule.nested ≠ [] ∧ s.Opens (Scan.ofFeed rule.nested options (Feed.ofText f.text))

section
variable {family : Family} {options : Options} {feed : Feed} {history : List (Nat × Except StreamError Frame)}
  {s t u : Stream} {level k : Nat}

/-! ## What is refused -/

theorem error_iff_refuses (hd : s.depth ≤ k) {e : StreamError} (he : ¬ FromScan (.error e)) :
    (s.next k).1 = .error e ↔ s.Refuses k e := by
  constructor
  · intro hr
    obtain ⟨t, ha⟩ := exists_answers hr
    cases ha with
    | refused h => exact h
    | asked hr hp =>
      obtain ⟨scan, outer, hu, hlive⟩ := fresh_of_reaches hd hr
      exact absurd (fromScan_of_pulls hu hlive hp) he
  · intro h
    rw [next_of_refuses h]

theorem next_of_not_fromScan (hd : s.depth ≤ k) (h : ¬ FromScan (s.next k).1) :
    s.next k = ((s.next k).1, [], s) := by
  rcases hr : (s.next k).1 with e | f
  · rw [hr] at h
    exact next_of_refuses ((error_iff_refuses hd h).mp hr)
  · exact absurd (Or.inl ⟨f, hr⟩) h

theorem unopened_iff : (s.next k).1 = .error (.unopened k) ↔ s.depth < k := by
  constructor
  · intro hr
    obtain ⟨t, ha⟩ := exists_answers hr
    cases ha with
    | refused h =>
      cases h with
      | unopened hlt => exact hlt
    | asked _ hp => cases hp
  · intro hlt
    rw [next_of_refuses (.unopened hlt)]

theorem tooDeep_iff : (s.next s.depth).1 = .error (.tooDeep s.options.maxDepth) ↔ s.options.maxDepth ≤ s.depth := by
  rw [error_iff_refuses (Nat.le_refl _) (by simp [FromScan])]
  constructor
  · intro h
    generalize hk : s.depth = k at h
    cases h with
    | tooDeep hd => exact hk ▸ hd
  · exact .tooDeep

variable {l : Level} {outer : List Level}

theorem exhausted_iff (hd : s.depth < s.options.maxDepth) (hl : s.levels = l :: outer) :
    (s.next s.depth).1 = .error (.exhausted s.depth) ↔ l.expanded = true := by
  rw [error_iff_refuses (Nat.le_refl _) (by simp [FromScan])]
  constructor
  · intro h
    generalize he : StreamError.exhausted s.depth = e at h
    generalize hk : s.depth = k at h
    cases h with
    | unopened | tooDeep | noNested => cases he
    | noInput _ hl' =>
      rw [hl] at hl'
      cases hl'
    | expanded _ hl' he =>
      rw [hl] at hl'
      cases hl'
      exact he
  · exact .expanded hd hl

theorem noNestedFamily_iff (hd : s.depth < s.options.maxDepth) (hl : s.levels = l :: outer)
    (he : l.expanded = false) :
    (s.next s.depth).1 = .error (.noNestedFamily outer.length) ↔ l.nested? = none := by
  have hlen : outer.length = s.depth - 1 := by
    rw [depth, hl]
    rfl
  rw [error_iff_refuses (Nat.le_refl _) (by simp [FromScan]), hlen]
  constructor
  · intro h
    generalize hk : s.depth = k at h
    cases h with
    | noNested _ hl' _ hn =>
      rw [hl] at hl'
      cases hl'
      exact hn
  · exact .noNested hd hl he

theorem Tells.nested?_eq_none (h : Tells level history l) (hfamily : l.scan.family = familyAt family history level)
    (hof : ∀ f, l.last = some f → f.Of l.scan.family) : l.nested? = none ↔ Barren family level history := by
  rw [Level.nested?_eq_none_iff hof, hfamily]
  constructor
  · rintro (hn | ⟨f, hf, hbad⟩)
    · left
      intro f behind hl
      have := (h.last f).mpr ⟨behind, hl⟩
      rw [hn] at this
      cases this
    · obtain ⟨behind, hl⟩ := (h.last f).mp hf
      exact Or.inr ⟨f, behind, hl, hbad⟩
  · rintro (hn | ⟨f, behind, hl, hbad⟩)
    · left
      cases hlast : l.last with
      | none => rfl
      | some f =>
        obtain ⟨behind, hl⟩ := (h.last f).mp hlast
        exact absurd hl (hn f behind)
    · exact Or.inr ⟨f, (h.last f).mpr ⟨behind, hl⟩, hbad⟩

/-! ## What is opened -/

theorem opens_of_reaches (hs : s.Stands family options feed) (hr : s.Reaches s.depth u) {scan : Scan}
    (hu : u.levels = Level.ofScan scan :: outer) (hd : scan.done = false) : s.Opens scan := by
  obtain ⟨event, ho⟩ := openLevel_of_reaches hr
  obtain ⟨l, outer', hu', hlen⟩ := reaches_length hr
  rw [hu] at hu'
  cases hu'
  have hp := pulls hu
  have hanswer := (pulls_serves (hs.reaches hr) hu hp).1
  rw [hlen] at hanswer
  rw [Opens, (next_of_reaches hr).1]
  exact ⟨fromScan_of_pulls hu hd hp, hanswer, event, u, outer, ho, hu, hlen⟩

theorem opens_input (hs : s.Stands family options feed) (hd : s.depth < options.maxDepth) (h0 : s.depth = 0) :
    s.Opens (Scan.ofFeed family options feed) := by
  have hl : s.levels = [] := List.length_eq_zero_iff.mp h0
  have hstart := hs.fresh hl
  subst hstart
  have hr : (ofFeed family options feed).Reaches 0
      { ofFeed family options feed with feed := none, levels := [Level.ofScan (Scan.ofFeed family options feed)] } :=
    .input hd rfl rfl
  exact opens_of_reaches hs hr rfl rfl

theorem opens_nested (hs : s.Stands family options feed) (hd : s.depth < options.maxDepth) (hl : s.levels = l :: outer)
    (he : l.expanded = false) (hn : l.nested? ≠ none) :
    ∃ f rule, l.last = some f ∧ f.ruleIn? l.scan.family = some rule ∧ rule.nested ≠ [] ∧
      s.Opens (Scan.ofFeed rule.nested options (Feed.ofText f.text)) := by
  rcases hn' : l.nested? with _ | ⟨rules, text⟩
  · exact absurd hn' hn
  · obtain ⟨i, line, column, rule, hlast, hrule, rfl, hne⟩ := Level.nested?_eq_some hn'
    refine ⟨_, rule, hlast, hrule, hne, ?_⟩
    have hr := Reaches.nested (hs.same.symm ▸ hd) hl he hn'
    have hlen : s.depth = outer.length + 1 := by rw [depth, hl, List.length_cons]
    rw [← hlen, hs.same] at hr
    exact opens_of_reaches hs hr rfl rfl

theorem deepest (family : Family) (options : Options) (feed : Feed) (calls : List Nat) {above : Nat}
    (hd : ((ofFeed family options feed).after calls).depth = above + 1) :
    ∃ l outer, ((ofFeed family options feed).after calls).levels = l :: outer ∧ outer.length = above ∧
      Tells above ((ofFeed family options feed).answers calls) l ∧
      l.scan.family = familyAt family ((ofFeed family options feed).answers calls) above ∧
      (l.nested? = none ↔ Barren family above ((ofFeed family options feed).answers calls)) := by
  rcases hl : ((ofFeed family options feed).after calls).levels with _ | ⟨l, outer⟩
  · rw [depth, hl] at hd
    cases hd
  · rw [depth, hl, List.length_cons, Nat.add_right_cancel_iff] at hd
    have hat : levelAt? ((ofFeed family options feed).after calls).levels above = some l := by
      rw [hl, ← hd, levelAt?_self]
    have htell := (knows family options feed calls above).tells l hat
    have hfamily := (reflects family options feed calls above l hat).1
    have hstack := (sound family options feed calls).levels
    rw [hl] at hstack
    obtain ⟨start, n, hran⟩ := hstack.ran
    exact ⟨l, outer, rfl, hd, htell, hfamily, htell.nested?_eq_none hfamily fun f hf => hran.of_last hf⟩

end

theorem admits (family : Family) (options : Options) (feed : Feed) (calls : List Nat) {above : Nat} :
    let s := (ofFeed family options feed).after calls
    s.depth < options.maxDepth → s.depth = above + 1 →
      Admits family options above ((ofFeed family options feed).answers calls) s := by
  intro s hlt hd
  have hs : s.Stands family options feed := stands family options feed calls
  obtain ⟨l, outer, hl, rfl, htell, hfamily, hbarren⟩ := deepest family options feed calls hd
  have hlt' : s.depth < s.options.maxDepth := by rwa [hs.same]
  have hclear : ¬ Spent outer.length ((ofFeed family options feed).answers calls) → l.expanded = false := by
    intro hspent
    rw [← htell.mark] at hspent
    exact Bool.eq_false_iff.mpr hspent
  refine ⟨?_, fun hspent => ?_, fun hspent hopen => ?_⟩
  · rw [exhausted_iff hlt' hl, htell.mark]
  · rw [noNestedFamily_iff hlt' hl (hclear hspent), hbarren]
  · rw [← hbarren] at hopen
    obtain ⟨f, rule, hlast, hrule, hne, hopens⟩ := opens_nested hs hlt hl (hclear hspent) hopen
    obtain ⟨behind, hlatest⟩ := (htell.last f).mp hlast
    exact ⟨f, behind, rule, hlatest, hfamily ▸ hrule, hne, hopens⟩

theorem latest_of_fromScan (family : Family) (options : Options) (feed : Feed) (calls : List Nat) {above : Nat} :
    let s := (ofFeed family options feed).after calls
    s.depth = above + 1 → FromScan (s.next s.depth).1 →
      ∃ f behind, Latest above ((ofFeed family options feed).answers calls) f behind ∧ ¬ Opened above behind := by
  intro s hd hr
  have hs : s.Stands family options feed := stands family options feed calls
  have hrefused : ∀ e, (s.next s.depth).1 = .error e → ∃ g, e = .scan g := by
    intro e he
    rw [he] at hr
    simpa [FromScan] using hr
  have hlt : s.depth < options.maxDepth := by
    by_contra hge
    rw [← hs.same, Nat.not_lt] at hge
    obtain ⟨g, hg⟩ := hrefused _ (tooDeep_iff.mpr hge)
    cases hg
  have h := admits family options feed calls hlt hd
  have hspent : ¬ Spent above ((ofFeed family options feed).answers calls) := by
    intro hspent
    obtain ⟨g, hg⟩ := hrefused _ (h.spent.mpr hspent)
    cases hg
  have hbarren : ¬ Barren family above ((ofFeed family options feed).answers calls) := by
    intro hbarren
    obtain ⟨g, hg⟩ := hrefused _ ((h.barren hspent).mpr hbarren)
    cases hg
  obtain ⟨f, behind, -, hl, -⟩ := h.opens hspent hbarren
  exact ⟨f, behind, hl, fun ho => hspent ⟨f, behind, hl, ho⟩⟩

/-- **Admission.** Whether a call is refused, and with what, can be read off the depth and the
answers so far. A refused call changes nothing, and a text is opened at most once. -/
theorem admission (family : Family) (options : Options) (feed : Feed) (calls : List Nat) :
    let s := (ofFeed family options feed).after calls
    (∀ level, (s.next level).1 = .error (.unopened level) ↔ s.depth < level) ∧
    ((s.next s.depth).1 = .error (.tooDeep options.maxDepth) ↔ options.maxDepth ≤ s.depth) ∧
    (s.depth < options.maxDepth → s.depth = 0 → s.Opens (Scan.ofFeed family options feed)) ∧
    (∀ above, s.depth < options.maxDepth → s.depth = above + 1 →
      Admits family options above ((ofFeed family options feed).answers calls) s) ∧
    (∀ level, s.depth ≤ level → ¬ FromScan (s.next level).1 → s.next level = ((s.next level).1, [], s)) ∧
    ∀ above between,
      let t := s.after ((above + 1) :: between)
      s.depth = above + 1 → FromScan (s.next s.depth).1 → t.depth = above + 1 → FromScan (t.next t.depth).1 →
      ∃ f, (above, .ok f) ∈ (s.next s.depth).2.2.answers between := by
  intro s
  have hs : s.Stands family options feed := stands family options feed calls
  refine ⟨fun level => unopened_iff, hs.same ▸ tooDeep_iff, opens_input hs,
    fun above => admits family options feed calls, fun level => next_of_not_fromScan, fun above between => ?_⟩
  intro t hd hr hdt hrt
  have hafter : (ofFeed family options feed).after (calls ++ (above + 1) :: between) = t := after_append ..
  obtain ⟨f, behind, hl, ho⟩ :=
    latest_of_fromScan family options feed (calls ++ (above + 1) :: between) (hafter ▸ hdt) (hafter ▸ hrt)
  rw [answers_append] at hl
  rw [hd] at hr ⊢
  exact ⟨f, delivered_between hr hl ho⟩

theorem admission_pairs :
    let s := (ofFeed pairs Options.standard (Feed.ofText ['a', 'b', 'a', 'b'])).after [0]
    s.depth < Options.standard.maxDepth ∧ s.depth = 1 ∧ s.next 2 = (.error (.unopened 2), [], s) ∧
      (∃ scan, s.Opens scan) ∧ (s.after [1, 0]).depth = 1 ∧
      ∃ f, (0, .ok f) ∈ (s.next s.depth).2.2.answers [0] := by
  intro s
  let history := (ofFeed pairs Options.standard (Feed.ofText ['a', 'b', 'a', 'b'])).answers [0]
  obtain ⟨hunopened, -, -, hadmits, hrefused, honce⟩ :=
    admission pairs Options.standard (Feed.ofText ['a', 'b', 'a', 'b']) [0]
  have hlt : s.depth < Options.standard.maxDepth := by decide +kernel
  have hd : s.depth = 1 := by decide +kernel
  have hr : (s.next s.depth).1 = .ok (.token 0 ['a'] 0 0) := by decide +kernel
  have hdt : (s.after [1, 0]).depth = 1 := by decide +kernel
  have hrt : ((s.after [1, 0]).next (s.after [1, 0]).depth).1 = .ok (.token 0 ['a'] 0 0) := by decide +kernel
  have h2 : (s.next 2).1 = .error (.unopened 2) := (hunopened 2).mpr (by decide +kernel)
  have hne : ¬ FromScan (s.next 2).1 := by
    rw [h2]
    simp [FromScan]
  have h := hadmits 0 hlt hd
  have hspent : ¬ Spent 0 history := by
    rw [← h.spent, hr]
    intro heq
    cases heq
  have hbarren : ¬ Barren pairs 0 history := by
    rw [← h.barren hspent, hr]
    intro heq
    cases heq
  obtain ⟨f, behind, rule, -, -, -, hopens⟩ := h.opens hspent hbarren
  have hsame : s.next 2 = (.error (.unopened 2), [], s) := by
    rw [← h2]
    exact hrefused 2 (by decide +kernel) hne
  exact ⟨hlt, hd, hsame, ⟨_, hopens⟩, hdt, honce 0 [0] hd (Or.inl ⟨_, hr⟩) hdt (Or.inl ⟨_, hrt⟩)⟩

end Stream

end Munch
