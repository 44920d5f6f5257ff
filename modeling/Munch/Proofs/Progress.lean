import Munch.Proofs.MaximalMunch

/-!
# Every scan comes to its end

A skip leaves less to come. An empty frame leaves as much as before, but where one was cut no
rule takes anything: a place begins one frame at most.
-/

namespace Munch

section
variable {family : Family} {text : List Char} {p q : Prop} {m : Match}

theorem Candidate.mono (h : Candidate family text p m) (hpq : p → q) : Candidate family text q m := by
  cases h with
  | token hi h1 hn hr ha => exact .token hi h1 hn hr ha
  | atEnd hi h1 hr hl ha => exact .atEnd hi h1 hr hl ha
  | empty hp hi hj hm ha => exact .empty (hpq hp) hi hj hm ha

theorem no_candidate_of_empty (h : Match.IsBest (Candidate family text p) (some m)) (hm : m.length = 0)
    (n : Match) : ¬ Candidate family text False n := by
  intro hn
  have hpos : n.length ≠ 0 := fun h0 => hn.allowed h0
  have hbest := h.2 n (hn.mono False.elim)
  omega

end

/-- The last thing that a scan gives if its feed does not fail. -/
inductive Ends (strict : Bool) : Except ScanError Frame → Prop
  | sentinel (line column : Nat) : Ends strict (.ok (.sentinel line column))
  | refused (c : Char) (p : Position) : strict = true → Ends strict (.error (.unrecognized c p))

namespace Scan

theorem skips_wellFounded : WellFounded fun t s : Scan => ∃ c, s.settle = (.skip c, t) := by
  refine Subrelation.wf ?_ (measure fun s : Scan => s.window.size).wf
  intro t s h
  obtain ⟨c, hc⟩ := h
  exact size_settle hc

/-- The scan stands between `passed` and `rest`. If it has cut an empty frame there, no
rule takes anything of the rest. -/
structure Between (feed : Feed) (options : Options) (passed rest : List Char) (s : Scan) : Prop where
  same : s.options = options
  delivers : feed.Delivers (passed ++ rest)
  window : s.window.After feed passed
  offset : s.position.offset = passed.length
  behind : ∀ o, s.emptyAt = some o → o ≤ passed.length
  spent : s.emptyAt = some passed.length → ∀ m, ¬ Candidate s.family rest False m

/-- How much a scan may still give: a frame for each place from here on, and its end. -/
def budget (rest : List Char) (s : Scan) : Nat :=
  rest.length + if s.emptyAt = some s.position.offset then 1 else 2

section
variable {feed : Feed} {options : Options} {passed rest : List Char} {s t : Scan}

theorem budget_pos (rest : List Char) (s : Scan) : rest.length + 1 ≤ s.budget rest := by
  unfold budget
  split <;> omega

theorem budget_le (rest : List Char) (s : Scan) : s.budget rest ≤ rest.length + 2 := by
  unfold budget
  split <;> omega

theorem Between.budget_of_best (hs : s.Between feed options passed rest) {m : Match}
    (h : Candidate s.family rest (s.emptyAt ≠ some s.position.offset) m) : s.budget rest = rest.length + 2 := by
  have hne : s.emptyAt ≠ some s.position.offset := by
    intro he
    rw [hs.offset] at he h
    exact hs.spent he m (h.mono fun hne => hne he)
  rw [budget, if_neg hne]

theorem Between.commit (hs : s.Between feed options passed rest) {w : Window} (hw : w.After feed passed)
    (hp : w.ahead <+: rest) {m : Match} (hle : m.length ≤ w.ahead.length)
    (hbest : Match.IsBest (Candidate s.family rest (s.emptyAt ≠ some s.position.offset)) (some m)) (stats : Stats) :
    Between feed options (passed ++ w.ahead.take m.length) (rest.drop m.length)
      { s with
        window := { w with ahead := w.ahead.drop m.length }
        position := s.position.advanceAll s.options.terminator (w.ahead.take m.length)
        emptyAt := if m.length = 0 then some s.position.offset else s.emptyAt
        stats } := by
  have hlen : (passed ++ w.ahead.take m.length).length = passed.length + m.length := by
    rw [List.length_append, List.length_take_of_le hle]
  have htake : rest.take m.length = w.ahead.take m.length := by
    obtain ⟨more, rfl⟩ := hp
    exact List.take_append_of_le_length hle
  refine ⟨hs.same, ?_, hw.drop m.length, ?_, fun o ho => ?_, fun he => ?_⟩
  · rw [List.append_assoc, ← htake, List.take_append_drop]
    exact hs.delivers
  · rw [Position.offset_advanceAll, List.length_append, hs.offset]
  · rw [hlen]
    split at ho
    · rw [hs.offset, Option.some.injEq] at ho
      omega
    · have := hs.behind o ho
      omega
  · rw [hlen] at he
    split at he
    · rename_i h0
      rw [h0, List.drop_zero]
      exact no_candidate_of_empty hbest h0
    · have := hs.behind _ he
      omega

theorem Between.skip (hs : s.Between feed options passed rest) {w : Window} {c : Char}
    (hw : w.After feed (passed ++ [c])) (stats : Stats) :
    ∃ more, rest = c :: more ∧
      Between feed options (passed ++ [c]) more
        { s with window := w, position := s.position.advance s.options.terminator c, stats } := by
  obtain ⟨more, rfl⟩ := starts_with hs.delivers hw
  refine ⟨more, rfl, hs.same, by simpa using hs.delivers, hw, by simp [hs.offset], fun o ho => ?_, fun he => ?_⟩
  · have := hs.behind o ho
    rw [List.length_append]
    omega
  · have := hs.behind _ he
    rw [List.length_append, List.length_singleton] at this
    omega

theorem Between.settles (hs : s.Between feed options passed rest) {r : Settled} (h : s.Settles r t) :
    match r with
    | .frame f => f.isSentinel = true ∨ f.isSentinel = false ∧
        ∃ passed' rest', t.Between feed options passed' rest' ∧ t.budget rest' < s.budget rest
    | .skip _ => ∃ passed' rest', t.Between feed options passed' rest' ∧ t.budget rest' ≤ s.budget rest
    | .failed e => options.strict = true ∧ ∃ c p, e = .unrecognized c p := by
  obtain ⟨best, w, hrace, hw, hp, hbest⟩ := race_of_delivers hs.delivers hs.window
  cases h with
  | @token m _ hr =>
    cases hrace.symm.trans hr
    have hle := Window.length_le_of_race hr
    have hs' := hs.commit hw hp hle hbest
      { s.stats with frames := s.stats.frames + 1, symbols := s.stats.symbols + m.length }
    refine Or.inr ⟨rfl, _, _, hs', ?_⟩
    rw [hs.budget_of_best hbest.1]
    have hlen := hbest.1.length_le
    simp only [budget, List.length_drop]
    by_cases h0 : m.length = 0
    · -- as much is left as before, but no other frame begins here
      simp [h0, Position.advanceAll]
    · rw [if_neg h0]
      split <;> omega
  | sentinel => exact Or.inl rfl
  | @skip c _ _ hr hpop =>
    cases hrace.symm.trans hr
    have hw' := Window.after_pop hw
    rw [hpop] at hw'
    obtain ⟨more, rfl, hs'⟩ := hs.skip hw' { s.stats with skipped := s.stats.skipped + 1 }
    refine ⟨_, _, hs', Nat.le_trans (budget_le ..) ?_⟩
    exact budget_pos (c :: more) s
  | @unrecognized c _ _ hr hpop hstrict => exact ⟨hs.same ▸ hstrict, c, s.position, rfl⟩
  | raceFailed hr => cases hrace.symm.trans hr
  | popFailed hr hpop =>
    cases hrace.symm.trans hr
    have hsays := Window.after_pop hw
    rw [hpop] at hsays
    have := (hs.delivers.of_says (fun _ => Reply.noConfusion) hsays).2
    cases this

theorem Between.of_done (hs : s.Between feed options passed rest) (done : Bool) :
    Between feed options passed rest { s with done } :=
  ⟨hs.same, hs.delivers, hs.window, hs.offset, hs.behind, hs.spent⟩

theorem Between.advances {r : Except ScanError Frame} (hs : s.Between feed options passed rest)
    (h : s.Advances r t) :
    t.done = true ∧ Ends options.strict r ∨
      ∃ f passed' rest', r = .ok f ∧ f.isSentinel = false ∧ t.done = false ∧
        t.Between feed options passed' rest' ∧ t.budget rest' < s.budget rest := by
  -- by the skips of the call, none of which adds to the budget
  induction h generalizing passed rest with
  | @frame s t f hset =>
    rcases hs.settles hset with hend | ⟨hend, passed', rest', hs', hlt⟩
    · cases f with
      | token => cases hend
      | sentinel line column => exact Or.inl ⟨rfl, .sentinel line column⟩
    · exact Or.inr ⟨f, passed', rest', rfl, hend, hend, hs'.of_done _, hlt⟩
  | @failed s t e hset =>
    obtain ⟨hstrict, c, p, rfl⟩ := hs.settles hset
    exact Or.inl ⟨rfl, .refused c p hstrict⟩
  | @skip s t u c r hset _ ih =>
    obtain ⟨passed', rest', hs', hle⟩ := hs.settles hset
    rcases ih hs' with hend | ⟨f, passed'', rest'', hr, hf, hdone, hs'', hlt⟩
    · exact Or.inl hend
    · exact Or.inr ⟨f, passed'', rest'', hr, hf, hdone, hs'', Nat.lt_of_lt_of_le hlt hle⟩

theorem Between.results (hs : s.Between feed options passed rest) (hd : s.done = false) :
    ∃ (frames : List Frame) (last : Except ScanError Frame),
      frames.length + 1 ≤ s.budget rest ∧ (∀ f ∈ frames, f.isSentinel = false) ∧ Ends options.strict last ∧
        ∀ n, (s.results n).1 = (frames.map Except.ok ++ [last]).take n ∧
          (frames.length < n → (s.after n).done = true) := by
  induction hb : s.budget rest using Nat.strongRecOn generalizing s passed rest with
  | ind b ih =>
    obtain ⟨r, log, t, hn, ha⟩ := next_of_live hd
    have hafter : ∀ n, s.after (n + 1) = t.after n := by
      intro n
      rw [after, hn]
    have hpos := budget_pos rest s
    rcases hs.advances ha with ⟨hdone, hend⟩ | ⟨f, passed', rest', rfl, hf, hdone, hs', hlt⟩
    · refine ⟨[], r, by simp only [List.length_nil]; omega, by simp, hend, fun n => ?_⟩
      cases n with
      | zero => exact ⟨rfl, fun h => by cases h⟩
      | succ n =>
        rw [results_succ hn, results_of_done hdone, hafter, after_of_done hdone]
        exact ⟨by simp, fun _ => hdone⟩
    · obtain ⟨frames, last, hle, hnone, hend, hres⟩ := ih _ (hb ▸ hlt) hs' hdone rfl
      refine ⟨f :: frames, last, by rw [List.length_cons]; omega, ?_, hend, fun n => ?_⟩
      · intro g hg
        rcases List.mem_cons.mp hg with rfl | hg
        · exact hf
        · exact hnone g hg
      · cases n with
        | zero => exact ⟨rfl, fun h => by cases h⟩
        | succ n =>
          rw [results_succ hn, hafter, (hres n).1]
          refine ⟨by simp, fun h => (hres n).2 ?_⟩
          rw [List.length_cons] at h
          omega

end

theorem between_ofFeed (family : Family) (options : Options) {feed : Feed} {text : List Char}
    (h : feed.Delivers text) : (ofFeed family options feed).Between feed options [] text where
  same := rfl
  delivers := h
  window := .nil feed
  offset := rfl
  behind := by simp [ofFeed]
  spent := by simp [ofFeed]

end Scan

/-- **Every scan comes to its end.** Over `n` symbols it gives at most `n + 2` things, the last of
which is the sentinel or, in a strict scan only, the refusal of a symbol. -/
theorem results_end (family : Family) (options : Options) {feed : Feed} {text : List Char}
    (h : feed.Delivers text) :
    (WellFounded fun t s : Scan => ∃ c, s.settle = (.skip c, t)) ∧
    (∀ a : Automaton, Automaton.JumpPath a.startJump 0 a.startChain ∧
      ∀ q, Automaton.JumpPath a.endJump q (a.endChain q)) ∧
    ∃ (frames : List Frame) (last : Except ScanError Frame),
      (frames.map Except.ok ++ [last]).length ≤ text.length + 2 ∧
        (∀ f ∈ frames, f.isSentinel = false) ∧ Ends options.strict last ∧
        ∀ n, ((Scan.ofFeed family options feed).results n).1 = (frames.map Except.ok ++ [last]).take n ∧
          (frames.length < n →
            ((Scan.ofFeed family options feed).after n).next =
              (none, [], (Scan.ofFeed family options feed).after n)) := by
  refine ⟨Scan.skips_wellFounded, fun a => ⟨(a.startPath_iff _).mpr rfl, a.endPath⟩, ?_⟩
  obtain ⟨frames, last, hle, hnone, hend, hres⟩ := (Scan.between_ofFeed family options h).results rfl
  refine ⟨frames, last, ?_, hnone, hend, fun n => ⟨(hres n).1, fun hn => ?_⟩⟩
  · have hb := Scan.budget_le text (Scan.ofFeed family options feed)
    simp only [List.length_append, List.length_map, List.length_singleton]
    omega
  · exact Scan.next_of_done ((hres n).2 hn)

theorem results_end_marking :
    (Feed.ofText ['?']).Delivers ['?'] ∧
      ∃ (frames : List Frame) (last : Except ScanError Frame),
        (frames.map Except.ok ++ [last]).length = ['?'].length + 2 ∧ Ends false last ∧
          ∀ n, ((Scan.ofFeed marking Options.standard (Feed.ofText ['?'])).results n).1 =
            (frames.map Except.ok ++ [last]).take n := by
  have hd := Feed.delivers_ofText ['?']
  obtain ⟨-, -, frames, last, hle, -, hend, hres⟩ := results_end marking Options.standard hd
  refine ⟨hd, frames, last, Nat.le_antisymm hle ?_, hend, fun n => (hres n).1⟩
  have hthree : ((Scan.ofFeed marking Options.standard (Feed.ofText ['?'])).results 3).1.length = 3 := by
    decide +kernel
  rw [(hres 3).1, List.length_take] at hthree
  simp only [List.length_singleton]
  omega

end Munch
