import Munch.Proofs.Calls
import Munch.Proofs.Positions
import Munch.Proofs.Windows

/-!
# Scanning is maximal munch

`Cuts` cuts a text into tokens with nothing but the text and the offset in it: at each
offset the best candidate is taken, or else one symbol is dropped.
-/

namespace Munch

def Frame.cut (f : Frame) : Option Nat × List Char := (f.rule?, f.text)

/-- The tokens of `text` from `o` on, if empty ones were cut at the offsets `empties`. -/
inductive Cuts (family : Family) (text : List Char) :
    Nat → List Nat → List (Option Nat × List Char) → Prop
  | token {o : Nat} {empties : List Nat} {m : Match} {tokens : List (Option Nat × List Char)} :
      Match.IsBest (Candidate family (text.drop o) (o ∉ empties)) (some m) →
      Cuts family text (o + m.length) (if m.length = 0 then o :: empties else empties) tokens →
      Cuts family text o empties ((some m.rule, (text.drop o).take m.length) :: tokens)
  | skip {o : Nat} {empties : List Nat} {tokens : List (Option Nat × List Char)} :
      Match.IsBest (Candidate family (text.drop o) (o ∉ empties)) none → o < text.length →
      Cuts family text (o + 1) empties tokens → Cuts family text o empties tokens
  | stop {o : Nat} {empties : List Nat} :
      Match.IsBest (Candidate family (text.drop o) (o ∉ empties)) none → text.length ≤ o →
      Cuts family text o empties [(none, [])]

theorem Cuts.unique {family : Family} {text : List Char} {o : Nat} {empties : List Nat}
    {s t : List (Option Nat × List Char)} (hs : Cuts family text o empties s)
    (ht : Cuts family text o empties t) : s = t := by
  induction hs generalizing t with
  | token hb _ ih =>
    cases ht with
    | token hb' ht =>
      cases Match.isBest_unique hb hb'
      rw [ih ht]
    | skip hb' => cases Match.isBest_unique hb hb'
    | stop hb' => cases Match.isBest_unique hb hb'
  | skip hb hlt _ ih =>
    cases ht with
    | token hb' => cases Match.isBest_unique hb hb'
    | skip _ _ ht => exact ih ht
    | stop _ hle => omega
  | stop hb hle =>
    cases ht with
    | token hb' => cases Match.isBest_unique hb hb'
    | skip _ hlt => omega
    | stop => rfl

/-- Where the symbol of `text` with the offset `o` stands. -/
def placeAt (terminator : Char) (text : List Char) (o : Nat) : Position :=
  Position.start.advanceAll terminator (text.take o)

/-- The frames that cutting the text comes to, each where it begins. -/
inductive Lays (family : Family) (terminator : Char) (text : List Char) : Nat → List Nat → List Frame → Prop
  | token {o : Nat} {empties : List Nat} {m : Match} {frames : List Frame} :
      Match.IsBest (Candidate family (text.drop o) (o ∉ empties)) (some m) →
      Lays family terminator text (o + m.length) (if m.length = 0 then o :: empties else empties) frames →
      Lays family terminator text o empties
        (.token m.rule ((text.drop o).take m.length) (placeAt terminator text o).line
          (placeAt terminator text o).column :: frames)
  | skip {o : Nat} {empties : List Nat} {frames : List Frame} :
      Match.IsBest (Candidate family (text.drop o) (o ∉ empties)) none → o < text.length →
      Lays family terminator text (o + 1) empties frames → Lays family terminator text o empties frames
  | stop {o : Nat} {empties : List Nat} :
      Match.IsBest (Candidate family (text.drop o) (o ∉ empties)) none → text.length ≤ o →
      Lays family terminator text o empties
        [.sentinel (placeAt terminator text o).line (placeAt terminator text o).column]

theorem Lays.cuts {family : Family} {terminator : Char} {text : List Char} {o : Nat} {empties : List Nat}
    {frames : List Frame} (h : Lays family terminator text o empties frames) :
    Cuts family text o empties (frames.map Frame.cut) := by
  induction h with
  | token hbest _ ih => exact .token hbest ih
  | skip hbest hlt _ ih => exact .skip hbest hlt ih
  | stop hbest hle => exact .stop hbest hle

namespace Scan

theorem read_of_delivers {feed : Feed} {text passed : List Char} {w : Window}
    (hd : feed.Delivers text) (hw : w.After feed passed) :
    passed ++ w.ahead <+: text ∧ (w.ended = true → passed ++ w.ahead = text) := by
  unfold Window.After Window.ending at hw
  cases he : w.ended with
  | false =>
    rw [he, if_neg (by simp), List.append_nil] at hw
    exact ⟨hd.of_says_symbols hw, fun h => by cases h⟩
  | true =>
    rw [he, if_pos rfl] at hw
    have heq := (hd.of_says (fun _ => Reply.noConfusion) hw).1
    exact ⟨heq ▸ List.prefix_rfl, fun _ => heq⟩

theorem ahead_of_delivers {feed : Feed} {passed rest : List Char} {w : Window}
    (hd : feed.Delivers (passed ++ rest)) (hw : w.After feed passed) :
    w.ahead <+: rest ∧ (w.ended = true → w.ahead = rest) := by
  obtain ⟨hp, hend⟩ := read_of_delivers hd hw
  exact ⟨(List.prefix_append_right_inj passed).mp hp, fun he => List.append_cancel_left (hend he)⟩

theorem starts_with {feed : Feed} {passed rest : List Char} {c : Char} {w : Window}
    (hd : feed.Delivers (passed ++ rest)) (hw : w.After feed (passed ++ [c])) : ∃ more, rest = c :: more := by
  have hp := (read_of_delivers hd hw).1
  rw [List.append_assoc, List.prefix_append_right_inj] at hp
  obtain ⟨more, rfl⟩ := hp
  exact ⟨w.ahead ++ more, rfl⟩

theorem race_of_delivers {feed : Feed} {passed rest : List Char} {s : Scan}
    (hd : feed.Delivers (passed ++ rest)) (hw : s.window.After feed passed) :
    ∃ best w, s.race = (.ok best, w) ∧ w.After feed passed ∧ w.ahead <+: rest ∧
      Match.IsBest (Candidate s.family rest (s.emptyAt ≠ some s.position.offset)) best := by
  have hr := Window.after_race hw s.family (s.emptyAt != some s.position.offset)
  rw [← race] at hr
  rcases hrace : s.race with ⟨e | best, w⟩
  · rw [hrace] at hr
    have := (hd.of_says (fun _ => Reply.noConfusion) hr).2
    cases this
  · rw [hrace] at hr
    obtain ⟨hw', rfl, hstuck⟩ := hr
    obtain ⟨hp, hend⟩ := ahead_of_delivers hd hw'
    refine ⟨_, w, rfl, hw', hp, ?_⟩
    -- the race over what is ahead is the race over the rest
    have hrun : (Race.start s.family (s.emptyAt != some s.position.offset)).run rest =
        (Race.start s.family (s.emptyAt != some s.position.offset)).run w.ahead := by
      cases he : w.ended with
      | true => rw [hend he]
      | false =>
        obtain ⟨more, rfl⟩ := hp
        rw [Race.run_append, Race.run_of_live_nil (hstuck he)]
    have hbest := Race.isBest_finish s.family (s.emptyAt != some s.position.offset) rest
    rw [hrun] at hbest
    simpa only [bne_iff_ne] using hbest

/-- The scan has passed the symbols `passed`, and cut empty frames at the offsets
`empties`. -/
structure Stands (feed : Feed) (family : Family) (terminator : Char) (passed : List Char) (empties : List Nat)
    (s : Scan) : Prop where
  family : s.family = family
  live : s.done = false
  lenient : s.options.strict = false
  window : s.window.After feed passed
  position : s.position = Position.start.advanceAll terminator passed
  terminator : s.options.terminator = terminator
  behind : ∀ o ∈ empties, o ≤ passed.length
  cut : ∀ o, s.emptyAt = some o → o ∈ empties
  last : passed.length ∈ empties → s.emptyAt = some passed.length

/-- What a scan has still to do, which is less where an empty frame was cut. -/
def weight (passed rest : List Char) (empties : List Nat) : Nat :=
  2 * rest.length + if passed.length ∈ empties then 0 else 1

section
variable {feed : Feed} {family : Family} {terminator : Char} {passed rest : List Char} {empties : List Nat}
  {s t : Scan} {r : Except ScanError Frame}

theorem Stands.offset (hs : s.Stands feed family terminator passed empties) :
    s.position.offset = passed.length := by
  rw [hs.position, Position.offset_advanceAll]
  exact Nat.zero_add _

theorem Stands.placed (hs : s.Stands feed family terminator passed empties) (rest : List Char) :
    s.position = placeAt terminator (passed ++ rest) passed.length := by
  rw [hs.position, placeAt, List.take_left]

theorem race_stands (hd : feed.Delivers (passed ++ rest)) (hs : s.Stands feed family terminator passed empties) :
    ∃ best w, s.race = (.ok best, w) ∧ w.After feed passed ∧ w.ahead <+: rest ∧
      Match.IsBest (Candidate family rest (passed.length ∉ empties)) best := by
  obtain ⟨best, w, hrace, hw, hp, hbest⟩ := race_of_delivers hd hs.window
  refine ⟨best, w, hrace, hw, hp, ?_⟩
  have hallowed : s.emptyAt ≠ some s.position.offset ↔ passed.length ∉ empties := by
    rw [hs.offset]
    exact ⟨fun h hm => h (hs.last hm), fun h he => h (hs.cut _ he)⟩
  rwa [propext hallowed, hs.family] at hbest

theorem Stands.commit (hs : s.Stands feed family terminator passed empties) {w : Window} (hw : w.After feed passed)
    {n : Nat} (hle : n ≤ w.ahead.length) (stats : Stats) :
    Stands feed family terminator (passed ++ w.ahead.take n) (if n = 0 then passed.length :: empties else empties)
      { s with
        window := { w with ahead := w.ahead.drop n }
        position := s.position.advanceAll s.options.terminator (w.ahead.take n)
        emptyAt := if n = 0 then some s.position.offset else s.emptyAt
        stats } := by
  have hlen : (passed ++ w.ahead.take n).length = passed.length + n := by
    rw [List.length_append, List.length_take_of_le hle]
  have hwindow : Window.After feed (passed ++ w.ahead.take n) { w with ahead := w.ahead.drop n } := hw.drop n
  have hposition : s.position.advanceAll s.options.terminator (w.ahead.take n) =
      Position.start.advanceAll terminator (passed ++ w.ahead.take n) := by
    rw [Position.advanceAll_append, ← hs.position, hs.terminator]
  by_cases h0 : n = 0
  · rw [if_pos h0, if_pos h0]
    refine ⟨hs.family, hs.live, hs.lenient, hwindow, hposition, hs.terminator, fun o ho => ?_, fun o ho => ?_,
      fun _ => ?_⟩
    · rcases List.mem_cons.mp ho with rfl | ho
      · omega
      · have := hs.behind o ho
        omega
    · rw [hs.offset, Option.some.injEq] at ho
      exact ho ▸ List.mem_cons_self
    · rw [hs.offset, hlen, h0]
      rfl
  · rw [if_neg h0, if_neg h0]
    refine ⟨hs.family, hs.live, hs.lenient, hwindow, hposition, hs.terminator, fun o ho => ?_, hs.cut,
      fun ho => ?_⟩
    · have := hs.behind o ho
      omega
    · have := hs.behind _ ho
      omega

theorem Stands.skip (hs : s.Stands feed family terminator passed empties) {w : Window} {c : Char}
    (hw : w.After feed (passed ++ [c])) (stats : Stats) :
    Stands feed family terminator (passed ++ [c]) empties
      { s with
        window := w
        position := s.position.advance s.options.terminator c
        stats } := by
  have hposition : s.position.advance s.options.terminator c =
      Position.start.advanceAll terminator (passed ++ [c]) := by
    rw [Position.advanceAll_append, ← hs.position, hs.terminator]
    rfl
  refine ⟨hs.family, hs.live, hs.lenient, hw, hposition, hs.terminator, fun o ho => ?_, hs.cut, fun ho => ?_⟩
  · have := hs.behind o ho
    rw [List.length_append]
    omega
  · have := hs.behind _ ho
    rw [List.length_append, List.length_singleton] at this
    omega

theorem settles_stands (hd : feed.Delivers (passed ++ rest)) (hs : s.Stands feed family terminator passed empties)
    {r : Settled} (h : s.Settles r t) :
    match r with
    | .frame f =>
      (∃ m, f = .token m.rule (rest.take m.length) s.position.line s.position.column ∧
        Match.IsBest (Candidate family rest (passed.length ∉ empties)) (some m) ∧
        t.Stands feed family terminator (passed ++ rest.take m.length)
          (if m.length = 0 then passed.length :: empties else empties)) ∨
      (f = .sentinel s.position.line s.position.column ∧
        Match.IsBest (Candidate family rest (passed.length ∉ empties)) none ∧ rest = [])
    | .skip c =>
      Match.IsBest (Candidate family rest (passed.length ∉ empties)) none ∧
        ∃ more, rest = c :: more ∧ t.Stands feed family terminator (passed ++ [c]) empties
    | .failed _ => False := by
  obtain ⟨best, w, hrace, hw, hp, hbest⟩ := race_stands hd hs
  cases h with
  | @token m w' hr =>
    cases hrace.symm.trans hr
    have hle := Window.length_le_of_race hr
    have htake : rest.take m.length = w.ahead.take m.length := by
      obtain ⟨more, rfl⟩ := hp
      exact List.take_append_of_le_length hle
    refine Or.inl ⟨m, by rw [htake], hbest, ?_⟩
    rw [htake]
    exact hs.commit hw hle _
  | @sentinel w₁ w₂ hr hpop =>
    cases hrace.symm.trans hr
    have hsays := Window.after_pop hw
    rw [hpop] at hsays
    obtain ⟨hw', ha, he⟩ := hsays
    have := (ahead_of_delivers hd hw').2 he
    exact Or.inr ⟨rfl, hbest, by rw [← this, ha]⟩
  | @skip c w₁ w₂ hr hpop =>
    cases hrace.symm.trans hr
    have hw' := Window.after_pop hw
    rw [hpop] at hw'
    obtain ⟨more, rfl⟩ := starts_with hd hw'
    exact ⟨hbest, more, rfl, hs.skip hw' _⟩
  | @unrecognized c w₁ w₂ hr hpop hstrict =>
    rw [hs.lenient] at hstrict
    cases hstrict
  | @raceFailed e w₁ hr => cases hrace.symm.trans hr
  | @popFailed e w₁ w₂ hr hpop =>
    cases hrace.symm.trans hr
    have hsays := Window.after_pop hw
    rw [hpop] at hsays
    have := (hd.of_says (fun _ => Reply.noConfusion) hsays).2
    cases this

theorem weight_cut {m : Match} (hle : m.length ≤ rest.length) (h0 : m.length = 0 → passed.length ∉ empties) :
    weight (passed ++ rest.take m.length) (rest.drop m.length)
      (if m.length = 0 then passed.length :: empties else empties) < weight passed rest empties := by
  by_cases hm : m.length = 0
  · simp [weight, hm, h0 hm]
  · simp only [weight, List.length_drop]
    split <;> split <;> omega

theorem weight_skip (passed more : List Char) (c : Char) (empties : List Nat) :
    weight (passed ++ [c]) more empties < weight passed (c :: more) empties := by
  simp only [weight, List.length_cons]
  split <;> split <;> omega

theorem advances_stands {text : List Char} (h : s.Advances r t) (hd : feed.Delivers text)
    (hp : passed ++ rest = text) (hs : s.Stands feed family terminator passed empties) :
    ∃ f, r = .ok f ∧
      ((t.done = true ∧ Lays family terminator text passed.length empties [f]) ∨
        ∃ passed' rest' empties', passed' ++ rest' = text ∧ t.Stands feed family terminator passed' empties' ∧
          weight passed' rest' empties' < weight passed rest empties ∧
          ∀ frames, Lays family terminator text passed'.length empties' frames →
            Lays family terminator text passed.length empties (f :: frames)) := by
  -- by the skips of the call, each of which takes the first symbol off the rest
  induction h generalizing passed rest with
  | @frame s t f hset =>
    have hdrop : text.drop passed.length = rest := by simp [← hp]
    have hplace : s.position = placeAt terminator text passed.length := hp ▸ hs.placed rest
    refine ⟨f, rfl, ?_⟩
    rcases settles_stands (hp ▸ hd) hs hset with ⟨m, rfl, hbest, ht⟩ | ⟨rfl, hbest, rfl⟩
    · have hle : m.length ≤ rest.length := hbest.1.length_le
      refine Or.inr ⟨passed ++ rest.take m.length, rest.drop m.length, _, by simp [hp],
        ⟨ht.family, rfl, ht.lenient, ht.window, ht.position, ht.terminator, ht.behind, ht.cut, ht.last⟩,
        weight_cut hle hbest.1.allowed, fun frames hframes => ?_⟩
      rw [List.length_append, List.length_take_of_le hle] at hframes
      have := Lays.token (hdrop ▸ hbest) hframes
      rwa [hdrop, ← hplace] at this
    · refine Or.inl ⟨rfl, ?_⟩
      rw [hplace]
      exact .stop (hdrop ▸ hbest) (by simp [← hp])
  | failed hset => exact (settles_stands (hp ▸ hd) hs hset).elim
  | @skip s t u c r hset _ ih =>
    obtain ⟨hbest, more, rfl, ht⟩ := settles_stands (hp ▸ hd) hs hset
    have hdrop : text.drop passed.length = c :: more := by simp [← hp]
    have hskip : ∀ frames, Lays family terminator text (passed ++ [c]).length empties frames →
        Lays family terminator text passed.length empties frames := by
      intro frames hframes
      rw [List.length_append, List.length_singleton] at hframes
      exact .skip (hdrop ▸ hbest) (by simp [← hp]) hframes
    obtain ⟨f, hr, h⟩ := ih (by simpa using hp) ht
    refine ⟨f, hr, ?_⟩
    rcases h with ⟨hdone, hlays⟩ | ⟨passed', rest', empties', hp', hs', hlt, hlays⟩
    · exact Or.inl ⟨hdone, hskip _ hlays⟩
    · exact Or.inr ⟨passed', rest', empties', hp', hs', Nat.lt_trans hlt (weight_skip ..),
        fun frames hframes => hskip _ (hlays frames hframes)⟩

theorem results_lays {text : List Char} (hd : feed.Delivers text) (hp : passed ++ rest = text)
    (hs : s.Stands feed family terminator passed empties) :
    ∃ frames : List Frame, (∀ n, (s.results n).1 = (frames.map .ok).take n) ∧
      Lays family terminator text passed.length empties frames := by
  induction hw : weight passed rest empties using Nat.strongRecOn generalizing s passed rest empties with
  | ind w ih =>
    obtain ⟨r, log, t, hn, ha⟩ := next_of_live hs.live
    obtain ⟨f, rfl, h⟩ := advances_stands ha hd hp hs
    rcases h with ⟨hdone, hlays⟩ | ⟨passed', rest', empties', hp', hs', hlt, hlays⟩
    · refine ⟨[f], fun n => ?_, hlays⟩
      cases n with
      | zero => rfl
      | succ n => rw [results_succ hn, results_of_done hdone]; simp
    · obtain ⟨frames, hres, hframes⟩ := ih _ (hw ▸ hlt) hp' hs' rfl
      refine ⟨f :: frames, fun n => ?_, hlays _ hframes⟩
      cases n with
      | zero => rfl
      | succ n => rw [results_succ hn, hres]; simp

theorem results_stands {text : List Char} (hd : feed.Delivers text) (hp : passed ++ rest = text)
    (hs : s.Stands feed family terminator passed empties) :
    ∃ frames : List Frame, (∀ n, (s.results n).1 = (frames.map .ok).take n) ∧
      Cuts family text passed.length empties (frames.map Frame.cut) := by
  obtain ⟨frames, hres, hlays⟩ := results_lays hd hp hs
  exact ⟨frames, hres, hlays.cuts⟩

end

theorem stands_ofFeed (family : Family) (terminator : Char) (maxDepth : Nat) (feed : Feed) :
    (ofFeed family ⟨terminator, false, maxDepth⟩ feed).Stands feed family terminator [] [] where
  family := rfl
  live := rfl
  lenient := rfl
  window := .nil feed
  position := rfl
  terminator := rfl
  behind := by simp
  cut := by simp [ofFeed]
  last := by simp

end Scan

/-- **Maximal munch.** A scan that skips what no rule takes yields the tokens of the
text and nothing behind them, whatever it reads ahead on the way. -/
theorem results_cut (family : Family) (terminator : Char) (maxDepth : Nat) {feed : Feed} {text : List Char}
    (h : feed.Delivers text) :
    ∃ frames : List Frame,
      (∀ n, ((Scan.ofFeed family ⟨terminator, false, maxDepth⟩ feed).results n).1 = (frames.map .ok).take n) ∧
        ∀ tokens, Cuts family text 0 [] tokens ↔ tokens = frames.map Frame.cut := by
  obtain ⟨frames, hres, hcuts⟩ := Scan.results_stands h (List.nil_append text)
    (Scan.stands_ofFeed family terminator maxDepth feed)
  refine ⟨frames, hres, fun tokens => ⟨fun ht => ht.unique hcuts, ?_⟩⟩
  rintro rfl
  exact hcuts

def marking : Family :=
  [⟨some "mark", ⟨#[⟨#[], some 1, none⟩, ⟨#[], none, none⟩], (BitSet.withCapacity 2).insert 1⟩, []⟩,
    Rule.literal "letter" ['a']]

theorem cuts_marking :
    (Feed.ofText ['a', '?']).Delivers ['a', '?'] ∧
      Cuts marking ['a', '?'] 0 [] [(some 1, ['a']), (some 0, []), (some 0, []), (none, [])] := by
  have hd := Feed.delivers_ofText ['a', '?']
  obtain ⟨frames, hres, hcuts⟩ := results_cut marking '\n' 32 hd
  have hfive : ((Scan.ofFeed marking ⟨'\n', false, 32⟩ (Feed.ofText ['a', '?'])).results 5).1 =
      [Frame.token 1 ['a'] 0 0, .token 0 [] 0 1, .token 0 [] 0 2, .sentinel 0 2].map .ok := by
    decide +kernel
  rw [hres, ← List.map_take] at hfive
  have htake := List.map_injective_iff.mpr (fun _ _ => Except.ok.inj) hfive
  have hlen : frames.length ≤ 5 := by
    have := congrArg List.length htake
    simp only [List.length_take, List.length_cons, List.length_nil] at this
    omega
  rw [List.take_of_length_le hlen] at htake
  exact ⟨hd, (hcuts _).mpr (by rw [htake]; rfl)⟩

end Munch
