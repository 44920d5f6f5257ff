import Munch.Command.Basic
import Munch.Proofs.Outlines
import Munch.Proofs.Streams

/-!
# A stream is listed by its outline

A listing goes on with the families that it has seen, and a stream with those of its levels.
They stay the same ones, so a listing is that of scans of their own.
-/

namespace Munch

theorem Record.ofFrame_eq (level : Nat) (family : Family) (f : Frame) :
    Record.ofFrame level family f = ⟨level, f, f.nameIn family⟩ := by
  cases f <;> rfl

namespace Stream

/-- The stream is listed by these records, from these families to those. -/
inductive Lists : List Family → Stream → List Record → List Family → Stream → Prop
  | nil (families : List Family) (s : Stream) : Lists families s [] families s
  | cons {family : Family} {outer families : List Family} {s t : Stream} {f : Frame} {records : List Record} :
      (s.next outer.length).1 = .ok f →
      Lists (familiesBehind f family outer) (s.next outer.length).2.2 records families t →
      Lists (family :: outer) s (⟨outer.length, f, f.nameIn family⟩ :: records) families t

/-- What a stream is listed by until those families are reached, where `p` holds of it. -/
inductive Shows (families left : List Family) (p : Stream → Prop) (s : Stream) : Listing → Prop
  | whole {records : List Record} {t : Stream} : Lists families s records left t → p t →
      Shows families left p s (records, none)
  | cut {records : List Record} {family : Family} {outer : List Family} {t : Stream} {e : StreamError} :
      Lists families s records (family :: outer) t → (t.next outer.length).1 = .error e →
      Shows families left p s (records, some e)

section
variable {families middle left : List Family} {p q : Stream → Prop} {s t u : Stream}

theorem Lists.append {records more : List Record} (h : Lists families s records middle t)
    (h' : Lists middle t more left u) : Lists families s (records ++ more) left u := by
  induction h with
  | nil => exact h'
  | cons hn _ ih => exact .cons hn (ih h')

theorem Shows.andThen {first more : Listing} (h : Shows families middle q s first)
    (hmore : ∀ t, q t → Shows middle left p t more) : Shows families left p s (first.andThen more) := by
  cases h with
  | cut h he => exact .cut h he
  | whole h ht =>
    cases hmore _ ht with
    | whole h' hu => exact .whole (h.append h') hu
    | cut h' he => exact .cut (h.append h') he

theorem Shows.behind {family : Family} {outer : List Family} {f : Frame} {l : Listing}
    (hn : (s.next outer.length).1 = .ok f)
    (h : Shows (familiesBehind f family outer) left p (s.next outer.length).2.2 l) :
    Shows (family :: outer) left p s (l.behind ⟨outer.length, f, f.nameIn family⟩) := by
  cases h with
  | whole h ht => exact .whole (.cons hn h) ht
  | cut h he => exact .cut (.cons hn h) he

theorem listFrom_of_lists {records : List Record} (h : Lists families s records left t) (steps : Nat)
    (done : List Record) :
    s.listFrom (records.length + steps) families done = t.listFrom steps left (records.reverse ++ done) := by
  induction h generalizing done with
  | nil => simp
  | @cons family outer _ s t f records hn _ ih =>
    rw [List.length_cons, Nat.add_right_comm, listFrom]
    rcases hs : s.next outer.length with ⟨_ | f', log, t'⟩
    · rw [hs] at hn
      cases hn
    · rw [hs] at hn ih
      cases hn
      rw [List.reverse_cons, List.append_assoc, ← Record.ofFrame_eq]
      exact ih _

theorem listFrom_nil (steps : Nat) (s : Stream) (done : List Record) :
    s.listFrom steps [] done = (done.reverse, none) := by
  cases steps <;> rfl

theorem listFrom_of_shows {l : Listing} (h : Shows families [] p s l) (more : Nat) :
    s.listFrom (l.1.length + 1 + more) families [] = l := by
  cases h with
  | whole h =>
    rw [Nat.add_assoc, listFrom_of_lists h, listFrom_nil, List.append_nil, List.reverse_reverse]
  | @cut _ _ outer t e h he =>
    rw [Nat.add_assoc, listFrom_of_lists h, List.append_nil, Nat.add_comm 1, listFrom]
    rcases ht : t.next outer.length with ⟨e' | _, log, t'⟩ <;> (rw [ht] at he; cases he)
    rw [List.reverse_reverse]

/-! ## One frame -/

theorem familiesBehind_sentinel {f : Frame} (h : f.isSentinel = true) (family : Family) (outer : List Family) :
    familiesBehind f family outer = outer := if_pos h

theorem familiesBehind_token {f : Frame} (h : f.isSentinel = false) (family : Family) (outer : List Family) :
    familiesBehind f family outer =
      match f.nestedIn? family with
      | none => family :: outer
      | some (nested, _) => nested :: family :: outer := by
  cases f with
  | sentinel => cases h
  | token rule text line column =>
    have hr : (Frame.token rule text line column).ruleIn? family = family[rule]? := rfl
    simp only [familiesBehind, h, hr, Frame.nestedIn?]
    cases family[rule]? with
    | none => rfl
    | some r => cases hn : r.nested <;> simp [hn]

theorem nested?_of_last {l : Level} {f : Frame} {nested : Family} {text : List Char} (hlast : l.last = some f)
    (h : f.nestedIn? l.scan.family = some (nested, text)) : l.nested? = some (nested, text) := by
  obtain ⟨r, -, hr, rfl, hne, rfl⟩ := nestedIn?_eq_some h
  unfold Level.nested?
  cases f with
  | sentinel => cases hr
  | token rule text line column =>
    have hr : l.scan.family[rule]? = some r := hr
    simp [hlast, hr, hne, Frame.text]

end

/-- The stream that is left behind the sentinel of a level. That of level 0 closes nothing. -/
def Leaves (options : Options) (outer : List Level) (s : Stream) : Prop :=
  s.options = options ∧ (outer ≠ [] → s.levels = outer)

/-- The deepest level, below `outer`, scans with the family and has these items still to give. -/
structure Deepest (options : Options) (family : Family) (items : List (Except StreamError Frame))
    (outer : List Level) (l : Level) (s : Stream) : Prop where
  same : s.options = options
  levels : s.levels = l :: outer
  family : l.scan.family = family
  gives : ∃ given, l.scan.Gives given ∧ items = given.map (Except.mapError .scan)

section
variable {options : Options} {family : Family} {items : List (Except StreamError Frame)} {outer : List Level}
  {l : Level} {s u : Stream} {f : Frame}

theorem Deepest.reaches (h : s.Deepest options family items outer l) : s.Reaches outer.length s := by
  have hlevels : s.levels = [] ++ l :: outer := h.levels
  have hback := Reaches.back hlevels
  rwa [← h.levels] at hback

theorem Deepest.next_error {e : StreamError} (h : u.Deepest options family (.error e :: items) outer l)
    (hr : s.Reaches outer.length u) : (s.next outer.length).1 = .error e := by
  obtain ⟨given, hg, heq⟩ := h.gives
  cases hg with
  | failed hn =>
    cases heq
    exact (next_of_answers (.asked hr (.failed h.levels hn))).1
  | sentinel => cases heq
  | frame => cases heq

theorem Deepest.next_sentinel (h : u.Deepest options family (.ok f :: items) outer l)
    (hr : s.Reaches outer.length u) (hf : f.isSentinel = true) :
    (s.next outer.length).1 = .ok f ∧ items = [] ∧ Leaves options outer (s.next outer.length).2.2 := by
  obtain ⟨given, hg, heq⟩ := h.gives
  cases hg with
  | failed => cases heq
  | frame hn hf' =>
    cases heq
    rw [hf] at hf'
    cases hf'
  | sentinel hn =>
    cases heq
    cases outer with
    | nil =>
      obtain ⟨h1, h2⟩ := next_of_answers (.asked hr (.finished h.levels hn hf))
      rw [h1, h2]
      exact ⟨rfl, rfl, h.same, fun hne => absurd rfl hne⟩
    | cons m outer =>
      obtain ⟨h1, h2⟩ := next_of_answers (.asked hr (.closed h.levels hn hf))
      rw [h1, h2]
      exact ⟨rfl, rfl, h.same, fun _ => rfl⟩

theorem Deepest.next_token (h : u.Deepest options family (.ok f :: items) outer l)
    (hr : s.Reaches outer.length u) (hf : f.isSentinel = false) :
    (s.next outer.length).1 = .ok f ∧
      ∃ scan, (s.next outer.length).2.2.Deepest options family items outer ⟨scan, some f, false⟩ := by
  obtain ⟨given, hg, heq⟩ := h.gives
  cases hg with
  | failed => cases heq
  | sentinel hn hf' =>
    cases heq
    rw [hf] at hf'
    cases hf'
  | @frame _ scan _ log given hn _ hg =>
    cases heq
    obtain ⟨h1, h2⟩ := next_of_answers (.asked hr (.token h.levels hn hf))
    have hfamily := l.scan.next_family
    rw [hn, h.family] at hfamily
    rw [h1, h2]
    exact ⟨rfl, scan, h.same, rfl, hfamily, given, hg, rfl⟩

theorem Deepest.below {scan : Scan} {nested : Family} {text : List Char} (h : s.Deepest options family items outer ⟨scan, some f, false⟩)
    (hn : f.nestedIn? family = some (nested, text)) (hdeep : outer.length + 1 < options.maxDepth) :
    ∃ u m, s.Reaches (outer.length + 1) u ∧
      u.Deepest options nested (freshItems options (outer.length + 1) nested (Feed.ofText text))
        (⟨scan, some f, true⟩ :: outer) m := by
  have hdepth : s.depth < s.options.maxDepth := by rwa [depth, h.levels, List.length_cons, h.same]
  have hfamily := h.family
  subst hfamily
  refine ⟨_, _, .nested hdepth h.levels rfl (nested?_of_last rfl hn), h.same, rfl, rfl, ?_⟩
  rw [h.same, freshItems, if_neg (Nat.ne_of_lt hdeep)]
  exact ⟨_, (Scan.gives_all nested options (Feed.ofText text)).1, rfl⟩

theorem Deepest.too_deep (h : s.Deepest options family items outer l) (hdeep : outer.length + 1 = options.maxDepth) :
    (s.next (outer.length + 1)).1 = .error (.tooDeep options.maxDepth) := by
  have hdepth : s.depth = outer.length + 1 := by rw [depth, h.levels, List.length_cons]
  have hr := Refuses.tooDeep (s := s) (by rw [hdepth, h.same, hdeep])
  rw [hdepth, h.same] at hr
  rw [next_of_refuses hr]

end

/-- From where a level has these items to give, the stream is listed by their outline. -/
theorem shows_outline (options : Options) (level : Nat) (family : Family) (items : List (Except StreamError Frame))
    {outer : List Level} {families : List Family} {l : Level} {s u : Stream} (hdeep : level < options.maxDepth)
    (hl : outer.length = level) (hf : families.length = level) (hr : s.Reaches level u)
    (hu : u.Deepest options family items outer l) :
    Shows (family :: families) families (Leaves options outer) s (outline options level family items) := by
  fun_induction outline options level family items generalizing outer families l s u with
  | case1 level family =>
    obtain ⟨given, hg, heq⟩ := hu.gives
    cases hg <;> cases heq
  | case2 level family e items =>
    subst hl
    refine .cut (.nil ..) ?_
    rw [hf]
    exact hu.next_error hr
  | case3 level family f items hn ih =>
    subst hl
    cases hsent : f.isSentinel with
    | true =>
      obtain ⟨hok, rfl, hdone⟩ := hu.next_sentinel hr hsent
      rw [← hf] at hok hdone ⊢
      refine .behind hok ?_
      rw [familiesBehind_sentinel hsent, outline]
      exact .whole (.nil ..) hdone
    | false =>
      obtain ⟨hok, scan, ht⟩ := hu.next_token hr hsent
      have hrest := ih hdeep rfl hf ht.reaches ht
      rw [← hf] at hok hrest ⊢
      refine .behind hok ?_
      rw [familiesBehind_token hsent, hn]
      exact hrest
  | case4 level family f items nested text hn ihb ih =>
    subst hl
    cases hsent : f.isSentinel with
    | true =>
      rw [nestedIn?_of_sentinel hsent] at hn
      cases hn
    | false =>
      obtain ⟨hok, scan, ht⟩ := hu.next_token hr hsent
      have hf' : (family :: families).length = outer.length + 1 := congrArg Nat.succ hf
      have hbelow : Shows (nested :: family :: families) (family :: families)
          (Leaves options (⟨scan, some f, true⟩ :: outer)) (s.next outer.length).2.2
          (outline options (outer.length + 1) nested
            (freshItems options (outer.length + 1) nested (Feed.ofText text))) := by
        rcases Nat.lt_or_eq_of_le (Nat.succ_le_of_lt hdeep) with hlt | heq
        · obtain ⟨v, m, hrv, hv⟩ := ht.below hn hlt
          exact ihb hlt rfl hf' hrv hv
        · rw [freshItems, if_pos heq, outline]
          refine .cut (.nil ..) ?_
          rw [hf']
          exact ht.too_deep heq
      have hrest : ∀ t, Leaves options (⟨scan, some f, true⟩ :: outer) t →
          Shows (family :: families) families (Leaves options outer) t
            (outline options outer.length family items) := by
        intro t h
        have hv : t.Deepest options family items outer ⟨scan, some f, true⟩ :=
          ⟨h.1, h.2 (List.cons_ne_nil _ _), ht.family, ht.gives⟩
        exact ih hdeep rfl hf hv.reaches hv
      have hwhole := hbelow.andThen hrest
      rw [← hf] at hok hwhole ⊢
      refine .behind hok ?_
      rw [familiesBehind_token hsent, hn]
      exact hwhole

theorem shows_ofFeed (family : Family) (options : Options) (feed : Feed) :
    ∃ p, Shows [family] [] p (ofFeed family options feed)
      (outline options 0 family (freshItems options 0 family feed)) := by
  rcases Nat.eq_zero_or_pos options.maxDepth with h0 | hpos
  · have hrefuses := Refuses.tooDeep (s := ofFeed family options feed) (Nat.le_of_eq h0)
    rw [freshItems, if_pos h0.symm, outline]
    refine ⟨fun _ => True, .cut (.nil ..) ?_⟩
    exact congrArg Prod.fst (next_of_refuses hrefuses)
  · have hu : Deepest options family (freshItems options 0 family feed) []
        (Level.ofScan (Scan.ofFeed family options feed))
        { ofFeed family options feed with
          feed := none, levels := [Level.ofScan (Scan.ofFeed family options feed)] } := by
      refine ⟨rfl, rfl, rfl, ?_⟩
      rw [freshItems, if_neg (Nat.ne_of_lt hpos)]
      exact ⟨_, (Scan.gives_all family options feed).1, rfl⟩
    have hr := Reaches.input (s := ofFeed family options feed) hpos rfl rfl
    have hnone : ([] : List Family).length = 0 := rfl
    exact ⟨_, shows_outline options 0 family _ hpos rfl hnone hr hu⟩

theorem length_outline_lt (family : Family) (options : Options) (feed : Feed) :
    (outline options 0 family (freshItems options 0 family feed)).1.length <
      listingBound feed.pending.length (Family.height family) := by
  obtain ⟨hlen, htexts⟩ := freshItems_bounds options 0 family feed
  have hle := length_outline options 0 family _ htexts
  have hmul := Nat.mul_le_mul_right ((feed.pending.length + 3) ^ Family.height family) hlen
  have hpos : 1 ≤ (feed.pending.length + 3) ^ Family.height family := Nat.one_le_pow _ _ (by omega)
  show _ < (feed.pending.length + 3) ^ (Family.height family + 1)
  rw [Nat.pow_succ, Nat.mul_comm, Nat.succ_mul (feed.pending.length + 2)]
  omega

end Stream

/-- **A stream is listed by its outline,** which ends with the sentinel of its level, with an error
of a scan, or at a level too many, and has all that its scans ever give. -/
theorem listing_outline (family : Family) (options : Options) (feed : Feed) :
    let whole := outline options 0 family (freshItems options 0 family feed)
    (Stream.ofFeed family options feed).listing = whole ∧
    (∀ more, (Stream.ofFeed family options feed).listFrom
      (Stream.listingBound feed.pending.length (Family.height family) + more) [family] [] = whole) ∧
    Command.listing family options feed =
      ⟨whole.1.flatMap fun r =>
          List.replicate (2 * r.level) ' ' ++ r.frame.display ++ [' '] ++ r.name.toList ++ ['\n'],
        whole.2.map .stream, none⟩ ∧
    (∀ level family feed, match (outline options level family (freshItems options level family feed)).2 with
      | none => ∃ records line column, (outline options level family (freshItems options level family feed)).1 =
          records ++ [⟨level, .sentinel line column, ""⟩]
      | some e => (∃ e', e = .scan e') ∨ e = .tooDeep options.maxDepth) ∧
    ∀ family feed n, ((Scan.ofFeed family options feed).results n).1 =
      (Scan.ofFeed family options feed).all.1.take n := by
  intro whole
  obtain ⟨p, hshows⟩ := Stream.shows_ofFeed family options feed
  have hmore : ∀ more, (Stream.ofFeed family options feed).listFrom
      (Stream.listingBound feed.pending.length (Family.height family) + more) [family] [] = whole := by
    intro more
    obtain ⟨spare, hspare⟩ := Nat.exists_eq_add_of_lt (Stream.length_outline_lt family options feed)
    rw [hspare, Nat.add_right_comm _ spare 1, Nat.add_assoc _ spare more]
    exact Stream.listFrom_of_shows hshows _
  have hlisting : (Stream.ofFeed family options feed).listing = whole := hmore 0
  refine ⟨hlisting, hmore, ?_, outline_freshItems options, fun family feed n => ?_⟩
  · unfold Command.listing
    rw [hlisting]
    rfl
  · exact (Scan.gives_all family options feed).1.results n

theorem listing_outline_pairs :
    let feed := Feed.ofText ['a', 'b']
    outline .standard 0 Stream.pairs (freshItems .standard 0 Stream.pairs feed) =
      ([⟨0, .token 0 ['a', 'b'] 0 0, "pair"⟩, ⟨1, .token 0 ['a'] 0 0, "a"⟩, ⟨1, .token 1 ['b'] 0 1, "b"⟩,
        ⟨1, .sentinel 0 2, ""⟩, ⟨0, .sentinel 0 2, ""⟩], none) ∧
    (Command.listing Stream.pairs .standard feed).output =
      "1:1 #0 \"ab\" pair\n  1:1 #0 \"a\" a\n  1:2 #1 \"b\" b\n  1:3 end \n1:3 end \n".toList ∧
    outline ⟨'\n', false, 1⟩ 0 Stream.pairs (freshItems ⟨'\n', false, 1⟩ 0 Stream.pairs feed) =
      ([⟨0, .token 0 ['a', 'b'] 0 0, "pair"⟩], some (.tooDeep 1)) := by
  intro feed
  have hwhole := (listing_outline Stream.pairs .standard feed).1
  have hcut := (listing_outline Stream.pairs ⟨'\n', false, 1⟩ feed).1
  exact ⟨hwhole.symm.trans (by decide +kernel), by decide +kernel, hcut.symm.trans (by decide +kernel)⟩

end Munch
