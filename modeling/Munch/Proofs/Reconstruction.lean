import Mathlib.Algebra.GroupWithZero.Nat
import Munch.Proofs.Calls
import Munch.Proofs.Positions
import Munch.Proofs.Windows

/-!
# Nothing is lost

The input of a scan is put together again from its frames, the symbols it has skipped and
those it has read ahead, at any time and whatever its feed replies.
-/

namespace Munch

/-- A part of the text that a scan has passed. -/
inductive Piece
  | token (f : Frame)
  | gap (c : Char)

namespace Piece

def text : Piece → List Char
  | token f => f.text
  | gap c => [c]

def frame? : Piece → Option Frame
  | token f => some f
  | gap _ => none

def skipped? : Piece → Option Char
  | token _ => none
  | gap c => some c

def join (pieces : List Piece) : List Char := pieces.flatMap text

theorem join_snoc (pieces : List Piece) (p : Piece) : join (pieces ++ [p]) = join pieces ++ p.text := by
  simp [join]

end Piece

/-- The line and the column of a frame are those behind `text`. -/
def Frame.StandsBehind (f : Frame) (terminator : Char) (text : List Char) : Prop :=
  f.line = (Position.start.advanceAll terminator text).line ∧
    f.column = (Position.start.advanceAll terminator text).column

def Reply.symbol? : Reply → Option Char
  | .symbol c => some c
  | _ => none

def tokenOf? : Except ScanError Frame → Option Frame
  | .ok f => if f.isSentinel then none else some f
  | .error _ => none

def refused? : Except ScanError Frame → Option Char
  | .error (.unrecognized c _) => some c
  | _ => none

namespace Scan

/-- The books of a scan whose calls have given `items`, where `pieces` make up what it
has passed. -/
structure Books (items : List (Except ScanError Frame)) (pieces : List Piece) (s : Scan) : Prop where
  tokens : pieces.filterMap Piece.frame? = items.filterMap tokenOf?
  places : ∀ before f behind, pieces = before ++ .token f :: behind →
    f.StandsBehind s.options.terminator (Piece.join before)
  position : s.position = Position.start.advanceAll s.options.terminator (Piece.join pieces)
  frames : s.stats.frames = (items.filterMap tokenOf?).length
  symbols : s.stats.symbols = ((items.filterMap tokenOf?).map fun f => f.text.length).sum
  skipped : s.stats.skipped = (pieces.filterMap Piece.skipped?).length

/-- The books, and what they say of the feed. -/
structure Account (feed : Feed) (items : List (Except ScanError Frame)) (pieces : List Piece) (s : Scan) :
    Prop extends Books items pieces s where
  offset : (Piece.join pieces).length = s.position.offset
  /-- The feed has said what was passed, what was refused and what is ahead. -/
  read : ∃ replies, feed.Says replies s.window.feed ∧
    replies.filterMap Reply.symbol? = Piece.join pieces ++ items.filterMap refused? ++ s.window.ahead
  ended : ∀ f, .ok f ∈ items → f.isSentinel = true →
    s.window.ahead = [] ∧ feed.Delivers (Piece.join pieces)

/-- The books of a scan that may go on. -/
structure Underway (feed : Feed) (items : List (Except ScanError Frame)) (pieces : List Piece) (s : Scan) :
    Prop extends Books items pieces s where
  window : s.window.After feed (Piece.join pieces)
  refused : items.filterMap refused? = []
  going : ∀ f, .ok f ∈ items → f.isSentinel = false

section
variable {items : List (Except ScanError Frame)} {pieces : List Piece} {s : Scan}

theorem books_ofFeed (family : Family) (options : Options) (feed : Feed) :
    Books [] [] (ofFeed family options feed) where
  tokens := rfl
  places := by simp
  position := rfl
  frames := rfl
  symbols := rfl
  skipped := rfl

theorem places_snoc {terminator : Char} {p : Piece}
    (h : ∀ before f behind, pieces = before ++ .token f :: behind →
      f.StandsBehind terminator (Piece.join before))
    (hp : ∀ f, p = .token f → f.StandsBehind terminator (Piece.join pieces)) :
    ∀ before f behind, pieces ++ [p] = before ++ .token f :: behind →
      f.StandsBehind terminator (Piece.join before) := by
  intro before f behind heq
  rcases behind.eq_nil_or_concat' with rfl | ⟨behind, q, rfl⟩
  · obtain ⟨rfl, hq⟩ := List.append_inj' heq rfl
    exact hp f (List.singleton_inj.mp hq)
  · rw [← List.cons_append, ← List.append_assoc] at heq
    exact h before f behind (List.append_inj' heq rfl).1

theorem Books.same (h : s.Books items pieces) {r : Except ScanError Frame} (hr : tokenOf? r = none)
    (w : Window) (done : Bool) : Books (items ++ [r]) pieces { s with window := w, done } where
  tokens := by simp [h.tokens, hr]
  places := h.places
  position := h.position
  frames := by simp [h.frames, hr]
  symbols := by simp [h.symbols, hr]
  skipped := h.skipped

theorem Books.skip (h : s.Books items pieces) (c : Char) (w : Window) :
    Books items (pieces ++ [.gap c])
      { s with
        window := w
        position := s.position.advance s.options.terminator c
        stats := { s.stats with skipped := s.stats.skipped + 1 } } where
  tokens := by simp [h.tokens, Piece.frame?]
  places := places_snoc h.places fun _ => Piece.noConfusion
  position := by
    rw [Piece.join_snoc, Position.advanceAll_append, ← h.position]
    rfl
  frames := h.frames
  symbols := h.symbols
  skipped := by simp [h.skipped, Piece.skipped?]

theorem Books.commit (h : s.Books items pieces) (rule : Nat) (text : List Char) (w : Window)
    (emptyAt : Option Nat) (done : Bool) :
    Books (items ++ [.ok (.token rule text s.position.line s.position.column)])
      (pieces ++ [.token (.token rule text s.position.line s.position.column)])
      { s with
        window := w
        position := s.position.advanceAll s.options.terminator text
        emptyAt
        stats := { s.stats with frames := s.stats.frames + 1, symbols := s.stats.symbols + text.length }
        done } where
  tokens := by simp [h.tokens, Piece.frame?, tokenOf?, Frame.isSentinel]
  places := by
    refine places_snoc h.places fun f hf => ?_
    cases hf
    rw [Frame.StandsBehind, ← h.position]
    exact ⟨rfl, rfl⟩
  position := by
    rw [Piece.join_snoc, Position.advanceAll_append, ← h.position]
    rfl
  frames := by simp [h.frames, tokenOf?, Frame.isSentinel]
  symbols := by simp [h.symbols, tokenOf?, Frame.isSentinel, Frame.text]
  skipped := by simp [h.skipped, Piece.skipped?]

end

/-! ## What the feed has said -/

section
variable {feed : Feed} {items : List (Except ScanError Frame)} {pieces : List Piece} {s t : Scan}

theorem Books.offset (h : s.Books items pieces) : (Piece.join pieces).length = s.position.offset := by
  rw [h.position, Position.offset_advanceAll]
  exact (Nat.zero_add _).symm

theorem filterMap_symbol (text : List Char) (rs : List Reply) :
    (text.map Reply.symbol ++ rs).filterMap Reply.symbol? = text ++ rs.filterMap Reply.symbol? := by
  rw [List.filterMap_append, List.filterMap_map, show Reply.symbol? ∘ Reply.symbol = some from rfl,
    List.filterMap_some]

theorem filterMap_ending (w : Window) : w.ending.filterMap Reply.symbol? = [] := by
  unfold Window.ending
  split <;> rfl

theorem Underway.account (h : s.Underway feed items pieces) : s.Account feed items pieces where
  toBooks := h.toBooks
  offset := h.offset
  read := ⟨_, h.window, by rw [filterMap_symbol, filterMap_ending, h.refused]; simp⟩
  ended := fun f hf hs => by rw [h.going f hf] at hs; cases hs

theorem Account.of_failed (hb : t.Books items pieces) (hr : items.filterMap refused? = [])
    (hg : ∀ f, .ok f ∈ items → f.isSentinel = false) {e : InputError}
    (h : feed.Says ((Piece.join pieces ++ t.window.ahead).map .symbol ++ [.failed e]) t.window.feed) :
    t.Account feed items pieces where
  toBooks := hb
  offset := hb.offset
  read := ⟨_, h, by rw [filterMap_symbol, hr]; simp [Reply.symbol?]⟩
  ended := fun f hf hs => by rw [hg f hf] at hs; cases hs

theorem after_of_race {passed : List Char} (h : s.window.After feed passed) {best : Option Match} {w : Window}
    (hr : s.race = (.ok best, w)) : w.After feed passed := by
  have hw := Window.after_race h s.family (s.emptyAt != some s.position.offset)
  rw [← race, hr] at hw
  exact hw.1

theorem settles_frame (hs : s.Underway feed items pieces) {f : Frame} (h : s.Settles (.frame f) t)
    (done : Bool) :
    if f.isSentinel then Account feed (items ++ [.ok f]) pieces { t with done }
    else Underway feed (items ++ [.ok f]) (pieces ++ [.token f]) { t with done } := by
  cases h with
  | @token m w hr =>
    have hw := after_of_race hs.window hr
    have hlen := List.length_take_of_le (Window.length_le_of_race hr)
    refine ⟨?_, ?_, ?_, ?_⟩
    · have := hs.commit m.rule (w.ahead.take m.length) { w with ahead := w.ahead.drop m.length }
        (if m.length = 0 then some s.position.offset else s.emptyAt) done
      rwa [hlen] at this
    · rw [Piece.join_snoc]
      exact hw.drop m.length
    · simp [hs.refused, refused?]
    · intro g hg
      rcases List.mem_append.mp hg with hg | hg
      · exact hs.going g hg
      · cases List.mem_singleton.mp hg
        rfl
  | @sentinel w w' hr hpop =>
    have hw' := Window.after_pop (after_of_race hs.window hr)
    rw [hpop] at hw'
    obtain ⟨hw', ha, he⟩ := hw'
    have hb := hs.same (r := .ok (.sentinel s.position.line s.position.column)) rfl w' done
    refine ⟨hb, hb.offset, ⟨_, hw', ?_⟩, fun _ _ _ => ⟨ha, ?_⟩⟩
    · rw [filterMap_symbol, filterMap_ending]
      simp [hs.refused, refused?]
    · refine ⟨w'.feed, ?_⟩
      simpa [Window.After, Window.ending, ha, he] using hw'

theorem settles_skip (hs : s.Underway feed items pieces) {c : Char} (h : s.Settles (.skip c) t) :
    t.Underway feed items (pieces ++ [.gap c]) := by
  cases h with
  | @skip _ w w' hr hpop =>
    have hw' := Window.after_pop (after_of_race hs.window hr)
    rw [hpop] at hw'
    refine ⟨hs.skip c w', ?_, hs.refused, hs.going⟩
    rw [Piece.join_snoc]
    exact hw'

theorem settles_failed (hs : s.Underway feed items pieces) {e : ScanError} (h : s.Settles (.failed e) t) :
    Account feed (items ++ [.error e]) pieces { t with done := true } := by
  have hgoing : ∀ f, .ok f ∈ items ++ [.error e] → f.isSentinel = false := by
    intro f hf
    rcases List.mem_append.mp hf with hf | hf
    · exact hs.going f hf
    · cases List.mem_singleton.mp hf
  cases h with
  | @unrecognized c w w' hr hpop _ =>
    have hw' := Window.after_pop (after_of_race hs.window hr)
    rw [hpop] at hw'
    have hb := hs.same (r := .error (.unrecognized c s.position)) rfl w' true
    refine ⟨hb, hb.offset, ⟨_, hw', ?_⟩, fun f hf hend => ?_⟩
    · rw [filterMap_symbol, filterMap_ending]
      simp [hs.refused, refused?]
    · rw [hgoing f hf] at hend
      cases hend
  | @raceFailed e w hr =>
    have hw := Window.after_race hs.window s.family (s.emptyAt != some s.position.offset)
    rw [← race, hr] at hw
    exact .of_failed (hs.same rfl w true) (by simp [hs.refused, refused?]) hgoing hw
  | @popFailed e w w' hr hpop =>
    have hw' := Window.after_pop (after_of_race hs.window hr)
    rw [hpop] at hw'
    exact .of_failed (hs.same rfl w' true) (by simp [hs.refused, refused?]) hgoing hw'

theorem advances_account {r : Except ScanError Frame} (h : s.Advances r t)
    (hs : s.Underway feed items pieces) :
    ∃ pieces, t.Account feed (items ++ [r]) pieces ∧
      (t.done = false → t.Underway feed (items ++ [r]) pieces) := by
  -- a skip adds a gap to the pieces and leaves the items alone
  induction h generalizing pieces with
  | @frame s t f h =>
    have hf := settles_frame hs h f.isSentinel
    split at hf
    · rename_i hend
      exact ⟨pieces, hf, fun hd => by rw [hend] at hd; cases hd⟩
    · exact ⟨_, hf.account, fun _ => hf⟩
  | failed h => exact ⟨pieces, settles_failed hs h, fun hd => by cases hd⟩
  | skip h _ ih => exact ih (settles_skip hs h)

end

/-- **Nothing is lost.** What the feed has given are the symbols of some pieces, in which the frames
stand where they say, then the refused symbol, then those ahead. -/
theorem exists_account (family : Family) (options : Options) (feed : Feed) (n : Nat) :
    ∃ pieces, ((ofFeed family options feed).after n).Account feed
      ((ofFeed family options feed).results n).1 pieces := by
  have hrun : ∃ pieces, ((ofFeed family options feed).after n).Account feed
      ((ofFeed family options feed).results n).1 pieces ∧
      (((ofFeed family options feed).after n).done = false →
        ((ofFeed family options feed).after n).Underway feed
          ((ofFeed family options feed).results n).1 pieces) := by
    induction n with
    | zero =>
      have h : (ofFeed family options feed).Underway feed [] [] :=
        ⟨books_ofFeed family options feed, .nil feed, rfl, by simp⟩
      exact ⟨[], h.account, fun _ => h⟩
    | succ n ih =>
      obtain ⟨pieces, ha, hu⟩ := ih
      rw [results_snoc, after_snoc]
      cases hd : ((ofFeed family options feed).after n).done with
      | true =>
        rw [next_of_done hd]
        exact ⟨pieces, by simpa using ha, fun h => by rw [hd] at h; cases h⟩
      | false =>
        obtain ⟨r, log, t, hn, hadv⟩ := next_of_live hd
        rw [hn]
        exact advances_account hadv (hu hd)
  obtain ⟨pieces, ha, _⟩ := hrun
  exact ⟨pieces, ha⟩

end Scan

end Munch
