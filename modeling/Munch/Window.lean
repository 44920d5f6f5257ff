import Munch.Race

/-!
# Windows

The part of an input that a scan has read but not passed, with the feed behind
it. A race over a window may read on; `size` counts what is still to come, which
no race increases and which every symbol passed makes less.
-/

namespace Munch

structure Window where
  ahead : List Char
  ended : Bool
  feed : Feed
  deriving DecidableEq

namespace Window

def size (w : Window) : Nat := w.ahead.length + w.feed.pending.length

/-- The winner of a race over the window, and the window with the symbols that
the race has drawn. Nothing is drawn for a race that is over inside the window. -/
def race (w : Window) (family : Family) (emptyAllowed : Bool) :
    Except InputError (Option Match) × Window :=
  let r := (Race.start family emptyAllowed).run w.ahead
  if w.ended || r.live.isEmpty then (.ok r.finish.best, w)
  else
    let d := r.draw w.feed.asked [] w.feed.pending
    let w' : Window := ⟨w.ahead ++ d.symbols.reverse, d.stop = .endOfInput, d.feed⟩
    match d.stop with
    | .stuck => (.ok d.race.best, w')
    | .endOfInput => (.ok d.race.finish.best, w')
    | .failed e => (.error e, w')

/-- The next symbol, asked for if none is ahead. -/
def pop (w : Window) : Except InputError (Option Char) × Window :=
  match w.ahead with
  | c :: cs => (.ok (some c), { w with ahead := cs })
  | [] =>
    if w.ended then (.ok none, w)
    else
      match w.feed.next with
      | (.symbol c, feed) => (.ok (some c), { w with feed })
      | (.endOfInput, feed) => (.ok none, { w with ended := true, feed })
      | (.failed e, feed) => (.error e, { w with feed })

theorem size_race (w : Window) (family : Family) (emptyAllowed : Bool) :
    (w.race family emptyAllowed).2.size ≤ w.size := by
  simp only [race]
  split
  · exact Nat.le_refl _
  · have h := Race.size_draw ((Race.start family emptyAllowed).run w.ahead) w.feed.asked []
      w.feed.pending
    simp only [List.length_nil, Nat.zero_add] at h
    split <;> simp only [size, List.length_append, List.length_reverse] <;> omega

theorem size_pop {w w' : Window} {c : Char} (h : w.pop = (.ok (some c), w')) :
    w'.size < w.size := by
  obtain ⟨ahead, ended, feed⟩ := w
  obtain ⟨pending, asked⟩ := feed
  cases ahead with
  | cons d ds =>
    simp only [pop, Prod.mk.injEq] at h
    obtain ⟨-, rfl⟩ := h
    simp only [size, List.length_cons]; omega
  | nil =>
    cases ended with
    | true => simp [pop] at h
    | false =>
      cases pending with
      | nil => simp [pop, Feed.next] at h
      | cons reply rest =>
        cases reply with
        | symbol d =>
          simp only [pop, Feed.next, Bool.false_eq_true, ite_false, Prod.mk.injEq] at h
          obtain ⟨-, rfl⟩ := h
          simp [size]
        | endOfInput => simp [pop, Feed.next] at h
        | failed e => simp [pop, Feed.next] at h

end Window

end Munch
