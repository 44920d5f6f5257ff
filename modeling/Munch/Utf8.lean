/-!
# UTF-8

One decoder serves every reader of bytes: `head` splits the first symbol off a
byte string, or says how much of it is malformed. Bytes that begin a symbol but
break off, or break the rules at a later byte, are malformed as a unit.
-/

namespace Munch.Utf8

inductive Head
  | empty
  | symbol (c : Char) (rest : List UInt8)
  /-- The first `n` bytes begin no symbol, whatever follows. -/
  | malformed (n : Nat)
  | incomplete
  deriving DecidableEq

/-- What a first byte beyond ASCII announces: how many bytes follow, the bounds
of the next one, and its own share of the code point. -/
structure Lead where
  more : Nat
  low : UInt8
  high : UInt8
  bits : Nat

/-- The bounds keep overlong forms, surrogates and values above U+10FFFF out. -/
def lead? (b : UInt8) : Option Lead :=
  let n := b.toNat
  if b < 0xC2 then none
  else if b < 0xE0 then some ⟨1, 0x80, 0xBF, n - 0xC0⟩
  else if b = 0xE0 then some ⟨2, 0xA0, 0xBF, 0⟩
  else if b = 0xED then some ⟨2, 0x80, 0x9F, 0xD⟩
  else if b < 0xF0 then some ⟨2, 0x80, 0xBF, n - 0xE0⟩
  else if b = 0xF0 then some ⟨3, 0x90, 0xBF, 0⟩
  else if b < 0xF4 then some ⟨3, 0x80, 0xBF, n - 0xF0⟩
  else if b = 0xF4 then some ⟨3, 0x80, 0x8F, 4⟩
  else none

/-- Takes `more` bytes, the next of them between `low` and `high`; `value` and
`taken` stand for the bytes before. -/
def follow (low high : UInt8) (value taken : Nat) : Nat → List UInt8 → Head
  | 0, rest => .symbol (Char.ofNat value) rest
  | _ + 1, [] => .incomplete
  | more + 1, b :: bs =>
    if low ≤ b ∧ b ≤ high then
      follow 0x80 0xBF (value * 64 + (b.toNat - 0x80)) (taken + 1) more bs
    else .malformed taken

def head : List UInt8 → Head
  | [] => .empty
  | b :: bs =>
    if b < 0x80 then .symbol (Char.ofNat b.toNat) bs
    else match lead? b with
      | some l => follow l.low l.high l.bits 1 l.more bs
      | none => .malformed 1

def symbol? (bytes : List UInt8) : Option Char :=
  match head bytes with
  | .symbol c [] => some c
  | _ => none

theorem length_of_follow {low high value taken more bs c rest}
    (h : follow low high value taken more bs = .symbol c rest) : rest.length ≤ bs.length := by
  induction more generalizing low high value taken bs with
  | zero =>
    simp only [follow] at h
    cases h; exact Nat.le_refl _
  | succ more ih =>
    cases bs with
    | nil => simp [follow] at h
    | cons b bs =>
      simp only [follow] at h
      split at h
      · exact Nat.le_succ_of_le (ih h)
      · cases h

theorem pos_of_follow_malformed {low high value taken more bs n}
    (h : follow low high value taken more bs = .malformed n) (ht : 0 < taken) : 0 < n := by
  induction more generalizing low high value taken bs with
  | zero => simp [follow] at h
  | succ more ih =>
    cases bs with
    | nil => simp [follow] at h
    | cons b bs =>
      simp only [follow] at h
      split at h
      · exact ih h (Nat.succ_pos _)
      · cases h; exact ht

theorem length_of_head {bytes c rest} (h : head bytes = .symbol c rest) :
    rest.length < bytes.length := by
  cases bytes with
  | nil => simp [head] at h
  | cons b bs =>
    simp only [head] at h
    split at h
    · cases h; simp
    · split at h
      · exact Nat.lt_succ_of_le (length_of_follow h)
      · cases h

theorem length_drop_of_head {bytes n} (h : head bytes = .malformed n) :
    (bytes.drop n).length < bytes.length := by
  cases bytes with
  | nil => simp [head] at h
  | cons b bs =>
    have hn : 0 < n := by
      simp only [head] at h
      split at h
      · cases h
      · split at h
        · exact pos_of_follow_malformed h Nat.one_pos
        · cases h; exact Nat.one_pos
    rw [List.length_drop, List.length_cons]; omega

/-! ## Whole byte strings -/

inductive Malformation
  | sequence (length index : Nat)
  | unfinished (index : Nat)
  deriving DecidableEq

def Malformation.message : Malformation → String
  | .sequence n i => s!"invalid utf-8 sequence of {n} bytes from index {i}"
  | .unfinished i => s!"incomplete utf-8 byte sequence from index {i}"

/-- The text of `bytes`, of which `index` bytes came before and gave `text`,
newest first. -/
def decodeFrom (index : Nat) (text : List Char) (bytes : List UInt8) :
    Except Malformation (List Char) :=
  match _ : head bytes with
  | .empty => .ok text.reverse
  | .symbol c rest => decodeFrom (index + (bytes.length - rest.length)) (c :: text) rest
  | .malformed n => .error (.sequence n index)
  | .incomplete => .error (.unfinished index)
termination_by bytes.length
decreasing_by exact length_of_head ‹_›

def decode (bytes : List UInt8) : Except Malformation (List Char) := decodeFrom 0 [] bytes

/-- The text of `bytes`, with U+FFFD for each malformed part. -/
def decodeLossyFrom (text : List Char) (bytes : List UInt8) : List Char :=
  match _ : head bytes with
  | .empty => text.reverse
  | .symbol c rest => decodeLossyFrom (c :: text) rest
  | .malformed n => decodeLossyFrom ('\uFFFD' :: text) (bytes.drop n)
  | .incomplete => ('\uFFFD' :: text).reverse
termination_by bytes.length
decreasing_by
  · exact length_of_head ‹_›
  · exact length_drop_of_head ‹_›

def decodeLossy (bytes : List UInt8) : List Char := decodeLossyFrom [] bytes

end Munch.Utf8
