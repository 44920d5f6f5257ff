/-!
# Sets of states

A set of numbers, held as 64-bit words, with a count of the numbers beside them.
Two sets are equal only if they also hold the same number of words, so capacity
is part of a set's identity.
-/

namespace Munch

structure BitSet where
  /-- How many numbers are in the set. -/
  count : Nat
  words : Array (BitVec 64)
  deriving DecidableEq

namespace BitSet

def empty : BitSet := ⟨0, #[]⟩

/-- The empty set with room for the numbers below `n`. -/
def withCapacity (n : Nat) : BitSet := ⟨0, Array.replicate ((n + 63) / 64) 0⟩

def contains (b : BitSet) (s : Nat) : Bool :=
  (b.words.getD (s / 64) 0).getLsbD (s % 64)

/-- Zero words are added until there are `n`. -/
def grow (b : BitSet) (n : Nat) : BitSet :=
  { b with words := b.words ++ Array.replicate (n - b.words.size) 0 }

/-- The set with `s` in it, and whether `s` is new to it. -/
def add (b : BitSet) (s : Nat) : Bool × BitSet :=
  let grown := b.grow (s / 64 + 1)
  if grown.contains s then (false, grown)
  else (true, ⟨grown.count + 1, grown.words.modify (s / 64) (· ||| BitVec.twoPow 64 (s % 64))⟩)

def lacks (b : BitSet) (s : Nat) : Bool := (b.add s).1

def insert (b : BitSet) (s : Nat) : BitSet := (b.add s).2

def insertAll (b : BitSet) (l : List Nat) : BitSet := l.foldl insert b

def ofList (l : List Nat) : BitSet := empty.insertAll l

/-- The numbers that the word at `i` holds. -/
def block (b : BitSet) (i : Nat) : List Nat :=
  ((List.range 64).filter (b.words.getD i 0).getLsbD).map (64 * i + ·)

def toList (b : BitSet) : List Nat := (List.range b.words.size).flatMap b.block

def size (b : BitSet) : Nat := b.count

def isEmpty (b : BitSet) : Bool := b.count == 0

/-! ## Membership -/

theorem getD_grow (b : BitSet) (n i : Nat) : (b.grow n).words.getD i 0 = b.words.getD i 0 := by
  unfold grow
  simp only [Array.getD_eq_getD_getElem?, Array.getElem?_append]
  by_cases h : i < b.words.size
  · rw [if_pos h]
  · rw [if_neg h, Array.getElem?_eq_none (Nat.le_of_not_lt h), Array.getElem?_replicate]
    split <;> rfl

theorem contains_grow (b : BitSet) (n t : Nat) : (b.grow n).contains t = b.contains t := by
  unfold contains
  rw [getD_grow]

theorem lt_size_grow (b : BitSet) (n : Nat) : n ≤ (b.grow n).words.size := by
  unfold grow
  simp only [Array.size_append, Array.size_replicate]
  omega

theorem lacks_eq (b : BitSet) (s : Nat) : b.lacks s = !b.contains s := by
  unfold lacks add
  simp only [contains_grow]
  cases b.contains s <;> rfl

theorem add_eq (b : BitSet) (s : Nat) : b.add s = (!b.contains s, b.insert s) := by
  rw [← lacks_eq]
  rfl

theorem div_lt_of_contains {b : BitSet} {s : Nat} (h : b.contains s = true) : s / 64 < b.words.size := by
  rcases Nat.lt_or_ge (s / 64) b.words.size with hs | hs
  · exact hs
  · simp [contains, hs] at h

theorem grow_of_le {b : BitSet} {n : Nat} (h : n ≤ b.words.size) : b.grow n = b := by
  unfold grow
  rw [Nat.sub_eq_zero_of_le h, Array.replicate_zero, Array.append_empty]

theorem insert_of_contains {b : BitSet} {s : Nat} (h : b.contains s = true) : b.insert s = b := by
  unfold insert add
  rw [grow_of_le (div_lt_of_contains h)]
  exact congrArg Prod.snd (if_pos h)

theorem insert_of_not_contains {b : BitSet} {s : Nat} (h : b.contains s = false) :
    b.insert s = ⟨b.count + 1, (b.grow (s / 64 + 1)).words.modify (s / 64) (· ||| BitVec.twoPow 64 (s % 64))⟩ := by
  unfold insert add
  simp only [contains_grow, h]
  rfl

theorem word_of_contains {b : BitSet} {s : Nat} (h : b.contains s = true) :
    b.words.getD (s / 64) 0 ||| BitVec.twoPow 64 (s % 64) = b.words.getD (s / 64) 0 := by
  apply BitVec.eq_of_getLsbD_eq
  intro j hj
  rw [BitVec.getLsbD_or, BitVec.getLsbD_twoPow]
  by_cases hs : s % 64 = j
  · subst hs
    unfold contains at h
    rw [h, Bool.true_or]
  · simp [hs]

theorem word_insert (b : BitSet) (s i : Nat) :
    (b.insert s).words.getD i 0 =
      if s / 64 = i then b.words.getD i 0 ||| BitVec.twoPow 64 (s % 64) else b.words.getD i 0 := by
  cases hs : b.contains s with
  | true =>
    rw [insert_of_contains hs]
    split
    · rename_i h
      subst h
      exact (word_of_contains hs).symm
    · rfl
  | false =>
    have hsize := b.lt_size_grow (s / 64 + 1)
    rw [insert_of_not_contains hs, ← b.getD_grow (s / 64 + 1) i]
    simp only [Array.getD_eq_getD_getElem?, Array.getElem?_modify]
    by_cases h : s / 64 = i
    · subst h
      rw [if_pos rfl, if_pos rfl, Array.getElem?_eq_getElem (by omega)]
      rfl
    · rw [if_neg h, if_neg h]

theorem contains_insert (b : BitSet) (s t : Nat) :
    (b.insert s).contains t = (decide (t = s) || b.contains t) := by
  unfold contains
  rw [word_insert]
  by_cases h : s / 64 = t / 64
  · have hs : s % 64 < 64 := Nat.mod_lt _ (by decide)
    have heq : t = s ↔ t % 64 = s % 64 := by omega
    rw [if_pos h, BitVec.getLsbD_or, BitVec.getLsbD_twoPow, Bool.or_comm]
    simp only [heq, hs, decide_true, Bool.true_and, eq_comm]
  · have hne : t ≠ s := fun e => h (by rw [e])
    rw [if_neg h, decide_eq_false hne, Bool.false_or]

end BitSet

end Munch
