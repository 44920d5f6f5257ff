import Mathlib.Data.Finset.Card
import Mathlib.Data.List.Pairwise
import Munch.BitSet

/-!
# Sets of states as sets

A set of words is the finite set of the numbers that were put in, however its words came to
be, and its count is their number.
-/

namespace Munch.BitSet

theorem contains_insertAll (b : BitSet) (l : List Nat) (t : Nat) :
    (b.insertAll l).contains t = (decide (t ∈ l) || b.contains t) := by
  unfold insertAll
  induction l generalizing b with
  | nil => simp
  | cons s l ih =>
    rw [List.foldl_cons, ih, contains_insert]
    by_cases h : t = s <;> simp [h]

theorem contains_withCapacity (n t : Nat) : (withCapacity n).contains t = false := by
  unfold withCapacity contains
  rw [Array.getD_eq_getD_getElem?, Array.getElem?_replicate]
  split <;> simp

/-! ## The numbers in order -/

section
variable (b : BitSet)

theorem mem_block {i s : Nat} : s ∈ b.block i ↔ s / 64 = i ∧ b.contains s = true := by
  unfold block contains
  simp only [List.mem_map, List.mem_filter, List.mem_range]
  constructor
  · rintro ⟨j, ⟨hj, hbit⟩, rfl⟩
    have hdiv : (64 * i + j) / 64 = i := by omega
    have hmod : (64 * i + j) % 64 = j := by omega
    rw [hdiv, hmod]
    exact ⟨rfl, hbit⟩
  · rintro ⟨rfl, hbit⟩
    exact ⟨s % 64, ⟨Nat.mod_lt s (by decide), hbit⟩, Nat.div_add_mod s 64⟩

theorem mem_toList {s : Nat} : s ∈ b.toList ↔ b.contains s = true := by
  unfold toList
  simp only [List.mem_flatMap, List.mem_range, mem_block]
  constructor
  · rintro ⟨i, _, _, hs⟩
    exact hs
  · intro hs
    exact ⟨s / 64, div_lt_of_contains hs, rfl, hs⟩

theorem pairwise_block (i : Nat) : (b.block i).Pairwise (· < ·) := by
  unfold block
  rw [List.pairwise_map]
  exact (List.pairwise_lt_range.filter _).imp fun h => Nat.add_lt_add_left h (64 * i)

theorem pairwise_toList : b.toList.Pairwise (· < ·) := by
  unfold toList
  rw [List.pairwise_flatMap]
  refine ⟨fun i _ => b.pairwise_block i, List.pairwise_lt_range.imp fun {i j} hij s hs t ht => ?_⟩
  -- numbers of an earlier word come before those of a later one
  have hi := (b.mem_block.mp hs).1
  have hj := (b.mem_block.mp ht).1
  omega

theorem nodup_toList : b.toList.Nodup := b.pairwise_toList.imp Nat.ne_of_lt

end

theorem toList_congr {b c : BitSet} (h : ∀ t, b.contains t = c.contains t) : b.toList = c.toList := by
  apply List.Perm.eq_of_pairwise _ b.pairwise_toList c.pairwise_toList
  · rw [List.perm_ext_iff_of_nodup b.nodup_toList c.nodup_toList]
    intro t
    rw [mem_toList, mem_toList, h]
  · intro s t _ _ hst hts
    exact absurd hst (Nat.lt_asymm hts)

/-! ## The count -/

def Counted (b : BitSet) : Prop := b.count = b.toList.length

theorem counted_withCapacity (n : Nat) : (withCapacity n).Counted := by
  have hnil : (withCapacity n).toList = [] := by
    rw [List.eq_nil_iff_forall_not_mem]
    intro t ht
    rw [mem_toList, contains_withCapacity] at ht
    cases ht
  unfold Counted
  rw [hnil]
  rfl

theorem toList_insert {b : BitSet} {s : Nat} (h : b.contains s = false) :
    (b.insert s).toList.Perm (s :: b.toList) := by
  have hnodup : (s :: b.toList).Nodup := by
    rw [List.nodup_cons, mem_toList, h]
    exact ⟨Bool.false_ne_true, b.nodup_toList⟩
  rw [List.perm_ext_iff_of_nodup (nodup_toList _) hnodup]
  intro t
  rw [mem_toList, contains_insert, List.mem_cons, mem_toList, Bool.or_eq_true, decide_eq_true_eq]

theorem Counted.insert {b : BitSet} (h : b.Counted) (s : Nat) : (b.insert s).Counted := by
  cases hs : b.contains s with
  | true =>
    rw [insert_of_contains hs]
    exact h
  | false =>
    unfold Counted at *
    rw [(toList_insert hs).length_eq, insert_of_not_contains hs, List.length_cons, ← h]

theorem Counted.insertAll {b : BitSet} (h : b.Counted) (l : List Nat) : (b.insertAll l).Counted := by
  unfold BitSet.insertAll
  induction l generalizing b with
  | nil => exact h
  | cons s l ih => exact ih (h.insert s)

/-! ## The same words -/

theorem size_words_insert (b : BitSet) (s : Nat) : (b.insert s).words.size = max b.words.size (s / 64 + 1) := by
  cases h : b.contains s with
  | true =>
    have hs := div_lt_of_contains h
    rw [insert_of_contains h]
    omega
  | false =>
    rw [insert_of_not_contains h]
    simp only [grow, Array.size_modify, Array.size_append, Array.size_replicate]
    omega

theorem size_words_insertAll (b : BitSet) (l : List Nat) :
    (b.insertAll l).words.size = max b.words.size (l.max?.elim 0 (· / 64 + 1)) := by
  unfold insertAll
  induction l generalizing b with
  | nil => simp
  | cons s l ih =>
    rw [List.foldl_cons, ih, size_words_insert, List.max?_cons]
    cases l.max? with
    | none => simp
    | some t =>
      simp only [Option.elim_some]
      omega

theorem eq_of_contains {b c : BitSet} (hb : b.Counted) (hc : c.Counted) (hsize : b.words.size = c.words.size)
    (h : ∀ t, b.contains t = c.contains t) : b = c := by
  have hcount : b.count = c.count := by
    rw [hb, hc, toList_congr h]
  obtain ⟨k, v⟩ := b
  obtain ⟨m, w⟩ := c
  congr 1
  apply Array.ext hsize
  intro i hi hi'
  apply BitVec.eq_of_getLsbD_eq
  intro j hj
  have hij := h (64 * i + j)
  have hdiv : (64 * i + j) / 64 = i := by omega
  have hmod : (64 * i + j) % 64 = j := by omega
  simpa [contains, hdiv, hmod, hi, hi'] using hij

theorem max?_congr {l k : List Nat} (h : ∀ s, s ∈ l ↔ s ∈ k) : l.max? = k.max? := by
  apply Option.ext
  intro s
  rw [List.max?_eq_some_iff, List.max?_eq_some_iff]
  simp only [h]

theorem insertAll_congr (n : Nat) {l k : List Nat} (h : ∀ s, s ∈ l ↔ s ∈ k) :
    (withCapacity n).insertAll l = (withCapacity n).insertAll k := by
  apply eq_of_contains ((counted_withCapacity n).insertAll l) ((counted_withCapacity n).insertAll k)
  · rw [size_words_insertAll, size_words_insertAll, max?_congr h]
  · intro t
    simp only [contains_insertAll, h]

/-! ## Sets in use -/

/-- The set was begun with room for the numbers below `n`, and `l` was put in. -/
inductive Filled : BitSet → Nat → List Nat → Prop
  | fresh : Filled empty 0 []
  | sized (n : Nat) : Filled (withCapacity n) n []
  | listed (l : List Nat) : Filled (ofList l) 0 l
  | more {b : BitSet} {n : Nat} {l : List Nat} (h : Filled b n l) (s : Nat) : Filled (b.insert s) n (l ++ [s])

theorem Filled.eq {b : BitSet} {n : Nat} {l : List Nat} (h : Filled b n l) : b = (withCapacity n).insertAll l := by
  induction h with
  | fresh => rfl
  | sized n => rfl
  | listed l => rfl
  | more h s ih =>
    unfold insertAll at *
    rw [List.foldl_append, ← ih]
    rfl

section
variable {b : BitSet} {n : Nat} {l : List Nat} (h : Filled b n l)
include h

theorem Filled.contains_iff (s : Nat) : b.contains s = true ↔ s ∈ l := by
  rw [h.eq, contains_insertAll, contains_withCapacity, Bool.or_false, decide_eq_true_eq]

theorem Filled.mem_toList_iff (s : Nat) : s ∈ b.toList ↔ s ∈ l := by
  rw [mem_toList, h.contains_iff]

theorem Filled.add_iff (s : Nat) : (b.add s).1 = true ↔ s ∉ l := by
  rw [add_eq, ← h.contains_iff, Bool.not_eq_true', Bool.not_eq_true]

theorem Filled.counted : b.Counted := by
  rw [h.eq]
  exact (counted_withCapacity n).insertAll l

theorem Filled.size_eq : b.size = l.toFinset.card := by
  have hset : b.toList.toFinset = l.toFinset := by
    ext s
    rw [List.mem_toFinset, List.mem_toFinset, h.mem_toList_iff]
  calc b.size = b.toList.length := h.counted
    _ = b.toList.toFinset.card := (List.toFinset_card_of_nodup b.nodup_toList).symm
    _ = l.toFinset.card := by rw [hset]

theorem Filled.size_words : b.words.size = max ((n + 63) / 64) (l.max?.elim 0 (· / 64 + 1)) := by
  have hsize : (withCapacity n).words.size = (n + 63) / 64 := by
    simp [withCapacity]
  rw [h.eq, size_words_insertAll, hsize]

theorem Filled.eq_iff {c : BitSet} {m : Nat} {k : List Nat} (hc : Filled c m k) :
    b = c ↔ (∀ s, s ∈ l ↔ s ∈ k) ∧ b.words.size = c.words.size := by
  constructor
  · rintro rfl
    exact ⟨fun s => (h.contains_iff s).symm.trans (hc.contains_iff s), rfl⟩
  · rintro ⟨hsame, hsize⟩
    apply eq_of_contains h.counted hc.counted hsize
    intro s
    rw [Bool.eq_iff_iff, h.contains_iff, hc.contains_iff, hsame]

end

theorem ofList_eq_iff (l k : List Nat) : ofList l = ofList k ↔ ∀ s, s ∈ l ↔ s ∈ k := by
  rw [(Filled.listed l).eq_iff (.listed k), and_iff_left_iff_imp]
  intro hsame
  rw [(Filled.listed l).size_words, (Filled.listed k).size_words, max?_congr hsame]

/-- **A set of words is a finite set.** It contains just what was put in, with its size and in
ascending order, and has words for its room and its greatest number. Two sets are equal if they
hold the same numbers in as many words. -/
theorem filled_spec {b : BitSet} {n : Nat} {l : List Nat} (h : Filled b n l) :
    (∀ s, ((b.add s).1 = true ↔ s ∉ l) ∧ (b.add s).2 = b.insert s) ∧
    (∀ s, b.contains s = true ↔ s ∈ l) ∧
    b.size = l.toFinset.card ∧ (b.isEmpty = true ↔ b.size = 0) ∧
    b.toList.Pairwise (· < ·) ∧ (∀ s, s ∈ b.toList ↔ s ∈ l) ∧
    b.words.size = max ((n + 63) / 64) (l.max?.elim 0 (· / 64 + 1)) ∧
    (∀ {c : BitSet} {m : Nat} {k : List Nat}, Filled c m k →
      (b = c ↔ (∀ s, s ∈ l ↔ s ∈ k) ∧ b.words.size = c.words.size)) ∧
    ∀ k k' : List Nat, ofList k = ofList k' ↔ ∀ s, s ∈ k ↔ s ∈ k' :=
  ⟨fun s => ⟨h.add_iff s, rfl⟩, h.contains_iff, h.size_eq, beq_iff_eq, b.pairwise_toList, h.mem_toList_iff,
    h.size_words, h.eq_iff, ofList_eq_iff⟩

theorem filled_spec_twice :
    Filled ((((withCapacity 10).insert 3).insert 64).insert 3) 10 [3, 64, 3] ∧ Filled (ofList [64, 3]) 0 [64, 3] ∧
      ((((withCapacity 10).insert 3).insert 64).add 3).1 = false ∧
      ((((withCapacity 10).insert 3).insert 64).insert 3).size = 2 ∧
      (((withCapacity 10).insert 3).insert 64).insert 3 = ofList [64, 3] := by
  have h : Filled ((((withCapacity 10).insert 3).insert 64).insert 3) 10 [3, 64, 3] :=
    (((Filled.sized 10).more 3).more 64).more 3
  have hc : Filled (ofList [64, 3]) 0 [64, 3] := .listed [64, 3]
  obtain ⟨-, -, hsize, -, -, -, -, heq, -⟩ := filled_spec h
  refine ⟨h, hc, by decide, hsize, (heq hc).mpr ⟨fun s => ?_, by decide⟩⟩
  simp
  tauto

end Munch.BitSet
