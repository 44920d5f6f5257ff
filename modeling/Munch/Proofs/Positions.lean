import Mathlib.Data.List.DropRight
import Munch.Position

/-!
# Positions behind texts

A line that goes on only grows, and a new line outweighs every column of the lines before
it. So positions behind prefixes of a text are ordered as the prefixes are.
-/

namespace Munch.Position

/-- By line, then by column. -/
def Precedes (p q : Position) : Prop := p.line < q.line ∨ p.line = q.line ∧ p.column < q.column

theorem Precedes.trans {p q r : Position} (h : p.Precedes q) (h' : q.Precedes r) : p.Precedes r := by
  unfold Precedes at *
  omega

theorem Precedes.compare {p q : Position} (h : p.Precedes q) : p.compare q = .lt := by
  unfold Position.compare
  rcases h with hline | ⟨hline, hcolumn⟩
  · rw [Nat.compare_eq_lt.mpr hline]
    rfl
  · rw [Nat.compare_eq_eq.mpr hline, Nat.compare_eq_lt.mpr hcolumn]
    rfl

theorem Precedes.compare_swap {p q : Position} (h : p.Precedes q) : q.compare p = .gt := by
  unfold Position.compare
  rcases h with hline | ⟨hline, hcolumn⟩
  · rw [Nat.compare_eq_gt.mpr hline]
    rfl
  · rw [Nat.compare_eq_eq.mpr hline.symm, Nat.compare_eq_gt.mpr hcolumn]
    rfl

theorem compare_self (p : Position) : p.compare p = .eq := by
  unfold Position.compare
  simp only [Nat.compare_eq_eq.mpr]
  rfl

theorem Precedes.ne {p q : Position} (h : p.Precedes q) (hline : p.line = q.line) : p.column ≠ q.column := by
  unfold Precedes at h
  omega

section
variable (terminator : Char)

@[simp] theorem offset_advance (p : Position) (c : Char) :
    (p.advance terminator c).offset = p.offset + 1 := by
  unfold advance
  split <;> rfl

@[simp] theorem advanceAll_cons (p : Position) (c : Char) (text : List Char) :
    p.advanceAll terminator (c :: text) = (p.advance terminator c).advanceAll terminator text := rfl

theorem advanceAll_append (p : Position) (s t : List Char) :
    p.advanceAll terminator (s ++ t) = (p.advanceAll terminator s).advanceAll terminator t :=
  List.foldl_append

@[simp] theorem offset_advanceAll (p : Position) (text : List Char) :
    (p.advanceAll terminator text).offset = p.offset + text.length := by
  induction text generalizing p with
  | nil => rfl
  | cons c text ih => rw [advanceAll_cons, ih, offset_advance, List.length_cons]; omega

theorem precedes_advance (p : Position) (c : Char) : p.Precedes (p.advance terminator c) := by
  unfold advance
  split
  · exact Or.inl (Nat.lt_succ_self _)
  · exact Or.inr ⟨rfl, Nat.lt_succ_self _⟩

theorem precedes_advanceAll (p : Position) {text : List Char} (h : text ≠ []) :
    p.Precedes (p.advanceAll terminator text) := by
  cases text with
  | nil => exact absurd rfl h
  | cons c text =>
    induction text generalizing p c with
    | nil => exact precedes_advance terminator p c
    | cons d text ih =>
      exact (precedes_advance terminator p c).trans (ih (p.advance terminator c) d (List.cons_ne_nil d text))

theorem line_advanceAll (p : Position) (text : List Char) :
    (p.advanceAll terminator text).line = p.line + text.count terminator := by
  induction text generalizing p with
  | nil => rfl
  | cons c text ih =>
    rw [advanceAll_cons, ih, advance, List.count_cons]
    by_cases h : c = terminator
    · simp [h]
      omega
    · simp [h]

theorem column_advanceAll_eq (p : Position) (text : List Char) :
    (p.advanceAll terminator text).column =
      if terminator ∈ text then (text.rtakeWhile (· ≠ terminator)).length else p.column + text.length := by
  induction text using List.reverseRecOn with
  | nil => rfl
  | append_singleton text c ih =>
    rw [advanceAll_append, advanceAll_cons, advance, List.rtakeWhile_concat]
    by_cases h : c = terminator
    · subst h
      simp [advanceAll]
    · have hmem : terminator ∈ text ++ [c] ↔ terminator ∈ text := by
        simp [Ne.symm h]
      rw [if_neg h, if_pos (decide_eq_true h)]
      simp only [hmem, List.length_append, List.length_singleton]
      change (p.advanceAll terminator text).column + 1 = _
      rw [ih]
      split
      · rfl
      · omega

theorem column_advanceAll (p : Position) {text : List Char} (h : text.getLast? = some terminator) :
    (p.advanceAll terminator text).column = 0 := by
  obtain ⟨before, rfl⟩ := List.getLast?_eq_some_iff.mp h
  rw [advanceAll_append, advanceAll_cons, advance, if_pos rfl]
  rfl

theorem precedes_of_prefix_ne (p : Position) {s t : List Char} (h : s <+: t) (hne : s ≠ t) :
    (p.advanceAll terminator s).Precedes (p.advanceAll terminator t) := by
  obtain ⟨u, rfl⟩ := h
  rw [advanceAll_append]
  apply precedes_advanceAll
  rintro rfl
  exact hne (List.append_nil s).symm

theorem compare_prefixes (p : Position) {s t : List Char} (h : s <+: t) :
    (p.advanceAll terminator s).compare (p.advanceAll terminator t) = Ord.compare s.length t.length ∧
      (p.advanceAll terminator t).compare (p.advanceAll terminator s) = Ord.compare t.length s.length := by
  by_cases hne : s = t
  · subst hne
    rw [Nat.compare_eq_eq.mpr rfl]
    exact ⟨compare_self _, compare_self _⟩
  · have hlt : s.length < t.length := by
      rcases Nat.lt_or_ge s.length t.length with hlt | hge
      · exact hlt
      · exact absurd (h.eq_of_length_le hge) hne
    have hp := precedes_of_prefix_ne terminator p h hne
    rw [Nat.compare_eq_lt.mpr hlt, Nat.compare_eq_gt.mpr hlt]
    exact ⟨hp.compare, hp.compare_swap⟩

end

/-- **Positions are ordered as offsets.** Behind two parts of a text is behind the whole, terminators
count as lines, and symbols behind the last one as columns. Positions behind prefixes are ordered
as the lengths, by line and column already. -/
theorem prefixes_in_order (terminator : Char) (p : Position) (text : List Char) :
    (∀ s t, s ++ t = text →
      p.advanceAll terminator text = (p.advanceAll terminator s).advanceAll terminator t) ∧
    (p.advanceAll terminator text).line = p.line + text.count terminator ∧
    (p.advanceAll terminator text).offset = p.offset + text.length ∧
    (p.advanceAll terminator text).column =
      (if terminator ∈ text then (text.rtakeWhile (· ≠ terminator)).length else p.column + text.length) ∧
    ∀ s t, s <+: text → t <+: text →
      (p.advanceAll terminator s).compare (p.advanceAll terminator t) = Ord.compare s.length t.length ∧
        ((p.advanceAll terminator s).line = (p.advanceAll terminator t).line ∧
          (p.advanceAll terminator s).column = (p.advanceAll terminator t).column ↔ s = t) := by
  refine ⟨?_, line_advanceAll terminator p text, offset_advanceAll terminator p text,
    column_advanceAll_eq terminator p text, fun s t hs ht => ⟨?_, ?_⟩⟩
  · rintro s t rfl
    exact advanceAll_append terminator p s t
  · rcases List.prefix_or_prefix_of_prefix hs ht with h | h
    · exact (compare_prefixes terminator p h).1
    · exact (compare_prefixes terminator p h).2
  · constructor
    · rintro ⟨hline, hcolumn⟩
      by_contra hne
      rcases List.prefix_or_prefix_of_prefix hs ht with h | h
      · exact (precedes_of_prefix_ne terminator p h hne).ne hline hcolumn
      · exact (precedes_of_prefix_ne terminator p h (Ne.symm hne)).ne hline.symm hcolumn.symm
    · rintro rfl
      exact ⟨rfl, rfl⟩

theorem prefixes_in_order_newline :
    "ab".toList <+: "ab\ncd".toList ∧ "ab\n".toList <+: "ab\ncd".toList ∧
      advanceAll '\n' ⟨4, 7, 30⟩ "ab".toList = ⟨4, 9, 32⟩ ∧ advanceAll '\n' ⟨4, 7, 30⟩ "ab\n".toList = ⟨5, 0, 33⟩ ∧
      advanceAll '\n' ⟨4, 7, 30⟩ "ab\ncd".toList =
        (advanceAll '\n' ⟨4, 7, 30⟩ "ab\n".toList).advanceAll '\n' "cd".toList ∧
      (advanceAll '\n' ⟨4, 7, 30⟩ "ab".toList).compare (advanceAll '\n' ⟨4, 7, 30⟩ "ab\n".toList) = .lt := by
  have hshort : "ab".toList <+: "ab\ncd".toList := by decide
  have hlong : "ab\n".toList <+: "ab\ncd".toList := by decide
  obtain ⟨hsplit, -, -, -, horder⟩ := prefixes_in_order '\n' ⟨4, 7, 30⟩ "ab\ncd".toList
  exact ⟨hshort, hlong, by decide, by decide, hsplit _ "cd".toList (by decide), (horder _ _ hshort hlong).1⟩

end Munch.Position
