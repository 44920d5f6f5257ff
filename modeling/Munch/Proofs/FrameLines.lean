import Munch.Frame
import Munch.Proofs.EdgeLabels

/-!
# Frames in print

A frame is printed on one line that tells the frame: its numbers end where the digits do, and
its text at the first quote that is not escaped.
-/

namespace Munch

namespace Text

/-! ## Quoted texts -/

theorem unescape?_quoted (c : Char) (rest : List Char) : unescape? (escape ['"'] c ++ rest) = some (c, rest) :=
  unescape?_escape (by simp) c rest

theorem escape_append_ne_quote (c : Char) (r s : List Char) : escape ['"'] c ++ r ≠ '"' :: s := by
  intro h
  have hread := unescape?_quoted c r
  rw [h, unescape?_plain (by decide)] at hread
  cases hread
  cases h

theorem flatMap_escape_inj {s t r u : List Char}
    (h : s.flatMap (escape ['"']) ++ '"' :: r = t.flatMap (escape ['"']) ++ '"' :: u) : s = t ∧ r = u := by
  induction s generalizing t with
  | nil =>
    cases t with
    | nil => exact ⟨rfl, (List.cons.inj h).2⟩
    | cons d t =>
      rw [List.flatMap_cons, List.append_assoc] at h
      exact absurd h.symm (escape_append_ne_quote d _ _)
  | cons c s ih =>
    rw [List.flatMap_cons, List.append_assoc] at h
    cases t with
    | nil => exact absurd h (escape_append_ne_quote c _ _)
    | cons d t =>
      rw [List.flatMap_cons, List.append_assoc] at h
      have hsame := congrArg unescape? h
      rw [unescape?_quoted, unescape?_quoted] at hsame
      obtain ⟨rfl, htail⟩ := Prod.mk.inj (Option.some.inj hsame)
      obtain ⟨rfl, rfl⟩ := ih htail
      exact ⟨rfl, rfl⟩

theorem quoted_inj {s t : List Char} (h : quoted s = quoted t) : s = t :=
  (flatMap_escape_inj (List.cons.inj h).2).1

/-! ## Printable symbols -/

theorem isPrintable_of_mem_decimal (n : Nat) : ∀ d ∈ decimal n, isPrintable d = true :=
  forall_mem_toDigits (by decide) (by decide) n

theorem isPrintable_of_mem_codePoint (c : Char) : ∀ d ∈ codePoint c, isPrintable d = true := by
  have hdigits : ∀ d ∈ Nat.toDigits 16 c.toNat, isPrintable d = true :=
    forall_mem_toDigits (by decide) (by decide) c.toNat
  simp only [codePoint, List.forall_mem_append]
  exact ⟨⟨List.all_eq_true.mp (by decide), hdigits⟩, List.all_eq_true.mp (by decide)⟩

theorem isPrintable_of_mem_escape (c : Char) : ∀ d ∈ escape ['"'] c, isPrintable d = true := by
  unfold escape
  split
  · exact List.all_eq_true.mp (by decide)
  split
  · exact List.all_eq_true.mp (by decide)
  split
  · exact List.all_eq_true.mp (by decide)
  split
  · exact List.all_eq_true.mp (by decide)
  split
  · rename_i h
    simp only [List.mem_singleton] at h
    rcases h with rfl | rfl
    · exact List.all_eq_true.mp (by decide)
    · exact List.all_eq_true.mp (by decide)
  split
  · exact isPrintable_of_mem_codePoint c
  · rename_i h
    simp only [Bool.or_eq_true, Bool.not_eq_true', not_or, Bool.not_eq_false] at h
    simpa using h.2

theorem isPrintable_of_mem_quoted (s : List Char) : ∀ d ∈ quoted s, isPrintable d = true := by
  intro d hd
  simp only [quoted, List.cons_append, List.mem_cons, List.mem_append, List.mem_flatMap, List.not_mem_nil,
    or_false] at hd
  rcases hd with rfl | ⟨c, -, hd⟩ | rfl
  · decide
  · exact isPrintable_of_mem_escape c d hd
  · decide

end Text

namespace Frame

/-! ## The line of a frame -/

theorem place_inj {l c m d : Nat} {r s : List Char}
    (h : Text.decimal (l + 1) ++ [':'] ++ Text.decimal (c + 1) ++ ' ' :: r =
      Text.decimal (m + 1) ++ [':'] ++ Text.decimal (d + 1) ++ ' ' :: s) : l = m ∧ c = d ∧ r = s := by
  simp only [List.append_assoc, List.cons_append, List.nil_append] at h
  obtain ⟨hline, -, h⟩ := decimal_append_inj rfl rfl h
  obtain ⟨hcolumn, -, h⟩ := decimal_append_inj rfl rfl h
  exact ⟨Nat.succ.inj hline, Nat.succ.inj hcolumn, h⟩

theorem display_token (rule : Nat) (text : List Char) (line column : Nat) :
    (token rule text line column).display = Text.decimal (line + 1) ++ [':'] ++ Text.decimal (column + 1) ++
      ' ' :: '#' :: (Text.decimal rule ++ ' ' :: Text.quoted text) := by
  simp [display]

theorem display_inj {f g : Frame} (h : f.display = g.display) : f = g := by
  cases f with
  | token rule text line column =>
    rw [display_token] at h
    cases g with
    | token rule' text' line' column' =>
      rw [display_token] at h
      obtain ⟨hline, hcolumn, hrest⟩ := place_inj h
      obtain ⟨hrule, -, htext⟩ := decimal_append_inj rfl rfl (List.cons.inj hrest).2
      rw [hline, hcolumn, hrule, Text.quoted_inj htext]
    | sentinel line' column' =>
      obtain ⟨-, -, hrest⟩ := place_inj h
      cases hrest
  | sentinel line column =>
    cases g with
    | token rule' text' line' column' =>
      rw [display_token] at h
      obtain ⟨-, -, hrest⟩ := place_inj h
      cases hrest
    | sentinel line' column' =>
      obtain ⟨hline, hcolumn, -⟩ := place_inj h
      rw [hline, hcolumn]

theorem isPrintable_of_mem_display (f : Frame) : ∀ c ∈ f.display, Text.isPrintable c = true := by
  have hnumber := Text.isPrintable_of_mem_decimal
  have hplain : ∀ {s : List Char}, s.all Text.isPrintable = true → ∀ c ∈ s, Text.isPrintable c = true :=
    List.all_eq_true.mp
  cases f with
  | token rule text line column =>
    simp only [display, List.forall_mem_append]
    exact ⟨⟨⟨⟨⟨⟨hnumber _, hplain (by decide)⟩, hnumber _⟩, hplain (by decide)⟩, hnumber _⟩, hplain (by decide)⟩,
      Text.isPrintable_of_mem_quoted text⟩
  | sentinel line column =>
    simp only [display, List.forall_mem_append]
    exact ⟨⟨⟨hnumber _, hplain (by decide)⟩, hnumber _⟩, hplain (by decide)⟩

/-- **Frames in print.** A frame is printed on one line of printable symbols, and no other frame is
printed so. -/
theorem display_identifies (f g : Frame) :
    (f.display = g.display ↔ f = g) ∧ ∀ c ∈ f.display, Text.isPrintable c = true ∧ c ≠ '\n' ∧ c ≠ '\r' := by
  refine ⟨⟨display_inj, congrArg display⟩, fun c hc => ?_⟩
  have hprintable := isPrintable_of_mem_display f c hc
  refine ⟨hprintable, ?_, ?_⟩
  · rintro rfl
    revert hprintable
    decide
  · rintro rfl
    revert hprintable
    decide

end Frame

end Munch
