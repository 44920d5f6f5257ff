import Munch.Options
import Munch.Proofs.Numerals
import Munch.Toml.Document

/-!
# Scalars as they are written

Symbols, flags and numbers are read back from the texts that options write for them, where a
line ends behind them.
-/

namespace Munch.Toml

/-! ## Symbols -/

theorem hexValue?_toUpper {d : Nat} (h : d < 16) : hexValue? d.digitChar.toUpper = some d := by
  have hall : ∀ d < 16, hexValue? d.digitChar.toUpper = some d := by decide
  exact hall d h

theorem basicBody_shortCodePoint {c : Char} (h : c.toNat < 128) (multiline : Bool) (rest : List Char) :
    basicBody multiline .text (shortCodePoint c ++ rest) = push c (basicBody multiline .text rest) := by
  have hhigh : c.toNat / 16 < 16 := by omega
  have hlow : c.toNat % 16 < 16 := Nat.mod_lt _ (by decide)
  have hzero : hexValue? '0' = some 0 := by decide
  have hvalue : c.toNat / 16 * 16 + c.toNat % 16 = c.toNat := by omega
  have hvalid : c.toNat.isValidChar := c.valid
  simp [shortCodePoint, Nat.toDigits_of_lt_base hhigh, Nat.toDigits_of_lt_base hlow, basicBody, hzero,
    hexValue?_toUpper hhigh, hexValue?_toUpper hlow, hvalue, hvalid]

theorem basicBody_quote (rest : List Char) : basicBody false .text ('"' :: rest) = some ([], rest) := by
  simp [basicBody]

/-- A symbol that a string between double quotes holds as it is. -/
def Plain (c : Char) : Prop := isText c = true ∧ c ≠ '"' ∧ c ≠ '\\'

theorem basicBody_plain {c : Char} (h : Plain c) (rest : List Char) :
    basicBody false .text (c :: rest) = push c (basicBody false .text rest) := by
  simp [basicBody, h.1, h.2.1, h.2.2]

theorem isText_of_ge {c : Char} (h : ¬ c < ' ') (hdel : c ≠ '\x7f') : isText c = true := by
  have hle : ' ' ≤ c := Char.not_lt.mp h
  simp [isText, hle, hdel]

/-- Two more quotes would open a string over several lines. -/
theorem string?_quoted {c d : Char} (hc : c ≠ '"') (r : List Char) :
    string? ('"' :: c :: d :: r) = basicBody false .text (c :: d :: r) := by
  unfold string?
  split
  · rename_i h
    simp_all
  · rename_i h
    simp_all
  · rfl

theorem scalar?_quoted {c d : Char} (hc : c ≠ '"') {r s rest : List Char}
    (h : basicBody false .text (c :: d :: r) = some (s, rest)) :
    scalar? ('"' :: c :: d :: r) = some (.string s, rest) := by
  simp [scalar?, string?_quoted hc, h]

theorem scalar?_writeSymbol (c : Char) (rest : List Char) :
    scalar? (writeSymbol c ++ '\n' :: rest) = some (.string [c], '\n' :: rest) := by
  unfold writeSymbol
  split
  · rename_i h
    rcases h with rfl | rfl
    · rfl
    · rfl
  split
  · subst c
    rfl
  split
  · subst c
    rfl
  split
  · subst c
    rfl
  split
  · subst c
    rfl
  split
  · subst c
    rfl
  split
  · rename_i h
    have hlt : c.toNat < 128 := by
      rcases h with h | rfl
      · exact Nat.lt_trans h (by decide)
      · decide
    have hbody : basicBody false .text (shortCodePoint c ++ '"' :: '\n' :: rest) = some ([c], '\n' :: rest) := by
      rw [basicBody_shortCodePoint hlt, basicBody_quote]
      rfl
    simpa [shortCodePoint] using scalar?_quoted (by decide) hbody
  · have hplain : Plain c := by
      refine ⟨isText_of_ge ?_ ?_, ?_, ?_⟩ <;> simp_all
    have hbody : basicBody false .text (c :: '"' :: '\n' :: rest) = some ([c], '\n' :: rest) := by
      rw [basicBody_plain hplain, basicBody_quote]
      rfl
    exact scalar?_quoted hplain.2.1 hbody

theorem scalar?_writeFlag (b : Bool) (rest : List Char) :
    scalar? (writeFlag b ++ '\n' :: rest) = some (.boolean b, '\n' :: rest) := by
  cases b
  · rfl
  · rfl

/-! ## Numbers -/

theorem fixed?_eq_some {n m : Nat} {ds rest r : List Char} (h : fixed? n (ds ++ '\n' :: rest) = some (m, r)) :
    r = ds.drop n ++ '\n' :: rest := by
  unfold fixed? at h
  simp only [Option.ite_none_right_eq_some, Option.some.injEq, Prod.mk.injEq] at h
  obtain ⟨⟨-, hall⟩, -, rfl⟩ := h
  by_cases hn : n ≤ ds.length
  · exact List.drop_append_of_le_length hn
  · have hmem : '\n' ∈ (ds ++ '\n' :: rest).take n := by
      obtain ⟨k, hk⟩ : ∃ k, n - ds.length = k + 1 := ⟨n - ds.length - 1, by omega⟩
      simp [List.take_append, hk]
    have hline := List.all_eq_true.mp hall '\n' hmem
    contradiction

section
variable {ds : List Char} (hds : ∀ d ∈ ds, d.isDigit = true) (rest : List Char)
include hds

theorem digitTail?_of_digits : digitTail? Char.isDigit (ds ++ '\n' :: rest) = some (ds, '\n' :: rest) := by
  induction ds with
  | nil => rfl
  | cons d ds ih =>
    have hd : d.isDigit = true := hds d (by simp)
    have hunderscore : d ≠ '_' := by
      intro h
      subst h
      contradiction
    have htail := ih fun e he => hds e (by simp [he])
    simp [digitTail?, hd, hunderscore, htail]

theorem ne_cons_of_digits {c : Char} (hc : c.isDigit = false) (hline : c ≠ '\n') (r : List Char) :
    ds ++ '\n' :: rest ≠ c :: r := by
  intro h
  cases ds with
  | nil => simp [hline.symm] at h
  | cons d ds =>
    have hd : d.isDigit = true := hds d (by simp)
    simp only [List.cons_append, List.cons.injEq] at h
    simp [h.1, hc] at hd

theorem word?_of_digits {c : Char} (hc : c.isDigit = false) (hline : c ≠ '\n') (w : List Char) :
    word? (c :: w) (ds ++ '\n' :: rest) = none := by
  cases h : ds ++ '\n' :: rest with
  | nil => rfl
  | cons d r =>
    have hne : c ≠ d := by
      intro hd
      subst hd
      exact ne_cons_of_digits hds rest hc hline r h
    simp [word?, hne]

theorem word?_of_fixed? {n m : Nat} {r : List Char} (h : fixed? n (ds ++ '\n' :: rest) = some (m, r)) {c : Char}
    (hc : c.isDigit = false) (hline : c ≠ '\n') : word? [c] r = none := by
  rw [fixed?_eq_some h]
  exact word?_of_digits (fun d hd => hds d (List.mem_of_mem_drop hd)) rest hc hline []

theorem date?_of_digits : date? (ds ++ '\n' :: rest) = none := by
  cases h : fixed? 4 (ds ++ '\n' :: rest) with
  | none => simp [date?, h]
  | some p => simp [date?, h, word?_of_fixed? hds rest h]

theorem time?_of_digits : time? (ds ++ '\n' :: rest) = none := by
  cases h : fixed? 2 (ds ++ '\n' :: rest) with
  | none => simp [time?, h]
  | some p => simp [time?, h, word?_of_fixed? hds rest h]

theorem moment?_of_digits : moment? (ds ++ '\n' :: rest) = none := by
  simp [moment?, date?_of_digits hds, time?_of_digits hds]

theorem sign_of_digits : sign (ds ++ '\n' :: rest) = (false, ds ++ '\n' :: rest) := by
  unfold sign
  split
  · rename_i h
    exact absurd h (ne_cons_of_digits hds rest rfl (by decide) _)
  · rename_i h
    exact absurd h (ne_cons_of_digits hds rest rfl (by decide) _)
  · rfl

theorem scalar?_of_digits (hfloat : float? (ds ++ '\n' :: rest) = none) :
    scalar? (ds ++ '\n' :: rest) =
      (integer? (ds ++ '\n' :: rest)).map fun p => (.integer p.1, p.2) := by
  have hmoment := moment?_of_digits hds rest
  unfold scalar?
  split
  · rename_i h
    exact absurd h (ne_cons_of_digits hds rest rfl (by decide) _)
  · rename_i h
    exact absurd h (ne_cons_of_digits hds rest rfl (by decide) _)
  · rename_i h
    exact absurd h (ne_cons_of_digits hds rest rfl (by decide) _)
  · rename_i h
    exact absurd h (ne_cons_of_digits hds rest rfl (by decide) _)
  · rw [hmoment, hfloat]

end

section
variable (n : Nat) (rest : List Char)

theorem isDigit_of_mem_decimal : ∀ c ∈ Text.decimal n, c.isDigit = true :=
  forall_mem_toDigits (by decide) (by decide) n

theorem plainDigits?_decimal :
    plainDigits? (Text.decimal n ++ '\n' :: rest) = some (Text.decimal n, '\n' :: rest) := by
  rcases Nat.eq_zero_or_pos n with rfl | hn
  · rfl
  · obtain ⟨d, ds, heq, hzero⟩ := decimal_eq_cons hn
    have hds := isDigit_of_mem_decimal n
    rw [heq] at hds ⊢
    have htail := digitTail?_of_digits (fun e he => hds e (List.mem_cons_of_mem d he)) rest
    simp [plainDigits?, hzero, digitRun?, hds d, htail]

theorem float?_decimal : float? (Text.decimal n ++ '\n' :: rest) = none := by
  have hds := isDigit_of_mem_decimal n
  have hinf := word?_of_digits hds rest (c := 'i') rfl (by decide) ['n', 'f']
  have hnan := word?_of_digits hds rest (c := 'n') rfl (by decide) ['a', 'n']
  simp [float?, sign_of_digits hds, hinf, hnan, plainDigits?_decimal, fraction?, exponent?]

theorem decimal_ne_zero_cons {c : Char} (hline : c ≠ '\n') (r : List Char) :
    Text.decimal n ++ '\n' :: rest ≠ '0' :: c :: r := by
  intro h
  rcases Nat.eq_zero_or_pos n with rfl | hn
  · have hzero : Text.decimal 0 = ['0'] := rfl
    simp [hzero, hline.symm] at h
  · obtain ⟨d, ds, heq, hzero⟩ := decimal_eq_cons hn
    simp [heq, hzero] at h

theorem integer?_decimal : integer? (Text.decimal n ++ '\n' :: rest) = bounded? n ('\n' :: rest) := by
  have hds := isDigit_of_mem_decimal n
  have hvalue : natOf 10 (Text.decimal n) = n := natOf_toDigits (by decide) (by decide) n
  unfold integer?
  split
  · rename_i h
    exact absurd h (decimal_ne_zero_cons n rest (by decide) _)
  · rename_i h
    exact absurd h (decimal_ne_zero_cons n rest (by decide) _)
  · rename_i h
    exact absurd h (decimal_ne_zero_cons n rest (by decide) _)
  · rw [sign_of_digits hds]
    dsimp only
    rw [plainDigits?_decimal, Option.bind_eq_bind, Option.bind_some, if_neg Bool.false_ne_true, hvalue]

theorem scalar?_decimal {n : Nat} (h : n < integerBound) :
    scalar? (Text.decimal n ++ '\n' :: rest) = some (.integer n, '\n' :: rest) := by
  have hbounds : -(integerBound : Int) ≤ n ∧ (n : Int) < integerBound := by omega
  rw [scalar?_of_digits (isDigit_of_mem_decimal n) rest (float?_decimal n rest), integer?_decimal, bounded?,
    if_pos hbounds]
  rfl

end

/-! ## Values -/

theorem moment?_eq_none {c : Char} (hc : c.isDigit = false) (r : List Char) : moment? (c :: r) = none := by
  have hfixed : ∀ n, fixed? (n + 1) (c :: r) = none := by
    simp [fixed?, hc]
  simp [moment?, date?, time?, hfixed]

theorem scalar?_eq_none {c : Char} (hc : c = '[' ∨ c = '\x7b' ∨ isBlank c = true) (r : List Char) :
    scalar? (c :: r) = none := by
  have h : c = '[' ∨ c = '\x7b' ∨ c = ' ' ∨ c = '\t' := by simpa [isBlank] using hc
  rcases h with rfl | rfl | rfl | rfl <;>
    simp [scalar?, moment?_eq_none, float?, sign, word?, plainDigits?, digitRun?, integer?]

theorem value?_of_scalar? {cs : List Char} {p : Node × List Char} (h : scalar? cs = some p) (depth : Nat) :
    value? depth (skipBlanks cs) = some p := by
  cases cs with
  | nil => contradiction
  | cons c r =>
    have hc : ¬ (c = '[' ∨ c = '\x7b' ∨ isBlank c = true) := by
      intro hc
      simp [scalar?_eq_none hc] at h
    simp only [not_or] at hc
    have hskip : skipBlanks (c :: r) = c :: r := by simp [skipBlanks, hc.2.2]
    rw [hskip]
    cases depth with
    | zero => exact h
    | succ depth => simp [value?, hc.1, hc.2.1, h]
end Munch.Toml
