import Munch.Graph.Basic

/-!
# Texts between quotes

A quoted string of a graph ends at the first quote before which no odd number of backslashes
stands. A text is well quoted if that is the quote behind it.
-/

namespace Munch

def trailing (text : List Char) : Nat := (text.reverse.takeWhile (· = '\\')).length

structure WellQuoted (body : List Char) : Prop where
  quotes : ∀ before behind, body = before ++ '"' :: behind → trailing before % 2 = 1
  ending : trailing body % 2 = 0

/-- Whether the symbol behind `c` is escaped, or `none` if `c` ends the string. -/
def escapes (escaped : Bool) (c : Char) : Option Bool :=
  if c = '"' ∧ escaped = false then none else some (c = '\\' && !escaped)

theorem escapes_eq_none {escaped : Bool} {c : Char} : escapes escaped c = none ↔ c = '"' ∧ escaped = false := by
  unfold escapes
  split <;> simp [*]

/-! ## Texts that come to nothing -/

/-- Read step by step from `s`, the text leads back to `s`. -/
def Neutral {σ : Type} (step : σ → Char → Option σ) (s : σ) (text : List Char) : Prop :=
  text.foldlM step s = some s

section
variable {σ : Type} {step : σ → Char → Option σ} {s : σ}

instance [DecidableEq σ] (text : List Char) : Decidable (Neutral step s text) := inferInstanceAs (Decidable (_ = _))

theorem Neutral.append {t u : List Char} (ht : Neutral step s t) (hu : Neutral step s u) :
    Neutral step s (t ++ u) := by
  rw [Neutral, List.foldlM_append, ht]
  exact hu

theorem neutral_flatMap {α : Type} {f : α → List Char} {l : List α} (h : ∀ a ∈ l, Neutral step s (f a)) :
    Neutral step s (l.flatMap f) := by
  induction l with
  | nil => rfl
  | cons a l ih =>
    rw [List.flatMap_cons]
    exact (h a List.mem_cons_self).append (ih fun b hb => h b (List.mem_cons_of_mem a hb))

theorem neutral_singleton {c : Char} (h : step s c = some s) : Neutral step s [c] := by
  rw [Neutral, List.foldlM_cons, h]
  rfl

theorem neutral_decimal (h : ∀ d : Char, d.isDigit = true → step s d = some s) (n : Nat) :
    Neutral step s (Text.decimal n) := by
  have hdigits : ∀ d ∈ Text.decimal n, Neutral step s [d] := fun d hd =>
    neutral_singleton (h d (Nat.isDigit_of_mem_toDigits (by decide) (by decide) hd))
  have := neutral_flatMap hdigits
  rwa [List.flatMap_singleton'] at this

end

/-! ## Reading to the end of a string -/

theorem trailing_snoc (text : List Char) (c : Char) :
    trailing (text ++ [c]) = if c = '\\' then trailing text + 1 else 0 := by
  by_cases h : c = '\\' <;> simp [trailing, h]

theorem forall_quote_cons {P : List Char → Prop} (c : Char) (body : List Char) :
    (∀ inner behind, c :: body = inner ++ '"' :: behind → P inner) ↔
      (c = '"' → P []) ∧ ∀ inner behind, body = inner ++ '"' :: behind → P (c :: inner) := by
  constructor
  · intro h
    exact ⟨fun hc => h [] body (by rw [hc]; rfl), fun inner behind hb => h (c :: inner) behind (by rw [hb]; rfl)⟩
  · rintro ⟨h1, h2⟩ inner behind hb
    cases inner with
    | nil => exact h1 (List.cons.inj hb).1
    | cons d inner =>
      rw [List.cons_append, List.cons.injEq] at hb
      obtain ⟨rfl, hb⟩ := hb
      exact h2 inner behind hb

theorem escapes_trailing (before body : List Char) :
    body.foldlM escapes (decide (trailing before % 2 = 1)) = some false ↔
      (∀ inner behind, body = inner ++ '"' :: behind → trailing (before ++ inner) % 2 = 1) ∧
        trailing (before ++ body) % 2 = 0 := by
  induction body generalizing before with
  | nil => simp
  | cons c body ih =>
    have hnext : (c = '\\' && !decide (trailing before % 2 = 1)) = decide (trailing (before ++ [c]) % 2 = 1) := by
      rw [trailing_snoc]
      by_cases hc : c = '\\'
      · simp only [hc, decide_true, Bool.true_and, if_true, ← decide_not, decide_eq_decide]
        omega
      · simp [hc]
    have hquotes := forall_quote_cons (P := fun inner => trailing (before ++ inner) % 2 = 1) c body
    have hbehind := ih (before ++ [c])
    simp only [List.append_assoc, List.singleton_append] at hbehind
    rw [hquotes, List.append_nil, List.foldlM_cons, escapes, hnext]
    by_cases hend : c = '"' ∧ decide (trailing before % 2 = 1) = false
    · rw [if_pos hend]
      have hopen := of_decide_eq_false hend.2
      exact iff_of_false (by simp) fun h => hopen (h.1.1 hend.1)
    · have hescaped : c = '"' → trailing before % 2 = 1 := fun hc => by simpa [hc] using hend
      rw [if_neg hend, and_assoc, ← hbehind]
      exact ⟨fun h => ⟨hescaped, h⟩, fun h => h.2⟩

theorem wellQuoted_iff (body : List Char) : WellQuoted body ↔ Neutral escapes false body := by
  have h : Neutral escapes false body ↔ _ := escapes_trailing [] body
  rw [h]
  exact ⟨fun h => ⟨h.quotes, h.ending⟩, fun h => ⟨h.1, h.2⟩⟩

instance (body : List Char) : Decidable (WellQuoted body) := decidable_of_iff _ (wellQuoted_iff body).symm

/-! ## What is written between quotes -/

theorem escapes_false {c : Char} (hq : c ≠ '"') (hb : c ≠ '\\') : escapes false c = some false := by
  simp [escapes, hq, hb]

theorem neutral_symbolLabel (c : Char) : Neutral escapes false (symbolLabel c) := by
  refine neutral_flatMap fun d _ => ?_
  split
  · rename_i hd
    rcases hd with rfl | rfl <;> decide
  · rename_i hd
    rw [not_or] at hd
    exact neutral_singleton (escapes_false hd.2 hd.1)

theorem wellQuoted_label (e : Edge) : WellQuoted e.label := by
  rw [wellQuoted_iff]
  unfold Edge.label
  split
  · exact neutral_symbolLabel e.lo
  · exact ((neutral_symbolLabel e.lo).append (by decide)).append (neutral_symbolLabel e.hi)

theorem ne_of_isDigit {c d : Char} (hc : c.isDigit = true) (hd : d.isDigit = false) : c ≠ d := by
  rintro rfl
  rw [hc] at hd
  cases hd

theorem escapes_digit (d : Char) (hd : d.isDigit = true) : escapes false d = some false :=
  escapes_false (ne_of_isDigit hd (by decide)) (ne_of_isDigit hd (by decide))

theorem wellQuoted_decimal (n : Nat) : WellQuoted (Text.decimal n) :=
  (wellQuoted_iff _).mpr (neutral_decimal escapes_digit n)

theorem wellQuoted_path (path : RulePath) : WellQuoted path.text := by
  have hpart : ∀ i ∈ path, Neutral escapes false ('_' :: Text.decimal i) := fun i _ =>
    (neutral_singleton (c := '_') (by decide)).append (neutral_decimal escapes_digit i)
  have hrule : Neutral escapes false "rule".toList := by decide
  exact (wellQuoted_iff _).mpr (hrule.append (neutral_flatMap hpart))

end Munch
