import Munch.Feed

/-!
# Texts as bytes

`encode` writes a text as UTF-8. A byte string is one symbol for the decoder exactly if
it is the encoding of that symbol, and its first byte announces how long it is.
-/

namespace Munch

namespace Utf8

def encode (text : List Char) : List UInt8 := text.flatMap String.utf8EncodeChar

theorem encode_cons (c : Char) (text : List Char) : encode (c :: text) = String.utf8EncodeChar c ++ encode text :=
  List.flatMap_cons

/-! ## The first byte -/

/-- The bytes that a sequence of two, three or four begins with, and the bounds of the second one. -/
inductive Leads (b : UInt8) : Lead → Prop
  | two : 0xC2 ≤ b.toNat → b.toNat < 0xE0 → Leads b ⟨1, 0x80, 0xBF, b.toNat - 0xC0⟩
  | three {low high : UInt8} : 0xE0 ≤ b.toNat → b.toNat < 0xF0 →
      (b.toNat = 0xE0 ∧ low.toNat = 0xA0 ∨ b.toNat ≠ 0xE0 ∧ low.toNat = 0x80) →
      (b.toNat = 0xED ∧ high.toNat = 0x9F ∨ b.toNat ≠ 0xED ∧ high.toNat = 0xBF) →
      Leads b ⟨2, low, high, b.toNat - 0xE0⟩
  | four {low high : UInt8} : 0xF0 ≤ b.toNat → b.toNat < 0xF5 →
      (b.toNat = 0xF0 ∧ low.toNat = 0x90 ∨ b.toNat ≠ 0xF0 ∧ low.toNat = 0x80) →
      (b.toNat = 0xF4 ∧ high.toNat = 0x8F ∨ b.toNat ≠ 0xF4 ∧ high.toNat = 0xBF) →
      Leads b ⟨3, low, high, b.toNat - 0xF0⟩

theorem leads_of_lead? {b : UInt8} {l : Lead} (h : lead? b = some l) : Leads b l := by
  simp only [lead?, UInt8.lt_iff_toNat_lt, UInt8.reduceToNat] at h
  split at h
  · cases h
  split at h
  · cases h
    exact .two (by omega) (by omega)
  split at h
  · rename_i hb
    cases h
    subst hb
    exact .three (b := 0xE0) (by decide) (by decide) (by decide) (by decide)
  split at h
  · rename_i hb
    cases h
    subst hb
    exact .three (b := 0xED) (by decide) (by decide) (by decide) (by decide)
  split at h
  · rename_i h0 hd _
    cases h
    rw [← UInt8.toNat_inj] at h0 hd
    exact .three (by omega) (by omega) (Or.inr ⟨h0, rfl⟩) (Or.inr ⟨hd, rfl⟩)
  split at h
  · rename_i hb
    cases h
    subst hb
    exact .four (b := 0xF0) (by decide) (by decide) (by decide) (by decide)
  split at h
  · rename_i h0 _
    cases h
    rw [← UInt8.toNat_inj] at h0
    exact .four (by omega) (by omega) (Or.inr ⟨h0, rfl⟩) (Or.inr ⟨by omega, rfl⟩)
  split at h
  · rename_i hb
    cases h
    subst hb
    exact .four (b := 0xF4) (by decide) (by decide) (by decide) (by decide)
  · cases h

theorem bounds_of_lead?_eq_none {b : UInt8} (h : lead? b = none) : b.toNat < 0xC2 ∨ 0xF5 ≤ b.toNat := by
  simp only [lead?, UInt8.lt_iff_toNat_lt, ← UInt8.toNat_inj, UInt8.reduceToNat] at h
  repeat' split at h
  all_goals first | (cases h; done) | omega

theorem head_of_bounds {b : UInt8} (h : 0xC2 ≤ b.toNat) (h' : b.toNat < 0xF5) :
    ∃ l, Leads b l ∧ ∀ bs, head (b :: bs) = follow l.low l.high l.bits 1 l.more bs := by
  cases hl : lead? b with
  | none =>
    have := bounds_of_lead?_eq_none hl
    omega
  | some l =>
    refine ⟨l, leads_of_lead? hl, fun bs => ?_⟩
    have hb : ¬ b < 0x80 := by
      simp only [UInt8.lt_iff_toNat_lt, UInt8.reduceToNat]
      omega
    rw [head, if_neg hb, hl]

/-! ## The other bytes -/

section
variable {low high b : UInt8} {value taken more : Nat} {bs rest : List UInt8} {c : Char}

theorem follow_cons (hb : low.toNat ≤ b.toNat ∧ b.toNat ≤ high.toNat) :
    follow low high value taken (more + 1) (b :: bs) =
      follow 0x80 0xBF (value * 64 + (b.toNat - 0x80)) (taken + 1) more bs := if_pos hb

theorem follow_tail (hb : 0x80 ≤ b.toNat ∧ b.toNat ≤ 0xBF) :
    follow 0x80 0xBF value taken (more + 1) (b :: bs) =
      follow 0x80 0xBF (value * 64 + (b.toNat - 0x80)) (taken + 1) more bs := follow_cons hb

theorem follow_succ (h : follow low high value taken (more + 1) bs = .symbol c rest) :
    ∃ b bs', bs = b :: bs' ∧ (low.toNat ≤ b.toNat ∧ b.toNat ≤ high.toNat) ∧
      follow 0x80 0xBF (value * 64 + (b.toNat - 0x80)) (taken + 1) more bs' = .symbol c rest := by
  cases bs with
  | nil => simp [follow] at h
  | cons b bs =>
    simp only [follow] at h
    split at h
    · rename_i hb
      exact ⟨b, bs, rfl, hb, h⟩
    · cases h

end

/-! ## Sequences -/

section
variable {b b₁ b₂ b₃ : UInt8}

theorem head_one (h : b.toNat < 0x80) (rest : List UInt8) :
    head (b :: rest) = .symbol (Char.ofNat b.toNat) rest := if_pos h

theorem head_two (h : 0xC2 ≤ b.toNat) (h' : b.toNat < 0xE0) (h₁ : 0x80 ≤ b₁.toNat ∧ b₁.toNat ≤ 0xBF)
    (rest : List UInt8) :
    head (b :: b₁ :: rest) = .symbol (Char.ofNat ((b.toNat - 0xC0) * 64 + (b₁.toNat - 0x80))) rest := by
  obtain ⟨l, hl, hh⟩ := head_of_bounds (b := b) (by omega) (by omega)
  rw [hh]
  cases hl with
  | two => exact follow_tail h₁
  | three | four => omega

theorem head_three (h : 0xE0 ≤ b.toNat) (h' : b.toNat < 0xF0)
    (h₁ : 0x80 ≤ b₁.toNat ∧ b₁.toNat ≤ 0xBF) (h₁' : b.toNat = 0xE0 → 0xA0 ≤ b₁.toNat)
    (h₁'' : b.toNat = 0xED → b₁.toNat ≤ 0x9F)
    (h₂ : 0x80 ≤ b₂.toNat ∧ b₂.toNat ≤ 0xBF) (rest : List UInt8) :
    head (b :: b₁ :: b₂ :: rest) =
      .symbol (Char.ofNat (((b.toNat - 0xE0) * 64 + (b₁.toNat - 0x80)) * 64 + (b₂.toNat - 0x80))) rest := by
  obtain ⟨l, hl, hh⟩ := head_of_bounds (b := b) (by omega) (by omega)
  rw [hh]
  cases hl with
  | three _ _ hlow hhigh =>
    dsimp only
    rw [follow_cons (by omega)]
    exact follow_tail h₂
  | two | four => omega

theorem head_four (h : 0xF0 ≤ b.toNat) (h' : b.toNat < 0xF5)
    (h₁ : 0x80 ≤ b₁.toNat ∧ b₁.toNat ≤ 0xBF) (h₁' : b.toNat = 0xF0 → 0x90 ≤ b₁.toNat)
    (h₁'' : b.toNat = 0xF4 → b₁.toNat ≤ 0x8F)
    (h₂ : 0x80 ≤ b₂.toNat ∧ b₂.toNat ≤ 0xBF) (h₃ : 0x80 ≤ b₃.toNat ∧ b₃.toNat ≤ 0xBF) (rest : List UInt8) :
    head (b :: b₁ :: b₂ :: b₃ :: rest) =
      .symbol (Char.ofNat ((((b.toNat - 0xF0) * 64 + (b₁.toNat - 0x80)) * 64 + (b₂.toNat - 0x80)) * 64 +
        (b₃.toNat - 0x80))) rest := by
  obtain ⟨l, hl, hh⟩ := head_of_bounds (b := b) (by omega) (by omega)
  rw [hh]
  cases hl with
  | four _ _ hlow hhigh =>
    dsimp only
    rw [follow_cons (by omega), follow_tail h₂]
    exact follow_tail h₃
  | two | three => omega

end

/-! ## The values -/

theorem toNat_ofNat {v : Nat} (h : v.isValidChar) : (Char.ofNat v).toNat = v := by
  rw [Char.ofNat, dif_pos h]
  rfl

section
variable {v : Nat}

theorem encodeChar_one (h : v < 0x80) : String.utf8EncodeChar (Char.ofNat v) = [UInt8.ofNat v] := by
  have hv : (Char.ofNat v).val.toNat = v := toNat_ofNat (Or.inl (by omega))
  rw [String.utf8EncodeChar, hv, if_pos (by omega)]

theorem encodeChar_byte {b : UInt8} (h : b.toNat < 0x80) : String.utf8EncodeChar (Char.ofNat b.toNat) = [b] := by
  rw [encodeChar_one h, UInt8.ofNat_toNat]

theorem encodeChar_two (h : 0x80 ≤ v) (h' : v < 0x800) :
    String.utf8EncodeChar (Char.ofNat v) = [UInt8.ofNat (v / 64 + 0xC0), UInt8.ofNat (v % 64 + 0x80)] := by
  have hv : (Char.ofNat v).val.toNat = v := toNat_ofNat (Or.inl (by omega))
  rw [String.utf8EncodeChar, hv, if_neg (by omega), if_pos (by omega), Nat.mod_eq_of_lt (by omega : v / 64 < 0x20)]

theorem encodeChar_three (h : 0x800 ≤ v) (h' : v < 0x10000) (hv : v.isValidChar) :
    String.utf8EncodeChar (Char.ofNat v) =
      [UInt8.ofNat (v / 4096 + 0xE0), UInt8.ofNat (v / 64 % 64 + 0x80), UInt8.ofNat (v % 64 + 0x80)] := by
  have hv : (Char.ofNat v).val.toNat = v := toNat_ofNat hv
  rw [String.utf8EncodeChar, hv, if_neg (by omega), if_neg (by omega), if_pos (by omega),
    Nat.mod_eq_of_lt (by omega : v / 4096 < 0x10)]

theorem encodeChar_four (h : 0x10000 ≤ v) (h' : v < 0x110000) :
    String.utf8EncodeChar (Char.ofNat v) =
      [UInt8.ofNat (v / 262144 + 0xF0), UInt8.ofNat (v / 4096 % 64 + 0x80), UInt8.ofNat (v / 64 % 64 + 0x80),
        UInt8.ofNat (v % 64 + 0x80)] := by
  have hv : (Char.ofNat v).val.toNat = v := toNat_ofNat (Or.inr ⟨by omega, h'⟩)
  rw [String.utf8EncodeChar, hv, if_neg (by omega), if_neg (by omega), if_neg (by omega),
    Nat.mod_eq_of_lt (by omega : v / 262144 < 0x08)]

end

/-! ## One symbol -/

theorem ofNat_of_lt {n : Nat} (h : n < 256) : ∃ b, UInt8.ofNat n = b ∧ b.toNat = n :=
  ⟨_, rfl, by rw [UInt8.toNat_ofNat', Nat.mod_eq_of_lt h]⟩

/-- **Encodings are read back.** -/
theorem head_encodeChar (c : Char) (rest : List UInt8) :
    head (String.utf8EncodeChar c ++ rest) = .symbol c rest := by
  obtain ⟨v, hv, rfl⟩ : ∃ v : Nat, v.isValidChar ∧ c = Char.ofNat v :=
    ⟨c.toNat, c.valid, c.ofNat_toNat.symm⟩
  rw [Nat.isValidChar] at hv
  by_cases h1 : v < 0x80
  · obtain ⟨b, hb, rfl⟩ := ofNat_of_lt (n := v) (by omega)
    rw [encodeChar_one h1, hb]
    exact head_one h1 rest
  by_cases h2 : v < 0x800
  · obtain ⟨b, hb, hn⟩ := ofNat_of_lt (n := v / 64 + 0xC0) (by omega)
    obtain ⟨b₁, hb₁, hn₁⟩ := ofNat_of_lt (n := v % 64 + 0x80) (by omega)
    rw [encodeChar_two (by omega) h2, hb, hb₁, List.cons_append, List.singleton_append,
      head_two (by omega) (by omega) (by omega),
      show (b.toNat - 0xC0) * 64 + (b₁.toNat - 0x80) = v by omega]
  by_cases h3 : v < 0x10000
  · obtain ⟨b, hb, hn⟩ := ofNat_of_lt (n := v / 4096 + 0xE0) (by omega)
    obtain ⟨b₁, hb₁, hn₁⟩ := ofNat_of_lt (n := v / 64 % 64 + 0x80) (by omega)
    obtain ⟨b₂, hb₂, hn₂⟩ := ofNat_of_lt (n := v % 64 + 0x80) (by omega)
    rw [encodeChar_three (by omega) h3 hv, hb, hb₁, hb₂, List.cons_append, List.cons_append, List.singleton_append,
      head_three (by omega) (by omega) (by omega) (by omega) (by omega) (by omega),
      show ((b.toNat - 0xE0) * 64 + (b₁.toNat - 0x80)) * 64 + (b₂.toNat - 0x80) = v by omega]
  · obtain ⟨b, hb, hn⟩ := ofNat_of_lt (n := v / 262144 + 0xF0) (by omega)
    obtain ⟨b₁, hb₁, hn₁⟩ := ofNat_of_lt (n := v / 4096 % 64 + 0x80) (by omega)
    obtain ⟨b₂, hb₂, hn₂⟩ := ofNat_of_lt (n := v / 64 % 64 + 0x80) (by omega)
    obtain ⟨b₃, hb₃, hn₃⟩ := ofNat_of_lt (n := v % 64 + 0x80) (by omega)
    rw [encodeChar_four (by omega) (by omega), hb, hb₁, hb₂, hb₃, List.cons_append, List.cons_append,
      List.cons_append, List.singleton_append,
      head_four (by omega) (by omega) (by omega) (by omega) (by omega) (by omega) (by omega),
      show (((b.toNat - 0xF0) * 64 + (b₁.toNat - 0x80)) * 64 + (b₂.toNat - 0x80)) * 64 + (b₃.toNat - 0x80) = v
        by omega]

theorem eq_of_head {bytes rest : List UInt8} {c : Char} (h : head bytes = .symbol c rest) :
    bytes = String.utf8EncodeChar c ++ rest := by
  cases bytes with
  | nil => simp [head] at h
  | cons b bs =>
    by_cases h1 : b.toNat < 0x80
    · rw [head_one h1] at h
      cases h
      rw [encodeChar_byte h1]
      rfl
    have hb : ¬ b < 0x80 := h1
    rw [head, if_neg hb] at h
    cases hl : lead? b with
    | none =>
      rw [hl] at h
      cases h
    | some l =>
      rw [hl] at h
      cases leads_of_lead? hl with
      | two hb hb' =>
        obtain ⟨b₁, bs, rfl, h₁, h⟩ := follow_succ h
        simp only [follow, Head.symbol.injEq, UInt8.reduceToNat] at h h₁
        obtain ⟨rfl, rfl⟩ := h
        rw [encodeChar_two (by omega) (by omega)]
        simp only [List.cons_append, List.nil_append, List.cons.injEq, and_true, ← UInt8.toNat_inj,
          UInt8.toNat_ofNat']
        omega
      | three hb hb' hlow hhigh =>
        obtain ⟨b₁, bs, rfl, h₁, h⟩ := follow_succ h
        obtain ⟨b₂, bs, rfl, h₂, h⟩ := follow_succ h
        simp only [follow, Head.symbol.injEq, UInt8.reduceToNat] at h h₁ h₂
        obtain ⟨rfl, rfl⟩ := h
        rw [encodeChar_three (by omega) (by omega) (by rw [Nat.isValidChar]; omega)]
        simp only [List.cons_append, List.nil_append, List.cons.injEq, and_true, ← UInt8.toNat_inj,
          UInt8.toNat_ofNat']
        omega
      | four hb hb' hlow hhigh =>
        obtain ⟨b₁, bs, rfl, h₁, h⟩ := follow_succ h
        obtain ⟨b₂, bs, rfl, h₂, h⟩ := follow_succ h
        obtain ⟨b₃, bs, rfl, h₃, h⟩ := follow_succ h
        simp only [follow, Head.symbol.injEq, UInt8.reduceToNat] at h h₁ h₂ h₃
        obtain ⟨rfl, rfl⟩ := h
        rw [encodeChar_four (by omega) (by omega)]
        simp only [List.cons_append, List.nil_append, List.cons.injEq, and_true, ← UInt8.toNat_inj,
          UInt8.toNat_ofNat']
        omega

theorem symbol?_eq_some_iff {bytes : List UInt8} {c : Char} :
    symbol? bytes = some c ↔ bytes = String.utf8EncodeChar c := by
  constructor
  · intro h
    unfold symbol? at h
    split at h
    · rename_i hh
      cases h
      rw [eq_of_head hh, List.append_nil]
    · cases h
  · intro h
    have := head_encodeChar c []
    rw [List.append_nil] at this
    rw [h, symbol?, this]

theorem encodeChar_ne_nil (c : Char) : String.utf8EncodeChar c ≠ [] := by
  intro h
  have := head_encodeChar c []
  rw [h] at this
  cases this

theorem encodeChar_append_inj {c d : Char} {bs bs' : List UInt8}
    (h : String.utf8EncodeChar c ++ bs = String.utf8EncodeChar d ++ bs') : c = d ∧ bs = bs' := by
  have hc := head_encodeChar c bs
  rw [h, head_encodeChar, Head.symbol.injEq] at hc
  exact ⟨hc.1.symm, hc.2.symm⟩

end Utf8

end Munch
