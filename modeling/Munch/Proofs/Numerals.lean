import Munch.Text.Quoted
import Munch.Toml.Numbers

/-!
# Numerals

A number is read back from its digits, to any base that has them, and in a text it ends where
the digits do.
-/

namespace Munch

open Toml (digitValue natOf)

theorem digitValue_digitChar {d : Nat} (h : d < 16) : digitValue d.digitChar = d := by
  have hall : ∀ d < 16, digitValue d.digitChar = d := by decide
  exact hall d h

theorem natOf_snoc (base : Nat) (ds : List Char) (d : Char) :
    natOf base (ds ++ [d]) = natOf base ds * base + digitValue d := by
  simp [natOf]

section
variable {base : Nat} (hbase : 1 < base)
include hbase

theorem natOf_toDigits (h16 : base ≤ 16) (n : Nat) : natOf base (Nat.toDigits base n) = n := by
  induction n using Nat.strongRecOn with
  | ind n ih =>
    rw [Nat.toDigits_eq_if hbase]
    split
    · rename_i hn
      simp [natOf, digitValue_digitChar (Nat.lt_of_lt_of_le hn h16)]
    · rename_i hn
      have hpos : 0 < base := Nat.lt_of_succ_lt hbase
      have hlt : n / base < n := Nat.div_lt_self (by omega) hbase
      have hdigit : n % base < 16 := Nat.lt_of_lt_of_le (Nat.mod_lt n hpos) h16
      rw [natOf_snoc, ih _ hlt, digitValue_digitChar hdigit, Nat.mul_comm]
      exact Nat.div_add_mod n base

theorem toDigits_inj (h16 : base ≤ 16) {m n : Nat} (h : Nat.toDigits base m = Nat.toDigits base n) : m = n := by
  rw [← natOf_toDigits hbase h16 m, h, natOf_toDigits hbase h16]

theorem forall_mem_toDigits {P : Char → Prop} (h : ∀ d < base, P d.digitChar) (n : Nat) :
    ∀ c ∈ Nat.toDigits base n, P c := by
  induction n using Nat.strongRecOn with
  | ind n ih =>
    rw [Nat.toDigits_eq_if hbase]
    split
    · rename_i hn
      simp [h n hn]
    · rename_i hn
      have hlt : n / base < n := Nat.div_lt_self (by omega) hbase
      intro c hc
      rcases List.mem_append.mp hc with hc | hc
      · exact ih _ hlt c hc
      · rw [List.mem_singleton.mp hc]
        exact h _ (Nat.mod_lt n (by omega))

end

theorem decimal_eq_cons {n : Nat} (hn : 0 < n) : ∃ d ds, Text.decimal n = d :: ds ∧ d ≠ '0' := by
  unfold Text.decimal
  induction n using Nat.strongRecOn with
  | ind n ih =>
    rw [Nat.toDigits_eq_if (by decide)]
    split
    · rename_i hlt
      have hall : ∀ n < 10, 0 < n → n.digitChar ≠ '0' := by decide
      exact ⟨n.digitChar, [], rfl, hall n hlt hn⟩
    · obtain ⟨d, ds, heq, hd⟩ := ih (n / 10) (by omega) (by omega)
      rw [heq]
      exact ⟨d, _, rfl, hd⟩

theorem decimal_inj {m n : Nat} (h : Text.decimal m = Text.decimal n) : m = n :=
  toDigits_inj (by decide) (by decide) h

theorem takeWhile_decimal (n : Nat) {c : Char} (hc : c.isDigit = false) (rest : List Char) :
    (Text.decimal n ++ c :: rest).takeWhile Char.isDigit = Text.decimal n := by
  have hdigits : ∀ d ∈ Text.decimal n, d.isDigit = true := fun d hd =>
    Nat.isDigit_of_mem_toDigits (by decide) (by decide) hd
  rw [List.takeWhile_append_of_pos hdigits, List.takeWhile_cons_of_neg (by simp [hc]), List.append_nil]

theorem decimal_append_inj {m n : Nat} {c d : Char} {r s : List Char} (hc : c.isDigit = false)
    (hd : d.isDigit = false) (h : Text.decimal m ++ c :: r = Text.decimal n ++ d :: s) :
    m = n ∧ c = d ∧ r = s := by
  have hdigits := congrArg (List.takeWhile Char.isDigit) h
  rw [takeWhile_decimal m hc, takeWhile_decimal n hd] at hdigits
  rw [hdigits] at h
  exact ⟨decimal_inj hdigits, List.cons.inj (List.append_cancel_left h)⟩

end Munch
