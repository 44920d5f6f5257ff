import Munch.Proofs.Encodings

/-!
# Reading symbols off a device

`Reply.ofBytes` reads a symbol off the bytes that are left, all of them at once. A device
whose reads do not fail comes to the same, however the bytes are spread over its reads.
-/

namespace Munch

/-! ## Bytes that begin a symbol -/

/-- `b` begins a sequence of `n` bytes, if they are right. -/
inductive Announces (b : UInt8) : Nat → Prop
  | two : 0xC0 ≤ b.toNat → b.toNat ≤ 0xDF → Announces b 2
  | three : 0xE0 ≤ b.toNat → b.toNat ≤ 0xEF → Announces b 3
  | four : 0xF0 ≤ b.toNat → b.toNat ≤ 0xF7 → Announces b 4

/-- Of the bytes, `n` are used up by a failure of this kind. -/
inductive Rejects : List UInt8 → String → Nat → Prop
  | stray {b : UInt8} {bs : List UInt8} :
      0x80 ≤ b.toNat ∧ b.toNat ≤ 0xBF ∨ 0xF8 ≤ b.toNat → Rejects (b :: bs) "InvalidData" 1
  | cut {b : UInt8} {bs : List UInt8} {n : Nat} :
      Announces b n → (b :: bs).length < n → Rejects (b :: bs) "UnexpectedEof" (b :: bs).length
  | broken {b : UInt8} {bs : List UInt8} {n : Nat} :
      Announces b n → n ≤ (b :: bs).length → Rejects (b :: bs) "InvalidData" n

theorem Rejects.bounds {bytes : List UInt8} {kind : String} {n : Nat} (h : Rejects bytes kind n) :
    0 < n ∧ n ≤ bytes.length := by
  cases h with
  | stray => simp
  | cut => simp
  | broken ha hle => exact ⟨by cases ha <;> omega, hle⟩

theorem announced?_spec (b : UInt8) :
    match announced? b with
    | none => 0x80 ≤ b.toNat ∧ b.toNat ≤ 0xBF ∨ 0xF8 ≤ b.toNat
    | some n => n = 1 ∧ b.toNat < 0x80 ∨ Announces b n := by
  simp only [announced?, UInt8.lt_iff_toNat_lt, UInt8.reduceToNat]
  by_cases h1 : b.toNat < 0x80
  · rw [if_pos h1]
    exact Or.inl ⟨rfl, h1⟩
  rw [if_neg h1]
  by_cases h2 : b.toNat < 0xC0
  · rw [if_pos h2]
    exact Or.inl ⟨by omega, by omega⟩
  rw [if_neg h2]
  by_cases h3 : b.toNat < 0xE0
  · rw [if_pos h3]
    exact Or.inr (.two (by omega) (by omega))
  rw [if_neg h3]
  by_cases h4 : b.toNat < 0xF0
  · rw [if_pos h4]
    exact Or.inr (.three (by omega) (by omega))
  rw [if_neg h4]
  by_cases h5 : b.toNat < 0xF8
  · rw [if_pos h5]
    exact Or.inr (.four (by omega) (by omega))
  · rw [if_neg h5]
    exact Or.inr (by omega)

theorem announced?_eq_some {b : UInt8} {n : Nat} (h : Announces b n) : announced? b = some n := by
  have hb := announced?_spec b
  cases ha : announced? b with
  | none =>
    rw [ha] at hb
    cases h <;> omega
  | some m =>
    rw [ha] at hb
    rcases hb with hb | hb
    · cases h <;> omega
    · cases h <;> cases hb <;> first | rfl | omega

theorem announced?_encodeChar (c : Char) :
    ∃ b bs, String.utf8EncodeChar c = b :: bs ∧ announced? b = some (bs.length + 1) := by
  obtain ⟨v, hv, rfl⟩ : ∃ v : Nat, v.isValidChar ∧ c = Char.ofNat v :=
    ⟨c.toNat, c.valid, c.ofNat_toNat.symm⟩
  rw [Nat.isValidChar] at hv
  by_cases h1 : v < 0x80
  · obtain ⟨b, hb, rfl⟩ := Utf8.ofNat_of_lt (n := v) (by omega)
    exact ⟨b, [], by rw [Utf8.encodeChar_one h1, hb], if_pos h1⟩
  by_cases h2 : v < 0x800
  · obtain ⟨b, hb, hn⟩ := Utf8.ofNat_of_lt (n := v / 64 + 0xC0) (by omega)
    refine ⟨b, _, by rw [Utf8.encodeChar_two (by omega) h2, hb], ?_⟩
    exact announced?_eq_some (.two (by omega) (by omega))
  by_cases h3 : v < 0x10000
  · obtain ⟨b, hb, hn⟩ := Utf8.ofNat_of_lt (n := v / 4096 + 0xE0) (by omega)
    refine ⟨b, _, by rw [Utf8.encodeChar_three (by omega) h3 hv, hb], ?_⟩
    exact announced?_eq_some (.three (by omega) (by omega))
  · obtain ⟨b, hb, hn⟩ := Utf8.ofNat_of_lt (n := v / 262144 + 0xF0) (by omega)
    refine ⟨b, _, by rw [Utf8.encodeChar_four (by omega) (by omega), hb], ?_⟩
    exact announced?_eq_some (.four (by omega) (by omega))

/-- The symbol that the bytes begin with, or what is wrong with them, and the bytes behind it. -/
def Reply.ofBytes : List UInt8 → Reply × List UInt8
  | [] => (.endOfInput, [])
  | b :: bs =>
    match announced? b with
    | none => (.failed (.invalidUtf8 [b]), bs)
    | some n =>
      if bs.length < n - 1 then (.failed .truncated, [])
      else
        match Utf8.symbol? (b :: bs.take (n - 1)) with
        | some c => (.symbol c, bs.drop (n - 1))
        | none => (.failed (.invalidUtf8 (b :: bs.take (n - 1))), bs.drop (n - 1))

/-- No encoding of a symbol is the beginning of the bytes. -/
def Symbolless (bytes : List UInt8) : Prop := ∀ c, ¬ String.utf8EncodeChar c <+: bytes

theorem Reply.ofBytes_spec (bytes : List UInt8) :
    match Reply.ofBytes bytes with
    | (.endOfInput, rest) => bytes = [] ∧ rest = []
    | (.symbol c, rest) => bytes = String.utf8EncodeChar c ++ rest
    | (.failed e, rest) => Symbolless bytes ∧ ∃ n, Rejects bytes e.kind n ∧ rest = bytes.drop n := by
  cases bytes with
  | nil => exact ⟨rfl, rfl⟩
  | cons b bs =>
    have hb := announced?_spec b
    have hc : ∀ c, String.utf8EncodeChar c <+: b :: bs →
        ∃ bs', String.utf8EncodeChar c = b :: bs' ∧ announced? b = some (bs'.length + 1) ∧ bs' <+: bs := by
      intro c hp
      obtain ⟨b', bs', heq, ha⟩ := announced?_encodeChar c
      rw [heq, List.cons_prefix_cons] at hp
      obtain ⟨rfl, hp⟩ := hp
      exact ⟨bs', heq, ha, hp⟩
    simp only [ofBytes]
    cases ha : announced? b with
    | none =>
      rw [ha] at hb
      refine ⟨fun c hp => ?_, 1, .stray hb, rfl⟩
      obtain ⟨_, _, hs, _⟩ := hc c hp
      rw [ha] at hs
      cases hs
    | some n =>
      rw [ha] at hb hc
      dsimp only at hb ⊢
      by_cases hlt : bs.length < n - 1
      · rw [if_pos hlt]
        have hn : Announces b n := hb.resolve_left (by omega)
        refine ⟨fun c hp => ?_, _, .cut hn (by simp only [List.length_cons]; omega), by simp⟩
        obtain ⟨bs', _, hs, hp⟩ := hc c hp
        have := hp.length_le
        simp only [Option.some.injEq] at hs
        omega
      · rw [if_neg hlt]
        cases hs : Utf8.symbol? (b :: bs.take (n - 1)) with
        | some c =>
          dsimp only
          rw [← Utf8.symbol?_eq_some_iff.mp hs, List.cons_append, List.take_append_drop]
        | none =>
          -- a lone ASCII byte would have been a symbol
          have hn : Announces b n := by
            refine hb.resolve_left fun ⟨h1, h2⟩ => ?_
            rw [h1, List.take_zero, Utf8.symbol?_eq_some_iff.mpr (Utf8.encodeChar_byte h2).symm] at hs
            cases hs
          have hrej : Rejects (b :: bs) "InvalidData" n := .broken hn (by simp only [List.length_cons]; omega)
          refine ⟨fun c hp => ?_, n, hrej, ?_⟩
          · obtain ⟨bs', heq, hl, hp⟩ := hc c hp
            rw [Option.some.injEq] at hl
            rw [hl, Nat.add_sub_cancel, ← List.prefix_iff_eq_take.mp hp, ← heq,
              Utf8.symbol?_eq_some_iff.mpr rfl] at hs
            cases hs
          · rw [← Nat.sub_add_cancel hrej.bounds.1, List.drop_succ_cons, Nat.add_sub_cancel]

theorem Reply.ofBytes_encodeChar (c : Char) (bytes : List UInt8) :
    Reply.ofBytes (String.utf8EncodeChar c ++ bytes) = (.symbol c, bytes) := by
  have h := Reply.ofBytes_spec (String.utf8EncodeChar c ++ bytes)
  rcases hr : Reply.ofBytes (String.utf8EncodeChar c ++ bytes) with ⟨_ | _ | _, rest⟩ <;> rw [hr] at h
  · obtain ⟨rfl, rfl⟩ := Utf8.encodeChar_append_inj h
    rfl
  · exact absurd (List.append_eq_nil_iff.mp h.1).1 (Utf8.encodeChar_ne_nil c)
  · exact absurd (List.prefix_append _ _) (h.1 c)

/-! ## The longest text that the bytes begin with -/

theorem exists_text (bytes : List UInt8) : ∃ text rest, bytes = Utf8.encode text ++ rest ∧ Symbolless rest := by
  induction hn : bytes.length using Nat.strongRecOn generalizing bytes with
  | ind n ih =>
    have h := Reply.ofBytes_spec bytes
    rcases hr : Reply.ofBytes bytes with ⟨c | _ | _, rest⟩ <;> rw [hr] at h
    · have hlt : rest.length < n := by
        have := List.length_pos_iff.mpr (Utf8.encodeChar_ne_nil c)
        rw [← hn, h, List.length_append]
        omega
      obtain ⟨text, rest', rfl, hrest⟩ := ih _ hlt rest rfl
      exact ⟨c :: text, rest', by rw [h, Utf8.encode_cons, List.append_assoc], hrest⟩
    · refine ⟨[], [], h.1, fun c hc => ?_⟩
      exact Utf8.encodeChar_ne_nil c (List.prefix_nil.mp hc)
    · exact ⟨[], bytes, rfl, h.1⟩

theorem Symbolless.isPrefix {rest : List UInt8} (h : Symbolless rest) :
    ∀ {s t : List Char}, Utf8.encode s <+: Utf8.encode t ++ rest → s <+: t
  | [], _, _ => List.nil_prefix
  | c :: s, [], hp => by
    rw [Utf8.encode_cons] at hp
    exact absurd ((List.prefix_append _ _).trans hp) (h c)
  | c :: s, d :: t, hp => by
    obtain ⟨more, hm⟩ := hp
    rw [Utf8.encode_cons, Utf8.encode_cons, List.append_assoc, List.append_assoc] at hm
    obtain ⟨rfl, hst⟩ := Utf8.encodeChar_append_inj hm
    exact (List.prefix_cons_inj c).mpr (h.isPrefix ⟨more, hst⟩)

theorem Utf8.length_encode_le {s t : List Char} (h : s <+: t) :
    (Utf8.encode s).length ≤ (Utf8.encode t).length := by
  obtain ⟨u, rfl⟩ := h
  simp [Utf8.encode]

/-! ## Bytes spread over reads -/

/-- The read fails only to be tried again, and it is not empty. -/
def Read.Steady : Read → Prop
  | .bytes bs => bs ≠ []
  | .failed kind _ => kind = "Interrupted"

def Read.given : Read → List UInt8
  | .bytes bs => bs
  | .failed .. => []

namespace Device

def left (d : Device) : List UInt8 := d.buffer ++ d.reads.flatMap Read.given

def Steady (d : Device) : Prop := ∀ r ∈ d.reads, r.Steady

def answers (d : Device) : Nat → List Reply
  | 0 => []
  | n + 1 => d.next.1 :: d.next.2.answers n

def after (d : Device) : Nat → Device
  | 0 => d
  | n + 1 => d.next.2.after n

theorem refill_spec {reads : List Read} (h : ∀ r ∈ reads, r.Steady) :
    match reads.flatMap Read.given with
    | [] => refill reads = (.ok none, ⟨[], []⟩)
    | b :: bs => ∃ d, refill reads = (.ok (some b), d) ∧ d.Steady ∧ d.left = bs := by
  fun_induction refill reads with
  | case1 => rfl
  | case2 reads => exact absurd rfl (h _ List.mem_cons_self)
  | case3 b bs reads => exact ⟨_, rfl, fun r hr => h r (List.mem_cons_of_mem _ hr), rfl⟩
  | case4 message reads ih => exact ih fun r hr => h r (List.mem_cons_of_mem _ hr)
  | case5 kind message reads hk => exact absurd (h _ List.mem_cons_self) hk

section
variable {d : Device} (h : d.Steady)
include h

theorem byte_spec :
    match d.left with
    | [] => d.byte = (.ok none, ⟨[], []⟩)
    | b :: bs => ∃ t, d.byte = (.ok (some b), t) ∧ t.Steady ∧ t.left = bs := by
  obtain ⟨buffer, reads⟩ := d
  cases buffer with
  | nil => exact refill_spec h
  | cons b bs => exact ⟨_, rfl, h, rfl⟩

theorem take_spec (got : List UInt8) (n : Nat) :
    if d.left.length < n then ∃ t, d.take got n = (.error .truncated, t) ∧ t.Steady ∧ t.left = []
    else ∃ t, d.take got n = (.ok (got.reverse ++ d.left.take n), t) ∧ t.Steady ∧ t.left = d.left.drop n := by
  induction n generalizing got d with
  | zero => exact ⟨d, by simp [take], h, rfl⟩
  | succ n ih =>
    have hb := byte_spec h
    cases hl : d.left with
    | nil =>
      rw [hl] at hb
      rw [if_pos (by simp)]
      exact ⟨⟨[], []⟩, by rw [take, hb], by simp [Steady], rfl⟩
    | cons b bs =>
      rw [hl] at hb
      obtain ⟨t, hbyte, ht, rfl⟩ := hb
      have hn := ih ht (b :: got)
      simp only [List.length_cons, Nat.add_lt_add_iff_right, take, hbyte]
      split at hn
      · rwa [if_pos ‹_›]
      · rw [if_neg ‹_›]
        simpa using hn

theorem next_spec :
    ∃ t, d.next = ((Reply.ofBytes d.left).1, t) ∧ t.Steady ∧ t.left = (Reply.ofBytes d.left).2 := by
  have hb := byte_spec h
  cases hl : d.left with
  | nil =>
    rw [hl] at hb
    exact ⟨⟨[], []⟩, by rw [next, hb]; rfl, by simp [Steady], rfl⟩
  | cons b bs =>
    rw [hl] at hb
    obtain ⟨t, hbyte, ht, rfl⟩ := hb
    simp only [next, hbyte, symbol, Reply.ofBytes]
    cases announced? b with
    | none => exact ⟨t, rfl, ht, rfl⟩
    | some n =>
      have hn := take_spec ht [b] (n - 1)
      dsimp only
      split at hn
      · obtain ⟨u, htake, hu, hleft⟩ := hn
        rw [if_pos ‹_›, htake]
        exact ⟨u, rfl, hu, hleft⟩
      · obtain ⟨u, htake, hu, hleft⟩ := hn
        rw [if_neg ‹_›, htake, List.reverse_singleton, List.singleton_append]
        dsimp only
        cases Utf8.symbol? (b :: t.left.take (n - 1)) with
        | none => exact ⟨u, rfl, hu, hleft⟩
        | some c => exact ⟨u, rfl, hu, hleft⟩

theorem steady_after (n : Nat) : (d.after n).Steady := by
  induction n generalizing d with
  | zero => exact h
  | succ n ih =>
    obtain ⟨t, hn, ht, _⟩ := next_spec h
    rw [after, hn]
    exact ih ht

end

theorem answers_congr {d e : Device} (hd : d.Steady) (he : e.Steady) (h : d.left = e.left) (n : Nat) :
    d.answers n = e.answers n := by
  induction n generalizing d e with
  | zero => rfl
  | succ n ih =>
    obtain ⟨t, hdn, ht, htl⟩ := next_spec hd
    obtain ⟨u, hen, hu, hul⟩ := next_spec he
    rw [answers, answers, hdn, hen, h, ih ht hu (by rw [htl, hul, h])]

theorem after_snoc (d : Device) (n : Nat) : d.after (n + 1) = (d.after n).next.2 := by
  induction n generalizing d with
  | zero => rfl
  | succ n ih => rw [after, ih, after]

theorem answers_add (d : Device) (m n : Nat) : d.answers (m + n) = d.answers m ++ (d.after m).answers n := by
  induction m generalizing d with
  | zero => rw [Nat.zero_add]; rfl
  | succ m ih => rw [Nat.add_right_comm, answers, answers, ih, after, List.cons_append]

section
variable {d : Device} (h : d.Steady)
include h

theorem answers_of_left_nil (hl : d.left = []) (n : Nat) : d.answers n = List.replicate n .endOfInput := by
  induction n generalizing d with
  | zero => rfl
  | succ n ih =>
    obtain ⟨t, hn, ht, htl⟩ := next_spec h
    rw [hl] at hn htl
    rw [answers, hn, ih ht htl]
    rfl

theorem answers_encode {text : List Char} {rest : List UInt8} (hl : d.left = Utf8.encode text ++ rest) :
    d.answers text.length = text.map .symbol ∧ (d.after text.length).left = rest := by
  induction text generalizing d with
  | nil => exact ⟨rfl, hl⟩
  | cons c text ih =>
    obtain ⟨t, hn, ht, htl⟩ := next_spec h
    rw [hl, Utf8.encode_cons, List.append_assoc, Reply.ofBytes_encodeChar] at hn htl
    obtain ⟨ha, hleft⟩ := ih ht htl
    rw [List.length_cons, answers, after, hn, ha]
    exact ⟨rfl, hleft⟩

/-- **Malformed bytes are found where they stand,** behind the symbols of the longest text that the
bytes begin with. Nothing is a symbol but its own encoding, and only the end uses up no byte. -/
theorem symbols_then_failure :
    ∃ text rest, d.left = Utf8.encode text ++ rest ∧
      (∀ text', Utf8.encode text' <+: d.left → (Utf8.encode text').length ≤ (Utf8.encode text).length) ∧
      d.answers text.length = text.map .symbol ∧ (d.after text.length).left = rest ∧
      (rest = [] → ∀ n, d.answers (text.length + n) = text.map .symbol ++ List.replicate n .endOfInput) ∧
      (rest ≠ [] → ∃ e n, d.answers (text.length + 1) = text.map .symbol ++ [.failed e] ∧
        Rejects rest e.kind n ∧ (d.after (text.length + 1)).left = rest.drop n) ∧
      ∀ k, match (d.after k).next.1 with
        | .endOfInput => (d.after k).left = []
        | .symbol c => (d.after k).left = String.utf8EncodeChar c ++ (d.after (k + 1)).left
        | .failed _ => (d.after (k + 1)).left.length < (d.after k).left.length := by
  obtain ⟨text, rest, hl, hrest⟩ := exists_text d.left
  obtain ⟨ha, hafter⟩ := answers_encode h hl
  refine ⟨text, rest, hl, fun text' hp => ?_, ha, hafter, fun hnil n => ?_, fun hne => ?_, fun k => ?_⟩
  · rw [hl] at hp
    exact Utf8.length_encode_le (hrest.isPrefix hp)
  · rw [answers_add, ha, answers_of_left_nil (steady_after h _) (hafter.trans hnil)]
  · obtain ⟨t, hn, _, htl⟩ := next_spec (steady_after h text.length)
    rw [hafter] at hn htl
    have hb := Reply.ofBytes_spec rest
    rcases hr : Reply.ofBytes rest with ⟨c | _ | e, rest'⟩ <;> rw [hr] at hb hn htl
    · exact absurd (hb ▸ List.prefix_append _ _) (hrest c)
    · exact absurd hb.1 hne
    · obtain ⟨_, n, hrej, rfl⟩ := hb
      exact ⟨e, n, by rw [answers_add, ha, answers, hn]; rfl, hrej, by rw [after_snoc, hn, htl]⟩
  · obtain ⟨t, hn, _, htl⟩ := next_spec (steady_after h k)
    have hb := Reply.ofBytes_spec (d.after k).left
    rw [after_snoc, hn, htl]
    rcases hr : Reply.ofBytes (d.after k).left with ⟨c | _ | e, rest'⟩ <;> rw [hr] at hb
    · exact hb
    · exact hb.1
    · obtain ⟨_, n, hrej, rfl⟩ := hb
      have := hrej.bounds
      simp only [List.length_drop]
      omega

end

def surrogate : Device :=
  ⟨[], [.bytes [0xCE], .failed "Interrupted" "", .bytes [0xBB, 0xED], .bytes [0xA0, 0x80, 0x61]]⟩

theorem symbols_then_failure_surrogate :
    surrogate.Steady ∧ surrogate.left = Utf8.encode ['λ'] ++ [0xED, 0xA0, 0x80, 0x61] ∧
      surrogate.answers 4 = [.symbol 'λ', .failed (.invalidUtf8 [0xED, 0xA0, 0x80]), .symbol 'a', .endOfInput] ∧
      ∃ text rest, surrogate.left = Utf8.encode text ++ rest ∧
        (∀ text', Utf8.encode text' <+: surrogate.left →
          (Utf8.encode text').length ≤ (Utf8.encode text).length) ∧
        surrogate.answers text.length = text.map .symbol ∧ (surrogate.after text.length).left = rest ∧
        (rest = [] → ∀ n,
          surrogate.answers (text.length + n) = text.map .symbol ++ List.replicate n .endOfInput) ∧
        (rest ≠ [] → ∃ e n, surrogate.answers (text.length + 1) = text.map .symbol ++ [.failed e] ∧
          Rejects rest e.kind n ∧ (surrogate.after (text.length + 1)).left = rest.drop n) ∧
        ∀ k, match (surrogate.after k).next.1 with
          | .endOfInput => (surrogate.after k).left = []
          | .symbol c => (surrogate.after k).left = String.utf8EncodeChar c ++ (surrogate.after (k + 1)).left
          | .failed _ => (surrogate.after (k + 1)).left.length < (surrogate.after k).left.length := by
  have h : surrogate.Steady := by simp [surrogate, Steady, Read.Steady]
  exact ⟨h, by decide +kernel, by decide +kernel, symbols_then_failure h⟩

end Device

end Munch
