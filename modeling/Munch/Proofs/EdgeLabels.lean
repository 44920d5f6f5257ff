import Munch.Proofs.Numerals
import Munch.Proofs.QuotedStrings

/-!
# Labels of edges

A symbol is read back from the way it is quoted, whatever stands behind it. So the label of an
edge tells its range: it is taken out of its string first, and then read symbol by symbol.
-/

namespace Munch

namespace Text

def unescape? : List Char → Option (Char × List Char)
  | [] => none
  | ['\\'] => none
  | '\\' :: d :: r =>
    if d = '0' then some ('\x00', r)
    else if d = 't' then some ('\t', r)
    else if d = 'r' then some ('\r', r)
    else if d = 'n' then some ('\n', r)
    else if d = 'u' then
      let ds := (r.drop 1).takeWhile (· != '\x7d')
      some (Char.ofNat (Toml.natOf 16 ds), r.drop (ds.length + 2))
    else some (d, r)
  | c :: r => some (c, r)

theorem unescape?_plain {c : Char} (h : c ≠ '\\') (rest : List Char) : unescape? (c :: rest) = some (c, rest) := by
  simp [unescape?, h]

theorem unescape?_codePoint (c : Char) (rest : List Char) : unescape? (codePoint c ++ rest) = some (c, rest) := by
  have hdigit : ∀ d < 16, (d.digitChar != '\x7d') = true := by decide
  have hdigits := forall_mem_toDigits (P := fun d => (d != '\x7d') = true) (by decide) hdigit c.toNat
  have htake : (Nat.toDigits 16 c.toNat ++ '\x7d' :: rest).takeWhile (· != '\x7d') = Nat.toDigits 16 c.toNat := by
    simp [List.takeWhile_append_of_pos hdigits]
  simp [codePoint, unescape?, htake, natOf_toDigits]

theorem unescape?_escape {quotes : List Char} (hquotes : ∀ d ∈ quotes, d = '"' ∨ d = '\x27') (c : Char)
    (rest : List Char) : unescape? (escape quotes c ++ rest) = some (c, rest) := by
  unfold escape
  split
  · subst c
    rfl
  split
  · subst c
    rfl
  split
  · subst c
    rfl
  split
  · subst c
    rfl
  split
  · rename_i h
    rcases h with rfl | hc
    · rfl
    · rcases hquotes c hc with rfl | rfl
      · rfl
      · rfl
  · rename_i h
    split
    · exact unescape?_codePoint c rest
    · exact unescape?_plain (fun hc => h (Or.inl hc)) rest

end Text

/-- The body of a string without the backslashes that a reader of strings takes out. -/
def unquote : List Char → List Char
  | [] => []
  | ['\\'] => []
  | '\\' :: c :: r => c :: unquote r
  | c :: r => c :: unquote r

theorem unquote_flatMap (text rest : List Char) :
    unquote (text.flatMap (fun d => if d = '\\' ∨ d = '"' then ['\\', d] else [d]) ++ rest) = text ++ unquote rest := by
  induction text with
  | nil => rfl
  | cons d text ih =>
    rw [List.flatMap_cons, List.append_assoc]
    split
    · exact congrArg (d :: ·) ih
    · rename_i hd
      rw [not_or] at hd
      simp [unquote, hd.1, ih]

theorem unquote_symbolLabel (c : Char) (rest : List Char) :
    unquote (symbolLabel c ++ rest) = Text.escape ['"', '\x27'] c ++ unquote rest :=
  unquote_flatMap _ rest

namespace Edge

theorem unquote_label (e : Edge) :
    unquote e.label =
      if e.lo = e.hi then Text.escape ['"', '\x27'] e.lo
      else Text.escape ['"', '\x27'] e.lo ++ '-' :: Text.escape ['"', '\x27'] e.hi := by
  have hone := fun c => unquote_symbolLabel c []
  simp only [List.append_nil] at hone
  unfold label
  split
  · rw [hone, unquote, List.append_nil]
  · simp [unquote_symbolLabel, unquote, hone]

/-- The range that a label stands for. -/
def readLabel? (label : List Char) : Option (Char × Char) :=
  match Text.unescape? (unquote label) with
  | some (lo, []) => some (lo, lo)
  | some (lo, '-' :: r) => (Text.unescape? r).map fun p => (lo, p.1)
  | _ => none

theorem readLabel?_label (e : Edge) : readLabel? e.label = some (e.lo, e.hi) := by
  have hread : ∀ c rest, Text.unescape? (Text.escape ['"', '\x27'] c ++ rest) = some (c, rest) :=
    Text.unescape?_escape (by simp)
  have hlast := fun c => hread c []
  simp only [List.append_nil] at hlast
  rw [readLabel?, unquote_label]
  by_cases h : e.lo = e.hi
  · simp [h, hlast]
  · simp [h, hread, hlast]

/-- **Labels of edges.** A label is well quoted, and two edges have the same label just if they
have the same range. -/
theorem label_unambiguous (e f : Edge) :
    WellQuoted e.label ∧ (e.label = f.label ↔ e.lo = f.lo ∧ e.hi = f.hi) := by
  refine ⟨wellQuoted_label e, ?_, ?_⟩
  · intro h
    have hread := readLabel?_label f
    rw [← h, readLabel?_label] at hread
    simpa using hread
  · rintro ⟨hlo, hhi⟩
    simp [label, hlo, hhi]

end Edge

end Munch
