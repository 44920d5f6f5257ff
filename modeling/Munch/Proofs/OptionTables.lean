import Munch.Description.Read
import Munch.Proofs.Scalars

/-!
# Options as they are written

A line of a table gives a bare key and the text of a value. The lines of one table are read back
in their order, and so are the three that options write for the body of an options table.
-/

namespace Munch

namespace Toml

/-! ## Keys -/

def Unquoted (k : Key) : Prop := k.toList ≠ [] ∧ k.toList.all isBare = true

instance (k : Key) : Decidable (Unquoted k) := inferInstanceAs (Decidable (_ ∧ _))

theorem ne_of_isBare {c d : Char} (hc : isBare c = true) (hd : isBare d = false) : c ≠ d := by
  intro h
  simp [← h, hc] at hd

theorem isBlank_of_isBare {c : Char} (h : isBare c = true) : isBlank c = false := by
  simp [isBlank, ne_of_isBare h (d := ' ') (by decide), ne_of_isBare h (d := '\t') (by decide)]

theorem Unquoted.bare {k : Key} (hk : Unquoted k) : ∀ c ∈ k.toList, isBare c = true :=
  List.all_eq_true.mp hk.2

theorem Unquoted.exists_cons {k : Key} (hk : Unquoted k) : ∃ c cs, k.toList = c :: cs ∧ isBare c = true := by
  obtain ⟨c, cs, heq⟩ := List.exists_cons_of_ne_nil hk.1
  exact ⟨c, cs, heq, hk.bare c (by simp [heq])⟩

theorem Unquoted.skipBlanks {k : Key} (hk : Unquoted k) (r : List Char) :
    skipBlanks (k.toList ++ r) = k.toList ++ r := by
  obtain ⟨c, cs, heq, hc⟩ := hk.exists_cons
  simp [heq, Toml.skipBlanks, isBlank_of_isBare hc]

section
variable {k : Key} (hk : Unquoted k) {c : Char} (hc : isBare c = false) (r : List Char)
include hk hc

theorem simpleKey?_unquoted : simpleKey? (k.toList ++ c :: r) = some (k, c :: r) := by
  have htake : (k.toList ++ c :: r).takeWhile isBare = k.toList := by
    simp [List.takeWhile_append_of_pos hk.bare, hc]
  have hdrop : (k.toList ++ c :: r).dropWhile isBare = c :: r := by
    simp [List.dropWhile_append_of_pos hk.bare, hc]
  obtain ⟨d, ds, heq, hd⟩ := hk.exists_cons
  unfold simpleKey?
  split
  · rename_i h
    rw [heq, List.cons_append, List.cons.injEq] at h
    exact absurd h.1 (ne_of_isBare hd (by decide))
  · rename_i h
    rw [heq, List.cons_append, List.cons.injEq] at h
    exact absurd h.1 (ne_of_isBare hd (by decide))
  · simp [htake, hdrop, hk.1]

theorem key?_unquoted (hdot : (skipBlanks (c :: r)).head? ≠ some '.') (n : Nat) :
    key? (n + 1) (k.toList ++ c :: r) = some ([k], skipBlanks (c :: r)) := by
  rw [key?, hk.skipBlanks, simpleKey?_unquoted hk hc]
  simp only [Option.bind_eq_bind, Option.bind_some]
  split
  · rename_i h
    simp [h] at hdot
  · rfl

end

/-! ## Lines -/

theorem lineEnd?_newline (rest : List Char) : lineEnd? ('\n' :: rest) = some rest := by
  simp [lineEnd?, skipBlanks, isBlank, newline?]

theorem Entries.set_eq_append {es : Entries} {k : Key} {v : Node} (h : es.lookup k = none) :
    es.set k v = es ++ [(k, v)] := by
  induction es with
  | nil => rfl
  | cons e es ih =>
    obtain ⟨l, w⟩ := e
    rw [List.lookup_cons] at h
    split at h
    · contradiction
    · rename_i hne
      have hl : l ≠ k := by
        intro hl
        simp [hl] at hne
      simp [Entries.set, hl, ih h]

/-- A line with the text of a value. -/
structure Row where
  key : Key
  text : List Char
  value : Node

namespace Row

def line (r : Row) : List Char := writeLine r.key r.text

def entry (r : Row) : Key × Node := (r.key, r.value)

structure Legible (r : Row) : Prop where
  key : Unquoted r.key
  value : ∀ depth rest, value? depth (skipBlanks (r.text ++ '\n' :: rest)) = some (r.value, '\n' :: rest)

section
variable {r : Row} (hr : r.Legible) (rest : List Char)
include hr

theorem pair?_line (depth : Nat) : pair? (value? depth) (r.line ++ rest) = some (([r.key], r.value), '\n' :: rest) := by
  have hline : r.line ++ rest = r.key.toList ++ ' ' :: '=' :: ' ' :: (r.text ++ '\n' :: rest) := by
    simp [line, writeLine]
  have hkey : key? (limit - 1) (r.key.toList ++ ' ' :: '=' :: ' ' :: (r.text ++ '\n' :: rest)) =
      some ([r.key], '=' :: ' ' :: (r.text ++ '\n' :: rest)) :=
    key?_unquoted hr.key rfl _ (by simp [skipBlanks, isBlank]) _
  have hblank : skipBlanks (' ' :: (r.text ++ '\n' :: rest)) = skipBlanks (r.text ++ '\n' :: rest) := by
    simp [skipBlanks, isBlank]
  simp [hline, pair?, hkey, word?, hblank, hr.value]

theorem line_ne_cons {c : Char} (hc : isBare c = false) (cs : List Char) : r.line ++ rest ≠ c :: cs := by
  intro h
  obtain ⟨d, ds, heq, hd⟩ := hr.key.exists_cons
  simp only [line, writeLine, heq, List.cons_append, List.cons.injEq] at h
  exact ne_of_isBare hd hc h.1

theorem line?_line {h : Key} {es : Entries} (hfresh : es.lookup r.key = none) :
    line? ⟨[(h, .table .header es)], [h]⟩ (r.line ++ rest) =
      some (⟨[(h, .table .header (es ++ [r.entry]))], [h]⟩, rest) := by
  have hadd : addPair ([r.key], r.value) .header es = some (es ++ [r.entry]) := by
    simp [addPair, Entries.add, Entries.alter, hfresh, Entries.set_eq_append hfresh, entry]
  have hroot : Entries.alter .implied (addPair ([r.key], r.value)) [h] .header [(h, .table .header es)] =
      some [(h, .table .header (es ++ [r.entry]))] := by
    simp [Entries.alter, Entries.set, hadd]
  unfold line?
  split
  · rename_i heq
    exact absurd heq (line_ne_cons hr rest (by decide) _)
  · rename_i heq
    exact absurd heq (line_ne_cons hr rest (by decide) _)
  · simp [pair?_line hr, hroot, lineEnd?_newline]

end

end Row

theorem lines?_cons {c : Char} (hblank : isBlank c = false) (hc : c ≠ '#' ∧ c ≠ '\n' ∧ c ≠ '\r') (fuel : Nat)
    (d : Draft) (cs : List Char) :
    lines? (fuel + 1) d (c :: cs) = (line? d (c :: cs)).bind fun p => lines? fuel p.1 p.2 := by
  have hskip : skipBlanks (c :: cs) = c :: cs := by
    simp [skipBlanks, hblank]
  simp [lines?, hskip, hc]

theorem lines?_line {r : Row} (hr : r.Legible) {h : Key} {es : Entries} (hfresh : es.lookup r.key = none)
    (fuel : Nat) (rest : List Char) :
    lines? (fuel + 1) ⟨[(h, .table .header es)], [h]⟩ (r.line ++ rest) =
      lines? fuel ⟨[(h, .table .header (es ++ [r.entry]))], [h]⟩ rest := by
  have hline := Row.line?_line hr rest (h := h) hfresh
  obtain ⟨c, cs, heq, hc⟩ := hr.key.exists_cons
  have hcons : r.line ++ rest = c :: (cs ++ " = ".toList ++ r.text ++ ['\n'] ++ rest) := by
    simp [Row.line, writeLine, heq]
  have hstart : c ≠ '#' ∧ c ≠ '\n' ∧ c ≠ '\r' :=
    ⟨ne_of_isBare hc (by decide), ne_of_isBare hc (by decide), ne_of_isBare hc (by decide)⟩
  rw [hcons] at hline ⊢
  rw [lines?_cons (isBlank_of_isBare hc) hstart, hline, Option.bind_some]

theorem lines?_rows {h : Key} {rows : List Row} (hrows : ∀ r ∈ rows, r.Legible) {es : Entries}
    (hkeys : (es.map Prod.fst ++ rows.map Row.key).Nodup) {fuel : Nat} (hfuel : rows.length < fuel) :
    lines? fuel ⟨[(h, .table .header es)], [h]⟩ (rows.flatMap Row.line) =
      some [(h, .table .header (es ++ rows.map Row.entry))] := by
  induction rows generalizing es fuel with
  | nil =>
    obtain ⟨fuel, rfl⟩ := Nat.exists_eq_add_of_lt hfuel
    simp [lines?, skipBlanks]
  | cons r rows ih =>
    obtain ⟨fuel, rfl⟩ : ∃ n, fuel = n + 1 := ⟨fuel - 1, by omega⟩
    have hfresh : es.lookup r.key = none := by
      rw [List.lookup_eq_none_iff]
      intro e he
      have hne := (List.nodup_append.mp hkeys).2.2 e.1 (List.mem_map_of_mem he) r.key (by simp)
      simpa using hne.symm
    have hrest : ((es ++ [r.entry]).map Prod.fst ++ rows.map Row.key).Nodup := by
      simpa [Row.entry] using hkeys
    rw [List.flatMap_cons, lines?_line (hrows r (by simp)) hfresh,
      ih (fun s hs => hrows s (by simp [hs])) hrest (Nat.lt_of_succ_lt_succ hfuel)]
    simp

def headerLine (h : Key) : List Char := '[' :: h.toList ++ [']', '\n']

theorem line?_headerLine {h : Key} (hh : Unquoted h) (rest : List Char) :
    line? ⟨[], []⟩ (headerLine h ++ rest) = some (⟨[(h, .table .header [])], [h]⟩, rest) := by
  have hkey : key? (limit - 1) (h.toList ++ ']' :: '\n' :: rest) = some ([h], ']' :: '\n' :: rest) :=
    key?_unquoted hh rfl _ (by simp [skipBlanks, isBlank]) _
  have hheader : header? [']'] (h.toList ++ ']' :: '\n' :: rest) = some ([h], rest) := by
    simp [header?, hkey, word?, lineEnd?_newline]
  have hline : headerLine h ++ rest = '[' :: (h.toList ++ ']' :: '\n' :: rest) := by
    simp [headerLine]
  rw [hline]
  unfold line?
  split
  · rename_i heq
    obtain ⟨c, cs, hcons, hc⟩ := hh.exists_cons
    simp only [hcons, List.cons_append, List.cons.injEq, true_and] at heq
    exact absurd heq.1 (ne_of_isBare hc (by decide))
  · rename_i heq
    rw [List.cons.injEq] at heq
    simp [← heq.2, hheader, Entries.openTable, Entries.alter, Entries.set]
  · rename_i hne
    exact absurd rfl (hne _)

theorem lines?_headerLine {h : Key} (hh : Unquoted h) (fuel : Nat) (rest : List Char) :
    lines? (fuel + 1) ⟨[], []⟩ (headerLine h ++ rest) = lines? fuel ⟨[(h, .table .header [])], [h]⟩ rest := by
  have hstep : lines? (fuel + 1) ⟨[], []⟩ (headerLine h ++ rest) =
      (line? ⟨[], []⟩ (headerLine h ++ rest)).bind fun p => lines? fuel p.1 p.2 :=
    lines?_cons rfl (by decide) fuel _ _
  rw [hstep, line?_headerLine hh, Option.bind_some]

theorem length_le_lines (rows : List Row) : rows.length ≤ (rows.flatMap Row.line).length := by
  induction rows with
  | nil => simp
  | cons r rows ih =>
    have hpos : 0 < r.line.length := by
      simp only [Row.line, writeLine, List.length_append, List.length_cons]
      omega
    rw [List.flatMap_cons, List.length_append, List.length_cons]
    omega

/-- A document of one table stands for its entries, if no two of them have one key. -/
theorem document?_table {h : Key} (hh : Unquoted h) {rows : List Row} (hrows : ∀ r ∈ rows, r.Legible)
    (hkeys : (rows.map Row.key).Nodup) :
    document? (headerLine h ++ rows.flatMap Row.line) = some [(h, .table .header (rows.map Row.entry))] := by
  have hfuel : rows.length < (headerLine h ++ rows.flatMap Row.line).length := by
    have hlength := length_le_lines rows
    simp only [headerLine, List.length_append, List.length_cons]
    omega
  -- No byte order mark stands in front of a bracket.
  have hdocument : document? (headerLine h ++ rows.flatMap Row.line) =
      lines? ((headerLine h ++ rows.flatMap Row.line).length + 1) ⟨[], []⟩ (headerLine h ++ rows.flatMap Row.line) := rfl
  rw [hdocument, lines?_headerLine hh]
  have hnone : (([] : Entries).map Prod.fst ++ rows.map Row.key).Nodup := hkeys
  exact lines?_rows hrows hnone hfuel

end Toml

namespace Options

open Toml

def rows (o : Options) : List Row :=
  [⟨"line_terminator", writeSymbol o.terminator, .string [o.terminator]⟩,
    ⟨"strict", writeFlag o.strict, .boolean o.strict⟩,
    ⟨"max_depth", Text.decimal o.maxDepth, .integer o.maxDepth⟩]

theorem write?_eq (o : Options) :
    o.write? = if o.maxDepth < integerBound then some (o.rows.flatMap Row.line) else none := by
  by_cases h : o.maxDepth < integerBound <;> simp [write?, writeNatural?, rows, Row.line, h]

theorem legible_rows {o : Options} (h : o.maxDepth < integerBound) : ∀ r ∈ o.rows, r.Legible := by
  have hkeys : Unquoted "line_terminator" ∧ Unquoted "strict" ∧ Unquoted "max_depth" := by decide
  simp only [rows, List.forall_mem_cons]
  refine ⟨⟨hkeys.1, ?_⟩, ⟨hkeys.2.1, ?_⟩, ⟨hkeys.2.2, ?_⟩, by simp⟩
  · exact fun depth rest => value?_of_scalar? (scalar?_writeSymbol o.terminator rest) depth
  · exact fun depth rest => value?_of_scalar? (scalar?_writeFlag o.strict rest) depth
  · exact fun depth rest => value?_of_scalar? (scalar?_decimal rest h) depth

theorem ofEntries?_rows (o : Options) :
    Description.ofEntries? [("options", .table .header (o.rows.map Row.entry))] = some ⟨o, []⟩ := by
  simp [Description.ofEntries?, Description.entry?, Description.options?, rows, Row.entry, Description.option?,
    Description.symbol?, Description.boolean?, Description.natural?]

/-- **Options survive being written.** They have a text just if the depth fits an integer, and below
the header of an options table that text describes these options and no rules. -/
theorem read_write (o : Options) :
    (o.write?.isSome ↔ o.maxDepth ≤ Nat.pow 2 63 - 1) ∧
    ∀ text, o.write? = some text → Description.ofToml? ("[options]\n".toList ++ text) = some ⟨o, []⟩ := by
  rw [write?_eq]
  by_cases h : o.maxDepth < integerBound
  · have hdocument : document? ("[options]\n".toList ++ o.rows.flatMap Row.line) =
        some [("options", .table .header (o.rows.map Row.entry))] := by
      have hheader : "[options]\n".toList = headerLine "options" := by decide
      rw [hheader]
      exact document?_table (by decide) (legible_rows h) (by simp [rows])
    rw [if_pos h]
    refine ⟨iff_of_true rfl (Nat.le_sub_one_of_lt h), ?_⟩
    intro text htext
    cases htext
    rw [Description.ofToml?, hdocument]
    exact ofEntries?_rows o
  · rw [if_neg h]
    refine ⟨iff_of_false (by simp) ?_, by simp⟩
    intro hle
    exact h (Nat.lt_of_le_sub_one (by decide) hle)

end Options

end Munch
