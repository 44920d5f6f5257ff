import Munch.Proofs.QuotedStrings

/-!
# Tokens of graphs

`Token.lex` cuts the text of a graph into tokens, as a reader of graphs does before all else.
Tokens that were written are found again just if they are sound.
-/

namespace Munch

/-- A quoted string, a text between angle brackets, or any other symbol. -/
inductive Token
  | plain (c : Char)
  | string (body : List Char)
  | html (body : List Char)
  deriving DecidableEq

namespace Token

def text : Token → List Char
  | plain c => [c]
  | string body => '"' :: body ++ ['"']
  | html body => '<' :: body ++ ['>']

/-! ## Reading -/

/-- Inside of what a reader is. What it has got of it comes newest first. -/
inductive Inside
  | nothing
  | string (escaped : Bool) (got : List Char)
  | html (opened : Nat) (got : List Char)

/-- How many angle brackets are open behind `c`, or `none` if it closes none that was open. -/
def nests (opened : Nat) (c : Char) : Option Nat :=
  if c = '>' then if opened = 0 then none else some (opened - 1)
  else some (if c = '<' then opened + 1 else opened)

theorem nests_eq_none {opened : Nat} {c : Char} : nests opened c = none ↔ c = '>' ∧ opened = 0 := by
  unfold nests
  split
  · split <;> simp [*]
  · simp [*]

/-- The tokens of a text without comments. -/
def lex : Inside → List Char → Option (List Token)
  | .nothing, [] => some []
  | .nothing, c :: cs =>
    if c = '"' then lex (.string false []) cs
    else if c = '<' then lex (.html 0 []) cs
    else if c = '/' ∨ c = '#' then none
    else (lex .nothing cs).map (plain c :: ·)
  | .string _ _, [] => none
  | .string escaped got, c :: cs =>
    match escapes escaped c with
    | none => (lex .nothing cs).map (string got.reverse :: ·)
    | some escaped => lex (.string escaped (c :: got)) cs
  | .html _ _, [] => none
  | .html opened got, c :: cs =>
    match nests opened c with
    | none => (lex .nothing cs).map (html got.reverse :: ·)
    | some opened => lex (.html opened (c :: got)) cs

def Outside (c : Char) : Prop := c ≠ '"' ∧ c ≠ '<' ∧ c ≠ '/' ∧ c ≠ '#'

instance (c : Char) : Decidable (Outside c) := inferInstanceAs (Decidable (_ ∧ _))

def Sound : Token → Prop
  | plain c => Outside c
  | string body => WellQuoted body
  | html body => Neutral nests 0 body

theorem lex_string {escaped : Bool} {body : List Char} (h : body.foldlM escapes escaped = some false)
    (got rest : List Char) :
    lex (.string escaped got) (body ++ '"' :: rest) =
      (lex .nothing rest).map (string (got.reverse ++ body) :: ·) := by
  induction body generalizing escaped got with
  | nil =>
    cases h
    rw [List.nil_append, List.append_nil, lex, escapes_eq_none.mpr ⟨rfl, rfl⟩]
  | cons c body ih =>
    obtain ⟨e, hc, hbody⟩ := Option.bind_eq_some_iff.mp h
    rw [List.cons_append, lex, hc]
    dsimp only
    rw [ih hbody, List.reverse_cons, List.append_assoc, List.singleton_append]

theorem lex_html {opened : Nat} {body : List Char} (h : body.foldlM nests opened = some 0) (got rest : List Char) :
    lex (.html opened got) (body ++ '>' :: rest) =
      (lex .nothing rest).map (html (got.reverse ++ body) :: ·) := by
  induction body generalizing opened got with
  | nil =>
    cases h
    rw [List.nil_append, List.append_nil, lex, nests_eq_none.mpr ⟨rfl, rfl⟩]
  | cons c body ih =>
    obtain ⟨n, hc, hbody⟩ := Option.bind_eq_some_iff.mp h
    rw [List.cons_append, lex, hc]
    dsimp only
    rw [ih hbody, List.reverse_cons, List.append_assoc, List.singleton_append]

theorem lex_text {tokens : List Token} (h : ∀ t ∈ tokens, t.Sound) :
    lex .nothing (tokens.flatMap text) = some tokens := by
  induction tokens with
  | nil => rfl
  | cons t tokens ih =>
    have hrest := ih fun u hu => h u (List.mem_cons_of_mem t hu)
    have ht := h t List.mem_cons_self
    rw [List.flatMap_cons]
    cases t with
    | plain c =>
      obtain ⟨h1, h2, h3, h4⟩ := ht
      simp [text, lex, h1, h2, h3, h4, hrest]
    | string body =>
      have hs := lex_string ((wellQuoted_iff body).mp ht) [] (tokens.flatMap text)
      simp [text, lex, hs, hrest]
    | html body =>
      have hs := lex_html ht [] (tokens.flatMap text)
      simp [text, lex, hs, hrest]

/-- What a reader has got so far may be the beginning of a sound token. -/
def Inside.Fits : Inside → Prop
  | nothing => True
  | string escaped got => got.reverse.foldlM escapes false = some escaped
  | html opened got => got.reverse.foldlM nests 0 = some opened

theorem sound_of_lex {inside : Inside} {text : List Char} {tokens : List Token} (hi : inside.Fits)
    (h : lex inside text = some tokens) : ∀ t ∈ tokens, t.Sound := by
  fun_induction lex inside text generalizing tokens with
  | case1 =>
    cases h
    exact fun t ht => nomatch ht
  | case2 cs ih => exact ih rfl h
  | case3 cs _ ih => exact ih rfl h
  | case4 => cases h
  | case5 c cs h1 h2 h3 ih =>
    obtain ⟨rest, hrest, rfl⟩ := Option.map_eq_some_iff.mp h
    rw [not_or] at h3
    exact List.forall_mem_cons.mpr ⟨⟨h1, h2, h3⟩, ih trivial hrest⟩
  | case6 => cases h
  | case7 escaped got c cs hc ih =>
    obtain ⟨rest, hrest, rfl⟩ := Option.map_eq_some_iff.mp h
    refine List.forall_mem_cons.mpr ⟨(wellQuoted_iff _).mpr ?_, ih trivial hrest⟩
    rwa [Inside.Fits, (escapes_eq_none.mp hc).2] at hi
  | case8 escaped got c cs e hc ih =>
    refine ih ?_ h
    rw [Inside.Fits, List.reverse_cons, List.foldlM_append, hi]
    simpa using hc
  | case9 => cases h
  | case10 opened got c cs hc ih =>
    obtain ⟨rest, hrest, rfl⟩ := Option.map_eq_some_iff.mp h
    refine List.forall_mem_cons.mpr ⟨?_, ih trivial hrest⟩
    rwa [Inside.Fits, (nests_eq_none.mp hc).2] at hi
  | case11 opened got c cs n hc ih =>
    refine ih ?_ h
    rw [Inside.Fits, List.reverse_cons, List.foldlM_append, hi]
    simpa using hc

theorem lex_text_iff (tokens : List Token) :
    lex .nothing (tokens.flatMap text) = some tokens ↔ ∀ t ∈ tokens, t.Sound :=
  ⟨sound_of_lex trivial, lex_text⟩

def plains (symbols : List Char) : List Token := symbols.map plain

theorem text_plains (symbols : List Char) : (plains symbols).flatMap text = symbols := by
  induction symbols with
  | nil => rfl
  | cons c symbols ih => exact congrArg (c :: ·) ih

theorem sound_plains {symbols : List Char} (h : ∀ c ∈ symbols, Outside c) :
    ∀ t ∈ plains symbols, t.Sound := by
  intro t ht
  obtain ⟨c, hc, rfl⟩ := List.mem_map.mp ht
  exact h c hc

end Token

end Munch
