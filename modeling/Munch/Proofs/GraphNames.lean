import Munch.Proofs.Tokens

/-!
# Names in graphs

The text of a graph, token by token. All its tokens are sound but for the names of rules, which
are written between quotes as they are.
-/

namespace Munch

/-! ## The tokens of a graph -/

mutual
def Statement.tokens (depth : Nat) : Statement → List Token
  | .legend path table =>
    Token.plains (indent depth ++ legendName path ++ " [shape=none, label=".toList) ++ [.html table] ++
      Token.plains "];\n".toList
  | .state path q accepting =>
    Token.plains (indent depth ++ stateName path q ++ " [label=".toList) ++ [.string (Text.decimal q)] ++
      Token.plains (", shape=".toList ++ (if accepting then "doublecircle" else "circle").toList ++ "];\n".toList)
  | .edge path source target label dashed =>
    Token.plains (indent depth ++ stateName path source ++ " -> ".toList ++ stateName path target ++
      " [label=".toList) ++ [.string label] ++
      Token.plains ((if dashed then ", style=dashed" else "").toList ++ "];\n".toList)
  | .cluster number label body =>
    Token.plains (indent depth ++ "subgraph cluster_".toList ++ Text.decimal number ++ " \x7b\n".toList ++
      indent (depth + 1) ++ "label=".toList) ++ [.string label] ++ Token.plains ";\n".toList ++
      Statement.allTokens (depth + 1) body ++ Token.plains (indent depth ++ "\x7d\n".toList)
def Statement.allTokens (depth : Nat) : List Statement → List Token
  | [] => []
  | s :: rest => s.tokens depth ++ Statement.allTokens depth rest
end

def Family.tokens (family : Family) : List Token :=
  Token.plains "digraph \x7b\n  rankdir=LR;\n  node [fontname=".toList ++ [.string "monospace".toList] ++
    Token.plains "];\n".toList ++ Statement.allTokens 1 family.graph ++ Token.plains "\x7d\n".toList

mutual
theorem Statement.text_tokens (depth : Nat) : ∀ s : Statement,
    (s.tokens depth).flatMap Token.text = (s.lines depth).flatMap (· ++ ['\n'])
  | .legend path table => by
    simp [tokens, lines, Token.text_plains, Token.text]
  | .state path q accepting => by
    simp [tokens, lines, Token.text_plains, Token.text]
  | .edge path source target label dashed => by
    simp [tokens, lines, Token.text_plains, Token.text]
  | .cluster number label body => by
    have ih := Statement.text_allTokens (depth + 1) body
    simp [tokens, lines, Token.text_plains, Token.text, ih]
theorem Statement.text_allTokens (depth : Nat) : ∀ ss : List Statement,
    (Statement.allTokens depth ss).flatMap Token.text = (Statement.allLines depth ss).flatMap (· ++ ['\n'])
  | [] => rfl
  | s :: rest => by
    rw [Statement.allTokens, Statement.allLines, List.flatMap_append, List.flatMap_append,
      Statement.text_tokens depth s, Statement.text_allTokens depth rest]
end

theorem Family.text_tokens (family : Family) : family.tokens.flatMap Token.text = family.dot := by
  have hhead : "digraph \x7b\n  rankdir=LR;\n  node [fontname=".toList ++ Token.text (.string "monospace".toList) ++
      "];\n".toList = ["digraph \x7b".toList, "  rankdir=LR;".toList,
        "  node [fontname=\"monospace\"];".toList].flatMap (· ++ ['\n']) := by decide +kernel
  have htail : "\x7d\n".toList = ['\x7d'] ++ ['\n'] := by decide
  unfold tokens dot
  simp only [List.flatMap_append, Token.text_plains, Statement.text_allTokens, List.flatMap_singleton, hhead, htail]

theorem Statement.mem_allTokens {depth : Nat} {t : Token} {ss : List Statement} :
    t ∈ Statement.allTokens depth ss ↔ ∃ s ∈ ss, t ∈ s.tokens depth := by
  induction ss with
  | nil => simp [allTokens]
  | cons s ss ih => simp [allTokens, ih]

/-! ## Sound tokens -/

theorem nests_zero {c : Char} (hl : c ≠ '<') (hg : c ≠ '>') : Token.nests 0 c = some 0 := by
  simp [Token.nests, hl, hg]

theorem nests_digit (d : Char) (hd : d.isDigit = true) : Token.nests 0 d = some 0 :=
  nests_zero (ne_of_isDigit hd (by decide)) (ne_of_isDigit hd (by decide))

theorem neutral_htmlEscape (c : Char) : Neutral Token.nests 0 (htmlEscape c) := by
  unfold htmlEscape
  split
  · decide
  split
  · decide
  split
  · decide
  split
  · decide
  · exact neutral_singleton (nests_zero ‹_› ‹_›)

theorem neutral_legendRow {s t : List Char} (hs : Neutral Token.nests 0 s) (ht : Neutral Token.nests 0 t) :
    Neutral Token.nests 0 (legendRow s t) := by
  have h1 : Neutral Token.nests 0 "<tr><td align=\"left\">".toList := by decide
  have h2 : Neutral Token.nests 0 "</td><td align=\"left\">".toList := by decide
  have h3 : Neutral Token.nests 0 "</td></tr>".toList := by decide
  exact (((h1.append hs).append h2).append ht).append h3

theorem neutral_legendTable (r : Rule) (index : Nat) : Neutral Token.nests 0 (r.legendTable index) := by
  have hnumber : ∀ n, Neutral Token.nests 0 (Text.decimal n) := neutral_decimal nests_digit
  have hindex : Neutral Token.nests 0 ("<b>#".toList ++ Text.decimal index ++ "</b>".toList) := by
    have h1 : Neutral Token.nests 0 "<b>#".toList := by decide
    have h2 : Neutral Token.nests 0 "</b>".toList := by decide
    exact (h1.append (hnumber index)).append h2
  have hname : Neutral Token.nests 0 ((r.name.getD "").toList.flatMap htmlEscape) :=
    neutral_flatMap fun c _ => neutral_htmlEscape c
  have hnested : Neutral Token.nests 0 (if r.nested.isEmpty then []
      else legendRow "nested".toList (Text.decimal r.nested.length ++ " rules".toList)) := by
    have h1 : Neutral Token.nests 0 "nested".toList := by decide
    have h2 : Neutral Token.nests 0 " rules".toList := by decide
    split
    · rfl
    · exact neutral_legendRow h1 ((hnumber _).append h2)
  have hopen : Neutral Token.nests 0 "<table border=\"0\">".toList := by decide
  have hclose : Neutral Token.nests 0 "</table>".toList := by decide
  have hstates : Neutral Token.nests 0 "states".toList := by decide
  have haccepting : Neutral Token.nests 0 "accepting".toList := by decide
  exact ((((hopen.append (neutral_legendRow hindex hname)).append (neutral_legendRow hstates (hnumber _))).append
    (neutral_legendRow haccepting (hnumber _))).append hnested).append hclose

/-! Between the quotes and the brackets nothing begins a token. -/

def Bare (text : List Char) : Prop := ∀ c ∈ text, Token.Outside c

instance (text : List Char) : Decidable (Bare text) := List.decidableBAll Token.Outside text

theorem Bare.append {s t : List Char} (hs : Bare s) (ht : Bare t) : Bare (s ++ t) :=
  List.forall_mem_append.mpr ⟨hs, ht⟩

theorem bare_decimal (n : Nat) : Bare (Text.decimal n) := fun c hc =>
  have hd : c.isDigit = true := Nat.isDigit_of_mem_toDigits (by decide) (by decide) hc
  ⟨ne_of_isDigit hd (by decide), ne_of_isDigit hd (by decide), ne_of_isDigit hd (by decide),
    ne_of_isDigit hd (by decide)⟩

theorem bare_indent (depth : Nat) : Bare (indent depth) := by
  intro c hc
  rw [(List.mem_replicate.mp hc).2]
  decide

theorem bare_path (path : RulePath) : Bare path.text := by
  have hrule : Bare "rule".toList := by decide
  refine hrule.append fun c hc => ?_
  obtain ⟨i, -, hc⟩ := List.mem_flatMap.mp hc
  rcases List.mem_cons.mp hc with rfl | hc
  · decide
  · exact bare_decimal i c hc

theorem bare_stateName (path : RulePath) (q : Nat) : Bare (stateName path q) := by
  have h : Bare "_s".toList := by decide
  exact ((bare_path path).append h).append (bare_decimal q)

theorem bare_legendName (path : RulePath) : Bare (legendName path) := by
  have h : Bare "_legend".toList := by decide
  exact (bare_path path).append h

theorem Token.sound_around {s u : List Char} {x t : Token} (hs : Bare s) (hu : Bare u)
    (h : t ∈ plains s ++ [x] ++ plains u) : t = x ∨ t.Sound := by
  simp only [List.mem_append, List.mem_singleton] at h
  rcases h with (h | h) | h
  · exact Or.inr (sound_plains hs t h)
  · exact Or.inl h
  · exact Or.inr (sound_plains hu t h)

section
variable {depth : Nat} {path : RulePath} {t : Token}

theorem Statement.sound_legend {table : List Char} (h : Neutral Token.nests 0 table)
    (ht : t ∈ (Statement.legend path table).tokens depth) : t.Sound := by
  have h1 : Bare " [shape=none, label=".toList := by decide
  have h2 : Bare "];\n".toList := by decide
  rw [tokens] at ht
  rcases Token.sound_around (((bare_indent depth).append (bare_legendName path)).append h1) h2 ht with rfl | ht
  · exact h
  · exact ht

theorem Statement.sound_state {q : Nat} {accepting : Bool}
    (ht : t ∈ (Statement.state path q accepting).tokens depth) : t.Sound := by
  have h1 : Bare " [label=".toList := by decide
  have h2 : Bare (", shape=".toList ++ (if accepting then "doublecircle" else "circle").toList ++ "];\n".toList) := by
    cases accepting <;> decide
  rw [tokens] at ht
  rcases Token.sound_around (((bare_indent depth).append (bare_stateName path q)).append h1) h2 ht with rfl | ht
  · exact wellQuoted_decimal q
  · exact ht

theorem Statement.sound_edge {source target : Nat} {label : List Char} {dashed : Bool} (h : WellQuoted label)
    (ht : t ∈ (Statement.edge path source target label dashed).tokens depth) : t.Sound := by
  have h1 : Bare " -> ".toList := by decide
  have h2 : Bare " [label=".toList := by decide
  have h3 : Bare ((if dashed then ", style=dashed" else "").toList ++ "];\n".toList) := by
    cases dashed <;> decide
  have hends := (((bare_indent depth).append (bare_stateName path source)).append h1).append
    (bare_stateName path target)
  rw [tokens] at ht
  rcases Token.sound_around (hends.append h2) h3 ht with rfl | ht
  · exact h
  · exact ht

theorem Statement.sound_cluster {number : Nat} {label : List Char} {body : List Statement}
    (ht : t ∈ (Statement.cluster number label body).tokens depth) :
    t = .string label ∨ t.Sound ∨ t ∈ Statement.allTokens (depth + 1) body := by
  have h1 : Bare "subgraph cluster_".toList := by decide
  have h2 : Bare " \x7b\n".toList := by decide
  have h3 : Bare "label=".toList := by decide
  have h4 : Bare ";\n".toList := by decide
  have h5 : Bare "\x7d\n".toList := by decide
  have hhead := ((((bare_indent depth).append h1).append (bare_decimal number)).append h2).append
    (bare_indent (depth + 1))
  rw [tokens, List.mem_append, List.mem_append] at ht
  rcases ht with (ht | ht) | ht
  · rcases Token.sound_around (hhead.append h3) h4 ht with ht | ht
    · exact Or.inl ht
    · exact Or.inr (Or.inl ht)
  · exact Or.inr (Or.inr ht)
  · exact Or.inr (Or.inl (Token.sound_plains ((bare_indent depth).append h5) t ht))

theorem Automaton.sound_state {a : Automaton} {s : Statement} (hs : s ∈ a.stateStatements path)
    (ht : t ∈ s.tokens depth) : t.Sound := by
  obtain ⟨q, -, rfl⟩ := List.mem_map.mp hs
  exact Statement.sound_state ht

theorem Automaton.sound_edge {a : Automaton} {q : Nat} {s : Statement} (hs : s ∈ a.edgeStatements path q)
    (ht : t ∈ s.tokens depth) : t.Sound := by
  have hstart : WellQuoted "start".toList := by decide
  have hend : WellQuoted "end".toList := by decide
  simp only [edgeStatements, List.mem_append, List.mem_map] at hs
  rcases hs with (⟨e, -, rfl⟩ | ⟨r, -, rfl⟩) | ⟨r, -, rfl⟩
  · exact Statement.sound_edge (wellQuoted_label e) ht
  · exact Statement.sound_edge hstart ht
  · exact Statement.sound_edge hend ht

end

/-! ## The names of a family -/

mutual
/-- The names of a rule and of those nested in it, at any depth. -/
def Rule.names : Rule → List String
  | ⟨name, _, nested⟩ => name.toList ++ Family.names nested
def Family.names : List Rule → List String
  | [] => []
  | r :: rs => r.names ++ Family.names rs
end

mutual
theorem Rule.sound_cluster {path : RulePath} {index number depth : Nat} {t : Token} : ∀ (r : Rule),
    t ∈ (r.cluster path index number).tokens depth → t.Sound ∨ ∃ name ∈ r.names, t = .string name.toList
  | ⟨name, a, nested⟩, ht => by
    unfold Rule.cluster at ht
    rcases Statement.sound_cluster ht with rfl | ht | ht
    · cases name with
      | none => exact Or.inl (wellQuoted_path path)
      | some n => exact Or.inr ⟨n, by simp [Rule.names], rfl⟩
    · exact Or.inl ht
    · obtain ⟨s, hs, ht⟩ := Statement.mem_allTokens.mp ht
      simp only [List.cons_append, List.mem_cons, List.mem_append, List.mem_flatMap] at hs
      rcases hs with rfl | (hs | ⟨q, -, hs⟩) | hs
      · exact Or.inl (Statement.sound_legend (neutral_legendTable _ index) ht)
      · exact Or.inl (Automaton.sound_state hs ht)
      · exact Or.inl (Automaton.sound_edge hs ht)
      · rcases Family.sound_clusters nested (Statement.mem_allTokens.mpr ⟨s, hs, ht⟩) with h | ⟨n, hn, rfl⟩
        · exact Or.inl h
        · exact Or.inr ⟨n, List.mem_append_right _ hn, rfl⟩
theorem Family.sound_clusters {path : RulePath} {index number depth : Nat} {t : Token} : ∀ (rs : List Rule),
    t ∈ Statement.allTokens depth (Family.clusters path index number rs) →
      t.Sound ∨ ∃ name ∈ Family.names rs, t = .string name.toList
  | [], ht => by
    rw [Family.clusters] at ht
    cases ht
  | r :: rs, ht => by
    rw [Family.clusters, Statement.allTokens, List.mem_append] at ht
    rw [Family.names]
    rcases ht with ht | ht
    · rcases Rule.sound_cluster r ht with h | ⟨name, hn, rfl⟩
      · exact Or.inl h
      · exact Or.inr ⟨name, List.mem_append_left _ hn, rfl⟩
    · rcases Family.sound_clusters rs ht with h | ⟨name, hn, rfl⟩
      · exact Or.inl h
      · exact Or.inr ⟨name, List.mem_append_right _ hn, rfl⟩
end

mutual
theorem Rule.mem_tokens {path : RulePath} {index number depth : Nat} {name : String} : ∀ (r : Rule),
    name ∈ r.names → .string name.toList ∈ (r.cluster path index number).tokens depth
  | ⟨own, a, nested⟩, hn => by
    unfold Rule.cluster
    rw [Rule.names, List.mem_append] at hn
    rw [Statement.tokens, List.mem_append, List.mem_append]
    rcases hn with hn | hn
    · rw [Option.mem_toList.mp hn]
      exact Or.inl (Or.inl (by simp))
    · obtain ⟨s, hs, ht⟩ := Statement.mem_allTokens.mp (Family.mem_tokens nested hn)
      exact Or.inl (Or.inr (Statement.mem_allTokens.mpr ⟨s, List.mem_append_right _ hs, ht⟩))
theorem Family.mem_tokens {path : RulePath} {index number depth : Nat} {name : String} : ∀ (rs : List Rule),
    name ∈ Family.names rs →
      .string name.toList ∈ Statement.allTokens depth (Family.clusters path index number rs)
  | [], hn => nomatch hn
  | r :: rs, hn => by
    rw [Family.names, List.mem_append] at hn
    rw [Family.clusters, Statement.allTokens, List.mem_append]
    rcases hn with hn | hn
    · exact Or.inl (Rule.mem_tokens r hn)
    · exact Or.inr (Family.mem_tokens rs hn)
end

/-! ## Graphs without names -/

mutual
def Rule.unnamed : Rule → Rule
  | ⟨_, a, nested⟩ => ⟨none, a, Family.unnamed nested⟩
def Family.unnamed : List Rule → List Rule
  | [] => []
  | r :: rs => r.unnamed :: Family.unnamed rs
end

mutual
/-- The statement without the texts that tell names, the labels of clusters and the legends. -/
def Statement.anonymous : Statement → Statement
  | .legend path _ => .legend path []
  | .state path q accepting => .state path q accepting
  | .edge path source target label dashed => .edge path source target label dashed
  | .cluster number _ body => .cluster number [] (Statement.allAnonymous body)
def Statement.allAnonymous : List Statement → List Statement
  | [] => []
  | s :: rest => s.anonymous :: Statement.allAnonymous rest
end

theorem Statement.allAnonymous_append (s t : List Statement) :
    Statement.allAnonymous (s ++ t) = Statement.allAnonymous s ++ Statement.allAnonymous t := by
  induction s with
  | nil => rfl
  | cons a s ih => rw [List.cons_append, allAnonymous, allAnonymous, ih, List.cons_append]

mutual
theorem Rule.count_unnamed : ∀ r : Rule, r.unnamed.count = r.count
  | ⟨_, _, nested⟩ => by rw [Rule.unnamed, Rule.count, Rule.count, Family.count_unnamed nested]
theorem Family.count_unnamed : ∀ rs : List Rule, Family.count (Family.unnamed rs) = Family.count rs
  | [] => rfl
  | r :: rs => by
    rw [Family.unnamed, Family.count, Family.count, Rule.count_unnamed r, Family.count_unnamed rs]
end

mutual
theorem Rule.anonymous_cluster (path : RulePath) (index number : Nat) : ∀ r : Rule,
    (r.unnamed.cluster path index number).anonymous = (r.cluster path index number).anonymous
  | ⟨_, a, nested⟩ => by
    unfold Rule.unnamed Rule.cluster
    simp only [Statement.anonymous, List.cons_append, Statement.allAnonymous, Statement.allAnonymous_append,
      Family.anonymous_clusters path 0 (number + 1) nested]
theorem Family.anonymous_clusters (path : RulePath) (index number : Nat) : ∀ rs : List Rule,
    Statement.allAnonymous (Family.clusters path index number (Family.unnamed rs)) =
      Statement.allAnonymous (Family.clusters path index number rs)
  | [] => rfl
  | r :: rs => by
    rw [Family.unnamed, Family.clusters, Family.clusters, Statement.allAnonymous, Statement.allAnonymous,
      Rule.anonymous_cluster (path ++ [index]) index number r, Rule.count_unnamed r,
      Family.anonymous_clusters path (index + 1) (number + r.count) rs]
end

/-! ## What names can do -/

theorem Family.sound_tokens (family : Family) {t : Token} (ht : t ∈ family.tokens) :
    t.Sound ∨ ∃ name ∈ Family.names family, t = .string name.toList := by
  have h1 : Bare "digraph \x7b\n  rankdir=LR;\n  node [fontname=".toList := by decide
  have h2 : Bare "];\n".toList := by decide
  have h3 : Bare "\x7d\n".toList := by decide
  have hfont : WellQuoted "monospace".toList := by decide
  rw [tokens, List.mem_append, List.mem_append] at ht
  rcases ht with (ht | ht) | ht
  · rcases Token.sound_around h1 h2 ht with rfl | ht
    · exact Or.inl hfont
    · exact Or.inl ht
  · exact Family.sound_clusters family ht
  · exact Or.inl (Token.sound_plains h3 t ht)

theorem Family.mem_names (family : Family) {name : String} (h : name ∈ Family.names family) :
    .string name.toList ∈ family.tokens := by
  rw [tokens, List.mem_append, List.mem_append]
  exact Or.inl (Or.inr (Family.mem_tokens family h))

/-- **Names in a graph.** A graph is read back as it was written just if the names of all its rules
are well quoted, and then names only change the labels of clusters and the legends. -/
theorem Family.dot_reads_back (family : Family) :
    family.dot = family.tokens.flatMap Token.text ∧
      (∀ body, .string body ∈ family.tokens →
        WellQuoted body ∨ ∃ name ∈ Family.names family, body = name.toList) ∧
      ((∀ body, .string body ∈ family.tokens → WellQuoted body) ↔
        ∀ name ∈ Family.names family, WellQuoted name.toList) ∧
      (Token.lex .nothing family.dot = some family.tokens ↔
        ∀ name ∈ Family.names family, WellQuoted name.toList) ∧
      Statement.allAnonymous (Family.graph (Family.unnamed family)) = Statement.allAnonymous family.graph := by
  have hstrings : (∀ t ∈ family.tokens, t.Sound) ↔
      ∀ name ∈ Family.names family, WellQuoted name.toList := by
    constructor
    · exact fun h name hn => h _ (family.mem_names hn)
    · intro h t ht
      rcases family.sound_tokens ht with hs | ⟨name, hn, rfl⟩
      · exact hs
      · exact h name hn
  refine ⟨family.text_tokens.symm, fun body hb => ?_, ⟨fun h name hn => ?_, fun h body hb => ?_⟩, ?_, ?_⟩
  · rcases family.sound_tokens hb with hs | ⟨name, hn, heq⟩
    · exact Or.inl hs
    · exact Or.inr ⟨name, hn, Token.string.inj heq⟩
  · exact h _ (family.mem_names hn)
  · exact hstrings.mpr h _ hb
  · rw [← hstrings, ← family.text_tokens]
    exact Token.lex_text_iff family.tokens
  · exact Family.anonymous_clusters [] 0 0 family

def quoteNamed : Family := [Rule.literal "a\"b" ['x']]

/-- The label of the cluster ends before the `b`. -/
theorem dot_quoteNamed :
    ¬ (∀ body, .string body ∈ quoteNamed.tokens → WellQuoted body) ∧
      Token.lex .nothing quoteNamed.dot ≠ some quoteNamed.tokens := by
  have hmem : .string "a\"b".toList ∈ quoteNamed.tokens := by decide +kernel
  have hquote : ¬ WellQuoted "a\"b".toList := by decide
  exact ⟨fun h => hquote (h _ hmem), by decide +kernel⟩

end Munch
