import Mathlib.Data.List.Forall2
import Munch.Graph.Basic
import Munch.Proofs.Numerals
import Munch.Proofs.Rearrangements

/-!
# Nodes and edges of graphs

Each rule of a family has a cluster of its own, however deep it is nested. The cluster
declares a legend and the states of the rule, and joins them as the automaton does.
-/

namespace Munch

/-! ## What a family is made of -/

/-- Rules come about in two ways, and their nested rules have come about so before. -/
inductive Rule.Built : Rule → Prop
  | declared {name : Option String} {d : Declaration} {nested : Family} {r : Rule} :
      Rule.build name d nested = .ok r → (∀ n ∈ nested, Built n) → Built r
  | literal (name : String) (text : List Char) : Built (Rule.literal name text)

def Rule.inner? : RulePath → Rule → Option Rule
  | [], r => some r
  | i :: path, r => r.nested[i]?.bind (inner? path)

/-- The rule that a path leads to. -/
def Family.rule? (family : Family) : RulePath → Option Rule
  | [] => none
  | i :: path => family[i]?.bind (Rule.inner? path)

mutual
/-- A rule and those below it with their paths, in the order of the family. -/
def Rule.places (path : RulePath) : Rule → List (RulePath × Rule)
  | ⟨name, a, nested⟩ => (path, ⟨name, a, nested⟩) :: Family.places path 0 nested
def Family.places (path : RulePath) (index : Nat) : List Rule → List (RulePath × Rule)
  | [] => []
  | r :: rs => r.places (path ++ [index]) ++ Family.places path (index + 1) rs
end

mutual
theorem Rule.mem_places {path p : RulePath} {s : Rule} : ∀ r : Rule,
    (p, s) ∈ r.places path ↔ ∃ rest, p = path ++ rest ∧ r.inner? rest = some s
  | ⟨name, a, nested⟩ => by
    rw [Rule.places, List.mem_cons, Family.mem_places nested]
    constructor
    · rintro (heq | ⟨i, rest, r, rfl, hr, hs⟩)
      · cases heq
        exact ⟨[], by simp, rfl⟩
      · exact ⟨i :: rest, by simp, by simp [Rule.inner?, hr, hs]⟩
    · rintro ⟨rest, rfl, hs⟩
      cases rest with
      | nil =>
        cases hs
        exact Or.inl (by simp)
      | cons i rest =>
        obtain ⟨r, hr, hs⟩ := Option.bind_eq_some_iff.mp hs
        exact Or.inr ⟨i, rest, r, by simp, hr, hs⟩
theorem Family.mem_places {path p : RulePath} {index : Nat} {s : Rule} : ∀ rs : List Rule,
    (p, s) ∈ Family.places path index rs ↔
      ∃ i rest r, p = path ++ (index + i) :: rest ∧ rs[i]? = some r ∧ r.inner? rest = some s
  | [] => by simp [Family.places]
  | r :: rs => by
    rw [Family.places, List.mem_append, Rule.mem_places r, Family.mem_places rs]
    constructor
    · rintro (⟨rest, rfl, hs⟩ | ⟨i, rest, t, rfl, ht, hs⟩)
      · exact ⟨0, rest, r, by simp, rfl, hs⟩
      · exact ⟨i + 1, rest, t, by simp [Nat.add_assoc, Nat.add_comm 1 i], ht, hs⟩
    · rintro ⟨i, rest, t, rfl, ht, hs⟩
      cases i with
      | zero =>
        cases ht
        exact Or.inl ⟨rest, by simp, hs⟩
      | succ i => exact Or.inr ⟨i, rest, t, by simp [Nat.add_assoc, Nat.add_comm 1 i], ht, hs⟩
end

theorem Family.mem_places_iff (family : Family) (path : RulePath) (r : Rule) :
    (path, r) ∈ Family.places [] 0 family ↔ family.rule? path = some r := by
  rw [Family.mem_places]
  cases path with
  | nil => simp [rule?]
  | cons i path => simp [rule?, Option.bind_eq_some_iff]

mutual
theorem Rule.nodup_places {path : RulePath} : ∀ r : Rule, ((r.places path).map Prod.fst).Nodup
  | ⟨name, a, nested⟩ => by
    rw [Rule.places, List.map_cons, List.nodup_cons]
    refine ⟨?_, Family.nodup_places nested⟩
    intro h
    obtain ⟨⟨p, s⟩, hp, heq⟩ := List.mem_map.mp h
    obtain ⟨i, rest, r, rfl, -⟩ := (Family.mem_places nested).mp hp
    simp at heq
theorem Family.nodup_places {path : RulePath} {index : Nat} : ∀ rs : List Rule,
    ((Family.places path index rs).map Prod.fst).Nodup
  | [] => by simp [Family.places]
  | r :: rs => by
    rw [Family.places, List.map_append, List.nodup_append]
    refine ⟨Rule.nodup_places r, Family.nodup_places rs, ?_⟩
    intro p hp q hq heq
    obtain ⟨⟨_, s⟩, hs, rfl⟩ := List.mem_map.mp hp
    obtain ⟨⟨_, t⟩, ht, rfl⟩ := List.mem_map.mp hq
    obtain ⟨rest, rfl, -⟩ := (Rule.mem_places r).mp hs
    obtain ⟨i, rest', u, rfl, -⟩ := (Family.mem_places rs).mp ht
    simp at heq
    omega
end

/-! ## Automata as they are built -/

inductive Arrow
  | edge (q : Nat) (e : Edge)
  | startJump (q r : Nat)
  | endJump (q r : Nat)

namespace Arrow

def source : Arrow → Nat
  | edge q _ => q
  | startJump q _ => q
  | endJump q _ => q

def target : Arrow → Nat
  | edge _ e => e.target
  | startJump _ r => r
  | endJump _ r => r

def statement (path : RulePath) : Arrow → Statement
  | edge q e => .edge path q e.target e.label false
  | startJump q r => .edge path q r "start".toList true
  | endJump q r => .edge path q r "end".toList true

end Arrow

namespace Automaton

def Has (a : Automaton) : Arrow → Prop
  | .edge q e => e ∈ a.edges q
  | .startJump q r => a.startJump q = some r
  | .endJump q r => a.endJump q = some r

/-- All arrows end in states of the automaton, and no edge is stored twice. -/
structure Closed (a : Automaton) : Prop where
  target : ∀ x, a.Has x → x.target < a.size
  once : ∀ q, (a.edges q).toList.Nodup

theorem Has.state {a : Automaton} {x : Arrow} (h : a.Has x) :
    ∃ s, a.states[x.source]? = some s ∧
      match x with
      | .edge _ e => e ∈ s.edges
      | .startJump _ r => s.startJump = some r
      | .endJump _ r => s.endJump = some r := by
  cases x with
  | edge q e =>
    rw [Has, edges] at h
    split at h
    · exact ⟨_, ‹_›, h⟩
    · simp at h
  | startJump q r => exact Option.bind_eq_some_iff.mp h
  | endJump q r => exact Option.bind_eq_some_iff.mp h

theorem Has.source_lt {a : Automaton} {x : Arrow} (h : a.Has x) : x.source < a.size := by
  obtain ⟨s, hs, -⟩ := h.state
  exact (Array.getElem?_eq_some_iff.mp hs).1

theorem mem_literal {text : List Char} {q : Nat} {s : State} (h : (literal text).states[q]? = some s) :
    (∃ c i, i < text.length ∧ s = ⟨#[⟨c, c, i + 1⟩], none, none⟩) ∨ s = ⟨#[], none, none⟩ := by
  have hmem := Array.mem_of_getElem? h
  simp only [literal, List.mem_toArray, List.mem_append, List.mem_map, List.mem_singleton] at hmem
  rcases hmem with ⟨⟨c, i⟩, hi, rfl⟩ | rfl
  · have := List.mem_zipIdx hi
    exact Or.inl ⟨c, i, by omega, rfl⟩
  · exact Or.inr rfl

theorem closed_literal (text : List Char) : (literal text).Closed := by
  constructor
  · intro x hx
    obtain ⟨s, hs, hx⟩ := hx.state
    rcases mem_literal hs with ⟨c, i, hi, rfl⟩ | rfl
    · cases x <;> simp at hx
      subst hx
      simpa [Arrow.target, literal, size] using hi
    · cases x <;> simp at hx
  · intro q
    unfold edges
    split
    · rename_i s hs
      rcases mem_literal hs with ⟨c, i, -, rfl⟩ | rfl <;> simp
    · simp

theorem closed_declared {d : Declaration} (h : d.Deterministic) : d.automaton.Closed := by
  have hsize : d.automaton.size = d.states := by simp [Declaration.automaton, size]
  constructor
  · intro x hx
    rw [hsize]
    cases x with
    | edge q e => exact (h.edges q e ((h.mem_edges q).mp hx)).2.1
    | startJump q r => exact (h.startJumps q r ((h.startJump_iff q r).mp hx)).2
    | endJump q r => exact (h.endJumps q r ((h.endJump_iff q r).mp hx)).2
  · intro q
    exact Declaration.nodup_of_lo_lt (h.edges_lo_lt q)

/-! ## The arrows, one by one -/

def arrowsFrom (a : Automaton) (q : Nat) : List Arrow :=
  (a.edges q).toList.map (.edge q) ++ (a.startJump q).toList.map (.startJump q) ++
    (a.endJump q).toList.map (.endJump q)

def arrows (a : Automaton) : List Arrow := (List.range a.size).flatMap a.arrowsFrom

theorem mem_arrowsFrom {a : Automaton} {q : Nat} {x : Arrow} : x ∈ a.arrowsFrom q ↔ a.Has x ∧ x.source = q := by
  have hswap : ∀ (P : Nat → Prop) (p : Nat), P q ∧ q = p ↔ P p ∧ p = q := by
    intro P p
    constructor <;> (rintro ⟨h, rfl⟩; exact ⟨h, rfl⟩)
  cases x with
  | edge p e => simpa [arrowsFrom, Has, Arrow.source] using hswap (fun p => e ∈ a.edges p) p
  | startJump p r => simpa [arrowsFrom, Has, Arrow.source] using hswap (fun p => a.startJump p = some r) p
  | endJump p r => simpa [arrowsFrom, Has, Arrow.source] using hswap (fun p => a.endJump p = some r) p

theorem mem_arrows {a : Automaton} {x : Arrow} : x ∈ a.arrows ↔ a.Has x := by
  simp only [arrows, List.mem_flatMap, List.mem_range, mem_arrowsFrom]
  constructor
  · rintro ⟨q, -, hx, -⟩
    exact hx
  · intro hx
    exact ⟨x.source, hx.source_lt, hx, rfl⟩

theorem nodup_arrows {a : Automaton} (h : a.Closed) : a.arrows.Nodup := by
  rw [arrows, List.nodup_flatMap]
  constructor
  · intro q _
    have hjump : ∀ o : Option Nat, o.toList.Nodup := by
      intro o
      cases o <;> simp
    have hedges : ((a.edges q).toList.map (Arrow.edge q)).Nodup := (h.once q).map fun e f heq => by cases heq; rfl
    have hstart : ((a.startJump q).toList.map (Arrow.startJump q)).Nodup :=
      (hjump _).map fun r t heq => by cases heq; rfl
    have hend : ((a.endJump q).toList.map (Arrow.endJump q)).Nodup := (hjump _).map fun r t heq => by cases heq; rfl
    rw [arrowsFrom, List.nodup_append, List.nodup_append]
    refine ⟨⟨hedges, hstart, by simp⟩, hend, ?_⟩
    intro x hx y hy heq
    subst heq
    obtain ⟨r, -, rfl⟩ := List.mem_map.mp hy
    simp at hx
  · refine List.pairwise_lt_range.imp ?_
    intro p q hlt x hp hq
    have hsame := (mem_arrowsFrom.mp hp).2.symm.trans (mem_arrowsFrom.mp hq).2
    omega

theorem statements_arrows (a : Automaton) (path : RulePath) :
    (List.range a.size).flatMap (a.edgeStatements path) = a.arrows.map (Arrow.statement path) := by
  rw [arrows, List.map_flatMap]
  congr 1
  funext q
  simp [edgeStatements, arrowsFrom, Arrow.statement, Function.comp_def]

end Automaton

theorem Rule.build_eq_ok_iff {name : Option String} {d : Declaration} {nested : Family} {r : Rule} :
    Rule.build name d nested = .ok r ↔ d.Deterministic ∧ ⟨name, d.automaton, nested⟩ = r := by
  rw [Rule.build]
  cases hb : d.build with
  | error x =>
    have hnot : ¬ d.Deterministic := fun hd => by
      rw [Declaration.build_eq_ok_iff.mpr ⟨hd, rfl⟩] at hb
      cases hb
    simp [Except.map, hnot]
  | ok a =>
    obtain ⟨hd, rfl⟩ := Declaration.build_eq_ok_iff.mp hb
    simp [Except.map, hd]

theorem Rule.Built.closed {r : Rule} (h : r.Built) : r.automaton.Closed := by
  cases h with
  | declared hb =>
    obtain ⟨hd, rfl⟩ := Rule.build_eq_ok_iff.mp hb
    exact Automaton.closed_declared hd
  | literal name text => exact Automaton.closed_literal text

theorem Rule.Built.nested {r : Rule} (h : r.Built) : ∀ n ∈ r.nested, n.Built := by
  cases h with
  | declared hb hnested =>
    obtain ⟨-, rfl⟩ := Rule.build_eq_ok_iff.mp hb
    exact hnested
  | literal name text => simp [Rule.literal]

/-! ## Names -/

inductive GraphNode
  | legend (path : RulePath)
  | state (path : RulePath) (q : Nat)

namespace GraphNode

def path : GraphNode → RulePath
  | legend path => path
  | state path _ => path

def name : GraphNode → List Char
  | legend path => legendName path
  | state path q => stateName path q

def lastWord : GraphNode → List Char
  | legend _ => "legend".toList
  | state _ q => 's' :: Text.decimal q

/-- The words that stand in the name with underscores between them. -/
def words (v : GraphNode) : List (List Char) := "rule".toList :: v.path.map Text.decimal ++ [v.lastWord]

theorem intercalate_cons (sep w : List Char) (ws : List (List Char)) :
    sep.intercalate (w :: ws) = w ++ ws.flatMap (sep ++ ·) := by
  induction ws generalizing w with
  | nil => simp
  | cons v ws ih => simp [ih]

theorem name_eq (v : GraphNode) : v.name = ['_'].intercalate v.words := by
  have hpath : v.path.text ++ '_' :: v.lastWord = ['_'].intercalate v.words := by
    simp [words, intercalate_cons, RulePath.text, List.flatMap_map]
  rw [← hpath]
  cases v with
  | legend path => rfl
  | state path q => simp [name, stateName, lastWord, GraphNode.path]

theorem not_mem_words (v : GraphNode) : ∀ w ∈ v.words, '_' ∉ w := by
  intro w hw
  simp only [words, List.cons_append, List.mem_cons, List.mem_append, List.mem_map, List.not_mem_nil, or_false] at hw
  rcases hw with rfl | ⟨i, -, rfl⟩ | rfl
  · decide
  · exact Nat.underscore_not_in_toDigits
  · cases v with
    | legend path => simp [lastWord]
    | state path q => simp [lastWord, Text.decimal, Nat.underscore_not_in_toDigits]

theorem words_inj {v w : GraphNode} (h : v.words = w.words) : v = w := by
  obtain ⟨hpath, hlast⟩ := List.append_inj' (List.cons.inj h).2 rfl
  replace hpath := List.map_injective_iff.mpr (fun _ _ => decimal_inj) hpath
  replace hlast := (List.cons.inj hlast).1
  cases v with
  | legend p =>
    cases w with
    | legend p' => exact congrArg legend hpath
    | state p' q' => simp [lastWord] at hlast
  | state p q =>
    cases w with
    | legend p' => simp [lastWord] at hlast
    | state p' q' =>
      cases hpath
      rw [decimal_inj (List.cons.inj hlast).2]

theorem name_injective : Function.Injective name := by
  intro v w h
  have hsplit : ∀ v : GraphNode, List.splitOn '_' v.name = v.words := by
    intro v
    rw [name_eq, List.splitOn_intercalate '_' v.not_mem_words (by simp [words])]
  exact words_inj (by rw [← hsplit, h, hsplit])

end GraphNode

/-! ## Statements -/

namespace Statement

def node? : Statement → Option GraphNode
  | legend path _ => some (.legend path)
  | state path q _ => some (.state path q)
  | _ => none

/-- The nodes that a statement joins. -/
def ends? : Statement → Option (GraphNode × GraphNode)
  | edge path source target _ _ => some (.state path source, .state path target)
  | _ => none

theorem lines_of_node? {s : Statement} {v : GraphNode} (h : s.node? = some v) (depth : Nat) :
    ∃ rest, s.lines depth = [indent depth ++ v.name ++ " [".toList ++ rest] := by
  cases s with
  | legend path table =>
    cases h
    exact ⟨"shape=none, label=<".toList ++ table ++ ">];".toList, by simp [lines, GraphNode.name]⟩
  | state path q accepting =>
    cases h
    exact ⟨"label=\"".toList ++ Text.decimal q ++ "\", shape=".toList ++
      (if accepting then "doublecircle" else "circle").toList ++ "];".toList, by simp [lines, GraphNode.name]⟩
  | edge | cluster => cases h

theorem lines_of_ends? {s : Statement} {v w : GraphNode} (h : s.ends? = some (v, w)) (depth : Nat) :
    ∃ rest, s.lines depth = [indent depth ++ v.name ++ " -> ".toList ++ w.name ++ " [".toList ++ rest] := by
  cases s with
  | edge path source target label dashed =>
    cases h
    exact ⟨"label=\"".toList ++ label ++ "\"".toList ++ (if dashed then ", style=dashed" else "").toList ++
      "];".toList, by simp [lines, GraphNode.name]⟩
  | legend | state | cluster => cases h

theorem allLines_eq_flatMap (depth : Nat) (ss : List Statement) : allLines depth ss = ss.flatMap (lines depth) := by
  induction ss with
  | nil => rfl
  | cons s ss ih => rw [allLines, ih, List.flatMap_cons]

theorem lines_of_cluster {s : Statement} {number : Nat} {label : List Char} {body : List Statement}
    (h : s = .cluster number label body) (depth : Nat) :
    ∃ first second, s.lines depth =
      first :: second :: body.flatMap (lines (depth + 1)) ++ [indent depth ++ ['\x7d']] := by
  subst h
  rw [← allLines_eq_flatMap, lines]
  exact ⟨_, _, rfl⟩

mutual
/-- The bodies of clusters, in the order in which the clusters open. -/
def bodies : Statement → List (List Statement)
  | cluster _ _ body => body :: allBodies body
  | _ => []
def allBodies : List Statement → List (List Statement)
  | [] => []
  | s :: rest => s.bodies ++ allBodies rest
end

theorem allBodies_append (s t : List Statement) : allBodies (s ++ t) = allBodies s ++ allBodies t := by
  induction s with
  | nil => rfl
  | cons a s ih => simp [allBodies, ih]

theorem allBodies_eq_nil {ss : List Statement} (h : ∀ s ∈ ss, s.bodies = []) : allBodies ss = [] := by
  induction ss with
  | nil => rfl
  | cons s ss ih => simp [allBodies, h s (by simp), ih fun t ht => h t (by simp [ht])]

end Statement

/-- The statements declare a legend and the states, and join them by each arrow once. -/
structure Rule.DrawnIn (path : RulePath) (r : Rule) (body : List Statement) : Prop where
  nodes : body.filterMap Statement.node? = .legend path :: (List.range r.automaton.size).map (.state path)
  arrows : ∃ arrows : List Arrow, arrows.Nodup ∧ (∀ x, x ∈ arrows ↔ r.automaton.Has x) ∧
    body.filter (·.ends?.isSome) = arrows.map (Arrow.statement path)
  ends : ∀ s ∈ body, ∀ v w, s.ends? = some (v, w) →
    v ∈ body.filterMap Statement.node? ∧ w ∈ body.filterMap Statement.node?

section
variable {path : RulePath}

theorem Automaton.mem_stateStatements {a : Automaton} {s : Statement} (h : s ∈ a.stateStatements path) :
    ∃ q accepting, s = .state path q accepting := by
  obtain ⟨q, -, rfl⟩ := List.mem_map.mp h
  exact ⟨q, _, rfl⟩

theorem Arrow.ends?_statement (x : Arrow) :
    (x.statement path).ends? = some (.state path x.source, .state path x.target) := by
  cases x <;> rfl

theorem Arrow.node?_statement (x : Arrow) : (x.statement path).node? = none := by
  cases x <;> rfl

theorem Arrow.bodies_statement (x : Arrow) : (x.statement path).bodies = [] := by
  cases x <;> rfl

theorem Family.mem_clusters {index number : Nat} {rs : List Rule} {s : Statement}
    (h : s ∈ Family.clusters path index number rs) : ∃ n label body, s = .cluster n label body := by
  induction rs generalizing index number with
  | nil => simp [clusters] at h
  | cons r rs ih =>
    rw [clusters, List.mem_cons] at h
    rcases h with rfl | h
    · obtain ⟨name, a, nested⟩ := r
      unfold Rule.cluster
      exact ⟨_, _, _, rfl⟩
    · exact ih h

def Rule.body (path : RulePath) (index number : Nat) (r : Rule) : List Statement :=
  .legend path (r.legendTable index) :: r.automaton.stateStatements path ++
    r.automaton.arrows.map (Arrow.statement path) ++ Family.clusters path 0 number r.nested

theorem Rule.bodies_cluster (r : Rule) (index number : Nat) :
    (r.cluster path index number).bodies =
      r.body path index (number + 1) :: Statement.allBodies (r.body path index (number + 1)) := by
  obtain ⟨name, a, nested⟩ := r
  unfold cluster
  rw [Automaton.statements_arrows]
  rfl

section
variable (r : Rule) (index number : Nat)

theorem Rule.nodes_body : (r.body path index number).filterMap Statement.node? =
    .legend path :: (List.range r.automaton.size).map (.state path) := by
  have hstates : (r.automaton.stateStatements path).filterMap Statement.node? =
      (List.range r.automaton.size).map (.state path) := by
    simp [Automaton.stateStatements, List.filterMap_map, Function.comp_def, Statement.node?]
  have harrows : (r.automaton.arrows.map (Arrow.statement path)).filterMap Statement.node? = [] := by
    simp [Arrow.node?_statement]
  have hclusters : (Family.clusters path 0 number r.nested).filterMap Statement.node? = [] := by
    rw [List.filterMap_eq_nil_iff]
    intro s hs
    obtain ⟨n, label, body, rfl⟩ := Family.mem_clusters hs
    rfl
  simp [body, hstates, harrows, hclusters, Statement.node?]

theorem Rule.edges_body : (r.body path index number).filter (·.ends?.isSome) =
    r.automaton.arrows.map (Arrow.statement path) := by
  have hstates : (r.automaton.stateStatements path).filter (·.ends?.isSome) = [] := by
    rw [List.filter_eq_nil_iff]
    intro s hs
    obtain ⟨q, accepting, rfl⟩ := Automaton.mem_stateStatements hs
    simp [Statement.ends?]
  have harrows : (r.automaton.arrows.map (Arrow.statement path)).filter (·.ends?.isSome) =
      r.automaton.arrows.map (Arrow.statement path) := by
    simp [List.filter_map, Function.comp_def, Arrow.ends?_statement]
  have hclusters : (Family.clusters path 0 number r.nested).filter (·.ends?.isSome) = [] := by
    rw [List.filter_eq_nil_iff]
    intro s hs
    obtain ⟨n, label, body, rfl⟩ := Family.mem_clusters hs
    simp [Statement.ends?]
  have hlegend : (Statement.legend path (r.legendTable index)).ends?.isSome = false := rfl
  simp [body, hlegend, hstates, harrows, hclusters]

theorem Rule.allBodies_body : Statement.allBodies (r.body path index number) =
    Statement.allBodies (Family.clusters path 0 number r.nested) := by
  have hstates : Statement.allBodies (r.automaton.stateStatements path) = [] := by
    apply Statement.allBodies_eq_nil
    intro s hs
    obtain ⟨q, accepting, rfl⟩ := Automaton.mem_stateStatements hs
    rfl
  have harrows : Statement.allBodies (r.automaton.arrows.map (Arrow.statement path)) = [] := by
    apply Statement.allBodies_eq_nil
    intro s hs
    obtain ⟨x, -, rfl⟩ := List.mem_map.mp hs
    exact x.bodies_statement
  simp [body, Statement.allBodies_append, hstates, harrows, Statement.allBodies, Statement.bodies]

theorem Rule.drawnIn_body {r : Rule} (h : r.automaton.Closed) : r.DrawnIn path (r.body path index number) := by
  refine ⟨r.nodes_body index number, ⟨_, Automaton.nodup_arrows h, fun x => Automaton.mem_arrows,
    r.edges_body index number⟩, ?_⟩
  intro s hs v w hvw
  have hedge : s ∈ (r.body path index number).filter (·.ends?.isSome) :=
    List.mem_filter.mpr ⟨hs, by simp [hvw]⟩
  rw [edges_body] at hedge
  obtain ⟨x, hx, rfl⟩ := List.mem_map.mp hedge
  replace hx := Automaton.mem_arrows.mp hx
  rw [x.ends?_statement] at hvw
  cases hvw
  rw [nodes_body]
  exact ⟨by simp [hx.source_lt], by simp [h.target x hx]⟩

end

end

/-! ## The clusters of a family -/

mutual
theorem Rule.drawn {path : RulePath} {index number : Nat} : ∀ r : Rule, r.Built →
    List.Forall₂ (fun p body => p.2.DrawnIn p.1 body) (r.places path) (r.cluster path index number).bodies
  | ⟨name, a, nested⟩, h => by
    rw [Rule.bodies_cluster, Rule.allBodies_body, Rule.places]
    exact .cons (Rule.drawnIn_body index _ h.closed) (Family.drawn nested h.nested)
theorem Family.drawn {path : RulePath} {index number : Nat} : ∀ rs : List Rule, (∀ r ∈ rs, r.Built) →
    List.Forall₂ (fun p body => p.2.DrawnIn p.1 body) (Family.places path index rs)
      (Statement.allBodies (Family.clusters path index number rs))
  | [], _ => .nil
  | r :: rs, h => by
    rw [Family.places, Family.clusters, Statement.allBodies]
    exact List.rel_append (Rule.drawn r (h r (by simp))) (Family.drawn rs fun s hs => h s (by simp [hs]))
end

def Statement.nodes (graph : List Statement) : List GraphNode :=
  (Statement.allBodies graph).flatMap (·.filterMap Statement.node?)

theorem nodes_of_drawn {places : List (RulePath × Rule)} {bodies : List (List Statement)}
    (h : List.Forall₂ (fun p body => p.2.DrawnIn p.1 body) places bodies) :
    bodies.flatMap (·.filterMap Statement.node?) =
      places.flatMap fun p => .legend p.1 :: (List.range p.2.automaton.size).map (.state p.1) := by
  induction h with
  | nil => rfl
  | cons hd _ ih => rw [List.flatMap_cons, List.flatMap_cons, hd.nodes, ih]

theorem nodup_nodes {places : List (RulePath × Rule)} (h : (places.map Prod.fst).Nodup) :
    (places.flatMap fun p => GraphNode.legend p.1 :: (List.range p.2.automaton.size).map (.state p.1)).Nodup := by
  rw [List.nodup_flatMap]
  constructor
  · intro p _
    rw [List.nodup_cons]
    refine ⟨by simp, List.nodup_range.map ?_⟩
    intro q q' heq
    cases heq
    rfl
  · refine (List.pairwise_map.mp h).imp ?_
    intro p p' hne v hv hv'
    have hpath : ∀ p : RulePath × Rule,
        v ∈ GraphNode.legend p.1 :: (List.range p.2.automaton.size).map (.state p.1) → v.path = p.1 := by
      intro p hv
      rcases List.mem_cons.mp hv with rfl | hv
      · rfl
      · obtain ⟨q, -, rfl⟩ := List.mem_map.mp hv
        rfl
    exact hne ((hpath p hv).symm.trans (hpath p' hv'))

theorem Family.dot_eq (family : Family) :
    family.dot = "digraph \x7b\n  rankdir=LR;\n  node [fontname=\"monospace\"];\n".toList ++
      (family.graph.flatMap (Statement.lines 1)).flatMap (· ++ ['\n']) ++ "\x7d\n".toList := by
  have hhead : "digraph \x7b\n  rankdir=LR;\n  node [fontname=\"monospace\"];\n".toList =
      ["digraph \x7b".toList, "  rankdir=LR;".toList, "  node [fontname=\"monospace\"];".toList].flatMap
        (· ++ ['\n']) := by decide +kernel
  have htail : "\x7d\n".toList = ['\x7d'] ++ ['\n'] := by decide
  unfold Family.dot
  simp only [List.flatMap_append, Statement.allLines_eq_flatMap, List.flatMap_singleton, hhead, htail]

/-- **Nodes and edges.** Each rule at any depth has one cluster, which declares a legend and the
states and draws each edge and jump once, between its own nodes. No two nodes of the graph have
one name. The text is a header, the lines of the statements and a closing brace. -/
theorem Family.graph_spec (family : Family) (h : ∀ r ∈ family, r.Built) :
    ((∀ path r, (path, r) ∈ Family.places [] 0 family ↔ family.rule? path = some r) ∧
      ((Family.places [] 0 family).map Prod.fst).Nodup) ∧
    List.Forall₂ (fun p body => p.2.DrawnIn p.1 body) (Family.places [] 0 family)
      (Statement.allBodies family.graph) ∧
    (∀ s ∈ family.graph, s.node? = none ∧ s.ends? = none) ∧
    ((Statement.nodes family.graph).map GraphNode.name).Nodup ∧
    (∀ (s : Statement) (depth : Nat),
      (∀ v, s.node? = some v → ∃ rest, s.lines depth = [indent depth ++ v.name ++ " [".toList ++ rest]) ∧
      (∀ v w, s.ends? = some (v, w) →
        ∃ rest, s.lines depth = [indent depth ++ v.name ++ " -> ".toList ++ w.name ++ " [".toList ++ rest]) ∧
      ∀ number label body, s = .cluster number label body →
        ∃ first second, s.lines depth =
          first :: second :: body.flatMap (Statement.lines (depth + 1)) ++ [indent depth ++ ['\x7d']]) ∧
    family.dot = "digraph \x7b\n  rankdir=LR;\n  node [fontname=\"monospace\"];\n".toList ++
      (family.graph.flatMap (Statement.lines 1)).flatMap (· ++ ['\n']) ++ "\x7d\n".toList := by
  have hdrawn : List.Forall₂ (fun p body => p.2.DrawnIn p.1 body) (Family.places [] 0 family)
      (Statement.allBodies family.graph) := Family.drawn family h
  refine ⟨⟨family.mem_places_iff, Family.nodup_places family⟩, hdrawn, ?_, ?_, ?_, family.dot_eq⟩
  · intro s hs
    obtain ⟨n, label, body, rfl⟩ := Family.mem_clusters hs
    exact ⟨rfl, rfl⟩
  · apply List.Nodup.map GraphNode.name_injective
    have hnodes : Statement.nodes family.graph = _ := nodes_of_drawn hdrawn
    rw [hnodes]
    exact nodup_nodes (Family.nodup_places family)
  · exact fun s depth => ⟨fun v hv => Statement.lines_of_node? hv depth,
      fun v w hvw => Statement.lines_of_ends? hvw depth, fun _ _ _ hs => Statement.lines_of_cluster hs depth⟩

def looped : Declaration := ⟨2, [1], [(0, ⟨'a', 'z', 1⟩), (1, ⟨'a', 'z', 1⟩), (1, ⟨'0', '9', 0⟩)], [(0, 1)], [(1, 0)]⟩

def loopedFamily : Family :=
  [⟨some "outer", looped.automaton, [Rule.literal "x" ['x'], ⟨none, looped.automaton, []⟩]⟩, Rule.literal "y" ['y']]

theorem Family.graph_spec_looped :
    (∀ r ∈ loopedFamily, r.Built) ∧
    (Family.places [] 0 loopedFamily).map Prod.fst = [[0], [0, 0], [0, 1], [1]] ∧
    List.Forall₂ (fun p body => p.2.DrawnIn p.1 body) (Family.places [] 0 loopedFamily)
      (Statement.allBodies loopedFamily.graph) ∧
    ((Statement.nodes loopedFamily.graph).map GraphNode.name).Nodup ∧
    loopedFamily.dot = "digraph \x7b\n  rankdir=LR;\n  node [fontname=\"monospace\"];\n".toList ++
      (loopedFamily.graph.flatMap (Statement.lines 1)).flatMap (· ++ ['\n']) ++ "\x7d\n".toList := by
  have hlooped : looped.Deterministic := Declaration.defect?_eq_none_iff.mp (by decide +kernel)
  have hbuilt : ∀ name nested, (∀ n ∈ nested, Rule.Built n) → Rule.Built ⟨name, looped.automaton, nested⟩ :=
    fun name nested => .declared (Rule.build_eq_ok_iff.mpr ⟨hlooped, rfl⟩)
  have hinner : ∀ n ∈ [Rule.literal "x" ['x'], ⟨none, looped.automaton, []⟩], n.Built := by
    simp [Rule.Built.literal, hbuilt]
  have hall : ∀ r ∈ loopedFamily, r.Built := by
    simpa [loopedFamily, Rule.Built.literal] using hbuilt _ _ hinner
  obtain ⟨-, hdrawn, -, hnodup, -, hdot⟩ := Family.graph_spec loopedFamily hall
  exact ⟨hall, by decide +kernel, hdrawn, hnodup, hdot⟩

end Munch
