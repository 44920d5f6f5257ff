import Mathlib.Data.Nat.Find
import Munch.Proofs.Descriptions

/-!
# The first fault of a description

Faults are met in the order of the document: of a rule first its transitions are looked at,
then its nested rules one by one, and then its own tables.
-/

namespace Munch

inductive Place
  | transition (i : Nat)
  | nested (i : Nat) (p : Place)
  | tables

/-- The first place is come to before the second. -/
def Place.Before : Place → Place → Prop
  | transition i, transition j => i < j
  | transition _, nested _ _ => True
  | transition _, tables => True
  | nested i p, nested j q => i < j ∨ i = j ∧ p.Before q
  | nested _ _, tables => True
  | _, _ => False

theorem Place.Before.asymm {p q : Place} (h : p.Before q) : ¬ q.Before p := by
  induction p generalizing q with
  | transition i =>
    cases q with
    | transition j => exact Nat.lt_asymm h
    | nested | tables => exact id
  | nested i p ih =>
    cases q with
    | transition j => exact h.elim
    | nested j q =>
      intro hq
      rcases h with h | ⟨rfl, h⟩
      · rcases hq with hq | ⟨rfl, -⟩
        · exact Nat.lt_asymm h hq
        · exact Nat.lt_irrefl _ h
      · rcases hq with hq | ⟨-, hq⟩
        · exact Nat.lt_irrefl _ hq
        · exact ih h hq
    | tables => exact id
  | tables => cases q <;> exact h.elim

namespace RuleDescription

mutual
/-- What is wrong at a place of the rule. The error names the rule that it is in. -/
inductive Fault : RuleDescription → Place → DescriptionError → Prop
  | transition {d : RuleDescription} {i : Nat} {t : TransitionDescription} :
      d.transitions[i]? = some t → ¬ t.OneKind → Fault d (.transition i) (.ambiguousSymbols d.name)
  | nested {d : RuleDescription} {p : Place} {e : DescriptionError} : FaultAmong d.nested p e → Fault d p e
  | tables {d : RuleDescription} {x : Defect} : d.tables.build = .error x → Fault d .tables (.rule d.name x)
inductive FaultAmong : List RuleDescription → Place → DescriptionError → Prop
  | rule {ds : List RuleDescription} {d : RuleDescription} {i : Nat} {p : Place} {e : DescriptionError} :
      ds[i]? = some d → Fault d p e → FaultAmong ds (.nested i p) e
end

theorem not_faultAmong_nil (p : Place) (e : DescriptionError) : ¬ FaultAmong [] p e := by
  intro h
  cases h with
  | rule hd => simp at hd

theorem FaultAmong.exists_nested {ds : List RuleDescription} {p : Place} {e : DescriptionError}
    (h : FaultAmong ds p e) : ∃ i q, p = .nested i q := by
  cases h with
  | @rule _ _ i q => exact ⟨i, q, rfl⟩

theorem faultAmong_cons_iff {d : RuleDescription} {ds : List RuleDescription} {p : Place} {e : DescriptionError} :
    FaultAmong (d :: ds) p e ↔
      (∃ q, p = .nested 0 q ∧ d.Fault q e) ∨ ∃ i q, p = .nested (i + 1) q ∧ FaultAmong ds (.nested i q) e := by
  constructor
  · intro h
    cases h with
    | @rule _ n i q _ hn h =>
      cases i with
      | zero =>
        cases hn
        exact Or.inl ⟨q, rfl, h⟩
      | succ i => exact Or.inr ⟨i, q, rfl, .rule hn h⟩
  · intro h
    rcases h with ⟨q, rfl, h⟩ | ⟨i, q, rfl, h⟩
    · exact .rule rfl h
    · cases h with
      | rule hn h => exact .rule hn h

mutual
theorem Fault.unique {d : RuleDescription} {p : Place} {e x : DescriptionError} (h : d.Fault p e)
    (h' : d.Fault p x) : e = x := by
  cases h with
  | transition ht hkind =>
    cases h' with
    | transition => rfl
    | nested h' => cases h'
  | nested h =>
    cases h' with
    | transition => cases h
    | nested h' => exact FaultAmong.unique h h'
    | tables => cases h
  | tables hx =>
    cases h' with
    | nested h' => cases h'
    | tables hx' => rw [Except.error.inj (hx.symm.trans hx')]
theorem FaultAmong.unique {ds : List RuleDescription} {p : Place} {e x : DescriptionError}
    (h : FaultAmong ds p e) (h' : FaultAmong ds p x) : e = x := by
  cases h with
  | rule hd h =>
    cases h' with
    | rule hd' h' =>
      cases hd.symm.trans hd'
      exact Fault.unique h h'
end

/-! ## What is reported -/

/-- Nothing is wrong, or what is reported is wrong at a place before which nothing is. -/
def Reports {α : Type} (F : Place → DescriptionError → Prop) : Except DescriptionError α → Prop
  | .ok _ => ∀ p e, ¬ F p e
  | .error e => ∃ p, F p e ∧ ∀ q x, F q x → p = q ∨ p.Before q

theorem Reports.error_iff {α : Type} {F : Place → DescriptionError → Prop} {r : Except DescriptionError α}
    (h : Reports F r) (hF : ∀ p e x, F p e → F p x → e = x) (e : DescriptionError) :
    r = .error e ↔ ∃ p, F p e ∧ ∀ q x, F q x → p = q ∨ p.Before q := by
  constructor
  · rintro rfl
    exact h
  · rintro ⟨p, hp, hfirst⟩
    cases r with
    | ok a => exact absurd hp (h p e)
    | error x =>
      obtain ⟨q, hq, hfirst'⟩ := h
      have hpq : p = q := by
        rcases hfirst q x hq with heq | hbefore
        · exact heq
        · exact (hfirst' p e hp).elim Eq.symm fun hafter => absurd hafter hbefore.asymm
      subst hpq
      rw [hF p x e hq hp]

section
variable {d : RuleDescription}

theorem reports_transition (hnone : d.edges? = none) :
    Reports d.Fault (.error (.ambiguousSymbols d.name) : Except DescriptionError Rule) := by
  classical
  have h : ∃ (i : Nat) (t : TransitionDescription), d.transitions[i]? = some t ∧ ¬ t.OneKind := by
    by_contra hno
    have hkind : ∀ t ∈ d.transitions, t.OneKind := by
      intro t ht
      obtain ⟨i, hi⟩ := List.mem_iff_getElem?.mp ht
      by_contra hkind
      exact hno ⟨i, t, hi, hkind⟩
    rw [edges?_eq_some_iff.mpr ⟨hkind, rfl⟩] at hnone
    cases hnone
  obtain ⟨t, ht, hkind⟩ := Nat.find_spec h
  refine ⟨.transition (Nat.find h), .transition ht hkind, fun q x hq => ?_⟩
  cases hq with
  | transition hs hskind =>
    rcases Nat.eq_or_lt_of_le (Nat.find_min' h ⟨_, hs, hskind⟩) with heq | hlt
    · exact Or.inl (congrArg Place.transition heq)
    · exact Or.inr hlt
  | nested hq =>
    cases hq with
    | rule => exact Or.inr trivial
  | tables => exact Or.inr trivial

theorem reports_of_nested (h : Reports (FaultAmong d.nested) (buildAll d.nested).1) :
    Reports d.Fault d.build.1 := by
  rw [build_eq]
  cases hes : d.edges? with
  | none => exact reports_transition hes
  | some es =>
    obtain ⟨hkind, rfl⟩ := edges?_eq_some_iff.mp hes
    dsimp only
    rw [declaration_edges]
    have hone : ∀ {i : Nat} {t : TransitionDescription}, d.transitions[i]? = some t → t.OneKind := fun ht =>
      hkind _ (List.mem_of_getElem? ht)
    cases hn : (buildAll d.nested).1 with
    | error e =>
      rw [hn] at h
      obtain ⟨p, hp, hfirst⟩ := h
      refine ⟨p, .nested hp, fun q x hq => ?_⟩
      cases hq with
      | transition ht hnot => exact absurd (hone ht) hnot
      | nested hq => exact hfirst q x hq
      | tables =>
        cases hp with
        | rule => exact Or.inr trivial
    | ok family =>
      rw [hn] at h
      dsimp only
      cases hb : d.tables.build with
      | error x =>
        refine ⟨.tables, .tables hb, fun q y hq => ?_⟩
        cases hq with
        | transition ht hnot => exact absurd (hone ht) hnot
        | nested hq => exact absurd hq (h q y)
        | tables => exact Or.inl rfl
      | ok a =>
        intro p e hp
        cases hp with
        | transition ht hnot => exact hnot (hone ht)
        | nested hp => exact h p e hp
        | tables hx =>
          rw [hb] at hx
          cases hx

theorem reports_cons {ds : List RuleDescription} (h : Reports d.Fault d.build.1)
    (hs : Reports (FaultAmong ds) (buildAll ds).1) :
    Reports (FaultAmong (d :: ds)) (buildAll (d :: ds)).1 := by
  rw [buildAll_cons]
  cases hd : d.build.1 with
  | error e =>
    rw [hd] at h
    obtain ⟨p, hp, hfirst⟩ := h
    refine ⟨.nested 0 p, faultAmong_cons_iff.mpr (Or.inl ⟨p, rfl, hp⟩), fun q x hq => ?_⟩
    rcases faultAmong_cons_iff.mp hq with ⟨q, rfl, hfault⟩ | ⟨j, q, rfl, -⟩
    · rcases hfirst q x hfault with rfl | hbefore
      · exact Or.inl rfl
      · exact Or.inr (Or.inr ⟨rfl, hbefore⟩)
    · exact Or.inr (Or.inl (Nat.succ_pos j))
  | ok r =>
    rw [hd] at h
    dsimp only
    cases hds : (buildAll ds).1 with
    | error e =>
      rw [hds] at hs
      obtain ⟨p, hp, hfirst⟩ := hs
      obtain ⟨i, p, rfl⟩ := hp.exists_nested
      refine ⟨.nested (i + 1) p, faultAmong_cons_iff.mpr (Or.inr ⟨i, p, rfl, hp⟩), fun q x hq => ?_⟩
      rcases faultAmong_cons_iff.mp hq with ⟨q, rfl, hfault⟩ | ⟨j, q, rfl, hfault⟩
      · exact absurd hfault (h q x)
      · rcases hfirst _ x hfault with heq | hlt | ⟨rfl, hbefore⟩
        · cases heq
          exact Or.inl rfl
        · exact Or.inr (Or.inl (Nat.succ_lt_succ hlt))
        · exact Or.inr (Or.inr ⟨rfl, hbefore⟩)
    | ok family =>
      rw [hds] at hs
      intro p e hp
      rcases faultAmong_cons_iff.mp hp with ⟨q, rfl, hfault⟩ | ⟨i, q, rfl, hfault⟩
      · exact h q e hfault
      · exact hs _ e hfault

end

mutual
theorem reports_build : (d : RuleDescription) → Reports d.Fault d.build.1
  | ⟨_, _, _, _, _, _, nested⟩ => reports_of_nested (reports_buildAll nested)
theorem reports_buildAll : (ds : List RuleDescription) → Reports (FaultAmong ds) (buildAll ds).1
  | [] => by
    rw [buildAll]
    exact not_faultAmong_nil
  | d :: ds => reports_cons (reports_build d) (reports_buildAll ds)
end

end RuleDescription

/-- **The first fault.** A description is refused for what is wrong at the first place of its
tree where anything is, and the error names the rule of that place. -/
theorem Description.build_eq_error_iff_fault (d : Description) (e : DescriptionError) :
    d.build.1 = .error e ↔ ∃ p, RuleDescription.FaultAmong d.rules p e ∧
      ∀ q x, RuleDescription.FaultAmong d.rules q x → p = q ∨ p.Before q :=
  (RuleDescription.reports_buildAll d.rules).error_iff
    (fun _ _ _ => RuleDescription.FaultAmong.unique) e

/-- Wrong in all its rules, and in the nested one twice. -/
def Description.faulty : Description :=
  ⟨.standard,
    [⟨"outer", 0, [], [], [], [],
      [⟨"inner", 1, [], [⟨0, 0, none, some ('b', 'a')⟩, ⟨0, 0, none, none⟩], [], [], []⟩]⟩,
    ⟨"last", 1, [], [⟨0, 0, some ['a'], some ('a', 'b')⟩], [], [], []⟩]⟩

theorem Description.build_eq_error_iff_fault_faulty :
    faulty.build.1 = .error (.ambiguousSymbols "inner") ∧
    (∃ p, RuleDescription.FaultAmong faulty.rules p (.ambiguousSymbols "inner") ∧
      ∀ q x, RuleDescription.FaultAmong faulty.rules q x → p = q ∨ p.Before q) ∧
    RuleDescription.FaultAmong faulty.rules (.nested 0 (.nested 0 .tables)) (.rule "inner" (.emptyRange 'b' 'a')) ∧
    RuleDescription.FaultAmong faulty.rules (.nested 0 .tables) (.rule "outer" .noStates) ∧
    RuleDescription.FaultAmong faulty.rules (.nested 1 (.transition 0)) (.ambiguousSymbols "last") := by
  have hbuild : faulty.build.1 = .error (.ambiguousSymbols "inner") := rfl
  refine ⟨hbuild, (build_eq_error_iff_fault faulty _).mp hbuild, ?_, ?_, ?_⟩
  · exact .rule rfl (.nested (.rule rfl (.tables rfl)))
  · exact .rule rfl (.tables rfl)
  · exact .rule rfl (.transition rfl fun h => h rfl)

end Munch
