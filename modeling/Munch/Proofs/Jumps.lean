import Mathlib.Data.List.Chain
import Mathlib.Data.List.Nodup
import Mathlib.Logic.Relation
import Munch.Automaton
import Munch.Proofs.BitSets

/-!
# Jump chains

`JumpPath` says without a walk where jumps lead. A walk keeps what it has seen in a set of
states, and stops only where no jump leads to a state that is new.
-/

namespace Munch.Automaton

/-- What jumps lead to from `q`: each state once, and from the last one to none that is new. -/
structure JumpPath (jump : Nat → Option Nat) (q : Nat) (path : List Nat) : Prop where
  steps : (q :: path).IsChain fun p r => jump p = some r
  nodup : (q :: path).Nodup
  ends : ∀ r, jump (path.getLastD q) = some r → r ∈ q :: path

/-- One or more jumps lead from `q` to `r`. -/
def Leads (jump : Nat → Option Nat) : Nat → Nat → Prop :=
  Relation.TransGen fun p r => jump p = some r

section
variable {jump : Nat → Option Nat}

/-! ## There is one path -/

theorem comparable : ∀ {q : Nat} {s t : List Nat},
    (q :: s).IsChain (fun p r => jump p = some r) → (q :: t).IsChain (fun p r => jump p = some r) →
      s <+: t ∨ t <+: s
  | _, [], _, _, _ => Or.inl List.nil_prefix
  | _, _ :: _, [], _, _ => Or.inr List.nil_prefix
  | q, a :: s, b :: t, hs, ht => by
    rw [List.isChain_cons_cons] at hs ht
    have hab : a = b := Option.some.inj (hs.1.symm.trans ht.1)
    subst hab
    rcases comparable hs.2 ht.2 with h | h
    · exact Or.inl ((List.prefix_cons_inj a).mpr h)
    · exact Or.inr ((List.prefix_cons_inj a).mpr h)

theorem JumpPath.maximal {q : Nat} {s t : List Nat} (hs : JumpPath jump q s) (ht : JumpPath jump q t)
    (h : s <+: t) : s = t := by
  obtain ⟨u, rfl⟩ := h
  cases u with
  | nil => simp
  | cons r u =>
    have hj : jump (s.getLastD q) = some r := by
      have hc := ht.steps
      rw [← List.cons_append, List.isChain_append] at hc
      exact hc.2.2 _ (by simp [List.getLast?_cons, List.getLastD_eq_getLast?]) r (by simp)
    have hn := ht.nodup
    rw [← List.cons_append, List.nodup_append] at hn
    exact absurd rfl (hn.2.2 r (hs.ends r hj) r (by simp))

theorem JumpPath.unique {q : Nat} {s t : List Nat} (hs : JumpPath jump q s) (ht : JumpPath jump q t) :
    s = t := by
  rcases comparable hs.steps ht.steps with h | h
  · exact hs.maximal ht h
  · exact (ht.maximal hs h).symm

/-! ## What is on it -/

theorem leads_of_mem : ∀ {q : Nat} {path : List Nat},
    (q :: path).IsChain (fun p r => jump p = some r) → ∀ r ∈ path, Leads jump q r
  | _, [], _, _, hr => by cases hr
  | q, a :: path, h, r, hr => by
    rw [List.isChain_cons_cons] at h
    rcases List.mem_cons.mp hr with rfl | hr
    · exact Relation.TransGen.single h.1
    · exact Relation.TransGen.head h.1 (leads_of_mem h.2 r hr)

theorem jump_mem : ∀ {q : Nat} {path : List Nat}, (q :: path).IsChain (fun p r => jump p = some r) →
    ∀ {p r : Nat}, p ∈ q :: path → p ≠ path.getLastD q → jump p = some r → r ∈ path
  | q, [], _, p, r, hp, hl, _ => by simp at hp hl; exact absurd hp hl
  | q, a :: path, h, p, r, hp, hl, hj => by
    rw [List.isChain_cons_cons] at h
    rw [List.getLastD_cons] at hl
    rcases List.mem_cons.mp hp with rfl | hp
    · rw [h.1, Option.some.injEq] at hj
      simp [hj]
    · exact List.mem_cons_of_mem _ (jump_mem h.2 hp hl hj)

theorem JumpPath.closed {q : Nat} {path : List Nat} (h : JumpPath jump q path) {p r : Nat}
    (hp : p ∈ q :: path) (hj : jump p = some r) : r ∈ q :: path := by
  by_cases hl : p = path.getLastD q
  · subst hl; exact h.ends r hj
  · exact List.mem_cons_of_mem _ (jump_mem h.steps hp hl hj)

theorem JumpPath.mem_iff {q : Nat} {path : List Nat} (h : JumpPath jump q path) (r : Nat) :
    r ∈ path ↔ r ≠ q ∧ Leads jump q r := by
  constructor
  · intro hr
    refine ⟨?_, leads_of_mem h.steps r hr⟩
    rintro rfl
    exact (List.nodup_cons.mp h.nodup).1 hr
  · rintro ⟨hne, hl⟩
    have hmem : r ∈ q :: path := by
      clear hne
      induction hl with
      | single hj => exact h.closed List.mem_cons_self hj
      | tail _ hj ih => exact h.closed ih hj
    rcases List.mem_cons.mp hmem with rfl | hr
    · exact absurd rfl hne
    · exact hr

end

end Munch.Automaton

/-! ## Walking it -/

namespace Munch.Walk

open Automaton (JumpPath)

section
variable {jump : Nat → Option Nat}

/-- The walk came through `before` to where it is, and has seen these states and no others. -/
structure Behind (w : Walk) (before : List Nat) : Prop where
  seen : ∀ p, w.seen.contains p = true ↔ p ∈ before ++ [w.state]
  nodup : (before ++ [w.state]).Nodup

theorem behind_start (n q : Nat) : (start n q).Behind [] where
  seen p := by
    unfold start
    rw [BitSet.contains_insert, BitSet.contains_withCapacity]
    simp
  nodup := List.nodup_singleton q

theorem Behind.step {w v : Walk} {before : List Nat} (h : w.Behind before) (hs : w.step? jump = some v) :
    jump w.state = some v.state ∧ v.Behind (before ++ [w.state]) := by
  obtain ⟨r, hj, hnew, rfl⟩ := step?_eq_some_iff.mp hs
  have hr : r ∉ before ++ [w.state] := by
    rw [← h.seen, hnew]
    exact Bool.false_ne_true
  refine ⟨hj, fun p => ?_, ?_⟩
  · rw [BitSet.contains_insert, Bool.or_eq_true, decide_eq_true_eq, h.seen, List.mem_append (t := [r]),
      List.mem_singleton, or_comm]
  · exact h.nodup.append (List.nodup_singleton r) (List.disjoint_singleton.mpr hr)

theorem Behind.stop {w : Walk} {before : List Nat} (h : w.Behind before) (hs : w.step? jump = none) {r : Nat}
    (hj : jump w.state = some r) : r ∈ before ++ [w.state] := by
  rw [← h.seen]
  cases hr : w.seen.contains r with
  | true => rfl
  | false =>
    have hgo := step?_eq_some_iff.mpr ⟨r, hj, hr, rfl⟩
    rw [hs] at hgo
    cases hgo

theorem wellFounded_step {n : Nat} (hb : ∀ p r, jump p = some r → p < n) :
    WellFounded fun v w : Walk => w.step? jump = some v := by
  refine Subrelation.wf ?_ (measure (ahead n)).wf
  intro v w hs
  exact ahead_lt hb hs

variable {n : Nat} (hb : ∀ p r, jump p = some r → p < n)

theorem Behind.follow {w : Walk} {before : List Nat} (h : w.Behind before) :
    (w.state :: (w.follow hb).1).IsChain (fun p r => jump p = some r) ∧
      (before ++ w.state :: (w.follow hb).1).Nodup ∧
      ∀ r, jump ((w.follow hb).1.getLastD w.state) = some r → r ∈ before ++ w.state :: (w.follow hb).1 := by
  -- the path is taken from its front, and what it leaves there goes to the end of `before`
  fun_induction Walk.follow hb w generalizing before with
  | case1 w hs => exact ⟨List.isChain_singleton _, h.nodup, fun r hj => h.stop hs hj⟩
  | case2 w v hs path last hpath ih =>
    obtain ⟨hj, hv⟩ := h.step hs
    obtain ⟨hchain, hnodup, hend⟩ := ih hv
    rw [hpath] at hchain hnodup hend
    rw [List.append_assoc, List.singleton_append] at hnodup hend
    refine ⟨List.isChain_cons_cons.mpr ⟨hj, hchain⟩, hnodup, fun r hr => ?_⟩
    rw [List.getLastD_cons] at hr
    exact hend r hr

theorem follow_last (w : Walk) : (w.follow hb).2 = (w.follow hb).1.getLastD w.state := by
  fun_induction Walk.follow hb w with
  | case1 w hs => rfl
  | case2 w v hs path last hpath ih =>
    rw [hpath] at ih
    rw [List.getLastD_cons]
    exact ih

theorem follow_path (q : Nat) : JumpPath jump q ((start n q).follow hb).1 := by
  obtain ⟨hchain, hnodup, hend⟩ := (behind_start n q).follow hb
  exact ⟨hchain, hnodup, hend⟩

theorem jumpPath_iff (q : Nat) (path : List Nat) :
    JumpPath jump q path ↔ path = ((start n q).follow hb).1 := by
  constructor
  · intro h
    exact h.unique (follow_path hb q)
  · rintro rfl
    exact follow_path hb q

end

end Munch.Walk

/-! ## The jumps of an automaton -/

namespace Munch.Automaton

section
variable (a : Automaton)

theorem startPath_iff (path : List Nat) : JumpPath a.startJump 0 path ↔ path = a.startChain :=
  Walk.jumpPath_iff a.startJump_lt 0 path

theorem startState_eq : a.startState = a.startChain.getLastD 0 := Walk.follow_last a.startJump_lt _

theorem endPath (q : Nat) : JumpPath a.endJump q (a.endChain q) := Walk.follow_path a.endJump_lt q

theorem acceptsAtEnd_iff (q : Nat) :
    a.acceptsAtEnd q = true ↔ ∃ p, p ≠ q ∧ Leads a.endJump q p ∧ a.isAccepting p = true := by
  simp only [acceptsAtEnd, List.any_eq_true, (a.endPath q).mem_iff, and_assoc]

end

/-- **Jumps are followed to their end.** The start jumps lead through `startChain` to each state
that can be come to from there, once, but for state 0. The end of the input is accepted where end
jumps lead to another state that accepts. -/
theorem jumps_followed (a : Automaton) :
    (WellFounded fun v w : Walk => w.step? a.startJump = some v) ∧
    (WellFounded fun v w : Walk => w.step? a.endJump = some v) ∧
    (0 :: a.startChain).IsChain (fun p r => a.startJump p = some r) ∧ a.startChain.Nodup ∧
    (∀ p, p ∈ a.startChain ↔ p ≠ 0 ∧ Leads a.startJump 0 p) ∧
    a.startState = a.startChain.getLastD 0 ∧
    ∀ q, a.acceptsAtEnd q = true ↔ ∃ p, p ≠ q ∧ Leads a.endJump q p ∧ a.isAccepting p = true := by
  have hpath : JumpPath a.startJump 0 a.startChain := (a.startPath_iff _).mpr rfl
  exact ⟨Walk.wellFounded_step a.startJump_lt, Walk.wellFounded_step a.endJump_lt, hpath.steps,
    (List.nodup_cons.mp hpath.nodup).2, hpath.mem_iff, a.startState_eq, a.acceptsAtEnd_iff⟩

example :
    (⟨#[⟨#[], some 1, none⟩, ⟨#[], some 2, none⟩, ⟨#[], some 1, none⟩], .empty⟩ : Automaton).startWalk =
      ([1, 2], 2) := by
  decide +kernel

end Munch.Automaton
