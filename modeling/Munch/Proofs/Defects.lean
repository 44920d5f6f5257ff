import Munch.Proofs.Declarations

/-!
# The first defect

What a declaration must meet is a list of checks in the order in which they are made, and it
is refused for the first of them that fails.
-/

namespace Munch

/-- What is looked at in a declaration. -/
inductive Check
  | states
  | state (q : Nat)
  | range (lo hi : Char)
  /-- No two edges of the state take the same symbol. -/
  | apart (q : Nat)
  /-- The state is not among those that have a jump already. -/
  | alone (kind : JumpKind) (earlier : List Nat) (q : Nat)

namespace Check

def ofEdge : Nat × Edge → List Check
  | (q, e) => [.state q, .state e.target, .range e.lo e.hi]

def ofJumps (kind : JumpKind) : List Nat → List (Nat × Nat) → List Check
  | _, [] => []
  | earlier, (q, r) :: js => .state q :: .alone kind earlier q :: .state r :: ofJumps kind (q :: earlier) js

def apart? : Check → Option Nat
  | .apart q => some q
  | _ => none

end Check

namespace Declaration

def checks (d : Declaration) : List Check :=
  ([.states] ++ d.accept.map .state ++ d.edges.flatMap Check.ofEdge) ++
    ((List.range d.states).map .apart ++ Check.ofJumps .start [] d.startJumps ++
      Check.ofJumps .finish [] d.endJumps)

/-- Two different edges out of `q` take `c`. -/
def Shares (d : Declaration) (q : Nat) (c : Char) : Prop :=
  ∃ e f, (q, e) ∈ d.edges ∧ (q, f) ∈ d.edges ∧ e ≠ f ∧ e.Takes c ∧ f.Takes c

/-- What a check has against the declaration. -/
inductive Finds (d : Declaration) : Check → Defect → Prop
  | noStates : d.states = 0 → Finds d .states .noStates
  | stateOutOfRange {q : Nat} : d.states ≤ q → Finds d (.state q) (.stateOutOfRange q d.states)
  | emptyRange {lo hi : Char} : hi < lo → Finds d (.range lo hi) (.emptyRange lo hi)
  | overlap {q : Nat} {c : Char} : IsLeast {b | d.Shares q b} c → Finds d (.apart q) (.overlap q c)
  | duplicateJump {kind : JumpKind} {earlier : List Nat} {q : Nat} : q ∈ earlier →
      Finds d (.alone kind earlier q) (.duplicateJump q kind)

/-! ## The checks as they are made -/

def find? (d : Declaration) : Check → Option Defect
  | .states => if d.states = 0 then some .noStates else none
  | .state q => stateDefect? d.states q
  | .range lo hi => if hi < lo then some (.emptyRange lo hi) else none
  | .apart q => (overlap? (d.edgesFrom q)).map (.overlap q)
  | .alone kind earlier q => if q ∈ earlier then some (.duplicateJump q kind) else none

section
variable (d : Declaration)

theorem findSome?_ofEdge (edges : List (Nat × Edge)) :
    (edges.flatMap Check.ofEdge).findSome? d.find? = edges.findSome? (edgeDefect? d.states) := by
  induction edges with
  | nil => rfl
  | cons p edges ih =>
    obtain ⟨q, e⟩ := p
    rw [List.flatMap_cons, List.findSome?_append, ih, List.findSome?_cons]
    unfold edgeDefect?
    cases hq : stateDefect? d.states q <;> cases ht : stateDefect? d.states e.target <;>
      by_cases hlt : e.hi < e.lo <;> simp [Check.ofEdge, find?, hq, ht, hlt]

theorem findSome?_ofJumps (kind : JumpKind) (earlier : List Nat) (js : List (Nat × Nat)) :
    (Check.ofJumps kind earlier js).findSome? d.find? = jumpDefect? d.states kind earlier js := by
  induction js generalizing earlier with
  | nil => rfl
  | cons j js ih =>
    obtain ⟨q, r⟩ := j
    unfold jumpDefect?
    cases hq : stateDefect? d.states q <;> cases hr : stateDefect? d.states r <;>
      by_cases hm : q ∈ earlier <;> simp [Check.ofJumps, find?, hq, hr, hm, ih]

theorem defect?_eq_findSome? : d.defect? = d.checks.findSome? d.find? := by
  have hstates : [Check.states].findSome? d.find? = if d.states = 0 then some .noStates else none := by
    simp [find?]
  have haccept : (d.accept.map Check.state).findSome? d.find? = d.accept.findSome? (stateDefect? d.states) :=
    List.findSome?_map
  have hapart : ((List.range d.states).map Check.apart).findSome? d.find? =
      (List.range d.states).findSome? fun q => (overlap? (d.edgesFrom q)).map (.overlap q) :=
    List.findSome?_map
  simp only [checks, List.findSome?_append, hstates, haccept, findSome?_ofEdge, hapart, findSome?_ofJumps,
    defect?, Option.or_assoc, Option.orElse_eq_orElse, Option.orElse_eq_or]

end

/-! ## What they find -/

section
variable {d : Declaration} {q : Nat} (hvalid : ∀ e, (q, e) ∈ d.edges → e.lo ≤ e.hi) {c : Char}
include hvalid

theorem exists_overlap?_of_shares (h : d.Shares q c) : ∃ b, overlap? (d.edgesFrom q) = some b := by
  rw [← Option.ne_none_iff_exists']
  intro hnone
  obtain ⟨e, f, he, hf, hne, htakes⟩ := h
  exact ((overlap?_edgesFrom_eq_none_iff hvalid).mp hnone e f he hf).resolve_left hne c htakes

theorem isLeast_of_overlap?_edgesFrom (h : overlap? (d.edgesFrom q) = some c) : IsLeast {b | d.Shares q b} c := by
  simp only [Shares, ← mem_edgesFrom]
  refine isLeast_of_overlap? ?_ (isChain_dropRepeats _) (fun e he => hvalid e (mem_edgesFrom.mp he)) h
  exact (pairwise_sortEdges _).sublist (dropRepeats_sublist _)

theorem overlap?_edgesFrom_eq_some_iff : overlap? (d.edgesFrom q) = some c ↔ IsLeast {b | d.Shares q b} c := by
  constructor
  · exact isLeast_of_overlap?_edgesFrom hvalid
  · intro hc
    obtain ⟨b, hb⟩ := exists_overlap?_of_shares hvalid hc.1
    rw [hb, (isLeast_of_overlap?_edgesFrom hvalid hb).unique hc]

end

theorem find?_eq_some_iff {d : Declaration} {k : Check}
    (hvalid : ∀ q, k = .apart q → ∀ e, (q, e) ∈ d.edges → e.lo ≤ e.hi) {x : Defect} :
    d.find? k = some x ↔ d.Finds k x := by
  constructor
  · intro h
    cases k with
    | states =>
      rw [find?, Option.ite_none_right_eq_some] at h
      obtain ⟨h0, ⟨⟩⟩ := h
      exact .noStates h0
    | state q =>
      rw [find?, stateDefect?, Option.ite_none_left_eq_some] at h
      obtain ⟨hq, ⟨⟩⟩ := h
      exact .stateOutOfRange (Nat.le_of_not_lt hq)
    | range lo hi =>
      rw [find?, Option.ite_none_right_eq_some] at h
      obtain ⟨hlt, ⟨⟩⟩ := h
      exact .emptyRange hlt
    | apart q =>
      rw [find?, Option.map_eq_some_iff] at h
      obtain ⟨c, hc, rfl⟩ := h
      exact .overlap ((overlap?_edgesFrom_eq_some_iff (hvalid q rfl)).mp hc)
    | alone kind earlier q =>
      rw [find?, Option.ite_none_right_eq_some] at h
      obtain ⟨hm, ⟨⟩⟩ := h
      exact .duplicateJump hm
  · intro h
    cases h with
    | noStates h0 => exact if_pos h0
    | stateOutOfRange hq => exact if_neg (Nat.not_lt.mpr hq)
    | emptyRange hlt => exact if_pos hlt
    | overlap hc =>
      rw [find?, (overlap?_edgesFrom_eq_some_iff (hvalid _ rfl)).mpr hc]
      rfl
    | duplicateJump hm => exact if_pos hm

/-! ## The first that fails -/

theorem findSome?_eq_some_iff_of_agrees {α β : Type} {f : α → Option β} {R : α → β → Prop} {l : List α}
    (h : ∀ before k after, l = before ++ k :: after → (∀ j ∈ before, f j = none) →
      ∀ x, f k = some x ↔ R k x) (x : β) :
    l.findSome? f = some x ↔
      ∃ before k after, l = before ++ k :: after ∧ (∀ j ∈ before, ∀ y, ¬ R j y) ∧ R k x := by
  induction l with
  | nil => simp
  | cons a l ih =>
    have hfirst := h [] a l rfl fun j hj => nomatch hj
    rw [List.findSome?_cons]
    cases hf : f a with
    | some y =>
      have hy : R a y := (hfirst y).mp hf
      constructor
      · intro hx
        cases hx
        exact ⟨[], a, l, rfl, by simp, hy⟩
      · rintro ⟨before, k, after, heq, hnone, hk⟩
        cases before with
        | nil =>
          cases heq
          rw [← (hfirst x).mpr hk, hf]
        | cons j before =>
          cases heq
          exact absurd hy (hnone a (by simp) y)
    | none =>
      have hno : ∀ y, ¬ R a y := by
        intro y hy
        rw [← hfirst, hf] at hy
        cases hy
      have hrest := ih fun before k after heq hnone =>
        h (a :: before) k after (by rw [heq, List.cons_append]) (List.forall_mem_cons.mpr ⟨hf, hnone⟩)
      rw [hrest]
      constructor
      · rintro ⟨before, k, after, rfl, hnone, hk⟩
        exact ⟨a :: before, k, after, rfl, List.forall_mem_cons.mpr ⟨hno, hnone⟩, hk⟩
      · rintro ⟨before, k, after, heq, hnone, hk⟩
        cases before with
        | nil =>
          cases heq
          exact absurd hk (hno x)
        | cons j before =>
          cases heq
          exact ⟨before, k, after, rfl, fun j hj => hnone j (List.mem_cons_of_mem a hj), hk⟩

section
variable {d : Declaration} {before after : List Check} {q : Nat}

theorem lo_le_hi_of_split (h : d.checks = before ++ .apart q :: after)
    (hranges : ∀ lo hi, .range lo hi ∈ before → lo ≤ hi) {p : Nat} {e : Edge} (he : (p, e) ∈ d.edges) :
    e.lo ≤ e.hi := by
  have hrange : Check.range e.lo e.hi ∈ d.edges.flatMap Check.ofEdge :=
    List.mem_flatMap.mpr ⟨_, he, by simp [Check.ofEdge]⟩
  have hnot : Check.apart q ∉ [.states] ++ d.accept.map .state ++ d.edges.flatMap Check.ofEdge := by
    simp [Check.ofEdge]
  have hprefix : before ++ [.apart q] <+: d.checks := ⟨after, by rw [h, List.append_assoc]; rfl⟩
  rcases List.prefix_or_prefix_of_prefix (List.prefix_append _ _) hprefix with hle | hle
  · have hmem := hle.subset (List.mem_append_right _ hrange)
    rw [List.mem_append, List.mem_singleton] at hmem
    exact hranges _ _ (hmem.resolve_right Check.noConfusion)
  · exact absurd (hle.subset (by simp)) hnot

theorem apart?_of_mem_ofJumps {kind : JumpKind} {earlier : List Nat} {js : List (Nat × Nat)} :
    ∀ k ∈ Check.ofJumps kind earlier js, k.apart? = none := by
  induction js generalizing earlier with
  | nil => simp [Check.ofJumps]
  | cons j js ih =>
    obtain ⟨p, r⟩ := j
    simp only [Check.ofJumps, List.forall_mem_cons]
    exact ⟨rfl, rfl, rfl, ih⟩

theorem filterMap_checks (d : Declaration) : d.checks.filterMap Check.apart? = List.range d.states := by
  have haccept : (d.accept.map Check.state).filterMap Check.apart? = [] := by
    simp [List.filterMap_eq_nil_iff, Check.apart?]
  have hedges : (d.edges.flatMap Check.ofEdge).filterMap Check.apart? = [] := by
    rw [List.filterMap_eq_nil_iff]
    intro k hk
    obtain ⟨⟨q, e⟩, -, hk⟩ := List.mem_flatMap.mp hk
    simp only [Check.ofEdge, List.mem_cons, List.not_mem_nil, or_false] at hk
    rcases hk with rfl | rfl | rfl <;> rfl
  have hapart : ((List.range d.states).map Check.apart).filterMap Check.apart? = List.range d.states := by
    rw [List.filterMap_map]
    exact List.filterMap_some
  have hjumps : ∀ kind js, (Check.ofJumps kind [] js).filterMap Check.apart? = [] := fun _ _ =>
    List.filterMap_eq_nil_iff.mpr apart?_of_mem_ofJumps
  simp only [checks, List.filterMap_append, haccept, hedges, hapart, hjumps, List.append_nil]
  rfl

theorem apart_mem_of_split (h : d.checks = before ++ .apart q :: after) (p : Nat) (hp : p < q) :
    .apart p ∈ before := by
  have hsplit : List.range d.states = before.filterMap Check.apart? ++ q :: after.filterMap Check.apart? := by
    rw [← filterMap_checks, h, List.filterMap_append]
    rfl
  have hmem : ∀ p, p < d.states ↔ p ∈ before.filterMap Check.apart? ++ q :: after.filterMap Check.apart? := by
    intro p
    rw [← hsplit, List.mem_range]
  have hlt := List.pairwise_lt_range (n := d.states)
  rw [hsplit, List.pairwise_append, List.pairwise_cons] at hlt
  have hq : q < d.states := (hmem q).mpr (by simp)
  have hbefore : p ∈ before.filterMap Check.apart? := by
    rcases List.mem_append.mp ((hmem p).mp (Nat.lt_trans hp hq)) with hm | hm
    · exact hm
    · rcases List.mem_cons.mp hm with rfl | hm
      · exact absurd hp (Nat.lt_irrefl p)
      · exact absurd hp (Nat.lt_asymm (hlt.2.1.1 p hm))
  obtain ⟨k, hk, hkp⟩ := List.mem_filterMap.mp hbefore
  cases k with
  | apart r =>
    cases hkp
    exact hk
  | states | state | range | alone => cases hkp

end

theorem defect?_eq_some_iff {d : Declaration} {x : Defect} :
    d.defect? = some x ↔ ∃ before k after, d.checks = before ++ k :: after ∧
      (∀ j ∈ before, ∀ y, ¬ d.Finds j y) ∧ d.Finds k x := by
  rw [defect?_eq_findSome?]
  apply findSome?_eq_some_iff_of_agrees
  intro before k after h hnone y
  refine find?_eq_some_iff fun q hk e he => ?_
  subst hk
  refine lo_le_hi_of_split h (fun lo hi hm => ?_) he
  by_contra hlt
  have hfind := hnone _ hm
  rw [find?, if_pos (not_le.mp hlt)] at hfind
  cases hfind

/-- **The first defect.** A declaration is refused for what the first check to fail finds. An
overlap is on the least symbol that two edges of the least such state take. -/
theorem build_eq_error_iff (states : Nat) (steps : List Step) :
    let d := ofSteps states steps
    d = ⟨states, steps.flatMap Step.accepts, steps.flatMap Step.edges, steps.flatMap Step.startJumps,
        steps.flatMap Step.endJumps⟩ ∧
      (∀ x, d.build = .error x ↔ ∃ before k after, d.checks = before ++ k :: after ∧
        (∀ j ∈ before, ∀ y, ¬ d.Finds j y) ∧ d.Finds k x) ∧
      ∀ q c, d.build = .error (.overlap q c) →
        IsLeast {p | ∃ b, d.Shares p b} q ∧ IsLeast {b | d.Shares q b} c := by
  intro d
  have herror := fun x => (build_eq_error_iff_defect? (d := d) (x := x)).trans defect?_eq_some_iff
  refine ⟨ofSteps_eq states steps, herror, fun q c h => ?_⟩
  obtain ⟨before, k, after, hsplit, hnone, hk⟩ := (herror _).mp h
  cases hk with
  | overlap hc =>
    refine ⟨⟨⟨c, hc.1⟩, ?_⟩, hc⟩
    rintro p ⟨b, hb⟩
    by_contra hpq
    have hvalid : ∀ r e, (r, e) ∈ d.edges → e.lo ≤ e.hi := fun r e he =>
      lo_le_hi_of_split hsplit (fun lo hi hm => not_lt.mp fun hlt => hnone _ hm _ (.emptyRange hlt)) he
    obtain ⟨c', hc'⟩ := exists_overlap?_of_shares (hvalid p) hb
    have hp : Check.apart p ∈ before := apart_mem_of_split hsplit p (Nat.lt_of_not_le hpq)
    exact hnone _ hp _ (.overlap ((overlap?_edgesFrom_eq_some_iff (hvalid p)).mp hc'))

def crossing : List Step :=
  [.edge 1 ⟨'a', 'c', 0⟩, .edge 1 ⟨'b', 'b', 1⟩, .edge 0 ⟨'m', 'z', 1⟩, .edge 0 ⟨'p', 'q', 1⟩,
    .edge 0 ⟨'m', 'z', 1⟩, .edge 0 ⟨'d', 'n', 0⟩]

theorem build_eq_error_iff_crossing :
    (ofSteps 2 crossing).build = .error (.overlap 0 'm') ∧
      IsLeast {p | ∃ b, (ofSteps 2 crossing).Shares p b} 0 ∧ IsLeast {b | (ofSteps 2 crossing).Shares 0 b} 'm' := by
  have h : (ofSteps 2 crossing).build = .error (.overlap 0 'm') :=
    build_eq_error_iff_defect?.mpr (by decide +kernel)
  exact ⟨h, (build_eq_error_iff 2 crossing).2.2 0 'm' h⟩

end Declaration

end Munch
