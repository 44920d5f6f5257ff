import Mathlib.Data.Char
import Mathlib.Data.List.Chain
import Mathlib.Data.List.Pairwise
import Mathlib.Order.Bounds.Basic
import Munch.Declaration

/-!
# The edges of a state

In the order of their lower bounds, edges are apart from each other as soon as neighbours
are, and the edge that takes a symbol is found by halving.
-/

namespace Munch

namespace Edge

def Takes (e : Edge) (c : Char) : Prop := e.lo ≤ c ∧ c ≤ e.hi

def Apart (e f : Edge) : Prop := ∀ c, ¬ (e.Takes c ∧ f.Takes c)

theorem takes_single (b c : Char) (target : Nat) : Takes ⟨b, b, target⟩ c ↔ b = c := by
  unfold Takes
  exact antisymm_iff

theorem exists_single_iff {p q : Nat} {symbols : List Char} {target t : Nat} {c : Char} :
    (∃ e, (q, e) ∈ symbols.map (fun b => (p, Edge.mk b b target)) ∧ e.Takes c ∧ e.target = t) ↔
      p = q ∧ c ∈ symbols ∧ target = t := by
  simp only [List.mem_map, Prod.mk.injEq]
  constructor
  · rintro ⟨e, ⟨b, hb, rfl, rfl⟩, htakes, ht⟩
    rw [takes_single] at htakes
    exact ⟨rfl, htakes ▸ hb, ht⟩
  · rintro ⟨rfl, hc, rfl⟩
    exact ⟨⟨c, c, target⟩, ⟨c, hc, rfl, rfl⟩, (takes_single c c target).mpr rfl, rfl⟩

theorem exists_mem_singleton_iff {p q : Nat} {f : Edge} {t : Nat} {c : Char} :
    (∃ e, (q, e) ∈ [(p, f)] ∧ e.Takes c ∧ e.target = t) ↔ p = q ∧ f.Takes c ∧ f.target = t := by
  simp only [List.mem_singleton, Prod.mk.injEq]
  constructor
  · rintro ⟨e, ⟨rfl, rfl⟩, htakes⟩
    exact ⟨rfl, htakes⟩
  · rintro ⟨rfl, htakes⟩
    exact ⟨f, ⟨rfl, rfl⟩, htakes⟩

theorem lt_of_apart {e f : Edge} (h : e.Apart f) (hlo : e.lo ≤ f.lo) (hf : f.lo ≤ f.hi) : e.hi < f.lo := by
  by_contra hle
  exact h f.lo ⟨⟨hlo, not_lt.mp hle⟩, le_refl f.lo, hf⟩

theorem apart_of_lt {e f : Edge} (h : e.hi < f.lo) : e.Apart f := by
  rintro c ⟨⟨-, he⟩, hf, -⟩
  exact absurd (lt_of_le_of_lt he h) (not_lt.mpr hf)

instance : Std.Symm Apart := ⟨fun _ _ h c hc => h c hc.symm⟩

end Edge

namespace Declaration

/-! ## Putting them in order -/

theorem mem_insertEdge {e f : Edge} {es : List Edge} : f ∈ insertEdge e es ↔ f = e ∨ f ∈ es := by
  induction es with
  | nil => simp [insertEdge]
  | cons g es ih =>
    unfold insertEdge
    split
    · simp
    · simp [ih, or_left_comm]

theorem mem_sortEdges {e : Edge} {es : List Edge} : e ∈ sortEdges es ↔ e ∈ es := by
  unfold sortEdges
  induction es with
  | nil => simp
  | cons f es ih => rw [List.foldr_cons, mem_insertEdge, ih, List.mem_cons]

theorem pairwise_insertEdge {e : Edge} {es : List Edge} (h : es.Pairwise fun e f => e.lo ≤ f.lo) :
    (insertEdge e es).Pairwise fun e f => e.lo ≤ f.lo := by
  induction es with
  | nil => simp [insertEdge]
  | cons g es ih =>
    rw [List.pairwise_cons] at h
    unfold insertEdge
    split
    · rename_i hle
      refine List.pairwise_cons.mpr ⟨fun f hf => ?_, List.pairwise_cons.mpr h⟩
      rcases List.mem_cons.mp hf with rfl | hf
      · exact hle
      · exact le_trans hle (h.1 f hf)
    · rename_i hle
      refine List.pairwise_cons.mpr ⟨fun f hf => ?_, ih h.2⟩
      rcases mem_insertEdge.mp hf with rfl | hf
      · exact le_of_not_ge hle
      · exact h.1 f hf

theorem pairwise_sortEdges (es : List Edge) : (sortEdges es).Pairwise fun e f => e.lo ≤ f.lo := by
  unfold sortEdges
  induction es with
  | nil => exact .nil
  | cons e es ih => exact pairwise_insertEdge ih

/-! ## Dropping repeats -/

theorem mem_dropRepeats {e : Edge} {es : List Edge} : e ∈ dropRepeats es ↔ e ∈ es := by
  fun_induction dropRepeats es with
  | case1 | case2 => rfl
  | case3 f fs ih => simp [ih]
  | case4 f g fs _ ih => rw [List.mem_cons, ih, List.mem_cons (a := e) (b := f)]

theorem dropRepeats_sublist (es : List Edge) : (dropRepeats es).Sublist es := by
  fun_induction dropRepeats es with
  | case1 | case2 => exact List.Sublist.refl _
  | case3 f fs ih => exact ih.cons f
  | case4 f g fs _ ih => exact ih.cons_cons f

theorem head?_dropRepeats (e : Edge) (es : List Edge) : (dropRepeats (e :: es)).head? = some e := by
  induction es generalizing e with
  | nil => rfl
  | cons f es ih =>
    unfold dropRepeats
    split
    · rename_i heq
      rw [ih, heq]
    · rfl

theorem isChain_dropRepeats (es : List Edge) : (dropRepeats es).IsChain (· ≠ ·) := by
  fun_induction dropRepeats es with
  | case1 => exact .nil
  | case2 e => exact .singleton e
  | case3 f fs ih => exact ih
  | case4 e f fs hne ih =>
    have hhead := head?_dropRepeats f fs
    rcases hd : dropRepeats (f :: fs) with _ | ⟨g, gs⟩
    · exact .singleton e
    · rw [hd, List.head?_cons, Option.some.injEq] at hhead
      subst hhead
      rw [hd] at ih
      exact .cons_cons hne ih

/-! ## Neighbours are enough -/

theorem pairwise_of_overlap? : ∀ {es : List Edge}, (∀ e ∈ es, e.lo ≤ e.hi) → overlap? es = none →
    es.Pairwise fun e f => e.hi < f.lo
  | [], _, _ => .nil
  | [e], _, _ => List.pairwise_singleton _ e
  | e :: f :: fs, hvalid, h => by
    unfold overlap? at h
    split at h
    · cases h
    · rename_i hlt
      rw [not_le] at hlt
      have hrest := pairwise_of_overlap? (fun g hg => hvalid g (List.mem_cons_of_mem e hg)) h
      refine List.pairwise_cons.mpr ⟨fun g hg => ?_, hrest⟩
      rcases List.mem_cons.mp hg with rfl | hg
      · exact hlt
      · calc
          e.hi < f.lo := hlt
          _ ≤ f.hi := hvalid f (by simp)
          _ < g.lo := (List.pairwise_cons.mp hrest).1 g hg

theorem overlap?_of_apart : ∀ {es : List Edge}, es.Pairwise (fun e f => e.lo ≤ f.lo) → es.IsChain (· ≠ ·) →
    (∀ e ∈ es, e.lo ≤ e.hi) → (∀ e ∈ es, ∀ f ∈ es, e = f ∨ e.Apart f) → overlap? es = none
  | [], _, _, _, _ => rfl
  | [_], _, _, _, _ => rfl
  | e :: f :: fs, hsorted, hne, hvalid, hapart => by
    rw [List.isChain_cons_cons] at hne
    rw [List.pairwise_cons] at hsorted
    have hlt : e.hi < f.lo := by
      apply Edge.lt_of_apart
      · exact (hapart e (by simp) f (by simp)).resolve_left hne.1
      · exact hsorted.1 f (by simp)
      · exact hvalid f (by simp)
    rw [overlap?, if_neg (not_le.mpr hlt)]
    exact overlap?_of_apart hsorted.2 hne.2 (fun g hg => hvalid g (List.mem_cons_of_mem e hg))
      fun g hg k hk => hapart g (List.mem_cons_of_mem e hg) k (List.mem_cons_of_mem e hk)

theorem overlap?_eq_none_iff {es : List Edge} (hvalid : ∀ e ∈ es, e.lo ≤ e.hi) :
    overlap? (dropRepeats (sortEdges es)) = none ↔ ∀ e ∈ es, ∀ f ∈ es, e = f ∨ e.Apart f := by
  have hmem : ∀ e, e ∈ dropRepeats (sortEdges es) ↔ e ∈ es := fun e => mem_dropRepeats.trans mem_sortEdges
  have hvalid' : ∀ e ∈ dropRepeats (sortEdges es), e.lo ≤ e.hi := fun e he => hvalid e ((hmem e).mp he)
  constructor
  · intro h e he f hf
    by_cases heq : e = f
    · exact Or.inl heq
    · have hpair : (dropRepeats (sortEdges es)).Pairwise Edge.Apart :=
        (pairwise_of_overlap? hvalid' h).imp Edge.apart_of_lt
      exact Or.inr (hpair.forall ((hmem e).mpr he) ((hmem f).mpr hf) heq)
  · intro h
    apply overlap?_of_apart _ (isChain_dropRepeats _) hvalid'
    · intro e he f hf
      exact h e ((hmem e).mp he) f ((hmem f).mp hf)
    · exact (pairwise_sortEdges es).sublist (dropRepeats_sublist _)

/-- The first neighbours that overlap do so at the least symbol that two edges take. -/
theorem isLeast_of_overlap? : ∀ {es : List Edge} {c : Char}, es.Pairwise (fun e f => e.lo ≤ f.lo) →
    es.IsChain (· ≠ ·) → (∀ e ∈ es, e.lo ≤ e.hi) → overlap? es = some c →
    IsLeast {b | ∃ e f, e ∈ es ∧ f ∈ es ∧ e ≠ f ∧ e.Takes b ∧ f.Takes b} c
  | [], _, _, _, _, h => nomatch h
  | [_], _, _, _, _, h => nomatch h
  | e :: f :: fs, c, hsorted, hne, hvalid, h => by
    rw [List.isChain_cons_cons] at hne
    rw [List.pairwise_cons] at hsorted
    have hlater : ∀ g ∈ f :: fs, f.lo ≤ g.lo := by
      intro g hg
      rcases List.mem_cons.mp hg with rfl | hg
      · exact le_refl _
      · exact (List.pairwise_cons.mp hsorted.2).1 g hg
    rw [overlap?] at h
    split at h
    · rename_i hle
      cases h
      refine ⟨⟨e, f, by simp, by simp, hne.1, ⟨hsorted.1 f (by simp), hle⟩, le_refl _, hvalid f (by simp)⟩, ?_⟩
      -- of two different edges one is not the first
      rintro b ⟨g, k, hg, hk, hgk, hgb, hkb⟩
      rcases List.mem_cons.mp hg with rfl | hg
      · exact le_trans (hlater k ((List.mem_cons.mp hk).resolve_left hgk.symm)) hkb.1
      · exact le_trans (hlater g hg) hgb.1
    · rename_i hlt
      rw [not_le] at hlt
      obtain ⟨⟨g, k, hg, hk, hgk, hgc, hkc⟩, hleast⟩ :=
        isLeast_of_overlap? hsorted.2 hne.2 (fun g hg => hvalid g (List.mem_cons_of_mem e hg)) h
      refine ⟨⟨g, k, List.mem_cons_of_mem e hg, List.mem_cons_of_mem e hk, hgk, hgc, hkc⟩, ?_⟩
      have hfirst : ∀ b, e.Takes b → ∀ g ∈ f :: fs, ¬ g.Takes b := fun b hb g hg hgb =>
        absurd (lt_of_le_of_lt hb.2 hlt) (not_lt.mpr (le_trans (hlater g hg) hgb.1))
      rintro b ⟨g, k, hg, hk, hgk, hgb, hkb⟩
      rcases List.mem_cons.mp hg with rfl | hg'
      · exact absurd hkb (hfirst b hgb k ((List.mem_cons.mp hk).resolve_left hgk.symm))
      · rcases List.mem_cons.mp hk with rfl | hk'
        · exact absurd hgb (hfirst b hkb g hg')
        · exact hleast ⟨g, k, hg', hk', hgk, hgb, hkb⟩

end Declaration

/-! ## Finding the one that takes a symbol -/

theorem Edge.firstReaching_spec (edges : Array Edge) (c : Char) (low high : Nat) (h : high ≤ edges.size)
    (hmono : ∀ i j (hi : i < edges.size) (hj : j < edges.size), i ≤ j → edges[i].hi ≤ edges[j].hi)
    (hlow : ∀ j (hj : j < edges.size), j < low → edges[j].hi < c)
    (hhigh : ∀ j (hj : j < edges.size), high ≤ j → c ≤ edges[j].hi) :
    (∀ j (hj : j < edges.size), j < firstReaching edges c low high h → edges[j].hi < c) ∧
      ∀ j (hj : j < edges.size), firstReaching edges c low high h ≤ j → c ≤ edges[j].hi := by
  fun_induction firstReaching edges c low high h with
  | case1 low high h hl mid hm hlt ih =>
    apply ih _ hhigh
    intro j hj hjm
    exact lt_of_le_of_lt (hmono j mid hj hm (Nat.le_of_lt_succ hjm)) hlt
  | case2 low high h hl mid hm hle ih =>
    apply ih hlow
    intro j hj hjm
    exact le_trans (not_lt.mp hle) (hmono mid j hm hj hjm)
  | case3 low high h hl =>
    exact ⟨hlow, fun j hj hjl => hhigh j hj (Nat.le_trans (Nat.le_of_not_lt hl) hjl)⟩

theorem Automaton.transition_eq_some_iff (a : Automaton) (q : Nat)
    (hapart : (a.edges q).toList.Pairwise fun e f => e.hi < f.lo) (hvalid : ∀ e ∈ a.edges q, e.lo ≤ e.hi)
    (c : Char) (t : Nat) :
    a.transition q c = some t ↔ ∃ e ∈ a.edges q, e.Takes c ∧ e.target = t := by
  rw [List.pairwise_iff_getElem] at hapart
  have hlt : ∀ i j (hi : i < (a.edges q).size) (hj : j < (a.edges q).size), i < j →
      (a.edges q)[i].hi < (a.edges q)[j].lo := by
    intro i j hi hj hij
    have := hapart i j (by simpa using hi) (by simpa using hj) hij
    rwa [Array.getElem_toList, Array.getElem_toList] at this
  have hmono : ∀ i j (hi : i < (a.edges q).size) (hj : j < (a.edges q).size), i ≤ j →
      (a.edges q)[i].hi ≤ (a.edges q)[j].hi := by
    intro i j hi hj hij
    rcases Nat.lt_or_eq_of_le hij with hij | rfl
    · exact le_trans (le_of_lt (hlt i j hi hj hij)) (hvalid _ (Array.getElem_mem hj))
    · exact le_refl _
  obtain ⟨hbelow, habove⟩ := Edge.firstReaching_spec (a.edges q) c 0 (a.edges q).size (Nat.le_refl _) hmono
    (fun j _ hj => absurd hj (Nat.not_lt_zero j)) (fun j hj hle => absurd hj (Nat.not_lt.mpr hle))
  unfold transition
  dsimp only
  generalize Edge.firstReaching (a.edges q) c 0 (a.edges q).size _ = i at *
  constructor
  · intro h
    by_cases hi : i < (a.edges q).size
    · rw [Array.getElem?_eq_getElem hi] at h
      dsimp only at h
      split at h
      · rename_i hlo
        exact ⟨_, Array.getElem_mem hi, ⟨hlo, habove i hi (Nat.le_refl i)⟩, Option.some.inj h⟩
      · cases h
    · simp [Array.getElem?_eq_none (Nat.le_of_not_lt hi)] at h
  · rintro ⟨e, he, ⟨hlo, hhi⟩, rfl⟩
    obtain ⟨j, hj, rfl⟩ := Array.mem_iff_getElem.mp he
    have hij : i = j := by
      rcases Nat.lt_trichotomy i j with hij | hij | hij
      · -- the edge at `i` ends before the one at `j` begins, but reaches `c`
        have hi : i < (a.edges q).size := Nat.lt_trans hij hj
        have := lt_of_le_of_lt (habove i hi (Nat.le_refl i)) (hlt i j hi hj hij)
        exact absurd (lt_of_lt_of_le this hlo) (lt_irrefl c)
      · exact hij
      · exact absurd (lt_of_lt_of_le (hbelow j hj hij) hhi) (lt_irrefl _)
    subst hij
    simp [Array.getElem?_eq_getElem hj, hlo]

end Munch
