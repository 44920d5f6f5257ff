import Munch.Match

/-!
# The best match

`IsBest P` singles out the match that wins among all that satisfy `P`. Folding
offers keeps it, so their order does not matter.
-/

namespace Munch.Match

/-- The longest match that satisfies `P`, of the longest the one of the first rule,
or none if nothing satisfies `P`. -/
def IsBest (P : Match → Prop) : Option Match → Prop
  | none => ∀ m, ¬ P m
  | some m => P m ∧ ∀ n, P n → n.length < m.length ∨ n.length = m.length ∧ m.rule ≤ n.rule

theorem beats_iff (m n : Match) :
    m.beats n = true ↔ n.length < m.length ∨ m.length = n.length ∧ m.rule < n.rule := by
  simp [beats]

theorem isBest_congr {P Q : Match → Prop} (h : ∀ m, P m ↔ Q m) (best : Option Match) :
    IsBest P best ↔ IsBest Q best := by
  rw [show P = Q from funext fun m => propext (h m)]

theorem isBest_unique {P : Match → Prop} : ∀ {b c : Option Match}, IsBest P b → IsBest P c → b = c
  | none, none, _, _ => rfl
  | none, some n, hb, hc => absurd hc.1 (hb n)
  | some m, none, hb, hc => absurd hb.1 (hc m)
  | some ⟨i, k⟩, some ⟨j, l⟩, hb, hc => by
    have h1 := hb.2 _ hc.1
    have h2 := hc.2 _ hb.1
    simp only at h1 h2
    rw [show i = j by omega, show k = l by omega]

theorem isBest_offer {P : Match → Prop} {best : Option Match} (h : IsBest P best) (m : Match) :
    IsBest (fun n => P n ∨ n = m) (offer best m) := by
  cases best with
  | none =>
    refine ⟨Or.inr rfl, fun n hn => ?_⟩
    rcases hn with hn | rfl
    · exact absurd hn (h n)
    · exact Or.inr ⟨rfl, Nat.le_refl _⟩
  | some b =>
    simp only [offer]
    split
    · rename_i hb
      rw [beats_iff] at hb
      refine ⟨Or.inr rfl, fun n hn => ?_⟩
      rcases hn with hn | rfl
      · have := h.2 n hn
        omega
      · exact Or.inr ⟨rfl, Nat.le_refl _⟩
    · rename_i hb
      rw [beats_iff] at hb
      refine ⟨Or.inl h.1, fun n hn => ?_⟩
      rcases hn with hn | rfl
      · exact h.2 n hn
      · omega

theorem isBest_offerAll {P : Match → Prop} {best : Option Match} (h : IsBest P best) (offers : List Match) :
    IsBest (fun n => P n ∨ n ∈ offers) (offerAll best offers) := by
  induction offers generalizing P best with
  | nil => exact (isBest_congr (by simp) best).mp h
  | cons m offers ih =>
    refine (isBest_congr (fun n => ?_) _).mp (ih (isBest_offer h m))
    rw [List.mem_cons, or_assoc]

/-- Offers of two lists in one, each list in its own order. -/
inductive Interleaves : List Match → List Match → List Match → Prop
  | nil : Interleaves [] [] []
  | first (m : Match) {s t u : List Match} : Interleaves s t u → Interleaves (m :: s) t (m :: u)
  | second (m : Match) {s t u : List Match} : Interleaves s t u → Interleaves s (m :: t) (m :: u)

theorem Interleaves.mem_iff {s t u : List Match} (h : Interleaves s t u) (n : Match) :
    n ∈ u ↔ n ∈ s ∨ n ∈ t := by
  induction h with
  | nil => simp
  | first m _ ih => rw [List.mem_cons, List.mem_cons, ih, or_assoc]
  | second m _ ih => rw [List.mem_cons, List.mem_cons, ih, or_left_comm]

theorem isBest_self (best : Option Match) : IsBest (fun m => best = some m) best := by
  cases best with
  | none => exact fun m => nofun
  | some m =>
    refine ⟨rfl, fun n hn => ?_⟩
    cases hn
    exact Or.inr ⟨rfl, Nat.le_refl _⟩

theorem isBest_offerAll_self (best : Option Match) (offers : List Match) :
    IsBest (fun m => best = some m ∨ m ∈ offers) (offerAll best offers) :=
  isBest_offerAll (isBest_self best) offers

theorem offerAll_congr (best : Option Match) {offers offers' : List Match} (h : ∀ m, m ∈ offers' ↔ m ∈ offers) :
    offerAll best offers' = offerAll best offers := by
  refine isBest_unique (isBest_offerAll_self best offers') ?_
  refine (isBest_congr (fun m => ?_) _).mp (isBest_offerAll_self best offers)
  rw [h]

theorem offerAll_append (best : Option Match) (first second : List Match) :
    offerAll best (first ++ second) = offerAll (offerAll best first) second :=
  List.foldl_append

/-- **Resolution.** The candidate after any offers is the best of them, whatever their order and
however often they come. -/
theorem offerAll_order_free (best : Option Match) (offers : List Match) :
    IsBest (fun m => best = some m ∨ m ∈ offers) (offerAll best offers) ∧
      (∀ offers', (∀ m, m ∈ offers' ↔ m ∈ offers) → offerAll best offers' = offerAll best offers) ∧
      ∀ first second, Interleaves first second offers →
        offerAll (offerAll best first) second = offerAll best offers := by
  refine ⟨isBest_offerAll_self best offers, fun offers' h => offerAll_congr best h, fun first second h => ?_⟩
  rw [← offerAll_append]
  exact offerAll_congr best fun m => by rw [List.mem_append, h.mem_iff]

theorem offerAll_order_free_ties :
    let offers : List Match := [⟨2, 3⟩, ⟨0, 1⟩, ⟨1, 3⟩]
    let shuffled : List Match := [⟨1, 3⟩, ⟨2, 3⟩, ⟨1, 3⟩, ⟨0, 1⟩]
    (∀ m, m ∈ shuffled ↔ m ∈ offers) ∧ Interleaves [⟨2, 3⟩, ⟨1, 3⟩] [⟨0, 1⟩] offers ∧
      offerAll (some ⟨4, 3⟩) shuffled = some ⟨1, 3⟩ ∧
      offerAll (offerAll (some ⟨4, 3⟩) [⟨2, 3⟩, ⟨1, 3⟩]) [⟨0, 1⟩] = some ⟨1, 3⟩ := by
  intro offers shuffled
  have hmem : ∀ m, m ∈ shuffled ↔ m ∈ offers := by
    intro m
    simp only [offers, shuffled, List.mem_cons, List.not_mem_nil, or_false]
    grind
  have hinterleaves : Interleaves [⟨2, 3⟩, ⟨1, 3⟩] [⟨0, 1⟩] offers := .first _ (.second _ (.first _ .nil))
  have hbest : offerAll (some ⟨4, 3⟩) offers = some ⟨1, 3⟩ := by decide
  obtain ⟨-, hsame, hboth⟩ := offerAll_order_free (some ⟨4, 3⟩) offers
  exact ⟨hmem, hinterleaves, (hsame _ hmem).trans hbest, (hboth _ _ hinterleaves).trans hbest⟩

end Munch.Match
