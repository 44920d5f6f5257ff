import Mathlib.Algebra.Group.Nat.Defs
import Munch.Listing
import Munch.Proofs.WholeScans

/-!
# Outlines

`outline` lists what a scan gives, with the outline of its text behind each frame that has
nested rules. It knows nothing of streams, and each of its scans is a scan of its own.
-/

namespace Munch

/-- The nested rules that a frame of the family is scanned again with, and the text. -/
def Frame.nestedIn? (family : Family) : Frame → Option (Family × List Char)
  | .token rule text _ _ => family[rule]?.bind fun r => if r.nested = [] then none else some (r.nested, text)
  | .sentinel .. => none

/-- What the family calls the rule of a frame. -/
def Frame.nameIn (family : Family) : Frame → String
  | .token rule _ _ _ => (family[rule]?.bind (·.name)).getD ""
  | .sentinel .. => ""

abbrev Listing := List Record × Option StreamError

namespace Listing

def behind (r : Record) (l : Listing) : Listing := (r :: l.1, l.2)

/-- Nothing comes behind an error. -/
def andThen (first more : Listing) : Listing :=
  match first with
  | (records, none) => (records ++ more.1, more.2)
  | (records, some e) => (records, some e)

end Listing

theorem height_of_mem {r : Rule} {family : Family} (h : r ∈ family) :
    Family.height r.nested < Family.height family := by
  induction family with
  | nil => cases h
  | cons r' family ih =>
    show Family.height r.nested < Nat.max (r'.height + 1) (Family.height family)
    rcases List.mem_cons.mp h with rfl | h
    · have hr : r.height = Family.height r.nested := by cases r; rfl
      rw [← hr]
      exact Nat.le_max_left ..
    · exact Nat.lt_of_lt_of_le (ih h) (Nat.le_max_right ..)

theorem nestedIn?_eq_some {f : Frame} {family nested : Family} {text : List Char}
    (h : f.nestedIn? family = some (nested, text)) :
    ∃ r ∈ family, f.ruleIn? family = some r ∧ r.nested = nested ∧ nested ≠ [] ∧ f.text = text := by
  cases f with
  | sentinel => cases h
  | token rule text line column =>
    obtain ⟨r, hr, hn⟩ := Option.bind_eq_some_iff.mp h
    refine ⟨r, List.mem_of_getElem? hr, hr, ?_⟩
    split at hn
    · cases hn
    · rename_i hne
      cases hn
      exact ⟨rfl, hne, rfl⟩

theorem height_of_nestedIn? {f : Frame} {family nested : Family} {text : List Char}
    (h : f.nestedIn? family = some (nested, text)) : Family.height nested < Family.height family := by
  obtain ⟨r, hm, -, rfl, -⟩ := nestedIn?_eq_some h
  exact height_of_mem hm

/-- All that a new scan of this level gives, unless the level is one too many. -/
def freshItems (options : Options) (level : Nat) (family : Family) (feed : Feed) :
    List (Except StreamError Frame) :=
  if level = options.maxDepth then [.error (.tooDeep options.maxDepth)]
  else (Scan.ofFeed family options feed).all.1.map (Except.mapError .scan)

def outline (options : Options) (level : Nat) (family : Family) : List (Except StreamError Frame) → Listing
  | [] => ([], none)
  | .error e :: _ => ([], some e)
  | .ok f :: items =>
    match _ : f.nestedIn? family with
    | none => (outline options level family items).behind ⟨level, f, f.nameIn family⟩
    | some (nested, text) =>
      Listing.behind ⟨level, f, f.nameIn family⟩
        ((outline options (level + 1) nested (freshItems options (level + 1) nested (Feed.ofText text))).andThen
          (outline options level family items))
termination_by items => (Family.height family, items.length)
decreasing_by
  · exact Prod.Lex.right _ (Nat.lt_succ_self _)
  · exact Prod.Lex.left _ _ (height_of_nestedIn? ‹_›)
  · exact Prod.Lex.right _ (Nat.lt_succ_self _)

/-! ## How an outline ends -/

section
variable {options : Options} {level : Nat} {family : Family} {items : List (Except StreamError Frame)}

theorem nestedIn?_of_sentinel {f : Frame} (h : f.isSentinel = true) (family : Family) :
    f.nestedIn? family = none := by
  cases f with
  | token => cases h
  | sentinel => rfl

theorem Listing.andThen_eq_none {first more : Listing} (h : (first.andThen more).2 = none) :
    more.2 = none ∧ (first.andThen more).1 = first.1 ++ more.1 := by
  obtain ⟨records, _ | e⟩ := first
  · exact ⟨h, rfl⟩
  · cases h

theorem Listing.andThen_eq_some {first more : Listing} {e : StreamError} (h : (first.andThen more).2 = some e) :
    first.2 = some e ∨ more.2 = some e := by
  obtain ⟨records, _ | e'⟩ := first
  · exact Or.inr h
  · exact Or.inl h

theorem Listing.length_andThen (first more : Listing) :
    (first.andThen more).1.length ≤ first.1.length + more.1.length := by
  obtain ⟨records, _ | e⟩ := first
  · exact List.length_append.le
  · exact Nat.le_add_right ..

theorem getLast?_of_cons {α : Type} {a b : α} {as : List α} (h : (a :: as).getLast? = some b) :
    as = [] ∧ a = b ∨ as.getLast? = some b := by
  cases as with
  | nil => exact Or.inl ⟨rfl, Option.some.inj h⟩
  | cons a' as => exact Or.inr (by rwa [List.getLast?_cons_cons] at h)

theorem outline_ends {f : Frame} (hf : f.isSentinel = true) (hlast : items.getLast? = some (.ok f))
    (h : (outline options level family items).2 = none) :
    ∃ records, (outline options level family items).1 = records ++ [⟨level, f, f.nameIn family⟩] := by
  fun_induction outline options level family items with
  | case1 => cases hlast
  | case2 => cases h
  | case3 level family g items hn ih =>
    rcases getLast?_of_cons hlast with ⟨rfl, hg⟩ | hlast
    · cases hg
      rw [outline]
      exact ⟨[], rfl⟩
    · obtain ⟨records, hr⟩ := ih hlast h
      exact ⟨⟨level, g, g.nameIn family⟩ :: records, congrArg (_ :: ·) hr⟩
  | case4 level family g items nested text hn _ ih =>
    rcases getLast?_of_cons hlast with ⟨rfl, hg⟩ | hlast
    · cases hg
      rw [nestedIn?_of_sentinel hf] at hn
      cases hn
    · obtain ⟨hmore, happend⟩ := Listing.andThen_eq_none h
      obtain ⟨records, hr⟩ := ih hlast hmore
      rw [hr, ← List.append_assoc] at happend
      exact ⟨⟨level, g, g.nameIn family⟩ :: _, congrArg (_ :: ·) happend⟩

theorem error_of_mem_freshItems {feed : Feed} {e : StreamError} (h : .error e ∈ freshItems options level family feed) :
    (∃ e', e = .scan e') ∨ e = .tooDeep options.maxDepth := by
  unfold freshItems at h
  split at h
  · cases List.mem_singleton.mp h
    exact Or.inr rfl
  · obtain ⟨item, -, hi⟩ := List.mem_map.mp h
    cases item with
    | error e' =>
      cases hi
      exact Or.inl ⟨e', rfl⟩
    | ok f => cases hi

theorem outline_error {e : StreamError} (h : (outline options level family items).2 = some e)
    (hi : ∀ e, .error e ∈ items → (∃ e', e = .scan e') ∨ e = .tooDeep options.maxDepth) :
    (∃ e', e = .scan e') ∨ e = .tooDeep options.maxDepth := by
  fun_induction outline options level family items with
  | case1 => cases h
  | case2 =>
    cases h
    exact hi e List.mem_cons_self
  | case3 level family f items _ ih => exact ih h fun e he => hi e (List.mem_cons_of_mem _ he)
  | case4 level family f items nested text _ ihb ih =>
    rcases Listing.andThen_eq_some h with h | h
    · exact ihb h fun e he => error_of_mem_freshItems he
    · exact ih h fun e he => hi e (List.mem_cons_of_mem _ he)

theorem no_error_of_outline (h : (outline options level family items).2 = none) (e : StreamError) :
    .error e ∉ items := by
  fun_induction outline options level family items with
  | case1 => exact List.not_mem_nil
  | case2 => cases h
  | case3 level family f items _ ih => simpa using ih h
  | case4 level family f items nested text _ _ ih => simpa using ih (Listing.andThen_eq_none h).1

/-- An outline ends with the sentinel of its level, or with an error. -/
theorem outline_freshItems (options : Options) (level : Nat) (family : Family) (feed : Feed) :
    match (outline options level family (freshItems options level family feed)).2 with
    | none => ∃ records line column, (outline options level family (freshItems options level family feed)).1 =
        records ++ [⟨level, .sentinel line column, ""⟩]
    | some e => (∃ e', e = .scan e') ∨ e = .tooDeep options.maxDepth := by
  cases h : (outline options level family (freshItems options level family feed)).2 with
  | some e => exact outline_error h fun e he => error_of_mem_freshItems he
  | none =>
    have hno := no_error_of_outline h
    by_cases hdeep : level = options.maxDepth
    · rw [freshItems, if_pos hdeep] at hno
      exact absurd List.mem_cons_self (hno _)
    · rw [freshItems, if_neg hdeep] at h hno ⊢
      obtain ⟨frames, last, hall, -, hlast⟩ := (Scan.gives_all family options feed).1.last
      rw [hall] at h hno ⊢
      cases last with
      | error e => exact absurd (List.mem_map_of_mem (List.mem_append_right _ List.mem_cons_self)) (hno (.scan e))
      | ok f =>
        have hf := hlast f rfl
        obtain ⟨records, hr⟩ := outline_ends (f := f) hf (by simp [Except.mapError]) h
        cases f with
        | token => cases hf
        | sentinel line column => exact ⟨records, line, column, hr⟩

/-! ## How long an outline is -/

theorem freshItems_bounds (options : Options) (level : Nat) (family : Family) (feed : Feed) :
    (freshItems options level family feed).length ≤ feed.pending.length + 2 ∧
      ∀ f, .ok f ∈ freshItems options level family feed → f.text.length ≤ feed.pending.length := by
  obtain ⟨hg, hle⟩ := Scan.gives_all family options feed
  unfold freshItems
  split
  · exact ⟨Nat.le_add_left .., fun f hf => by cases List.mem_singleton.mp hf⟩
  · refine ⟨by rwa [List.length_map], fun f hf => ?_⟩
    obtain ⟨item, hm, hi⟩ := List.mem_map.mp hf
    cases item with
    | error e => cases hi
    | ok g =>
      cases hi
      have hsize := hg.text_length_le hm
      simpa [Scan.ofFeed, Window.size] using hsize

theorem length_outline (options : Options) (level : Nat) (family : Family) (n : Nat)
    (h : ∀ f, .ok f ∈ items → f.text.length ≤ n) :
    (outline options level family items).1.length ≤ items.length * (n + 3) ^ Family.height family := by
  fun_induction outline options level family items with
  | case1 => exact Nat.zero_le _
  | case2 => exact Nat.zero_le _
  | case3 level family f items _ ih =>
    have hpos : 1 ≤ (n + 3) ^ Family.height family := Nat.one_le_pow _ _ (by omega)
    have hmore := ih fun f hf => h f (List.mem_cons_of_mem _ hf)
    simp only [Listing.behind, List.length_cons, Nat.succ_mul]
    omega
  | case4 level family f items nested text hn ihb ih =>
    have hmore := ih fun f hf => h f (List.mem_cons_of_mem _ hf)
    have htext : text.length ≤ n := by
      obtain ⟨-, -, -, -, -, rfl⟩ := nestedIn?_eq_some hn
      exact h f List.mem_cons_self
    obtain ⟨hlen, htexts⟩ := freshItems_bounds options (level + 1) nested (Feed.ofText text)
    have hpending : (Feed.ofText text).pending.length = text.length := List.length_map _
    rw [hpending] at hlen htexts
    have hbelow := ihb fun g hg => Nat.le_trans (htexts g hg) htext
    have hpos : 1 ≤ (n + 3) ^ Family.height nested := Nat.one_le_pow _ _ (by omega)
    -- a frame and what is below it are no more than the steps that its own level is given for it
    have hframe : (n + 2) * (n + 3) ^ Family.height nested + 1 ≤ (n + 3) ^ Family.height family :=
      calc (n + 2) * (n + 3) ^ Family.height nested + 1
          ≤ (n + 3) * (n + 3) ^ Family.height nested := by rw [Nat.succ_mul (n + 2)]; omega
        _ = (n + 3) ^ (Family.height nested + 1) := by rw [Nat.pow_succ, Nat.mul_comm]
        _ ≤ (n + 3) ^ Family.height family :=
          Nat.pow_le_pow_right (by omega) (Nat.succ_le_of_lt (height_of_nestedIn? hn))
    have hfew := Nat.mul_le_mul_right ((n + 3) ^ Family.height nested) (Nat.le_trans hlen (Nat.add_le_add_right htext 2))
    have hboth := Listing.length_andThen
      (outline options (level + 1) nested (freshItems options (level + 1) nested (Feed.ofText text)))
      (outline options level family items)
    simp only [Listing.behind, List.length_cons, Nat.succ_mul]
    omega

end

end Munch
