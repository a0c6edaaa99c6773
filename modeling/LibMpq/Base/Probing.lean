import Mathlib.Data.Finset.Card
import Mathlib.Data.Finset.Range
import Mathlib.Tactic.Common

set_option autoImplicit false

namespace Probing

def slot (size home i : Nat) : Nat := (home + i) % size

theorem slot_lt {size : Nat} (positive : 0 < size) (home i : Nat) : slot size home i < size :=
  Nat.mod_lt _ positive

theorem exists_slot_eq {size : Nat} (home : Nat) {pos : Nat} (inside : pos < size) :
    ∃ i, i < size ∧ slot size home i = pos := by
  have positive : 0 < size := by omega
  refine ⟨(pos + size - home % size) % size, Nat.mod_lt _ positive, ?_⟩
  have below := Nat.mod_lt home positive
  rw [slot, Nat.add_mod_mod, ← Nat.mod_add_mod, show home % size + (pos + size - home % size) =
    pos + size by omega, Nat.add_mod_right, Nat.mod_eq_of_lt inside]

theorem slot_succ (size home i : Nat) : slot size home (i + 1) = (slot size home i + 1) % size := by
  rw [slot, slot, Nat.mod_add_mod, Nat.add_assoc]

theorem slot_succ_eq_home {size home i : Nat} (start : home < size) (inside : i < size) :
    (slot size home i + 1) % size = home ↔ i + 1 = size := by
  rw [← slot_succ, slot]
  constructor
  · intro back
    by_contra more
    by_cases wraps : home + (i + 1) < size
    · rw [Nat.mod_eq_of_lt wraps] at back
      omega
    · rw [Nat.mod_eq_sub_mod (by omega), Nat.mod_eq_of_lt (by omega)] at back
      omega
  · intro whole
    rw [whole, Nat.add_mod_right, Nat.mod_eq_of_lt start]

/-- The first hit on the chain, unless a slot where the chain ends comes before it. -/
def find (size home : Nat) (ends hits : Nat → Bool) : Nat → Nat → Option Nat
  | 0, _ => none
  | fuel + 1, i =>
    if ends (slot size home i) then none
    else if hits (slot size home i) then some i
    else find size home ends hits fuel (i + 1)

/-- No slot up to this one ends the chain. -/
def Reaches (size home : Nat) (ends : Nat → Bool) (i : Nat) : Prop :=
  i < size ∧ ∀ j, j ≤ i → ends (slot size home j) = false

variable {size home : Nat} {ends hits : Nat → Bool}

theorem Reaches.mono {i j : Nat} (reaches : Reaches size home ends i) (le : j ≤ i) :
    Reaches size home ends j :=
  ⟨by have := reaches.1; omega, fun k below => reaches.2 k (by omega)⟩

theorem Reaches.of_ends {ends' : Nat → Bool} {i : Nat} (reaches : Reaches size home ends i)
    (fewer : ∀ pos, ends pos = false → ends' pos = false) : Reaches size home ends' i :=
  ⟨reaches.1, fun j le => fewer _ (reaches.2 j le)⟩

theorem find_some {fuel i k : Nat} (bound : i + fuel = size)
    (before : ∀ j, j < i → ends (slot size home j) = false ∧ hits (slot size home j) = false)
    (found : find size home ends hits fuel i = some k) :
    Reaches size home ends k ∧ hits (slot size home k) = true ∧
      ∀ j, j < k → hits (slot size home j) = false := by
  induction fuel generalizing i with
  | zero => cases found
  | succ fuel ih =>
    rw [find] at found
    split at found
    next => cases found
    next going =>
      split at found
      next hit =>
        cases found
        refine ⟨⟨by omega, fun j le => ?_⟩, hit, fun j below => (before j below).2⟩
        rcases Nat.lt_or_eq_of_le le with below | rfl
        · exact (before j below).1
        · simpa using going
      next miss =>
        refine ih (by omega) (fun j below => ?_) found
        rcases Nat.lt_or_eq_of_le (Nat.le_of_lt_succ below) with below | rfl
        · exact before j below
        · exact ⟨by simpa using going, by simpa using miss⟩

theorem find_none {fuel i k : Nat} (bound : i + fuel = size)
    (missing : find size home ends hits fuel i = none) (from_ : i ≤ k)
    (reaches : Reaches size home ends k) : hits (slot size home k) = false := by
  induction fuel generalizing i with
  | zero =>
    have := reaches.1
    omega
  | succ fuel ih =>
    rw [find] at missing
    rw [if_neg (by rw [reaches.2 i from_]; decide)] at missing
    split at missing
    next => cases missing
    next miss =>
      rcases Nat.lt_or_eq_of_le from_ with later | rfl
      · exact ih (by omega) missing later
      · simpa using miss

theorem find_eq_some_iff {k : Nat} :
    find size home ends hits size 0 = some k ↔
      Reaches size home ends k ∧ hits (slot size home k) = true ∧
        ∀ j, j < k → hits (slot size home j) = false := by
  constructor
  · exact find_some (Nat.zero_add size) fun j below => absurd below (Nat.not_lt_zero j)
  · rintro ⟨reaches, hit, first⟩
    cases found : find size home ends hits size 0 with
    | none =>
      rw [find_none (Nat.zero_add size) found (Nat.zero_le k) reaches] at hit
      cases hit
    | some i =>
      obtain ⟨reaches', hit', first'⟩ :=
        find_some (Nat.zero_add size) (fun j below => absurd below (Nat.not_lt_zero j)) found
      rcases Nat.lt_trichotomy i k with less | rfl | more
      · rw [first i less] at hit'
        cases hit'
      · rfl
      · rw [first' k more] at hit
        cases hit

theorem find_eq_none_iff :
    find size home ends hits size 0 = none ↔
      ∀ k, Reaches size home ends k → hits (slot size home k) = false := by
  constructor
  · exact fun missing k reaches => find_none (Nat.zero_add size) missing (Nat.zero_le k) reaches
  · intro missing
    cases found : find size home ends hits size 0 with
    | none => rfl
    | some k =>
      obtain ⟨reaches, hit, -⟩ := find_eq_some_iff.mp found
      rw [missing k reaches] at hit
      cases hit

def usedSlots (size : Nat) (used : Nat → Bool) : Finset Nat :=
  (Finset.range size).filter fun pos => used pos = true

theorem exists_free {size : Nat} {used : Nat → Bool} (room : (usedSlots size used).card < size)
    (home : Nat) : ∃ i, i < size ∧ used (slot size home i) = false := by
  have missing : ∃ pos ∈ Finset.range size, pos ∉ usedSlots size used := by
    by_contra full
    push Not at full
    have := Finset.card_le_card full
    simp only [Finset.card_range] at this
    omega
  obtain ⟨pos, inRange, free⟩ := missing
  obtain ⟨i, bound, same⟩ := exists_slot_eq home (Finset.mem_range.mp inRange)
  refine ⟨i, bound, ?_⟩
  rw [same]
  simpa [usedSlots, Finset.mem_range.mp inRange] using free

theorem card_usedSlots_le {size pos : Nat} {used used' : Nat → Bool}
    (same : ∀ p, p ≠ pos → used' p = used p) :
    (usedSlots size used').card ≤ (usedSlots size used).card + 1 := by
  have covered : usedSlots size used' ⊆ insert pos (usedSlots size used) := by
    intro p taken
    simp only [usedSlots, Finset.mem_filter, Finset.mem_insert] at taken ⊢
    by_cases at_ : p = pos
    · exact .inl at_
    · exact .inr ⟨taken.1, by rw [← same p at_, taken.2]⟩
  exact (Finset.card_le_card covered).trans (Finset.card_insert_le _ _)

theorem card_usedSlots_drop {size pos : Nat} {used used' : Nat → Bool} (inside : pos < size)
    (was : used pos = true) (gone : used' pos = false) (same : ∀ p, p < size → p ≠ pos → used' p = used p) :
    (usedSlots size used').card + 1 = (usedSlots size used).card := by
  have erased : usedSlots size used' = (usedSlots size used).erase pos := by
    ext p
    simp only [usedSlots, Finset.mem_filter, Finset.mem_erase, Finset.mem_range]
    by_cases here : p = pos
    · rw [here, gone]
      simp
    · constructor
      · exact fun ⟨below, taken⟩ => ⟨here, below, by rw [← same p below here, taken]⟩
      · exact fun ⟨_, below, taken⟩ => ⟨below, by rw [same p below here, taken]⟩
  have member : pos ∈ usedSlots size used := by
    simp only [usedSlots, Finset.mem_filter, Finset.mem_range]
    exact ⟨inside, was⟩
  rw [erased, Finset.card_erase_add_one member]

theorem card_usedSlots_congr {size : Nat} {used used' : Nat → Bool} (same : ∀ p, p < size → used' p = used p) :
    (usedSlots size used').card = (usedSlots size used).card := by
  congr 1
  exact Finset.filter_congr fun p inside => by rw [same p (Finset.mem_range.mp inside)]

theorem card_usedSlots_none {size : Nat} {used : Nat → Bool} (none : ∀ p, used p = false) :
    (usedSlots size used).card = 0 := by
  simp [usedSlots, none]

end Probing
