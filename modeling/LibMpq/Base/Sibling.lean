import Mathlib.Data.List.Basic
import Mathlib.Data.List.Nodup
import Mathlib.Logic.Equiv.Basic

set_option autoImplicit false

-- The nodes of binary trees in one list: first the roots, then pairs of siblings, each pair
-- somewhere behind its parent. When the list is ordered by weight and every parent weighs as
-- much as its children together, the weight of a node can be raised in step with the order, if
-- the node first trades places with the foremost node of the same weight.

namespace Sibling

variable {ι : Type}

/-- A pair of siblings as it stands in the list, and their parent. -/
structure Slot (ι : Type) where
  owner : ι
  second : ι
  first : ι

def flat (slots : List (Slot ι)) : List ι := slots.flatMap fun s => [s.second, s.first]

@[simp] theorem flat_nil : flat ([] : List (Slot ι)) = [] := rfl

@[simp] theorem flat_cons (s : Slot ι) (slots : List (Slot ι)) :
    flat (s :: slots) = s.second :: s.first :: flat slots := rfl

@[simp] theorem flat_append (front back : List (Slot ι)) : flat (front ++ back) = flat front ++ flat back :=
  List.flatMap_append

theorem mem_flat {slots : List (Slot ι)} {x : ι} : x ∈ flat slots ↔ ∃ s ∈ slots, x = s.second ∨ x = s.first := by
  simp [flat]

/-- The trees behind the links to the parents and the first children. -/
structure Forest (roots : List ι) (slots : List (Slot ι)) (parent child : ι → Option ι) : Prop where
  distinct : (roots ++ flat slots).Nodup
  owned : ∀ before s after, slots = before ++ s :: after → s.owner ∈ roots ++ flat before
  children : ∀ s ∈ slots, child s.owner = some s.first
  parents : ∀ s ∈ slots, parent s.first = some s.owner ∧ parent s.second = some s.owner
  leaves : ∀ x ∈ roots ++ flat slots, (∀ s ∈ slots, s.owner ≠ x) → child x = none
  tops : ∀ x ∈ roots, parent x = none

/-- Heavier nodes stand before lighter ones. -/
def Sorted (weight : ι → Nat) (items : List ι) : Prop := items.Pairwise fun a b => weight b ≤ weight a

theorem mem_of_before {front back hi rest : List ι} {x y : ι} (same : front ++ back = hi ++ y :: rest)
    (distinct : (front ++ back).Nodup) (inside : x ∈ front) (after : x ∈ rest) : y ∈ front := by
  have apart : x ∉ hi := by
    intro twice
    rw [same, List.nodup_append] at distinct
    exact distinct.2.2 x twice x (by simp [after]) rfl
  rcases List.append_eq_append_iff.mp same with ⟨more, rfl, _⟩ | ⟨more, rfl, tail⟩
  · exact absurd (List.mem_append_left more inside) apart
  · cases more with
    | nil => exact absurd (by simpa using inside) apart
    | cons z more =>
      obtain ⟨rfl, _⟩ := List.cons.inj tail
      simp

theorem mem_front {front back hi rest : List ι} {y z : ι} (same : front ++ back = hi ++ y :: rest)
    (distinct : (front ++ back).Nodup) (outside : y ∈ back) (inside : z ∈ front) : z ∈ hi := by
  have apart : y ∉ front := by
    intro twice
    exact (List.nodup_append.mp distinct).2.2 y twice y outside rfl
  rcases List.append_eq_append_iff.mp same with ⟨more, rfl, _⟩ | ⟨more, rfl, tail⟩
  · exact List.mem_append_left more inside
  · cases more with
    | nil => simpa using inside
    | cons u more =>
      obtain ⟨rfl, _⟩ := List.cons.inj tail
      exact absurd (by simp) apart

theorem length_front {front post hi rest : List ι} {x y : ι} (same : front ++ x :: post = hi ++ y :: rest)
    (distinct : (front ++ x :: post).Nodup) (after : x ∈ y :: rest) : hi.length ≤ front.length := by
  have apart : x ∉ hi := by
    intro twice
    rw [same, List.nodup_append] at distinct
    exact distinct.2.2 x twice x after rfl
  rcases List.append_eq_append_iff.mp same with ⟨more, rfl, tail⟩ | ⟨more, rfl, _⟩
  · cases more with
    | nil => simp
    | cons z more =>
      obtain ⟨rfl, _⟩ := List.cons.inj tail
      exact absurd (by simp) apart
  · simp

namespace Forest

variable {roots : List ι} {slots : List (Slot ι)} {parent child : ι → Option ι}
  (forest : Forest roots slots parent child)

include forest

theorem congr {parent' child' : ι → Option ι} (parents : ∀ x ∈ roots ++ flat slots, parent' x = parent x)
    (children : ∀ x ∈ roots ++ flat slots, child' x = child x) : Forest roots slots parent' child' where
  distinct := forest.distinct
  owned := forest.owned
  children s member := by
    obtain ⟨before, after, rfl⟩ := List.append_of_mem member
    have inside := forest.owned before s after rfl
    rw [children _ (by simp only [flat_append, List.mem_append] at inside ⊢; tauto)]
    exact forest.children s member
  parents s member := by
    have inside : s.first ∈ flat slots ∧ s.second ∈ flat slots :=
      ⟨mem_flat.mpr ⟨s, member, .inr rfl⟩, mem_flat.mpr ⟨s, member, .inl rfl⟩⟩
    rw [parents _ (List.mem_append_right roots inside.1), parents _ (List.mem_append_right roots inside.2)]
    exact forest.parents s member
  leaves x inside free := (children x inside).trans (forest.leaves x inside free)
  tops x member := (parents x (List.mem_append_left _ member)).trans (forest.tops x member)

theorem owner_mem {s : Slot ι} (member : s ∈ slots) : s.owner ∈ roots ++ flat slots := by
  obtain ⟨before, after, rfl⟩ := List.append_of_mem member
  have inside := forest.owned before s after rfl
  simp only [flat_append, List.mem_append] at inside ⊢
  tauto

theorem apart {s : Slot ι} (member : s ∈ slots) : s.second ≠ s.first := by
  intro twice
  obtain ⟨before, after, rfl⟩ := List.append_of_mem member
  have distinct := (List.nodup_append.mp forest.distinct).2.1
  rw [flat_append, flat_cons, List.nodup_append, List.nodup_cons, twice] at distinct
  exact distinct.2.1.1 (by simp)

theorem slot_unique {s t : Slot ι} (hs : s ∈ slots) (ht : t ∈ slots) (same : s.owner = t.owner) : s = t := by
  have first : s.first = t.first := by
    have left := forest.children s hs
    rw [same, forest.children t ht] at left
    exact (Option.some.inj left).symm
  obtain ⟨before, after, rfl⟩ := List.append_of_mem hs
  have distinct := (List.nodup_append.mp forest.distinct).2.1
  simp only [List.mem_append, List.mem_cons] at ht
  rcases ht with early | rfl | late
  · have twice : t.first ∈ flat before := mem_flat.mpr ⟨t, early, .inr rfl⟩
    rw [flat_append, List.nodup_append] at distinct
    exact absurd rfl (distinct.2.2 t.first twice t.first (by simp [first]))
  · rfl
  · have twice : t.first ∈ flat after := mem_flat.mpr ⟨t, late, .inr rfl⟩
    rw [flat_append, List.nodup_append, flat_cons, List.nodup_cons, List.nodup_cons, first] at distinct
    exact absurd twice distinct.2.1.2.1

theorem child_some {x c : ι} (inside : x ∈ roots ++ flat slots) (link : child x = some c) :
    ∃ s ∈ slots, s.owner = x ∧ s.first = c := by
  by_cases owner : ∃ s ∈ slots, s.owner = x
  next =>
    obtain ⟨s, member, rfl⟩ := owner
    exact ⟨s, member, rfl, Option.some.inj ((forest.children s member).symm.trans link)⟩
  next =>
    rw [forest.leaves x inside (fun s member same => owner ⟨s, member, same⟩)] at link
    exact absurd link nofun

theorem parent_some {x z : ι} (inside : x ∈ roots ++ flat slots) (link : parent x = some z) :
    ∃ s ∈ slots, s.owner = z ∧ (x = s.second ∨ x = s.first) := by
  rcases List.mem_append.mp inside with top | below
  · rw [forest.tops x top] at link
    exact absurd link nofun
  · obtain ⟨s, member, place⟩ := mem_flat.mp below
    have up := forest.parents s member
    refine ⟨s, member, ?_, place⟩
    rcases place with rfl | rfl
    · exact Option.some.inj (up.2.symm.trans link)
    · exact Option.some.inj (up.1.symm.trans link)

theorem parent_none {x : ι} (inside : x ∈ roots ++ flat slots) (link : parent x = none) : x ∈ roots := by
  rcases List.mem_append.mp inside with top | below
  · exact top
  · obtain ⟨s, member, place⟩ := mem_flat.mp below
    have up := forest.parents s member
    rcases place with rfl | rfl
    · rw [up.2] at link
      exact absurd link nofun
    · rw [up.1] at link
      exact absurd link nofun

theorem child_none {x : ι} (inside : x ∈ roots ++ flat slots) : child x = none ↔ ∀ s ∈ slots, s.owner ≠ x := by
  refine ⟨?_, forest.leaves x inside⟩
  rintro leaf s member rfl
  rw [forest.children s member] at leaf
  exact absurd leaf nofun

theorem last_leaf {front : List ι} {x : ι} (last : roots ++ flat slots = front ++ [x]) : child x = none := by
  refine forest.leaves x (by simp [last]) ?_
  rintro s member rfl
  obtain ⟨before, after, rfl⟩ := List.append_of_mem member
  have inside := forest.owned before s after rfl
  have same : (roots ++ flat before) ++ (s.second :: s.first :: flat after) = front ++ s.owner :: [] := by
    rw [← last]
    simp
  have place := forest.distinct
  rw [flat_append, flat_cons, ← List.append_assoc] at place
  have ends : s.owner ∈ s.second :: s.first :: flat after := by
    have equal := congrArg List.getLast? same
    rw [List.getLast?_append_of_ne_nil _ (by simp), List.getLast?_concat] at equal
    exact List.mem_of_getLast? equal
  exact (List.nodup_append.mp place).2.2 _ inside _ ends rfl

end Forest

section Exchange

variable [DecidableEq ι] {roots : List ι} {slots : List (Slot ι)} {parent child : ι → Option ι}

def Slot.exchange (x y : ι) (s : Slot ι) : Slot ι := ⟨s.owner, Equiv.swap x y s.second, Equiv.swap x y s.first⟩

@[simp] theorem map_exchange_self (x : ι) (slots : List (Slot ι)) : slots.map (Slot.exchange x x) = slots := by
  have still : Slot.exchange x x = id := by
    funext s
    simp [Slot.exchange]
  rw [still, List.map_id]

theorem flat_exchange (x y : ι) (slots : List (Slot ι)) :
    flat (slots.map (Slot.exchange x y)) = (flat slots).map (Equiv.swap x y) := by
  induction slots with
  | nil => rfl
  | cons s slots ih => simp [Slot.exchange, ih]

theorem mem_map_swap {items : List ι} {x y u : ι} : u ∈ items.map (Equiv.swap x y) ↔ Equiv.swap x y u ∈ items := by
  rw [List.mem_map]
  constructor
  · rintro ⟨v, member, rfl⟩
    rwa [Equiv.swap_apply_self]
  · intro member
    exact ⟨_, member, Equiv.swap_apply_self x y u⟩

theorem swap_mem {items : List ι} {x y u : ι} (hx : x ∈ items) (hy : y ∈ items) :
    Equiv.swap x y u ∈ items ↔ u ∈ items := by
  by_cases ux : u = x
  next =>
    subst ux
    rw [Equiv.swap_apply_left]
    exact iff_of_true hy hx
  by_cases uy : u = y
  next =>
    subst uy
    rw [Equiv.swap_apply_right]
    exact iff_of_true hx hy
  rw [Equiv.swap_apply_of_ne_of_ne ux uy]

theorem map_swap {hi mid post : List ι} {x y : ι} (distinct : (hi ++ y :: (mid ++ x :: post)).Nodup) :
    (hi ++ y :: (mid ++ x :: post)).map (Equiv.swap x y) = hi ++ x :: (mid ++ y :: post) := by
  have still : ∀ part : List ι, x ∉ part → y ∉ part → part.map (Equiv.swap x y) = part := by
    intro part hx hy
    have apart : ∀ u ∈ part, Equiv.swap x y u = id u := by
      intro u inside
      have ux : u ≠ x := fun same => hx (same ▸ inside)
      have uy : u ≠ y := fun same => hy (same ▸ inside)
      exact Equiv.swap_apply_of_ne_of_ne ux uy
    rw [List.map_congr_left apart, List.map_id]
  have ⟨_, right, across⟩ := List.nodup_append.mp distinct
  have ⟨front, middle⟩ := List.nodup_cons.mp right
  have ⟨_, back, across'⟩ := List.nodup_append.mp middle
  have last := (List.nodup_cons.mp back).1
  rw [List.mem_append, List.mem_cons, not_or, not_or] at front
  rw [List.map_append, List.map_cons, List.map_append, List.map_cons, Equiv.swap_apply_left, Equiv.swap_apply_right,
    still hi (fun inside => across x inside x (by simp) rfl) (fun inside => across y inside y (by simp) rfl),
    still mid (fun inside => across' x inside x (by simp) rfl) front.1, still post last front.2.2]

theorem Forest.exchange (forest : Forest roots slots parent child) {x y : ι} (hx : x ∈ roots ++ flat slots)
    (hy : y ∈ roots ++ flat slots)
    (stay : ∀ before s after, slots = before ++ s :: after → Equiv.swap x y s.owner ∈ roots ++ flat before) :
    Forest (roots.map (Equiv.swap x y)) (slots.map (Slot.exchange x y)) (fun z => parent (Equiv.swap x y z))
      (fun z => (child z).map (Equiv.swap x y)) where
  distinct := by
    rw [flat_exchange, ← List.map_append]
    exact forest.distinct.map (Equiv.injective _)
  owned before s after same := by
    obtain ⟨front, rest, rfl, rfl, tail⟩ := List.map_eq_append_iff.mp same
    obtain ⟨t, back, rfl, rfl, rfl⟩ := List.map_eq_cons_iff.mp tail
    rw [flat_exchange, ← List.map_append, mem_map_swap]
    exact stay front t back rfl
  children s member := by
    obtain ⟨t, inside, rfl⟩ := List.mem_map.mp member
    simp [Slot.exchange, forest.children t inside]
  parents s member := by
    obtain ⟨t, inside, rfl⟩ := List.mem_map.mp member
    simpa [Slot.exchange] using forest.parents t inside
  leaves z inside free := by
    rw [flat_exchange, ← List.map_append, mem_map_swap, swap_mem hx hy] at inside
    rw [forest.leaves z inside, Option.map_none]
    exact fun s member => free (s.exchange x y) (List.mem_map_of_mem member)
  tops z member := forest.tops _ (mem_map_swap.mp member)

end Exchange

section Weights

variable [DecidableEq ι] {roots : List ι} {slots : List (Slot ι)} {parent child : ι → Option ι} {weight : ι → Nat}
  {due : Option ι}

/-- An ordered tree, where one node may still owe one to the weight of its children. -/
structure Owing (roots : List ι) (slots : List (Slot ι)) (parent child : ι → Option ι) (weight : ι → Nat)
    (due : Option ι) : Prop extends Forest roots slots parent child where
  sorted : Sorted weight (roots ++ flat slots)
  sums : ∀ s ∈ slots, weight s.owner + (if due = some s.owner then 1 else 0) = weight s.second + weight s.first
  positive : ∀ x ∈ roots ++ flat slots, due ≠ some x → 0 < weight x

theorem Owing.congr {parent' child' : ι → Option ι} (owing : Owing roots slots parent child weight due)
    (parents : ∀ x ∈ roots ++ flat slots, parent' x = parent x)
    (children : ∀ x ∈ roots ++ flat slots, child' x = child x) : Owing roots slots parent' child' weight due :=
  ⟨owing.toForest.congr parents children, owing.sorted, owing.sums, owing.positive⟩

theorem Owing.at_leaf (owing : Owing roots slots parent child weight none) {x : ι} (inside : x ∈ roots ++ flat slots)
    (leaf : child x = none) : Owing roots slots parent child weight (some x) where
  toForest := owing.toForest
  sorted := owing.sorted
  sums s member := by
    have apart : x ≠ s.owner := by
      rintro rfl
      rw [owing.children s member] at leaf
      exact absurd leaf nofun
    rw [← owing.sums s member, if_neg (by simpa using apart), if_neg nofun]
  positive u member _ := owing.positive u member nofun

omit [DecidableEq ι] in
theorem Sorted.heavier {hi rest : List ι} {x y : ι} (sorted : Sorted weight (hi ++ y :: rest)) (inside : x ∈ rest) :
    weight x ≤ weight y :=
  (List.pairwise_cons.mp (List.pairwise_append.mp sorted).2.1).1 x inside

omit [DecidableEq ι] in
theorem Sorted.last {items : List ι} {u l : ι} (sorted : Sorted weight items) (inside : u ∈ items)
    (last : items.getLast? = some l) : weight l ≤ weight u := by
  obtain ⟨front, rfl⟩ := List.getLast?_eq_some_iff.mp last
  rcases List.mem_append.mp inside with early | own
  · exact (List.pairwise_append.mp sorted).2.2 u early l (by simp)
  · exact Nat.le_of_eq (congrArg weight (List.mem_singleton.mp own).symm)

theorem update_swap {x y : ι} (same : weight y = weight x) (u : ι) :
    Function.update weight x (weight x + 1) (Equiv.swap x y u) = if u = y then weight u + 1 else weight u := by
  by_cases uy : u = y
  next => rw [if_pos uy, uy, Equiv.swap_apply_right, Function.update_self, same]
  rw [if_neg uy]
  by_cases ux : u = x
  next =>
    subst ux
    rw [Equiv.swap_apply_left, Function.update_of_ne (Ne.symm uy), same]
  rw [Equiv.swap_apply_of_ne_of_ne ux uy, Function.update_of_ne ux]

theorem Sorted.raise {hi rest : List ι} {x y : ι} (sorted : Sorted weight (hi ++ y :: rest))
    (distinct : (hi ++ y :: rest).Nodup) (same : weight y = weight x) (above : ∀ u ∈ hi, weight x < weight u) :
    Sorted (Function.update weight x (weight x + 1)) ((hi ++ y :: rest).map (Equiv.swap x y)) := by
  rw [Sorted, List.pairwise_map]
  simp only [update_swap same]
  have ⟨_, ⟨front, _⟩, across⟩ := List.nodup_append.mp distinct |>.imp_right (And.imp_left List.nodup_cons.mp)
  have ⟨left, right, middle⟩ := List.pairwise_append.mp sorted
  have ⟨first, later⟩ := List.pairwise_cons.mp right
  refine List.pairwise_append.mpr ⟨?_, List.pairwise_cons.mpr ⟨?_, ?_⟩, ?_⟩
  · refine left.imp_of_mem fun {a b} ha hb le => ?_
    rw [if_neg (across a ha y (by simp)), if_neg (across b hb y (by simp))]
    exact le
  · intro b hb
    rw [if_neg (by rintro rfl; exact front hb), if_pos rfl]
    exact Nat.le_succ_of_le (first b hb)
  · refine later.imp_of_mem fun {a b} ha hb le => ?_
    rw [if_neg (by rintro rfl; exact front hb), if_neg (by rintro rfl; exact front ha)]
    exact le
  · intro a ha b hb
    rw [if_neg (across a ha y (by simp))]
    split
    next by_ =>
      have := above a ha
      rw [by_]
      omega
    next => exact middle a ha b hb

namespace Owing

variable {hi rest : List ι} {x y : ι}

theorem stay (owing : Owing roots slots parent child weight (some x)) (place : roots ++ flat slots = hi ++ y :: rest)
    (inside : x ∈ y :: rest) (same : weight y = weight x) {before after : List (Slot ι)} {s : Slot ι}
    (here : slots = before ++ s :: after) : Equiv.swap x y s.owner ∈ roots ++ flat before := by
  have owned := owing.owned before s after here
  have member : s ∈ slots := by simp [here]
  have cut : roots ++ flat slots = (roots ++ flat before) ++ s.second :: s.first :: flat after := by simp [here]
  by_cases still : x = y
  next => rwa [still, Equiv.swap_self, Equiv.refl_apply]
  have inside : x ∈ rest := by simpa [still] using inside
  by_cases zx : s.owner = x
  next =>
    rw [zx, Equiv.swap_apply_left]
    exact mem_of_before (cut ▸ place) (cut ▸ owing.distinct) (zx ▸ owned) inside
  by_cases zy : s.owner = y
  next =>
    rw [zy, Equiv.swap_apply_right]
    have sum := owing.sums s member
    rw [zy, if_neg (by simpa using still)] at sum
    have up := owing.parents s member
    have px : s.second ∈ roots ++ flat slots ∧ s.first ∈ roots ++ flat slots := by simp [cut]
    have positive := owing.positive
    have second : s.second ≠ x → 0 < weight s.second := fun apart => positive _ px.1 (by simpa using Ne.symm apart)
    have first : s.first ≠ x → 0 < weight s.first := fun apart => positive _ px.2 (by simpa using Ne.symm apart)
    have different := owing.apart member
    have second_ne : s.second ≠ x := by
      intro is
      have := first (fun other => different (is.trans other.symm))
      rw [is] at sum
      omega
    have first_ne : s.first ≠ x := by
      intro is
      have := second second_ne
      rw [is] at sum
      omega
    have whole : x ∈ roots ++ flat slots := by simp [place, inside]
    rw [cut, List.mem_append, List.mem_cons, List.mem_cons] at whole
    rcases whole with early | rfl | rfl | late
    · exact early
    · exact absurd rfl second_ne
    · exact absurd rfl first_ne
    · have sorted := owing.sorted
      have lighter : weight x ≤ weight s.first := by
        rw [cut, show (roots ++ flat before) ++ s.second :: s.first :: flat after =
          (roots ++ flat before ++ [s.second]) ++ s.first :: flat after by simp] at sorted
        exact sorted.heavier late
      have := second second_ne
      omega
  rwa [Equiv.swap_apply_of_ne_of_ne zx zy]

theorem raise (owing : Owing roots slots parent child weight (some x)) (place : roots ++ flat slots = hi ++ y :: rest)
    (inside : x ∈ y :: rest) (same : weight y = weight x) (above : ∀ u ∈ hi, weight x < weight u) :
    Owing (roots.map (Equiv.swap x y)) (slots.map (Slot.exchange x y)) (fun z => parent (Equiv.swap x y z))
      (fun z => (child z).map (Equiv.swap x y)) (Function.update weight x (weight x + 1)) (parent y) := by
  have hx : x ∈ roots ++ flat slots := by
    rw [place]
    exact List.mem_append_right hi inside
  have hy : y ∈ roots ++ flat slots := by simp [place]
  refine ⟨owing.toForest.exchange hx hy fun before s after here => owing.stay place inside same here, ?_, ?_, ?_⟩
  · have sorted := owing.sorted
    have distinct := owing.distinct
    rw [place] at sorted distinct
    rw [flat_exchange, ← List.map_append, place]
    exact sorted.raise distinct same above
  · intro s' image
    obtain ⟨s, member, rfl⟩ := List.mem_map.mp image
    have sum := owing.sums s member
    have up := owing.parents s member
    have raised : Function.update weight x (weight x + 1) s.owner = weight s.second + weight s.first := by
      rw [← sum]
      by_cases own : s.owner = x
      next => rw [own, Function.update_self, if_pos rfl]
      next => rw [Function.update_of_ne own, if_neg (by simpa using Ne.symm own), Nat.add_zero]
    show Function.update weight x (weight x + 1) s.owner + (if parent y = some s.owner then 1 else 0) =
      Function.update weight x (weight x + 1) (Equiv.swap x y s.second) +
        Function.update weight x (weight x + 1) (Equiv.swap x y s.first)
    rw [update_swap same, update_swap same, raised]
    by_cases second : s.second = y
    next =>
      have first : s.first ≠ y := fun first => owing.apart member (second.trans first.symm)
      rw [if_pos second, if_neg first, if_pos (show parent y = some s.owner by rw [← second, up.2])]
      omega
    by_cases first : s.first = y
    next =>
      rw [if_neg second, if_pos first, if_pos (show parent y = some s.owner by rw [← first, up.1])]
      omega
    have other : parent y ≠ some s.owner := by
      intro link
      obtain ⟨t, inside, owner, is⟩ := owing.parent_some hy link
      obtain rfl := owing.slot_unique inside member owner
      rcases is with rfl | rfl
      · exact second rfl
      · exact first rfl
    rw [if_neg second, if_neg first, if_neg other]
    omega
  · intro u member free
    rw [flat_exchange, ← List.map_append, mem_map_swap, swap_mem hx hy] at member
    by_cases ux : u = x
    next =>
      subst ux
      simp
    rw [Function.update_of_ne ux]
    exact owing.positive u member (by simpa using Ne.symm ux)

theorem parent_before (owing : Owing roots slots parent child weight (some x))
    (place : roots ++ flat slots = hi ++ y :: rest) {z : ι} (link : parent y = some z) : z ∈ hi := by
  have hy : y ∈ roots ++ flat slots := by simp [place]
  obtain ⟨s, member, rfl, is⟩ := owing.parent_some hy link
  obtain ⟨before, after, rfl⟩ := List.append_of_mem member
  have cut : roots ++ flat (before ++ s :: after) =
      (roots ++ flat before) ++ s.second :: s.first :: flat after := by simp
  refine mem_front (cut ▸ place) (cut ▸ owing.distinct) ?_ (owing.owned before s after rfl)
  rcases is with rfl | rfl <;> simp

theorem parent_heavier (owing : Owing roots slots parent child weight (some x)) (inside : x ∈ roots ++ flat slots)
    {z : ι} (link : parent x = some z) : weight x < weight z := by
  obtain ⟨s, member, rfl, is⟩ := owing.parent_some inside link
  obtain ⟨before, after, rfl⟩ := List.append_of_mem member
  have owned := owing.owned before s after rfl
  have sum := owing.sums s member
  have different := owing.apart member
  have apart : x ≠ s.owner := by
    rintro rfl
    have distinct := owing.distinct
    rw [flat_append, flat_cons, ← List.append_assoc, List.nodup_append] at distinct
    rcases is with is | is <;> exact distinct.2.2 _ owned s.owner (by simp [← is]) rfl
  rw [if_neg (by simpa using apart)] at sum
  have both : s.second ∈ roots ++ flat (before ++ s :: after) ∧ s.first ∈ roots ++ flat (before ++ s :: after) := by
    simp
  rcases is with rfl | rfl
  · have := owing.positive s.first both.2 (by simpa using different)
    omega
  · have := owing.positive s.second both.1 (by simpa using different.symm)
    omega

theorem not_root {root : ι} (owing : Owing [root] slots parent child weight (some x))
    (place : [root] ++ flat slots = hi ++ y :: rest) (inside : x ∈ y :: rest) (same : weight y = weight x)
    (below : x ≠ y) : ∃ z, parent y = some z := by
  cases link : parent y with
  | some z => exact ⟨z, rfl⟩
  | none =>
    have hx : x ∈ [root] ++ flat slots := by
      rw [place]
      exact List.mem_append_right hi inside
    obtain rfl : y = root := by simpa using owing.parent_none (by simp [place]) link
    cases up : parent x with
    | none => exact absurd (by simpa using owing.parent_none hx up) below
    | some z =>
      have heavier := owing.parent_heavier hx up
      have sorted := owing.sorted
      obtain ⟨s, member, rfl, _⟩ := owing.parent_some hx up
      rcases List.mem_cons.mp (owing.owner_mem member) with top | later
      · rw [top] at heavier
        omega
      · have := (List.pairwise_cons.mp sorted).1 _ later
        omega

end Owing

inductive Climb (root : ι) : List (Slot ι) → (ι → Nat) → ι → List (Slot ι) → (ι → Nat) → Nat → Prop
  | top (slots : List (Slot ι)) (weight : ι → Nat) :
      Climb root slots weight root slots (Function.update weight root (weight root + 1)) 0
  | up {slots slots' : List (Slot ι)} {weight weight' : ι → Nat} {hi rest : List ι} {x y : ι} {s : Slot ι} {trades : Nat}
      (place : [root] ++ flat slots = hi ++ y :: rest) (inside : x ∈ y :: rest) (same : weight y = weight x)
      (above : ∀ u ∈ hi, weight x < weight u) (below : x ≠ root) (member : s ∈ slots.map (Slot.exchange x y))
      (is : x = s.second ∨ x = s.first)
      (further : Climb root (slots.map (Slot.exchange x y)) (Function.update weight x (weight x + 1)) s.owner slots'
        weight' trades) :
      Climb root slots weight x slots' weight' ((if x = y then 0 else 1) + trades)

theorem Forest.plant {front back : List ι} {leaf : ι} (forest : Forest (front ++ back) slots parent child)
    (fresh : leaf ∉ (front ++ back) ++ flat slots) :
    Forest (front ++ leaf :: back) slots (Function.update parent leaf none) (Function.update child leaf none) := by
  have outside : ∀ x ∈ (front ++ back) ++ flat slots, x ≠ leaf := fun x inside same => fresh (same ▸ inside)
  constructor
  case distinct =>
    have moved : ((front ++ leaf :: back) ++ flat slots).Perm (leaf :: ((front ++ back) ++ flat slots)) :=
      List.perm_middle.append_right (flat slots)
    rw [moved.nodup_iff, List.nodup_cons]
    exact ⟨fresh, forest.distinct⟩
  case owned =>
    intro before s after same
    have := forest.owned before s after same
    simp only [List.mem_append, List.mem_cons] at this ⊢
    tauto
  case children =>
    intro s member
    rw [Function.update_of_ne (outside _ (forest.owner_mem member)), forest.children s member]
  case parents =>
    intro s member
    have first : s.first ∈ flat slots := mem_flat.mpr ⟨s, member, .inr rfl⟩
    have second : s.second ∈ flat slots := mem_flat.mpr ⟨s, member, .inl rfl⟩
    rw [Function.update_of_ne (outside _ (List.mem_append_right _ first)),
      Function.update_of_ne (outside _ (List.mem_append_right _ second))]
    exact forest.parents s member
  case leaves =>
    intro x inside free
    by_cases new : x = leaf
    next => rw [new, Function.update_self]
    rw [Function.update_of_ne new]
    refine forest.leaves x ?_ free
    simp only [List.mem_append, List.mem_cons, new, false_or] at inside ⊢
    exact inside
  case tops =>
    intro x member
    by_cases new : x = leaf
    next => rw [new, Function.update_self]
    rw [Function.update_of_ne new]
    refine forest.tops x ?_
    simp only [List.mem_append, List.mem_cons, new, false_or] at member ⊢
    exact member

theorem Forest.adopt {node second first : ι} (forest : Forest (roots ++ [second, first]) slots parent child)
    (top : node ∈ roots) (leaf : child node = none) :
    Forest roots (⟨node, second, first⟩ :: slots)
      (Function.update (Function.update parent first (some node)) second (some node))
      (Function.update child node (some first)) := by
  have distinct : (roots ++ second :: first :: flat slots).Nodup := by
    have := forest.distinct
    rwa [List.append_assoc] at this
  have ⟨_, below, across⟩ := List.nodup_append.mp distinct
  have ⟨different, _, _⟩ := List.nodup_cons.mp below |>.imp_right List.nodup_cons.mp
  constructor
  case distinct => simpa using distinct
  case owned =>
    intro before s after same
    cases before with
    | nil =>
      obtain ⟨rfl, _⟩ := List.cons.inj same
      exact List.mem_append_left _ top
    | cons t before =>
      obtain ⟨rfl, rest⟩ := List.cons.inj same
      have := forest.owned before s after rest
      simp only [List.mem_append, List.mem_cons, flat_cons, List.not_mem_nil, or_false] at this ⊢
      tauto
  case children =>
    intro s member
    rcases List.mem_cons.mp member with rfl | older
    · exact Function.update_self _ _ _
    · have apart : s.owner ≠ node := by
        rintro rfl
        rw [forest.children s older] at leaf
        exact absurd leaf nofun
      rw [Function.update_of_ne apart, forest.children s older]
  case parents =>
    intro s member
    rcases List.mem_cons.mp member with rfl | older
    · have apart : first ≠ second := by
        rintro rfl
        exact different (by simp)
      exact ⟨by rw [Function.update_of_ne apart, Function.update_self], Function.update_self _ _ _⟩
    · have outside : ∀ x ∈ flat slots, x ≠ second ∧ x ≠ first := by
        rintro x inside
        constructor
        · rintro rfl
          exact different (by simp [inside])
        · rintro rfl
          exact (List.nodup_cons.mp (List.nodup_cons.mp below).2).1 inside
      have h1 := outside s.first (mem_flat.mpr ⟨s, older, .inr rfl⟩)
      have h2 := outside s.second (mem_flat.mpr ⟨s, older, .inl rfl⟩)
      rw [Function.update_of_ne h1.1, Function.update_of_ne h1.2, Function.update_of_ne h2.1,
        Function.update_of_ne h2.2]
      exact forest.parents s older
  case leaves =>
    intro x inside free
    have apart : node ≠ x := free ⟨node, second, first⟩ (by simp)
    rw [Function.update_of_ne apart.symm]
    exact forest.leaves x (by simpa using inside) fun s member => free s (by simp [member])
  case tops =>
    intro x member
    rw [Function.update_of_ne (across x member second (by simp)), Function.update_of_ne (across x member first (by simp))]
    exact forest.tops x (by simp [member])

theorem Forest.split {front : List ι} {last old new : ι} (forest : Forest roots slots parent child)
    (place : roots ++ flat slots = front ++ [last]) (fresh : old ∉ roots ++ flat slots)
    (fresh' : new ∉ roots ++ flat slots) (apart : old ≠ new) :
    Forest roots (slots ++ [⟨last, old, new⟩])
      (Function.update (Function.update parent old (some last)) new (some last))
      (Function.update (Function.update (Function.update child old none) new none) last (some new)) := by
  have inside : last ∈ roots ++ flat slots := by simp [place]
  have outside : ∀ x ∈ roots ++ flat slots, x ≠ old ∧ x ≠ new :=
    fun x member => ⟨fun same => fresh (same ▸ member), fun same => fresh' (same ▸ member)⟩
  have leaf := forest.last_leaf place
  constructor
  case distinct =>
    rw [flat_append, ← List.append_assoc, List.nodup_append]
    refine ⟨forest.distinct, by simpa using apart, ?_⟩
    rintro x member y new_ rfl
    simp only [flat_cons, flat_nil, List.mem_cons, List.not_mem_nil, or_false] at new_
    rcases new_ with rfl | rfl
    · exact fresh member
    · exact fresh' member
  case owned =>
    intro before s after same
    rcases List.eq_nil_or_concat after with rfl | ⟨rest, t, rfl⟩
    · obtain ⟨rfl, ends⟩ := List.append_inj' same rfl
      obtain ⟨rfl, _⟩ := List.cons.inj ends
      exact inside
    · rw [List.concat_eq_append, ← List.cons_append, ← List.append_assoc] at same
      obtain ⟨front, _⟩ := List.append_inj' same rfl
      exact forest.owned before s rest front
  case children =>
    intro s member
    rcases List.mem_append.mp member with older | new_
    · have owner := forest.owner_mem older
      have is_not : s.owner ≠ last := by
        rintro rfl
        rw [forest.children s older] at leaf
        exact absurd leaf nofun
      rw [Function.update_of_ne is_not, Function.update_of_ne (outside _ owner).2,
        Function.update_of_ne (outside _ owner).1, forest.children s older]
    · obtain rfl := List.mem_singleton.mp new_
      exact Function.update_self _ _ _
  case parents =>
    intro s member
    rcases List.mem_append.mp member with member | new_
    · have h1 := outside s.first (List.mem_append_right _ (mem_flat.mpr ⟨s, member, .inr rfl⟩))
      have h2 := outside s.second (List.mem_append_right _ (mem_flat.mpr ⟨s, member, .inl rfl⟩))
      rw [Function.update_of_ne h1.2, Function.update_of_ne h1.1, Function.update_of_ne h2.2,
        Function.update_of_ne h2.1]
      exact forest.parents s member
    · obtain rfl := List.mem_singleton.mp new_
      exact ⟨Function.update_self _ _ _, by rw [Function.update_of_ne apart, Function.update_self]⟩
  case leaves =>
    intro x member free
    have is_not : last ≠ x := free ⟨last, old, new⟩ (List.mem_append_right _ (by simp))
    rw [Function.update_of_ne is_not.symm]
    by_cases is_new : x = new
    next => rw [is_new, Function.update_self]
    by_cases is_old : x = old
    next => rw [is_old, Function.update_of_ne apart, Function.update_self]
    rw [Function.update_of_ne is_new, Function.update_of_ne is_old]
    refine forest.leaves x ?_ fun s inside => free s (List.mem_append_left _ inside)
    rw [flat_append, ← List.append_assoc, List.mem_append] at member
    rcases member with member | member
    · exact member
    · simp [is_new, is_old] at member
  case tops =>
    intro x member
    have := outside x (List.mem_append_left _ member)
    rw [Function.update_of_ne this.2, Function.update_of_ne this.1]
    exact forest.tops x member

theorem Owing.plant {front back : List ι} {leaf : ι} {value : Nat}
    (owing : Owing (front ++ back) slots parent child weight none) (fresh : leaf ∉ (front ++ back) ++ flat slots)
    (some_ : 0 < value) (above : ∀ u ∈ front, value ≤ weight u) (below : ∀ u ∈ back ++ flat slots, weight u ≤ value) :
    Owing (front ++ leaf :: back) slots (Function.update parent leaf none) (Function.update child leaf none)
      (Function.update weight leaf value) none := by
  have outside : ∀ x ∈ (front ++ back) ++ flat slots, x ≠ leaf := fun x inside same => fresh (same ▸ inside)
  have kept : ∀ x ∈ (front ++ back) ++ flat slots, Function.update weight leaf value x = weight x :=
    fun x inside => Function.update_of_ne (outside x inside) _ _
  refine ⟨owing.toForest.plant fresh, ?_, ?_, ?_⟩
  · have sorted := owing.sorted
    rw [List.append_assoc] at sorted
    have ⟨left, right, across⟩ := List.pairwise_append.mp sorted
    have kept' : ∀ x, x ∈ front ∨ x ∈ back ++ flat slots → Function.update weight leaf value x = weight x :=
      fun x inside => kept x (by simpa [or_assoc] using inside)
    rw [Sorted, List.append_assoc, List.cons_append]
    refine List.pairwise_append.mpr ⟨?_, List.pairwise_cons.mpr ⟨?_, ?_⟩, ?_⟩
    · refine left.imp_of_mem fun {a b} ha hb le => ?_
      rwa [kept' a (.inl ha), kept' b (.inl hb)]
    · intro b hb
      rw [kept' b (.inr hb), Function.update_self]
      exact below b hb
    · refine right.imp_of_mem fun {a b} ha hb le => ?_
      rwa [kept' a (.inr ha), kept' b (.inr hb)]
    · intro a ha b hb
      rw [kept' a (.inl ha)]
      rcases List.mem_cons.mp hb with rfl | hb
      · rw [Function.update_self]
        exact above a ha
      · rw [kept' b (.inr hb)]
        exact across a ha b hb
  · intro s member
    have first : s.first ∈ flat slots := mem_flat.mpr ⟨s, member, .inr rfl⟩
    have second : s.second ∈ flat slots := mem_flat.mpr ⟨s, member, .inl rfl⟩
    rw [kept _ (owing.owner_mem member), kept _ (List.mem_append_right _ first),
      kept _ (List.mem_append_right _ second)]
    exact owing.sums s member
  · intro x inside _
    by_cases new : x = leaf
    next => rwa [new, Function.update_self]
    have older : x ∈ (front ++ back) ++ flat slots := by
      simp only [List.mem_append, List.mem_cons, new, false_or] at inside ⊢
      exact inside
    rw [kept x older]
    exact owing.positive x older nofun

theorem Owing.adopt {node second first : ι} (owing : Owing (roots ++ [second, first]) slots parent child weight none)
    (top : node ∈ roots) (leaf : child node = none) (sum : weight node = weight second + weight first) :
    Owing roots (⟨node, second, first⟩ :: slots)
      (Function.update (Function.update parent first (some node)) second (some node))
      (Function.update child node (some first)) weight none := by
  have shape : roots ++ flat (⟨node, second, first⟩ :: slots) = (roots ++ [second, first]) ++ flat slots := by simp
  refine ⟨owing.toForest.adopt top leaf, ?_, ?_, ?_⟩
  · rw [shape]
    exact owing.sorted
  · intro s member
    rcases List.mem_cons.mp member with rfl | older
    · simpa using sum
    · exact owing.sums s older
  · rw [shape]
    exact owing.positive

theorem Owing.split {front : List ι} {last old new : ι} (owing : Owing roots slots parent child weight none)
    (place : roots ++ flat slots = front ++ [last]) (fresh : old ∉ roots ++ flat slots)
    (fresh' : new ∉ roots ++ flat slots) (apart : old ≠ new) :
    Owing roots (slots ++ [⟨last, old, new⟩])
      (Function.update (Function.update parent old (some last)) new (some last))
      (Function.update (Function.update (Function.update child old none) new none) last (some new))
      (Function.update (Function.update weight old (weight last)) new 0) (some new) := by
  have kept : ∀ x ∈ roots ++ flat slots,
      Function.update (Function.update weight old (weight last)) new 0 x = weight x := by
    intro x inside
    have is_new : x ≠ new := fun same => fresh' (same ▸ inside)
    have is_old : x ≠ old := fun same => fresh (same ▸ inside)
    rw [Function.update_of_ne is_new, Function.update_of_ne is_old]
  have old_ : Function.update (Function.update weight old (weight last)) new 0 old = weight last := by
    rw [Function.update_of_ne apart, Function.update_self]
  have new_ : Function.update (Function.update weight old (weight last)) new 0 new = 0 := Function.update_self _ _ _
  have inside : last ∈ roots ++ flat slots := by simp [place]
  have shape : roots ++ flat (slots ++ [⟨last, old, new⟩]) = (roots ++ flat slots) ++ [old, new] := by simp
  refine ⟨owing.toForest.split place fresh fresh' apart, ?_, ?_, ?_⟩
  · rw [shape]
    refine List.pairwise_append.mpr ⟨?_, ?_, ?_⟩
    · refine owing.sorted.imp_of_mem fun {a b} ha hb le => ?_
      rwa [kept a ha, kept b hb]
    · simp
    · intro a ha b hb
      have least : weight last ≤ weight a := by
        have sorted := owing.sorted
        rw [place] at sorted ha
        rcases List.mem_append.mp ha with early | late
        · exact (List.pairwise_append.mp sorted).2.2 a early last (by simp)
        · exact (List.mem_singleton.mp late) ▸ Nat.le_refl _
      rw [kept a ha]
      simp only [List.mem_cons, List.not_mem_nil, or_false] at hb
      rcases hb with rfl | rfl
      · rwa [old_]
      · rw [new_]
        exact Nat.zero_le _
  · intro s member
    rcases List.mem_append.mp member with older | newer
    · have owner := owing.owner_mem older
      rw [kept _ owner, kept _ (List.mem_append_right _ (mem_flat.mpr ⟨s, older, .inl rfl⟩)),
        kept _ (List.mem_append_right _ (mem_flat.mpr ⟨s, older, .inr rfl⟩)), ← owing.sums s older,
        if_neg (by rintro ⟨⟩; exact fresh' owner), if_neg nofun]
    · obtain rfl := List.mem_singleton.mp newer
      have is_not : new ≠ last := fun same => fresh' (same ▸ inside)
      rw [kept last inside, old_, new_, if_neg (by simpa using is_not)]
  · intro x member free
    rw [shape, List.mem_append] at member
    rcases member with older | newer
    · rw [kept x older]
      exact owing.positive x older nofun
    · simp only [List.mem_cons, List.not_mem_nil, or_false] at newer
      rcases newer with rfl | rfl
      · rw [old_]
        exact owing.positive last inside nofun
      · exact absurd rfl free

end Weights

end Sibling
