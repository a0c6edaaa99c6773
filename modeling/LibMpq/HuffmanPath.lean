import LibMpq.HuffmanInvariant
import LibMpq.HuffmanStream

set_option autoImplicit false

namespace LibMpq

open Effect Function Sibling Bitstream

namespace Huffman

def Tree.turn (ht : Tree) (i : Nat) (bit : Bool) : Option Nat :=
  match ht.child i with
  | none => none
  | some child =>
    if bit then
      match ht.prev (.item child) with
      | .to (.item second) => some second
      | _ => none
    else some child

def Tree.path (ht : Tree) : Nat → List Bool → Option Nat
  | i, [] => some i
  | i, bit :: bits => (ht.turn i bit).bind fun j => ht.path j bits

theorem SameShape.path {ht ht' : Tree} (same : SameShape ht ht') (i : Nat) (bits : List Bool) :
    ht'.path i bits = ht.path i bits := by
  have turn : ht'.turn = ht.turn := by
    funext i bit
    rw [Tree.turn, Tree.turn, same.child, same.prev]
  induction bits generalizing i with
  | nil => rfl
  | cons bit bits ih =>
    rw [Tree.path, Tree.path, turn]
    exact congrArg (Option.bind _) (funext fun j => ih j)

theorem path_append (ht : Tree) (i : Nat) (bits bits' : List Bool) :
    ht.path i (bits ++ bits') = (ht.path i bits).bind fun j => ht.path j bits' := by
  induction bits generalizing i with
  | nil => rfl
  | cons bit bits ih =>
    rw [List.cons_append, Tree.path, Tree.path]
    cases ht.turn i bit with
    | none => rfl
    | some j => exact ih j

namespace Grown

variable {ht : Tree} {root : Nat} {slots : List (Slot Nat)} {due : Option Nat} (grown : Grown ht [root] slots due)
include grown

theorem turn_slot {s : Slot Nat} (member : s ∈ slots) :
    ht.turn s.owner false = some s.first ∧ ht.turn s.owner true = some s.second := by
  obtain ⟨before, after, rfl⟩ := List.append_of_mem member
  have listed := grown.listed
  have shape : [root] ++ flat (before ++ s :: after) =
      ([root] ++ flat before ++ [s.second]) ++ s.first :: flat after := by simp
  rw [shape] at listed
  have back := listed.prev_item
  rw [endOf_concat] at back
  rw [Tree.turn, Tree.turn, grown.owing.children s member]
  exact ⟨rfl, by simp [back, Link.back]⟩

theorem turn_some {i j : Nat} (inside : i ∈ [root] ++ flat slots) {bit : Bool} (down : ht.turn i bit = some j) :
    ∃ s ∈ slots, s.owner = i ∧ j = if bit then s.second else s.first := by
  cases link : ht.child i with
  | none =>
    rw [Tree.turn, link] at down
    exact absurd down nofun
  | some c =>
    obtain ⟨s, member, rfl, rfl⟩ := grown.owing.child_some inside link
    obtain ⟨zero, one⟩ := grown.turn_slot member
    refine ⟨s, member, rfl, ?_⟩
    cases bit with
    | false => exact Option.some.inj (down.symm.trans zero)
    | true => exact Option.some.inj (down.symm.trans one)

theorem turn_after {i j : Nat} (inside : i ∈ [root] ++ flat slots) {bit : Bool} (down : ht.turn i bit = some j) :
    j ∈ [root] ++ flat slots ∧ ([root] ++ flat slots).idxOf i < ([root] ++ flat slots).idxOf j := by
  obtain ⟨s, member, rfl, is⟩ := grown.turn_some inside down
  obtain ⟨before, after, rfl⟩ := List.append_of_mem member
  have owned := grown.owing.owned before s after rfl
  have cut : [root] ++ flat (before ++ s :: after) = ([root] ++ flat before) ++ s.second :: s.first :: flat after := by simp
  have distinct := grown.listed.nodup
  rw [cut] at distinct ⊢
  have below : j ∈ s.second :: s.first :: flat after := by
    rw [is]
    split <;> simp
  have apart : j ∉ [root] ++ flat before := fun twice => (List.nodup_append.mp distinct).2.2 j twice j below rfl
  refine ⟨List.mem_append_right _ below, ?_⟩
  rw [List.idxOf_append_of_mem owned, List.idxOf_append_of_notMem apart]
  exact Nat.lt_add_right _ (List.idxOf_lt_length_of_mem owned)

theorem path_after {i j : Nat} (inside : i ∈ [root] ++ flat slots) {bits : List Bool} (down : ht.path i bits = some j) :
    j ∈ [root] ++ flat slots ∧ ([root] ++ flat slots).idxOf i + bits.length ≤ ([root] ++ flat slots).idxOf j := by
  induction bits generalizing i with
  | nil =>
    obtain rfl := Option.some.inj down
    exact ⟨inside, Nat.le_refl _⟩
  | cons bit bits ih =>
    rw [Tree.path] at down
    obtain ⟨k, turn, rest⟩ := Option.bind_eq_some_iff.mp down
    obtain ⟨inside', later⟩ := grown.turn_after inside turn
    obtain ⟨member, far⟩ := ih inside' rest
    rw [List.length_cons]
    exact ⟨member, by omega⟩

theorem path_short {i j : Nat} (inside : i ∈ [root] ++ flat slots) {bits : List Bool} (down : ht.path i bits = some j) :
    bits.length < poolSize := by
  obtain ⟨member, far⟩ := grown.path_after inside down
  have := List.idxOf_lt_length_of_mem member
  have := grown.length
  omega

theorem path_cases {i : Nat} (inside : i ∈ [root] ++ flat slots) (internal : ht.child i ≠ none) (view : List Bool) :
    (∃ bits rest leaf, view = bits ++ rest ∧ bits ≠ [] ∧ ht.path i bits = some leaf ∧ ht.child leaf = none) ∨
      ∃ j, ht.path i view = some j ∧ ht.child j ≠ none := by
  induction view generalizing i with
  | nil => exact .inr ⟨i, rfl, internal⟩
  | cons bit view ih =>
    obtain ⟨c, link⟩ := Option.ne_none_iff_exists'.mp internal
    obtain ⟨s, member, rfl, rfl⟩ := grown.owing.child_some inside link
    obtain ⟨zero, one⟩ := grown.turn_slot member
    obtain ⟨j, down⟩ : ∃ j, ht.turn s.owner bit = some j := by
      cases bit with
      | false => exact ⟨_, zero⟩
      | true => exact ⟨_, one⟩
    obtain ⟨inside', _⟩ := grown.turn_after inside down
    by_cases leaf : ht.child j = none
    next => exact .inl ⟨[bit], view, j, rfl, by simp, by rw [Tree.path, down]; rfl, leaf⟩
    next =>
      rcases ih inside' leaf with ⟨bits, rest, l, rfl, _, path, free⟩ | ⟨l, path, more⟩
      · exact .inl ⟨bit :: bits, rest, l, rfl, by simp, by rw [Tree.path, down]; exact path, free⟩
      · exact .inr ⟨l, by rw [Tree.path, down]; exact path, more⟩

end Grown

end Huffman

end LibMpq
