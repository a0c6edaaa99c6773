import LibMpq.Base.Sibling
import LibMpq.HuffmanList

set_option autoImplicit false

namespace LibMpq

open Effect Function Sibling

namespace Huffman

def tradedChild (child : Nat → Option Nat) (x px y py : Nat) : Nat → Option Nat :=
  let own := if child px = some x then update child px (some y) else child
  if child py = some y then update own py (some x) else own

theorem exchangeListed_run {ht : Tree} {hi mid post : List Nat} {x y : Nat}
    (listed : Listed ht.next ht.prev (hi ++ y :: (mid ++ x :: post))) :
    ∃ next prev, exchangeListed x y hi.getLast? ht = .ok () (ht.relink next prev) ∧
      Listed next prev (hi ++ x :: (mid ++ y :: post)) := by
  have apart := listed.outside
  have loose : ht.next (.item y) ≠ .null := by simp [listed.next_item]
  obtain ⟨next1, prev1, run1, listed1⟩ := unlink_run listed
  have shape1 : hi ++ (mid ++ x :: post) = (hi ++ mid ++ [x]) ++ post := by simp
  have fresh1 : y ∉ (hi ++ mid ++ [x]) ++ post := by
    rw [← shape1, List.mem_append, not_or]
    exact apart
  rw [shape1] at listed1
  obtain ⟨next2, prev2, run2, listed2⟩ := @linkAfter_run (ht.relink next1 prev1) _ _ y listed1 fresh1
  rw [endOf_concat] at run2
  have shape2 : hi ++ mid ++ [x] ++ y :: post = (hi ++ mid) ++ x :: (y :: post) := by simp
  rw [shape2] at listed2
  have apart2 := listed2.outside
  obtain ⟨next3, prev3, run3, listed3⟩ := @unlink_run ((ht.relink next1 prev1).relink next2 prev2) _ _ x listed2
  have shape3 : hi ++ mid ++ y :: post = hi ++ (mid ++ y :: post) := by simp
  rw [shape3] at listed3
  have fresh3 : x ∉ hi ++ (mid ++ y :: post) := by
    rw [← shape3, List.mem_append, not_or]
    exact apart2
  obtain ⟨next4, prev4, run4, listed4⟩ :=
    @linkAfter_run (((ht.relink next1 prev1).relink next2 prev2).relink next3 prev3) _ _ x listed3 fresh3
  have place : hi.getLast?.elim Place.first Place.item = endOf hi := by
    rcases List.eq_nil_or_concat hi with rfl | ⟨front, j, rfl⟩
    · rfl
    · simp
  refine ⟨next4, prev4, ?_, listed4⟩
  rw [exchangeListed, bind_of_ok (get_run ht), if_pos loose, bind_of_ok run1]
  beta_reduce
  rw [bind_of_ok run2, bind_of_ok run3, place]
  exact run4

theorem exchangeParents_run {ht : Tree} {x y px py : Nat} (hx : ht.parent x = some px) (hy : ht.parent y = some py) :
    exchangeParents x y ht = .ok () { ht with
      parent := update (update ht.parent x (some py)) y (some px)
      child := tradedChild ht.child x px y py } := by
  by_cases own : ht.child px = some x <;> by_cases above : ht.child py = some y <;>
    simp [exchangeParents, bind_run, hx, hy, given, own, above, setChild, setParent, tradedChild]

theorem exchange_run {ht : Tree} {hi mid post : List Nat} {x y px py : Nat}
    (listed : Listed ht.next ht.prev (hi ++ y :: (mid ++ x :: post))) (hx : ht.parent x = some px)
    (hy : ht.parent y = some py) :
    ∃ next prev, exchange x y hi.getLast? ht =
        .ok () { ht.relink next prev with
          parent := update (update ht.parent x (some py)) y (some px)
          child := tradedChild ht.child x px y py
          generation := ht.generation + 1 } ∧
      Listed next prev (hi ++ x :: (mid ++ y :: post)) := by
  obtain ⟨next, prev, run, listed'⟩ := exchangeListed_run listed
  refine ⟨next, prev, ?_, listed'⟩
  rw [exchange, bind_of_ok run, bind_of_ok (@exchangeParents_run (ht.relink next prev) x y px py hx hy), modify_run]
  rfl

def weightOf (ht : Tree) (i : Nat) : Nat := (ht.byteValue i).toNat

structure Grown (ht : Tree) (roots : List Nat) (slots : List (Slot Nat)) (due : Option Nat) : Prop where
  listed : Listed ht.next ht.prev (roots ++ flat slots)
  owing : Owing roots slots ht.parent ht.child (weightOf ht) due
  used : ∀ i, i ∈ roots ++ flat slots ↔ i < ht.items
  room : ht.items ≤ poolSize

structure Kept (ht ht' : Tree) : Prop where
  compressionTypeZero : ht'.compressionTypeZero = ht.compressionTypeZero
  dcmpByte : ht'.dcmpByte = ht.dcmpByte
  items : ht'.items = ht.items
  symbolNodes : ht'.symbolNodes = ht.symbolNodes
  quickDecodeCache : ht'.quickDecodeCache = ht.quickDecodeCache

structure SameShape (ht ht' : Tree) : Prop where
  next : ht'.next = ht.next
  prev : ht'.prev = ht.prev
  parent : ht'.parent = ht.parent
  child : ht'.child = ht.child

theorem Kept.trans {ht ht' ht'' : Tree} (first : Kept ht ht') (second : Kept ht' ht'') : Kept ht ht'' :=
  ⟨second.1.trans first.1, second.2.trans first.2, second.3.trans first.3, second.4.trans first.4,
    second.5.trans first.5⟩

theorem SameShape.trans {ht ht' ht'' : Tree} (first : SameShape ht ht') (second : SameShape ht' ht'') :
    SameShape ht ht'' :=
  ⟨second.1.trans first.1, second.2.trans first.2, second.3.trans first.3, second.4.trans first.4⟩

namespace Grown

variable {ht : Tree} {roots : List Nat} {slots : List (Slot Nat)} {due : Option Nat}

theorem length (grown : Grown ht roots slots due) : (roots ++ flat slots).length ≤ poolSize := by
  have inside : (roots ++ flat slots) ⊆ List.range ht.items := by
    intro i member
    exact List.mem_range.mpr ((grown.used i).mp member)
  have short := (List.subperm_of_subset grown.listed.nodup inside).length_le
  rw [List.length_range] at short
  exact short.trans grown.room

end Grown

theorem tradedChild_eq {roots : List Nat} {slots : List (Slot Nat)} {parent child : Nat → Option Nat}
    (forest : Forest roots slots parent child) {x px y py : Nat} (other : x ≠ y) (hx : parent x = some px)
    (hy : parent y = some py) {z : Nat} (iz : z ∈ roots ++ flat slots) :
    tradedChild child x px y py z = (child z).map (Equiv.swap x y) := by
  -- A first child has the item it is found at as its parent.
  have up : ∀ c, child z = some c → parent c = some z := by
    intro c link
    obtain ⟨s, member, rfl, rfl⟩ := forest.child_some iz link
    exact (forest.parents s member).1
  cases link : child z with
  | none =>
    have own : child px = some x → z ≠ px := by
      rintro is rfl
      rw [link] at is
      exact absurd is nofun
    have above : child py = some y → z ≠ py := by
      rintro is rfl
      rw [link] at is
      exact absurd is nofun
    unfold tradedChild
    split <;> rename_i h1 <;> split <;> rename_i h2 <;> simp [*]
  | some c =>
    have here := up c link
    by_cases cx : c = x
    next =>
      subst cx
      obtain rfl : z = px := Option.some.inj (here.symm.trans hx)
      have apart : child py = some y → z ≠ py := by
        rintro is rfl
        exact other (Option.some.inj (link.symm.trans is))
      unfold tradedChild
      split <;> rename_i h <;> simp [*]
    by_cases cy : c = y
    next =>
      subst cy
      obtain rfl : z = py := Option.some.inj (here.symm.trans hy)
      simp [tradedChild, link]
    have own : child px = some x → z ≠ px := by
      rintro is rfl
      exact cx (Option.some.inj (link.symm.trans is))
    have above : child py = some y → z ≠ py := by
      rintro is rfl
      exact cy (Option.some.inj (link.symm.trans is))
    unfold tradedChild
    split <;> rename_i h1 <;> split <;> rename_i h2 <;> simp [Equiv.swap_apply_of_ne_of_ne cx cy, *]

theorem weightOf_raised {ht : Tree} {x : Nat} (small : weightOf ht x + 1 < 2 ^ 32) :
    (fun i => (update ht.byteValue x (ht.byteValue x + 1) i).toNat) = update (weightOf ht) x (weightOf ht x + 1) := by
  funext i
  by_cases own : i = x
  next =>
    have one : (1 : UInt32).toNat = 1 := rfl
    rw [own, update_self, update_self, UInt32.toNat_add, one]
    exact Nat.mod_eq_of_lt small
  next =>
    rw [update_of_ne own, update_of_ne own]
    rfl

def Tree.raised (ht : Tree) (i : Nat) : Tree := { ht with byteValue := update ht.byteValue i (ht.byteValue i + 1) }

@[simp] theorem Tree.raised_self (ht : Tree) (i : Nat) : (ht.raised i).byteValue i = ht.byteValue i + 1 := update_self _ _ _

theorem Tree.raised_of_ne (ht : Tree) {i j : Nat} (other : j ≠ i) : (ht.raised i).byteValue j = ht.byteValue j :=
  update_of_ne other _ _

theorem leaderOf_place {ht : Tree} {root x : Nat} {slots : List (Slot Nat)} (grown : Grown ht [root] slots (some x))
    (inside : x ∈ [root] ++ flat slots) (small : weightOf ht x + 1 < 2 ^ 32) :
    ∃ hi y lo post, [root] ++ flat slots = hi ++ y :: (lo ++ post) ∧
      (y = x ∧ lo = [] ∨ y ≠ x ∧ ∃ mid, lo = mid ++ [x]) ∧ weightOf ht y = weightOf ht x ∧
      (∀ u ∈ hi, weightOf ht x < weightOf ht u) ∧
      leaderOf (ht.raised x) ((ht.raised x).byteValue x) (poolSize + 1) x (ht.raised x) =
        .ok (y, hi.getLast?) (ht.raised x) := by
  obtain ⟨front, post, whole⟩ := List.append_of_mem inside
  have listed := grown.listed
  rw [whole] at listed
  have short : front.length < poolSize + 1 := by
    have := grown.length
    rw [whole, List.length_append] at this
    omega
  have raised : ((ht.raised x).byteValue x).toNat = weightOf ht x + 1 := by
    have value := congrFun (weightOf_raised small) x
    simpa [Tree.raised] using value
  have others : ∀ u, u ≠ x → (ht.raised x).byteValue u = ht.byteValue u := fun u => ht.raised_of_ne
  obtain ⟨hi, y, lo, cut, run, lighter, heavier⟩ :=
    @leaderOf_run (ht.raised x) (ht.raised x) ((ht.raised x).byteValue x) (poolSize + 1) front post x listed short
  have place : [root] ++ flat slots = hi ++ y :: (lo ++ post) := by
    rw [whole, List.append_cons, cut, List.append_assoc, List.cons_append]
  have ends : y = x ∧ lo = [] ∨ ∃ mid, lo = mid ++ [x] := by
    rcases List.eq_nil_or_concat lo with rfl | ⟨mid, l, rfl⟩
    · obtain ⟨_, is⟩ := List.append_inj' cut rfl
      exact .inl ⟨(List.cons.inj is).1.symm, rfl⟩
    · rw [List.concat_eq_append, ← List.cons_append, ← List.append_assoc] at cut
      obtain ⟨_, is⟩ := List.append_inj' cut rfl
      exact .inr ⟨mid, by rw [(List.cons.inj is).1, List.concat_eq_append]⟩
  have sorted := grown.owing.sorted
  have distinct := grown.listed.nodup
  rw [place] at sorted distinct
  have last : x ∈ y :: (lo ++ post) := by
    rcases ends with ⟨rfl, _⟩ | ⟨mid, rfl⟩ <;> simp
  have same : weightOf ht y = weightOf ht x := by
    by_cases own : y = x
    next => rw [own]
    have low := UInt32.lt_iff_toNat_lt.mp (lighter y (by simp) own)
    rw [raised, others y own] at low
    have later : x ∈ lo ++ post := by simpa [Ne.symm own] using last
    have high := sorted.heavier later
    unfold weightOf at *
    omega
  have above : ∀ u ∈ hi, weightOf ht x < weightOf ht u := by
    intro u member
    obtain ⟨rest, l, rfl⟩ : ∃ rest l, hi = rest ++ [l] := by
      rcases List.eq_nil_or_concat hi with rfl | ⟨rest, l, rfl⟩
      · cases member
      · exact ⟨rest, l, by simp⟩
    have apart : l ≠ x := by
      rintro rfl
      exact (List.nodup_append.mp distinct).2.2 l (by simp) l last rfl
    have least := UInt32.le_iff_toNat_le.mp (heavier l (by simp))
    rw [raised, others l apart] at least
    have ordered : weightOf ht l ≤ weightOf ht u := by
      rcases List.mem_append.mp member with early | own
      · exact (List.pairwise_append.mp (List.pairwise_append.mp sorted).1).2.2 u early l (by simp)
      · rw [List.mem_singleton.mp own]
    unfold weightOf at *
    omega
  refine ⟨hi, y, lo, post, place, ?_, same, above, run⟩
  rcases ends with own | found
  · exact .inl own
  · refine .inr ⟨?_, found⟩
    obtain ⟨mid, rfl⟩ := found
    rintro rfl
    exact (List.nodup_cons.mp (List.nodup_append.mp distinct).2.1).1 (by simp)

theorem raiseItem_run {ht : Tree} {root x : Nat} {slots : List (Slot Nat)} (grown : Grown ht [root] slots (some x))
    (inside : x ∈ [root] ++ flat slots) (small : weightOf ht x + 1 < 2 ^ 32) :
    ∃ hi y rest ht', [root] ++ flat slots = hi ++ y :: rest ∧ x ∈ y :: rest ∧ weightOf ht y = weightOf ht x ∧
      (∀ u ∈ hi, weightOf ht x < weightOf ht u) ∧ raiseItem (some x) ht = .ok (.inl (ht'.parent x)) ht' ∧ ht'.parent x = ht.parent y ∧
      Grown ht' [root] (slots.map (Slot.exchange x y)) (ht'.parent x) ∧ Kept ht ht' ∧
      ht'.byteValue = update ht.byteValue x (ht.byteValue x + 1) ∧
      (x = y → SameShape ht ht' ∧ ht'.generation = ht.generation) ∧
      (x ≠ y → ht'.generation = ht.generation + 1) := by
  obtain ⟨hi, y, lo, post, place, ends, same, above, search⟩ := leaderOf_place grown inside small
  have last : x ∈ y :: (lo ++ post) := by
    rcases ends with ⟨rfl, _⟩ | ⟨_, mid, rfl⟩ <;> simp
  have step := grown.owing.raise place last same above
  have weights : weightOf (ht.raised x) = update (weightOf ht) x (weightOf ht x + 1) := weightOf_raised small
  have hx : x ∈ [root] ++ flat slots := inside
  have hy : y ∈ [root] ++ flat slots := by simp [place]
  have begin_ : raiseItem (some x) ht =
      (do
        if y ≠ x then exchange x y hi.getLast?
        pure (.inl ((← get).parent x)) : Act (Option Nat ⊕ Unit)) (ht.raised x) := by
    rw [raiseItem, bind_of_ok (get_run ht), setByteValue, bind_of_ok (modify_run _ _), bind_of_ok (get_run _)]
    exact bind_of_ok search _
  refine ⟨hi, y, lo ++ post, ?_⟩
  rcases ends with ⟨rfl, rfl⟩ | ⟨other, mid, rfl⟩
  case inl =>
    refine ⟨ht.raised y, place, last, same, above, ?_, rfl, ?_, ⟨rfl, rfl, rfl, rfl, rfl⟩, rfl, fun _ => ⟨⟨rfl, rfl, rfl, rfl⟩, rfl⟩,
      fun other => absurd rfl other⟩
    · rw [begin_, if_neg (by simp)]
      rfl
    · rw [map_exchange_self]
      refine ⟨grown.listed, ?_, grown.used, grown.room⟩
      rw [weights]
      simp only [Equiv.swap_self, map_exchange_self, Equiv.coe_refl, List.map_id, Option.map_id_fun, id] at step
      exact step
  case inr =>
    have hiy : x ∉ hi ∧ x ≠ y := by
      have distinct := grown.listed.nodup
      rw [place, List.nodup_append] at distinct
      refine ⟨fun early => distinct.2.2 x early x last rfl, other.symm⟩
    obtain ⟨py, up⟩ := grown.owing.not_root place last same hiy.2
    obtain ⟨px, own⟩ : ∃ px, ht.parent x = some px := by
      cases link : ht.parent x with
      | some px => exact ⟨px, rfl⟩
      | none =>
        have top : x = root := by simpa using grown.owing.parent_none hx link
        subst top
        cases hi with
        | nil => exact absurd (List.cons.inj place).1 hiy.2
        | cons h hi => exact absurd (by simp [(List.cons.inj place).1]) hiy.1
    have fixed : Equiv.swap x y root = root := by
      have xr : root ≠ x := by
        rintro rfl
        rw [grown.owing.tops root (by simp)] at own
        exact absurd own nofun
      have yr : root ≠ y := by
        rintro rfl
        rw [grown.owing.tops root (by simp)] at up
        exact absurd up nofun
      exact Equiv.swap_apply_of_ne_of_ne xr yr
    have shape : hi ++ y :: (mid ++ [x] ++ post) = hi ++ y :: (mid ++ x :: post) := by simp
    have listed := grown.listed
    have distinct := grown.listed.nodup
    rw [place, shape] at listed distinct
    obtain ⟨next, prev, run, listed'⟩ := @exchange_run (ht.raised x) hi mid post x y px py listed own up
    have order : hi ++ x :: (mid ++ y :: post) = [root] ++ flat (slots.map (Slot.exchange x y)) := by
      rw [← map_swap distinct, ← shape, ← place, List.map_append, flat_exchange, List.map_singleton, fixed]
    have parents : update (update ht.parent x (some py)) y (some px) = fun z => ht.parent (Equiv.swap x y z) := by
      funext z
      by_cases zy : z = y
      next => rw [zy, update_self, Equiv.swap_apply_right, own]
      by_cases zx : z = x
      next => rw [zx, update_of_ne hiy.2, update_self, Equiv.swap_apply_left, up]
      rw [update_of_ne zy, update_of_ne zx, Equiv.swap_apply_of_ne_of_ne zx zy]
    have after : update (update ht.parent x (some py)) y (some px) x = ht.parent y := by
      rw [update_of_ne hiy.2, update_self, up]
    refine ⟨{ (ht.raised x).relink next prev with
        parent := update (update ht.parent x (some py)) y (some px)
        child := tradedChild ht.child x px y py
        generation := ht.generation + 1 }, place, last, same, above, ?_, after, ?_, ⟨rfl, rfl, rfl, rfl, rfl⟩, rfl,
      fun own => absurd own hiy.2, fun _ => rfl⟩
    · rw [begin_, if_pos other, bind_of_ok run]
      rfl
    · refine ⟨order ▸ listed', ?_, ?_, grown.room⟩
      · show Owing [root] (slots.map (Slot.exchange x y)) (update (update ht.parent x (some py)) y (some px))
          (tradedChild ht.child x px y py) (weightOf (ht.raised x)) (update (update ht.parent x (some py)) y (some px) x)
        rw [after, parents, weights]
        rw [List.map_singleton, fixed] at step
        refine step.congr (fun _ _ => rfl) fun z iz => ?_
        rw [flat_exchange, ← fixed, ← List.map_singleton, ← List.map_append, mem_map_swap, swap_mem hx hy] at iz
        exact tradedChild_eq grown.owing.toForest hiy.2 own up iz
      · intro i
        rw [flat_exchange, ← fixed, ← List.map_singleton, ← List.map_append, mem_map_swap, swap_mem hx hy]
        exact grown.used i

structure Regrown (ht ht' : Tree) (trades : Nat) : Prop where
  kept : Kept ht ht'
  generation : ht'.generation = ht.generation + UInt32.ofNat trades
  still : trades = 0 → SameShape ht ht'
  leaves : ∀ i < ht.items, ht'.child i = none ↔ ht.child i = none

theorem Regrown.trans {ht ht' ht'' : Tree} {m n : Nat} (first : Regrown ht ht' m) (second : Regrown ht' ht'' n) :
    Regrown ht ht'' (m + n) where
  kept := first.kept.trans second.kept
  generation := by rw [second.generation, first.generation, UInt32.ofNat_add, UInt32.add_assoc]
  still none_ := (first.still (by omega)).trans (second.still (by omega))
  leaves i inside := (second.leaves i (by rwa [first.kept.items])).trans (first.leaves i inside)

theorem raiseItem_regrown {ht ht' : Tree} {root x y : Nat} {slots : List (Slot Nat)} {due due' : Option Nat}
    (grown : Grown ht [root] slots due) (grown' : Grown ht' [root] (slots.map (Slot.exchange x y)) due')
    (kept : Kept ht ht') (still : x = y → SameShape ht ht' ∧ ht'.generation = ht.generation)
    (moved : x ≠ y → ht'.generation = ht.generation + 1) : Regrown ht ht' (if x = y then 0 else 1) where
  kept := kept
  generation := by
    split
    next own => simp [(still own).2]
    next other => simp [moved other]
  still none_ := by
    split at none_
    next own => exact (still own).1
    next => omega
  leaves i inside := by
    rw [grown.owing.child_none ((grown.used i).mpr inside),
      grown'.owing.child_none ((grown'.used i).mpr (by rwa [kept.items]))]
    simp [Slot.exchange]

theorem rounds_root {root : Nat} {fuel : Nat} {ht : Tree} {slots : List (Slot Nat)} {x : Nat} {front post : List Nat}
    (grown : Grown ht [root] slots (some x)) (place : [root] ++ flat slots = front ++ x :: post)
    (enough : front.length < fuel) :
    ∃ ht' slots' k trades, rounds raiseItem (fuel + 1) (some x) ht = rounds raiseItem (k + 2) (some root) ht' ∧
      Grown ht' [root] slots' (some root) ∧ Regrown ht ht' trades ∧ trades ≤ front.length ∧
      (∀ slots'' weight'' more, Climb root slots' (weightOf ht') root slots'' weight'' more →
        Climb root slots (weightOf ht) x slots'' weight'' (trades + more)) ∧
      ht'.byteValue root = ht.byteValue root ∧
      (∀ i < ht.items, ht.child i = none → i ≠ x → ht'.byteValue i = ht.byteValue i) ∧
      (x ≠ root → ht.child x = none → weightOf ht' x = weightOf ht x + 1) := by
  induction fuel generalizing ht slots x front post with
  | zero => omega
  | succ fuel ih =>
    by_cases top : x = root
    next =>
      subst top
      exact ⟨ht, slots, fuel, 0, rfl, grown, ⟨⟨rfl, rfl, rfl, rfl, rfl⟩, by simp, fun _ => ⟨rfl, rfl, rfl, rfl⟩,
        fun _ _ => Iff.rfl⟩, Nat.zero_le _, fun _ _ _ climb => by rwa [Nat.zero_add], rfl, fun _ _ _ _ => rfl,
        fun other => absurd rfl other⟩
    have inside : x ∈ [root] ++ flat slots := by simp [place]
    obtain ⟨px, own⟩ : ∃ px, ht.parent x = some px := by
      cases link : ht.parent x with
      | some px => exact ⟨px, rfl⟩
      | none => exact absurd (by simpa using grown.owing.parent_none inside link) top
    have small : weightOf ht x + 1 < 2 ^ 32 := by
      have heavier := grown.owing.parent_heavier inside own
      have := (ht.byteValue px).toNat_lt
      unfold weightOf at *
      omega
    obtain ⟨hi, y, rest, ht1, place', after, same, above, run, link, grown1, kept, values, still, moved⟩ :=
      raiseItem_run grown inside small
    have regrown := raiseItem_regrown grown grown1 kept still moved
    obtain ⟨z, up⟩ : ∃ z, ht.parent y = some z := by
      by_cases is : x = y
      next => exact ⟨px, is ▸ own⟩
      next => exact grown.owing.not_root place' after same is
    rw [up] at link
    have distinct := grown.listed.nodup
    have before := grown.owing.parent_before place' up
    have apart : z ≠ x ∧ z ≠ y := by
      rw [place', List.nodup_append] at distinct
      exact ⟨distinct.2.2 z before x after, distinct.2.2 z before y (by simp)⟩
    have inside1 : x ∈ [root] ++ flat (slots.map (Slot.exchange x y)) :=
      (grown1.used x).mpr (kept.items ▸ (grown.used x).mp inside)
    obtain ⟨s, member, owner, is⟩ := grown1.owing.parent_some inside1 link
    have internal : ht1.child z ≠ none := by
      rw [← owner, grown1.owing.children s member]
      nofun
    obtain ⟨h1, h2, rfl⟩ := List.append_of_mem before
    have fixed : Equiv.swap x y root = root := by
      refine Equiv.swap_apply_of_ne_of_ne (Ne.symm top) ?_
      rintro rfl
      rw [grown.owing.tops root (by simp)] at up
      exact absurd up nofun
    have place1 : [root] ++ flat (slots.map (Slot.exchange x y)) =
        h1.map (Equiv.swap x y) ++ z :: (h2 ++ y :: rest).map (Equiv.swap x y) := by
      have mapped := congrArg (List.map (Equiv.swap x y)) place'
      simpa [fixed, flat_exchange, Equiv.swap_apply_of_ne_of_ne apart.1 apart.2] using mapped
    have nearer : (h1.map (Equiv.swap x y)).length < front.length := by
      have := length_front (place ▸ place') (place ▸ distinct) after
      rw [List.length_append, List.length_cons] at this
      rw [List.length_map]
      omega
    rw [link] at grown1
    obtain ⟨ht', slots', k, trades, run', grown', regrown', few, climb, rootValue, leafValues, _⟩ :=
      ih grown1 place1 (by omega)
    have xr : root ≠ x := Ne.symm top
    have raised : weightOf ht1 = update (weightOf ht) x (weightOf ht x + 1) := by
      rw [← weightOf_raised small]
      funext i
      rw [weightOf, values]
    refine ⟨ht', slots', k, _, ?_, grown', regrown.trans regrown', ?_, ?_, ?_, ?_, ?_⟩
    · rw [rounds_next run, link, run']
    · split <;> omega
    · intro slots'' weight'' more rest'
      rw [Nat.add_assoc]
      have further := climb slots'' weight'' more rest'
      rw [← owner, raised] at further
      exact .up place' after same above top member is further
    · rw [rootValue, values, update_of_ne xr]
    · intro i used leaf other
      have leaf1 := (regrown.leaves i used).mpr leaf
      rw [leafValues i (kept.items ▸ used) leaf1 (fun is => internal (is ▸ leaf1)), values, update_of_ne other]
    · intro _ leaf
      have used := (grown.used x).mp inside
      have leaf1 := (regrown.leaves x used).mpr leaf
      have value := congrFun (weightOf_raised small) x
      rw [weightOf, leafValues x (kept.items ▸ used) leaf1 apart.1.symm, values]
      simpa using value

theorem Grown.root_internal {ht : Tree} {root x : Nat} {slots : List (Slot Nat)} {due : Option Nat}
    (grown : Grown ht [root] slots due) (inside : x ∈ [root] ++ flat slots) (below : x ≠ root) : ht.child root ≠ none := by
  cases slots with
  | nil => exact absurd (by simpa using inside) below
  | cons s slots =>
    have owner : s.owner = root := by simpa using grown.owing.owned [] s slots rfl
    rw [← owner, grown.owing.children s (by simp)]
    nofun

theorem Grown.shorter {ht : Tree} {root : Nat} {slots : List (Slot Nat)} {due : Option Nat} {front post : List Nat} {x : Nat}
    (grown : Grown ht [root] slots due) (place : [root] ++ flat slots = front ++ x :: post) : front.length < poolSize := by
  have := grown.length
  rw [place, List.length_append, List.length_cons] at this
  omega

theorem updateWeights_run {ht : Tree} {root x : Nat} {slots : List (Slot Nat)} (grown : Grown ht [root] slots (some x))
    (inside : x ∈ [root] ++ flat slots) (room : weightOf ht root + 1 < 2 ^ 32) :
    ∃ ht' slots' trades, updateWeights (some x) ht = .ok () ht' ∧ Grown ht' [root] slots' none ∧
      Regrown ht ht' trades ∧ trades ≤ poolSize ∧ Climb root slots (weightOf ht) x slots' (weightOf ht') trades ∧
      weightOf ht' root = weightOf ht root + 1 ∧
      (∀ i < ht.items, ht.child i = none → i ≠ x → ht'.byteValue i = ht.byteValue i) ∧
      (x ≠ root → ht.child x = none → weightOf ht' x = weightOf ht x + 1) := by
  obtain ⟨front, post, place⟩ := List.append_of_mem inside
  have short := grown.shorter place
  obtain ⟨ht1, slots1, k, trades, run, grown1, regrown, few, climb, rootValue, leafValues, ownValue⟩ :=
    rounds_root grown place (Nat.lt_succ_of_lt short)
  have room1 : weightOf ht1 root + 1 < 2 ^ 32 := by rwa [weightOf, rootValue]
  obtain ⟨hi, y, rest, ht2, place2, after, _, _, run2, _, grown2, kept, values, still, moved⟩ :=
    raiseItem_run grown1 (by simp) room1
  obtain rfl : y = root := by
    have distinct := grown1.listed.nodup
    rw [place2, List.nodup_append] at distinct
    cases hi with
    | nil => exact (List.cons.inj place2).1.symm
    | cons h hi => exact absurd (List.cons.inj place2).1.symm (distinct.2.2 h (by simp) _ after)
  have regrown2 := raiseItem_regrown grown1 grown2 kept still moved
  have last : ht2.parent y = none := grown2.owing.tops y (by simp)
  rw [last, map_exchange_self] at grown2
  rw [if_pos rfl] at regrown2
  have raised : weightOf ht2 = update (weightOf ht1) y (weightOf ht1 y + 1) := by
    rw [← weightOf_raised room1]
    funext i
    rw [weightOf, values]
  refine ⟨ht2, slots1, trades, ?_, grown2, regrown.trans regrown2, by omega, ?_, ?_, ?_, ?_⟩
  · rw [updateWeights, run, rounds_next run2, last, rounds_done rfl]
  · have whole := climb slots1 _ _ (.top slots1 (weightOf ht1))
    rwa [← raised] at whole
  · rw [raised, update_self, weightOf, rootValue, weightOf]
  · intro i used leaf other
    have below : i ≠ y := by
      rintro rfl
      exact grown.root_internal inside other.symm leaf
    rw [values, update_of_ne below, leafValues i used leaf other]
  · intro below leaf
    rw [weightOf, values, update_of_ne below]
    exact ownValue below leaf

theorem updateWeights_wraps {ht : Tree} {root x : Nat} {slots : List (Slot Nat)} (grown : Grown ht [root] slots (some x))
    (inside : x ∈ [root] ++ flat slots) (full : weightOf ht root = 2 ^ 32 - 1) :
    ∃ ht' slots', updateWeights (some x) ht = .ok () ht' ∧ Listed ht'.next ht'.prev ([root] ++ flat slots') ∧
      ht'.items = ht.items ∧ weightOf ht' root = 0 ∧ ∀ i ∈ flat slots', 0 < weightOf ht' i := by
  obtain ⟨front, post, place⟩ := List.append_of_mem inside
  have short := grown.shorter place
  obtain ⟨ht1, slots1, k, trades, run, grown1, regrown, _, _, rootValue, _⟩ :=
    rounds_root grown place (Nat.lt_succ_of_lt short)
  have value : ht1.byteValue root + 1 = 0 := by
    apply UInt32.toNat.inj
    rw [rootValue, UInt32.toNat_add]
    unfold weightOf at full
    rw [full]
    rfl
  have top : ht1.parent root = none := grown1.owing.tops root (by simp)
  have front1 : ht1.prev (.item root) = .not .first := @Listed.prev_item _ _ [] (flat slots1) root grown1.listed
  have step : raiseItem (some root) ht1 = .ok (.inl none) (ht1.raised root) := by
    have walk : leaderOf (ht1.raised root) ((ht1.raised root).byteValue root) (poolSize + 1) root (ht1.raised root) =
        .ok (root, none) (ht1.raised root) := by
      rw [leaderOf, show (ht1.raised root).prev (.item root) = .not .first from front1]
      rfl
    have begin_ : raiseItem (some root) ht1 =
        (do
          if root ≠ root then exchange root root none
          pure (.inl ((← get).parent root)) : Act (Option Nat ⊕ Unit)) (ht1.raised root) := by
      rw [raiseItem, bind_of_ok (get_run ht1), setByteValue, bind_of_ok (modify_run _ _), bind_of_ok (get_run _)]
      exact bind_of_ok walk _
    rw [begin_, if_neg (by simp)]
    show EStateM.Result.ok (Sum.inl (ht1.parent root)) (ht1.raised root) = _
    rw [top]
  refine ⟨ht1.raised root, slots1, ?_, grown1.listed, regrown.kept.items, ?_, ?_⟩
  · rw [updateWeights, run, rounds_next step, rounds_done rfl]
  · rw [weightOf, Tree.raised_self, value]
    rfl
  · intro i member
    have apart : i ≠ root := by
      rintro rfl
      have distinct := grown1.listed.nodup
      rw [List.singleton_append, List.nodup_cons] at distinct
      exact distinct.1 member
    rw [weightOf, Tree.raised_of_ne _ apart]
    exact grown1.owing.positive i (List.mem_append_right _ member) (by simpa using apart.symm)

end Huffman

end LibMpq
