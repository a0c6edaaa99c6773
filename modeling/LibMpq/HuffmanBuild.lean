import LibMpq.HuffmanLiteral

set_option autoImplicit false

namespace LibMpq

open Effect Function Sibling

namespace Huffman

theorem getLast_place (items : List Nat) : items.getLast?.elim Place.first Place.item = endOf items := by
  rcases List.eq_nil_or_concat items with rfl | ⟨front, j, rfl⟩
  · rfl
  · simp

theorem notLighter_before {ht s : Tree} {weight : UInt32} {item top : Nat} {rest post : List Nat}
    (listed : Listed ht.next ht.prev (item :: (top :: rest) ++ post)) (short : rest.length + 2 < poolSize + 1)
    (heavy : weight < ht.byteValue top) :
    ∃ hi lo, rest = hi ++ lo ∧
      notLighter ht weight (poolSize + 1) (Link.back (endOf (item :: top :: rest))) s = .ok (top :: hi).getLast? s ∧
      (∀ u ∈ lo, ht.byteValue u < weight) ∧ ∀ u, (top :: hi).getLast? = some u → weight ≤ ht.byteValue u := by
  have enough : (item :: top :: rest).length < poolSize + 1 := by
    rw [List.length_cons, List.length_cons]
    omega
  obtain ⟨hi, lo, cut, run, lighter, heavier⟩ := @notLighter_run ht s weight _ _ post listed enough
  have above : top ∉ lo := fun below => absurd (lighter top below) (UInt32.not_lt.mpr (UInt32.le_of_lt heavy))
  cases hi with
  | nil =>
    obtain rfl : _ = lo := cut
    exact absurd (by simp) above
  | cons i hi =>
    obtain ⟨rfl, cut'⟩ := List.cons.inj cut
    cases hi with
    | nil =>
      obtain rfl : _ = lo := cut'
      exact absurd (by simp) above
    | cons j hi =>
      obtain ⟨rfl, rfl⟩ := List.cons.inj cut'
      exact ⟨hi, lo, rfl, run, lighter, heavier⟩

theorem Named.plant {ht ht' : Tree} (named : Named ht) {symbol : Nat} (known : symbol < 0x102)
    (items : ht'.items = ht.items + 1) (child : ht'.child = update ht.child ht.items none)
    (dcmpByte : ht'.dcmpByte = update ht.dcmpByte ht.items (UInt32.ofNat symbol))
    (symbolNodes : ht'.symbolNodes = update ht.symbolNodes symbol (some ht.items)) : Named ht' := by
  have value : (UInt32.ofNat symbol).toNat = symbol := UInt32.toNat_ofNat_of_lt' (by simp [UInt32.size]; omega)
  have apart : ∀ i < ht.items, i ≠ ht.items := by omega
  constructor
  · intro s i node
    rw [symbolNodes, update_apply] at node
    rw [items, child, dcmpByte]
    split at node
    next new =>
      obtain rfl := Option.some.inj node
      rw [update_self, update_self, value]
      exact ⟨by omega, rfl, new.symm⟩
    next =>
      obtain ⟨used, leaf, is⟩ := named.symbols s i node
      rw [update_of_ne (apart i used), update_of_ne (apart i used)]
      exact ⟨by omega, leaf, is⟩
  · intro i used leaf
    rw [items] at used
    rw [child] at leaf
    rw [symbolNodes, dcmpByte]
    by_cases new : i = ht.items
    next =>
      rw [new, update_self, value]
      exact ⟨_, update_self _ _ _⟩
    next =>
      rw [update_of_ne new] at leaf ⊢
      obtain ⟨j, node⟩ := named.present i (by omega) leaf
      rw [update_apply]
      split
      next => exact ⟨_, rfl⟩
      next => exact ⟨j, node⟩
  · intro i used leaf
    rw [items] at used
    rw [child] at leaf
    rw [dcmpByte]
    by_cases new : i = ht.items
    next => rwa [new, update_self, value]
    next =>
      rw [update_of_ne new] at leaf ⊢
      exact named.known i (by omega) leaf

structure Planted (ht : Tree) (order : List Nat) (max : UInt32) : Prop extends Named ht where
  grown : Grown ht order [] none
  light : ∀ i ∈ order, weightOf ht i < 0x100
  greatest : order = [] ∧ max = 0 ∨ ∃ top rest, order = top :: rest ∧ ht.byteValue top = max

theorem Grown.leaves {ht : Tree} {order : List Nat} (grown : Grown ht order [] none) :
    Listed ht.next ht.prev order ∧ (∀ i, i ∈ order ↔ i < ht.items) ∧ order.length = ht.items := by
  have listed := grown.listed
  have used := grown.used
  have count := grown.count
  rw [flat_nil, List.append_nil] at listed count
  simp only [flat_nil, List.append_nil] at used
  exact ⟨listed, used, count.symm⟩

theorem weightOf_update {ht ht' : Tree} {i : Nat} {weight : UInt32}
    (byteValue : ht'.byteValue = update ht.byteValue i weight) :
    weightOf ht' = update (weightOf ht) i weight.toNat := by
  funext j
  rw [weightOf, byteValue, update_apply, update_apply]
  split <;> rfl

theorem Planted.plant {ht ht' : Tree} {front back : List Nat} {max : UInt32} (planted : Planted ht (front ++ back) max)
    (room : ht.items < poolSize) {symbol : Nat} {weight : UInt32} (known : symbol < 0x102) (positive : 0 < weight)
    (small : weight.toNat < 0x100) (above : ∀ u ∈ front, weight ≤ ht.byteValue u)
    (below : ∀ u ∈ back, ht.byteValue u ≤ weight) (items : ht'.items = ht.items + 1)
    (child : ht'.child = update ht.child ht.items none) (parent : ht'.parent = update ht.parent ht.items none)
    (dcmpByte : ht'.dcmpByte = update ht.dcmpByte ht.items (UInt32.ofNat symbol))
    (byteValue : ht'.byteValue = update ht.byteValue ht.items weight)
    (symbolNodes : ht'.symbolNodes = update ht.symbolNodes symbol (some ht.items))
    (listed : Listed ht'.next ht'.prev (front ++ ht.items :: back)) {max' : UInt32}
    (greatest : front = [] ∧ max' = weight ∨ front ≠ [] ∧ max' = max) :
    Planted ht' (front ++ ht.items :: back) max' := by
  obtain ⟨_, used, _⟩ := planted.grown.leaves
  have fresh : ht.items ∉ front ++ back := fun inside => Nat.lt_irrefl _ ((used _).mp inside)
  have weights := weightOf_update byteValue
  have same : ∀ u, u ≠ ht.items → ht'.byteValue u = ht.byteValue u := by
    intro u other
    rw [byteValue, update_of_ne other]
  refine ⟨planted.toNamed.plant known items child dcmpByte symbolNodes, ⟨?_, ?_, ?_, ?_⟩, ?_, ?_⟩
  · simpa using listed
  · rw [parent, child, weights]
    refine planted.grown.owing.plant (by simpa using fresh) (UInt32.lt_iff_toNat_lt.mp positive)
      (fun u member => UInt32.le_iff_toNat_le.mp (above u member)) fun u member => ?_
    rw [flat_nil, List.append_nil] at member
    exact UInt32.le_iff_toNat_le.mp (below u member)
  · intro i
    have is := used i
    simp only [flat_nil, List.append_nil, List.mem_append, List.mem_cons, items] at is ⊢
    rw [Nat.lt_succ_iff_lt_or_eq, ← is]
    grind
  · rw [items]
    exact room
  · intro i member
    rw [weights, update_apply]
    split
    next => exact small
    next other =>
      refine planted.light i ?_
      simp only [List.mem_append, List.mem_cons, other, false_or] at member ⊢
      exact member
  · right
    rcases greatest with ⟨rfl, rfl⟩ | ⟨some_, rfl⟩
    · exact ⟨ht.items, back, rfl, by rw [byteValue, update_self]⟩
    · cases front with
      | nil => exact absurd rfl some_
      | cons top rest =>
        refine ⟨top, rest ++ ht.items :: back, rfl, ?_⟩
        rcases planted.greatest with ⟨nil, _⟩ | ⟨top', rest', is, value⟩
        · exact absurd nil nofun
        · obtain ⟨rfl, _⟩ := List.cons.inj is
          rw [same top (fun new => fresh (by simp [← new])), value]

theorem plantSymbol_run {ht : Tree} {order : List Nat} {max : UInt32} (planted : Planted ht order max)
    (room : ht.items < poolSize) (weights : List UInt8) {symbol : Nat} (known : symbol < 0x100) :
    ∃ ht' order' max', plantSymbol weights max symbol ht = .ok max' ht' ∧ Planted ht' order' max' ∧
      ht'.items ≤ ht.items + 1 ∧ ht'.quickDecodeCache = ht.quickDecodeCache ∧
      (order' = [] → order = [] ∧ weights.getD symbol 0 = 0) := by
  obtain ⟨listed, used, count⟩ := planted.grown.leaves
  let weight := (weights.getD symbol 0).toUInt32
  have small : weight.toNat < 0x100 := (weights.getD symbol 0).toNat_lt
  by_cases zero : weight = 0
  next =>
    have byte : weights.getD symbol 0 = 0 := by
      apply UInt8.toNat.inj
      exact congrArg UInt32.toNat zero
    refine ⟨ht, order, max, ?_, planted, by omega, rfl, fun nil => ⟨nil, byte⟩⟩
    rw [plantSymbol]
    exact congrFun (if_pos zero) ht
  have positive : 0 < weight := UInt32.pos_iff_ne_zero.mpr zero
  have fresh : ht.items ∉ order := fun inside => Nat.lt_irrefl _ ((used _).mp inside)
  obtain ⟨next, prev, insert, listed1⟩ := @insertItem_switch { ht with items := ht.items + 1 } order ht.items listed fresh
  let leaf : Tree :=
    { ht with
      items := ht.items + 1
      next := next
      prev := prev
      parent := update ht.parent ht.items none
      child := update ht.child ht.items none
      symbolNodes := update ht.symbolNodes symbol (some ht.items)
      dcmpByte := update ht.dcmpByte ht.items (UInt32.ofNat symbol)
      byteValue := update ht.byteValue ht.items weight }
  have begin_ : plantSymbol weights max symbol ht =
      (if weight ≥ max then pure weight
        else do
          let place ← notLighter (← get) weight (poolSize + 1) ((← get).prev .first)
          removeItem ht.items
          linkAfter ht.items (place.elim .first .item)
          pure max : Act UInt32) leaf := by
    rw [plantSymbol]
    show (ite (weight = 0) _ _ : Act UInt32) ht = _
    rw [if_neg zero, bind_of_ok (takeItem_run listed room), bind_of_ok insert]
    rfl
  have others : ∀ u ∈ order, leaf.byteValue u = ht.byteValue u := fun u inside =>
    update_of_ne (fun (same : u = ht.items) => fresh (same ▸ inside)) _ _
  have sorted := planted.grown.owing.sorted
  rw [flat_nil, List.append_nil] at sorted
  rw [begin_]
  by_cases greatest : weight ≥ max
  next =>
    -- no leaf is heavier than the first one
    have below : ∀ u ∈ order, ht.byteValue u ≤ weight := by
      intro u inside
      rcases planted.greatest with ⟨rfl, _⟩ | ⟨top, rest, rfl, value⟩
      · cases inside
      · refine UInt32.le_trans ?_ (value ▸ greatest)
        rcases List.mem_cons.mp inside with rfl | later
        · exact UInt32.le_refl _
        · exact UInt32.le_iff_toNat_le.mpr (List.rel_of_pairwise_cons sorted later)
    refine ⟨leaf, ht.items :: order, weight, by rw [if_pos greatest, pure_run], ?_, Nat.le_refl _, rfl, nofun⟩
    exact @Planted.plant ht leaf [] order max planted room symbol weight (by omega) positive small nofun below rfl rfl rfl
      rfl rfl rfl listed1 weight (.inl ⟨rfl, rfl⟩)
  next =>
    rcases planted.greatest with ⟨_, rfl⟩ | ⟨top, rest, rfl, rfl⟩
    · exact absurd UInt32.zero_le greatest
    have heavy : weight < leaf.byteValue top := by
      rw [others top (by simp)]
      exact UInt32.not_le.mp greatest
    have listed2 : Listed leaf.next leaf.prev (ht.items :: (top :: rest) ++ []) := by
      rw [List.append_nil]
      exact listed1
    have short : rest.length + 2 < poolSize + 1 := by
      rw [List.length_cons] at count
      omega
    obtain ⟨hi, lo, rfl, walk, lighter, heavier⟩ := @notLighter_before leaf leaf weight _ _ _ _ listed2 short heavy
    obtain ⟨next3, prev3, remove, listed3⟩ := @removeItem_run leaf [] _ _ listed1
    have fresh' : ht.items ∉ (top :: hi) ++ lo := by simpa using fresh
    obtain ⟨next4, prev4, link, listed4⟩ :=
      @linkAfter_run (leaf.relink next3 prev3) (top :: hi) lo ht.items (show Listed next3 prev3 ((top :: hi) ++ lo) by simpa using listed3) fresh'
    refine ⟨(leaf.relink next3 prev3).relink next4 prev4, (top :: hi) ++ ht.items :: lo, ht.byteValue top, ?_, ?_,
      Nat.le_refl _, rfl, nofun⟩
    · rw [if_neg greatest, bind_of_ok (get_run leaf), bind_of_ok (get_run leaf)]
      have back := listed2.prev_start
      rw [startOf_nil] at back
      rw [back, bind_of_ok walk, bind_of_ok remove, getLast_place, bind_of_ok link, pure_run]
    · refine @Planted.plant ht _ (top :: hi) lo _ planted room symbol weight (by omega) positive small ?_ ?_ rfl rfl rfl
        rfl rfl rfl listed4 _ (.inr ⟨by simp, rfl⟩)
      · intro u inside
        obtain ⟨l, last⟩ := Option.isSome_iff_exists.mp (List.getLast?_isSome.mpr (List.cons_ne_nil top hi))
        have whole : Sorted (weightOf ht) ((top :: hi) ++ lo) := sorted
        have light := Sorted.last (List.pairwise_append.mp whole).1 inside last
        have least := heavier l last
        rw [others l (by simpa using List.mem_append_left lo (List.mem_of_getLast? last))] at least
        exact UInt32.le_trans least (UInt32.le_iff_toNat_le.mpr light)
      · intro u inside
        rw [← others u (by simp [inside])]
        exact UInt32.le_of_lt (lighter u inside)

theorem plantSymbols_run {ht : Tree} (planted : Planted ht [] 0) (empty : ht.items = 0) (weights : List UInt8) {k : Nat}
    (symbols : k ≤ 0x100) :
    ∃ ht' order max, (List.range k).foldlM (plantSymbol weights) 0 ht = .ok max ht' ∧ Planted ht' order max ∧
      ht'.items ≤ k ∧ ht'.quickDecodeCache = ht.quickDecodeCache ∧ (order = [] → ∀ s < k, weights.getD s 0 = 0) := by
  induction k with
  | zero => exact ⟨ht, [], 0, rfl, planted, by omega, rfl, fun _ s below => absurd below (Nat.not_lt_zero s)⟩
  | succ k ih =>
    obtain ⟨ht1, order1, max1, run1, planted1, items1, cache1, none1⟩ := ih (by omega)
    obtain ⟨ht2, order2, max2, run2, planted2, items2, cache2, none2⟩ :=
      plantSymbol_run planted1 (show ht1.items < 0x203 by omega) weights (show k < 0x100 by omega)
    refine ⟨ht2, order2, max2, foldlM_range_succ run1 run2, planted2, by omega, cache2.trans cache1, ?_⟩
    intro nil s below
    obtain ⟨nil1, zero⟩ := none2 nil
    rcases Nat.lt_succ_iff_lt_or_eq.mp below with early | rfl
    · exact none1 nil1 s early
    · exact zero

theorem plantControl_run {ht : Tree} {order : List Nat} {max : UInt32} (planted : Planted ht order max)
    (room : ht.items < poolSize) (some_ : order ≠ []) {symbol : Nat} (known : symbol < 0x102) :
    ∃ ht', plantControl symbol ht = .ok () ht' ∧ Planted ht' (order ++ [ht.items]) max ∧ ht'.items = ht.items + 1 ∧
      ht'.quickDecodeCache = ht.quickDecodeCache ∧ ht'.symbolNodes = update ht.symbolNodes symbol (some ht.items) ∧
      ht'.byteValue = update ht.byteValue ht.items 1 := by
  obtain ⟨listed, used, count⟩ := planted.grown.leaves
  have fresh : ht.items ∉ order := fun inside => Nat.lt_irrefl _ ((used _).mp inside)
  obtain ⟨next, prev, insert, listed1⟩ :=
    @insertItem_insert { ht with items := ht.items + 1 } order ht.items listed fresh some_
  let leaf : Tree :=
    { ht with
      items := ht.items + 1
      next := next
      prev := prev
      parent := update ht.parent ht.items none
      child := update ht.child ht.items none
      symbolNodes := update ht.symbolNodes symbol (some ht.items)
      dcmpByte := update ht.dcmpByte ht.items (UInt32.ofNat symbol)
      byteValue := update ht.byteValue ht.items 1 }
  refine ⟨leaf, ?_, ?_, rfl, rfl, rfl, rfl⟩
  · rw [plantControl, bind_of_ok (takeItem_run listed room), bind_of_ok insert]
    rfl
  · refine @Planted.plant ht leaf order [] max (by rwa [List.append_nil]) room symbol 1 known (by decide) (by decide) ?_
      nofun rfl rfl rfl rfl rfl rfl listed1 max (.inr ⟨some_, rfl⟩)
    intro u inside
    exact UInt32.le_iff_toNat_le.mpr (planted.grown.owing.positive u (by simpa using inside) nofun)

structure Joining (ht : Tree) (roots : List Nat) (slots : List (Slot Nat)) (max : UInt32) : Prop extends Named ht where
  grown : Grown ht roots slots none
  controls : ∀ s, s = 0x100 ∨ s = 0x101 → ∃ i, ht.symbolNodes s = some i ∧ weightOf ht i = 1
  greatest : ∃ top rest, roots = top :: rest ∧ ht.byteValue top = max
  small : (roots.map (weightOf ht)).sum < 2 ^ 32
  few : ht.items + roots.length ≤ poolSize + 1

theorem Joining.join {ht ht' : Tree} {front back : List Nat} {child2 child1 : Nat} {slots : List (Slot Nat)} {max : UInt32}
    (joining : Joining ht (front ++ back ++ [child2, child1]) slots max) {weight : UInt32}
    (sum : weight.toNat = weightOf ht child2 + weightOf ht child1) (above : ∀ u ∈ front, weight ≤ ht.byteValue u)
    (below : ∀ u ∈ back, ht.byteValue u ≤ weight) (items : ht'.items = ht.items + 1)
    (child : ht'.child = update (update ht.child ht.items none) ht.items (some child1))
    (parent : ht'.parent =
      update (update (update ht.parent ht.items none) child1 (some ht.items)) child2 (some ht.items))
    (dcmpByte : ht'.dcmpByte = ht.dcmpByte) (byteValue : ht'.byteValue = update ht.byteValue ht.items weight)
    (symbolNodes : ht'.symbolNodes = ht.symbolNodes)
    (listed : Listed ht'.next ht'.prev (front ++ ht.items :: back ++ [child2, child1] ++ flat slots)) {max' : UInt32}
    (greatest : front = [] ∧ max' = weight ∨ front ≠ [] ∧ max' = max) :
    Joining ht' (front ++ ht.items :: back) (⟨ht.items, child2, child1⟩ :: slots) max' ∧
      ((front ++ ht.items :: back).map (weightOf ht')).sum =
        ((front ++ back ++ [child2, child1]).map (weightOf ht)).sum := by
  have grown := joining.grown
  have fresh : ht.items ∉ (front ++ back ++ [child2, child1]) ++ flat slots := fun inside =>
    Nat.lt_irrefl _ ((grown.used _).mp inside)
  have weights := weightOf_update byteValue
  have sums : ((front ++ ht.items :: back).map (weightOf ht')).sum =
      ((front ++ back ++ [child2, child1]).map (weightOf ht)).sum := by
    have same : ∀ items : List Nat, (∀ u ∈ items, u ∈ front ++ back ++ [child2, child1]) →
        items.map (weightOf ht') = items.map (weightOf ht) := by
      intro items inside
      refine List.map_congr_left fun u member => ?_
      rw [weights, update_of_ne fun (is : u = ht.items) => fresh (List.mem_append_left _ (is ▸ inside u member))]
    simp only [List.map_append, List.map_cons, List.sum_append, List.sum_cons, List.map_nil, List.sum_nil,
      same front (by simp +contextual), same back (by simp +contextual)]
    rw [weights, update_self, sum]
    omega
  have apart : ∀ i < ht.items, i ≠ ht.items := by omega
  have inside1 : child1 ∈ (front ++ back ++ [child2, child1]) ++ flat slots := by simp
  have one : child1 < ht.items := (grown.used child1).mp inside1
  have leaf : ∀ i < ht.items + 1, ht'.child i = none → i < ht.items ∧ ht.child i = none := by
    intro i used free
    rw [child] at free
    by_cases new : i = ht.items
    next =>
      rw [new, update_self] at free
      exact absurd free nofun
    next =>
      rw [update_of_ne new, update_of_ne new] at free
      exact ⟨by omega, free⟩
  have same : ∀ i < ht.items, ht'.child i = ht.child i := by
    intro i used
    rw [child, update_of_ne (apart i used), update_of_ne (apart i used)]
  refine ⟨⟨⟨?_, ?_, ?_⟩, ⟨?_, ?_, ?_, ?_⟩, ?_, ?_, ?_, ?_⟩, sums⟩
  · intro s i node
    obtain ⟨used, free, symbol⟩ := joining.symbols s i (symbolNodes ▸ node)
    exact ⟨by omega, (same i used).trans free, dcmpByte ▸ symbol⟩
  · intro i used free
    obtain ⟨used, free⟩ := leaf i (by omega) free
    rw [symbolNodes, dcmpByte]
    exact joining.present i used free
  · intro i used free
    obtain ⟨used, free⟩ := leaf i (by omega) free
    rw [dcmpByte]
    exact joining.known i used free
  · simpa using listed
  · have owing := grown.owing
    rw [List.append_assoc front back] at owing fresh
    have sorted := owing.sorted
    have lighter : ∀ u ∈ (back ++ [child2, child1]) ++ flat slots, weightOf ht u ≤ weight.toNat := by
      intro u inside
      simp only [List.mem_append, List.mem_cons, List.not_mem_nil, or_false] at inside
      rcases inside with (inside | rfl | rfl) | inside
      · exact UInt32.le_iff_toNat_le.mp (below u inside)
      · omega
      · omega
      · have cut : (front ++ (back ++ [child2, child1])) ++ flat slots =
            (front ++ back ++ [child2]) ++ child1 :: flat slots := by simp
        rw [cut] at sorted
        have := sorted.heavier inside
        omega
    have positive : 0 < weight.toNat := by
      have := owing.positive child1 (by simp) nofun
      omega
    have planted := owing.plant fresh positive (fun u inside => UInt32.le_iff_toNat_le.mp (above u inside)) lighter
    have cut : front ++ ht.items :: (back ++ [child2, child1]) = (front ++ ht.items :: back) ++ [child2, child1] := by simp
    rw [cut] at planted
    have other : child1 ≠ ht.items ∧ child2 ≠ ht.items := by
      constructor <;> rintro is <;> exact fresh (by simp [is])
    rw [parent, child, weights]
    refine planted.adopt (by simp) (update_self _ _ _) ?_
    rw [update_self, update_of_ne other.1, update_of_ne other.2, sum]
  · intro i
    have is := grown.used i
    simp only [flat_cons, List.mem_append, List.mem_cons, items, List.not_mem_nil, or_false] at is ⊢
    rw [Nat.lt_succ_iff_lt_or_eq, ← is]
    grind
  · have few := joining.few
    rw [List.length_append, List.length_cons, List.length_cons] at few
    simp only [List.length_nil] at few
    omega
  · intro s control
    obtain ⟨i, node, weight_⟩ := joining.controls s control
    refine ⟨i, symbolNodes ▸ node, ?_⟩
    rw [weights, update_of_ne (apart i (joining.symbols s i node).1), weight_]
  · rcases greatest with ⟨rfl, rfl⟩ | ⟨some_, rfl⟩
    · exact ⟨ht.items, back, rfl, by rw [byteValue, update_self]⟩
    · cases front with
      | nil => exact absurd rfl some_
      | cons top rest =>
        obtain ⟨top', rest', is, value⟩ := joining.greatest
        obtain ⟨rfl, _⟩ := List.cons.inj is
        refine ⟨top, rest ++ ht.items :: back, rfl, ?_⟩
        rw [byteValue, update_of_ne fun (same : top = ht.items) => fresh (by simp [← same]), value]
  · rw [sums]
    exact joining.small
  · have few := joining.few
    simp only [List.length_append, List.length_cons, List.length_nil] at few ⊢
    omega

def nextPair (child2 : Nat) (max : UInt32) : Act ((UInt32 × Nat) ⊕ Unit) := do
  match (← get).prev (.item child2) with
  | .to p => do
    let child1 ← itemAt p
    pure (.inl (max, child1))
  | _ => pure (.inr ())

theorem joinItems_run {ht : Tree} {rest : List Nat} {child2 child1 : Nat} {slots : List (Slot Nat)} {max : UInt32}
    (joining : Joining ht (rest ++ [child2, child1]) slots max) :
    ∃ ht' front last slots' max', joinItems (max, child1) ht = .ok (.inl (max', last)) ht' ∧
      Joining ht' (front ++ [last]) slots' max' ∧ front.length = rest.length ∧
      ((front ++ [last]).map (weightOf ht')).sum = ((rest ++ [child2, child1]).map (weightOf ht)).sum ∧
      ht'.quickDecodeCache = ht.quickDecodeCache := by
  have grown := joining.grown
  have few := joining.few
  rw [List.length_append, List.length_cons, List.length_cons, List.length_nil] at few
  have room : ht.items < poolSize := by omega
  have fresh : ht.items ∉ (rest ++ [child2, child1]) ++ flat slots := fun inside => Nat.lt_irrefl _ ((grown.used _).mp inside)
  have listed := grown.listed
  have order : (rest ++ [child2, child1]) ++ flat slots = (rest ++ [child2]) ++ child1 :: flat slots := by simp
  have back1 : ht.prev (.item child1) = .to (.item child2) := by
    rw [order] at listed
    simpa [Link.back] using listed.prev_item
  obtain ⟨next, prev, insert, listed1⟩ :=
    @insertItem_switch { ht with items := ht.items + 1 } _ ht.items listed fresh
  let weight := ht.byteValue child1 + ht.byteValue child2
  let node : Tree :=
    { ht with
      items := ht.items + 1
      next := next
      prev := prev
      parent := update (update (update ht.parent ht.items none) child1 (some ht.items)) child2 (some ht.items)
      child := update (update ht.child ht.items none) ht.items (some child1)
      byteValue := update ht.byteValue ht.items weight }
  let after : UInt32 → Act ((UInt32 × Nat) ⊕ Unit) := nextPair child2
  have begin_ : joinItems (max, child1) ht =
      (if weight ≥ max then after weight else
        notLighter node weight (poolSize + 1) (node.prev (.item child2)) >>= fun place => get >>= fun s =>
          if s.next (.item ht.items) ≠ .null then
            unlink ht.items >>= fun _ => linkAfter ht.items (place.elim .first .item) >>= fun _ => after max
          else linkAfter ht.items (place.elim .first .item) >>= fun _ => after max) node := by
    have value : node.byteValue ht.items = weight := update_self _ _ _
    rw [joinItems, bind_of_ok (get_run ht), back1]
    simp only [itemAt]
    rw [bind_of_ok (pure_run _ _), bind_of_ok (takeItem_run listed room), bind_of_ok insert, ← value]
    rfl
  have sum : weight.toNat = weightOf ht child2 + weightOf ht child1 := by
    have small := joining.small
    simp only [List.map_append, List.map_cons, List.map_nil, List.sum_append, List.sum_cons, List.sum_nil] at small
    have value : weight.toNat = (weightOf ht child1 + weightOf ht child2) % 2 ^ 32 := UInt32.toNat_add _ _
    rw [value, Nat.mod_eq_of_lt (by omega), Nat.add_comm]
  have others : ∀ u ∈ (rest ++ [child2, child1]) ++ flat slots, node.byteValue u = ht.byteValue u := fun u inside =>
    update_of_ne (fun (same : u = ht.items) => fresh (same ▸ inside)) _ _
  obtain ⟨top, more, head, greatest⟩ := joining.greatest
  have sorted := grown.owing.sorted
  have placed : ∃ front back max' next' prev', rest = front ++ back ∧
      joinItems (max, child1) ht = after max' (node.relink next' prev') ∧
      Listed next' prev' (front ++ ht.items :: back ++ [child2, child1] ++ flat slots) ∧
      (∀ u ∈ front, weight ≤ ht.byteValue u) ∧ (∀ u ∈ back, ht.byteValue u ≤ weight) ∧
      (front = [] ∧ max' = weight ∨ front ≠ [] ∧ max' = max) := by
    by_cases heavy : weight ≥ max
    next =>
      refine ⟨[], rest, weight, next, prev, rfl, by rw [begin_, if_pos heavy]; rfl, listed1,
        fun u inside => absurd inside List.not_mem_nil, ?_, .inl ⟨rfl, rfl⟩⟩
      intro u inside
      have below : weightOf ht u ≤ weightOf ht top := by
        rw [head] at sorted
        have place : u ∈ top :: more := by
          rw [← head]
          simp [inside]
        rcases List.mem_cons.mp place with rfl | later
        · exact Nat.le_refl _
        · exact List.rel_of_pairwise_cons sorted (List.mem_append_left _ later)
      exact UInt32.le_trans (UInt32.le_iff_toNat_le.mpr below) (greatest ▸ heavy)
    next =>
      cases rest with
      | nil =>
        -- the parent of the last two roots is heavier than either
        obtain ⟨rfl, _⟩ := List.cons.inj head
        refine absurd ?_ heavy
        rw [← greatest]
        refine UInt32.le_iff_toNat_le.mpr ?_
        rw [sum]
        exact Nat.le_add_right _ _
      | cons first rest =>
        obtain ⟨rfl, rfl⟩ := List.cons.inj head
        have heavy' : weight < node.byteValue first := by
          rw [others first (by simp), greatest]
          exact UInt32.not_le.mp heavy
        have listed2 : Listed node.next node.prev
            (ht.items :: (first :: rest) ++ child2 :: (child1 :: flat slots)) := by
          have shape : (first :: rest ++ [child2, child1]) ++ flat slots =
              (first :: rest) ++ child2 :: (child1 :: flat slots) := by simp
          rw [List.cons_append, ← shape]
          exact listed1
        have short : rest.length + 2 < poolSize + 1 := by
          have long := grown.length
          simp only [List.length_append, List.length_cons] at long
          omega
        obtain ⟨hi, lo, rfl, walk, lighter, heavier⟩ :=
          @notLighter_before node node weight _ _ _ _ listed2 short heavy'
        obtain ⟨next3, prev3, remove, listed3⟩ := @unlink_run node [] _ _ listed2
        have shape : [] ++ ((first :: (hi ++ lo)) ++ child2 :: (child1 :: flat slots)) =
            (first :: hi) ++ (lo ++ child2 :: (child1 :: flat slots)) := by simp
        have fresh' : ht.items ∉ (first :: hi) ++ (lo ++ child2 :: (child1 :: flat slots)) := by simpa using fresh
        obtain ⟨next4, prev4, link, listed4⟩ :=
          @linkAfter_run (node.relink next3 prev3) _ _ ht.items (shape ▸ listed3) fresh'
        refine ⟨first :: hi, lo, max, next4, prev4, rfl, ?_, ?_, ?_, ?_, .inr ⟨by simp, rfl⟩⟩
        · have linked : node.next (.item ht.items) ≠ .null := by
            have ahead := @Listed.next_item _ _ [] _ _ listed2
            rw [ahead]
            exact Link.noConfusion
          rw [begin_, if_neg heavy, listed2.prev_item, bind_of_ok walk, bind_of_ok (get_run node), if_pos linked,
            bind_of_ok remove, getLast_place, bind_of_ok link]
          rfl
        · simpa using listed4
        · intro u inside
          obtain ⟨l, last⟩ := Option.isSome_iff_exists.mp (List.getLast?_isSome.mpr (List.cons_ne_nil first hi))
          have whole : Sorted (weightOf ht) ((first :: hi) ++ (lo ++ [child2, child1] ++ flat slots)) := by
            simpa using sorted
          have light := Sorted.last (List.pairwise_append.mp whole).1 inside last
          have least := heavier l last
          have place := List.mem_append_left (lo ++ child2 :: child1 :: flat slots) (List.mem_of_getLast? last)
          rw [others l (by simpa using place)] at least
          exact UInt32.le_trans least (UInt32.le_iff_toNat_le.mpr light)
        · intro u inside
          rw [← others u (by simp [inside])]
          exact UInt32.le_of_lt (lighter u inside)
  obtain ⟨front, back, max', next', prev', rfl, place, listed', above, below, first⟩ := placed
  obtain ⟨joining', sums⟩ :=
    @Joining.join ht (node.relink next' prev') front back child2 child1 slots max joining weight sum above below rfl rfl
      rfl rfl rfl rfl listed' max' first
  obtain ⟨front', last, ends⟩ : ∃ front' last, front ++ ht.items :: back = front' ++ [last] := by
    rcases List.eq_nil_or_concat (front ++ ht.items :: back) with nil | ⟨front', last, is⟩
    · exact absurd nil (by simp)
    · exact ⟨front', last, by rw [is, List.concat_eq_append]⟩
  have length : front'.length = (front ++ back).length := by
    have := congrArg List.length ends
    simp only [List.length_append, List.length_cons, List.length_nil] at this ⊢
    omega
  have back2 : prev' (.item child2) = .to (.item last) := by
    have shape : front ++ ht.items :: back ++ [child2, child1] ++ flat slots =
        (front' ++ [last]) ++ child2 :: (child1 :: flat slots) := by
      rw [ends]
      simp
    rw [shape] at listed'
    simpa [Link.back] using listed'.prev_item
  refine ⟨node.relink next' prev', front', last, _, max', ?_, ends ▸ joining', length, ends ▸ sums, rfl⟩
  rw [place]
  show (get >>= _ : Act ((UInt32 × Nat) ⊕ Unit)) _ = _
  rw [bind_of_ok (get_run _), show (node.relink next' prev').prev (.item child2) = _ from back2]
  rfl

theorem Joining.rounds {fuel : Nat} {ht : Tree} {front : List Nat} {last : Nat} {slots : List (Slot Nat)} {max : UInt32}
    (joining : Joining ht (front ++ [last]) slots max) (enough : front.length < fuel) :
    ∃ ht' root slots', rounds joinItems fuel (max, last) ht = .ok () ht' ∧ Rooted ht' root slots' none ∧
      weightOf ht' root = ((front ++ [last]).map (weightOf ht)).sum ∧ ht'.quickDecodeCache = ht.quickDecodeCache := by
  induction fuel generalizing ht front last slots max with
  | zero => omega
  | succ fuel ih =>
    rcases List.eq_nil_or_concat front with rfl | ⟨rest, child2, rfl⟩
    · have alone : joinItems (max, last) ht = .ok (.inr ()) ht := by
        have back : ht.prev (.item last) = .not .first := @Listed.prev_item _ _ [] _ _ joining.grown.listed
        rw [joinItems, bind_of_ok (get_run ht), back]
        rfl
      refine ⟨ht, last, slots, rounds_done alone, ⟨joining.toNamed, joining.grown, ?_⟩, by simp, rfl⟩
      intro s control
      obtain ⟨i, node, weight⟩ := joining.controls s control
      exact ⟨i, node, weight, nofun⟩
    · rw [List.concat_eq_append, List.append_assoc] at *
      obtain ⟨ht1, front1, last1, slots1, max1, run, joining1, length, sums, cache⟩ := joinItems_run joining
      have nearer : front1.length < fuel := by
        rw [List.length_append, List.length_singleton] at enough
        omega
      obtain ⟨ht', root, slots', run', rooted, weight, cache'⟩ := ih joining1 nearer
      exact ⟨ht', root, slots', by rw [rounds_next run, run'], rooted, by rw [weight, sums]; rfl, cache'.trans cache⟩

theorem sum_bounded {items : List Nat} {f : Nat → Nat} {bound : Nat} (each : ∀ i ∈ items, f i ≤ bound) :
    (items.map f).sum ≤ items.length * bound := by
  induction items with
  | nil => exact Nat.zero_le _
  | cons i items ih =>
    have := ih fun j member => each j (by simp [member])
    have := each i (by simp)
    rw [List.map_cons, List.sum_cons, List.length_cons, Nat.succ_mul]
    omega

theorem initialWeights_some {cmpType : Nat} (known : cmpType < initialWeightTypes) :
    ∃ s < 0x100, (initialWeights.drop (cmpType * initialWeightBlockSize)).getD s 0 ≠ 0 := by
  have all : (List.range initialWeightTypes).all fun t => (List.range 0x100).any fun s =>
      (initialWeights.drop (t * initialWeightBlockSize)).getD s 0 != 0 := by
    decide +kernel
  have some_ := List.all_eq_true.mp all cmpType (List.mem_range.mpr known)
  obtain ⟨s, below, byte⟩ := List.any_eq_true.mp some_
  exact ⟨s, List.mem_range.mp below, by simpa using byte⟩

theorem Planted.empty (decompress : Bool) (ht : Tree) :
    Planted { treeInit decompress ht with symbolNodes := fun _ => none } [] 0 where
  symbols _ _ node := absurd node nofun
  present i used := absurd used (Nat.not_lt_zero i)
  known i used := absurd used (Nat.not_lt_zero i)
  grown :=
    { listed := ⟨⟨.cons_cons ⟨rfl, rfl⟩ (.singleton _), by simp⟩, rfl, fun _ _ => rfl⟩
      owing := ⟨⟨.nil, by simp, nofun, nofun, nofun, nofun⟩, .nil, nofun, nofun⟩
      used := fun i => by simp [treeInit]
      room := Nat.zero_le _ }
  light := nofun
  greatest := .inl ⟨rfl, rfl⟩

theorem treeBuild_run (decompress : Bool) (ht : Tree) {cmpType : UInt32} (known : cmpType.toNat < initialWeightTypes) :
    ∃ ht' root slots, treeBuild cmpType (treeInit decompress ht) = .ok () ht' ∧ Rooted ht' root slots none ∧
      weightOf ht' root < 2 ^ 17 ∧ ht'.generation = 1 ∧
      ht'.quickDecodeCache = (treeInit decompress ht).quickDecodeCache := by
  let start := { treeInit decompress ht with symbolNodes := fun _ => none }
  have types : initialWeightTypes = 9 := by decide +kernel
  have byte : (cmpType &&& 0xFF).toNat = cmpType.toNat := by
    rw [UInt32.toNat_and]
    exact Nat.and_two_pow_sub_one_of_lt_two_pow (n := 8) (by omega)
  let weights := initialWeights.drop (cmpType.toNat * initialWeightBlockSize)
  obtain ⟨ht1, order, max, run1, planted1, items1, cache1, none1⟩ :=
    plantSymbols_run (Planted.empty decompress ht) rfl weights (Nat.le_refl 0x100)
  have some_ : order ≠ [] := by
    intro nil
    obtain ⟨s, below, weight⟩ := initialWeights_some known
    exact weight (none1 nil s below)
  obtain ⟨ht2, run2, planted2, items2, cache2, nodes2, values2⟩ :=
    plantControl_run planted1 (show ht1.items < 0x203 by omega) some_ (show 0x100 < 0x102 by omega)
  obtain ⟨ht3, run3, planted3, items3, cache3, nodes3, values3⟩ :=
    plantControl_run planted2 (show ht2.items < 0x203 by omega) (by simp) (show 0x101 < 0x102 by omega)
  obtain ⟨listed3, used3, count3⟩ := planted3.grown.leaves
  have light : (((order ++ [ht1.items] ++ [ht2.items]).map (weightOf ht3)).sum) < 2 ^ 17 := by
    have each : ∀ i ∈ order ++ [ht1.items] ++ [ht2.items], weightOf ht3 i ≤ 255 := fun i member =>
      Nat.le_of_lt_succ (planted3.light i member)
    have := sum_bounded each
    rw [count3] at this
    omega
  have joining : Joining ht3 (order ++ [ht1.items] ++ [ht2.items]) [] max := by
    refine ⟨planted3.toNamed, planted3.grown, ?_, ?_, light.trans (by decide), ?_⟩
    · have apart : ht1.items ≠ ht2.items := by omega
      rintro s (rfl | rfl)
      · refine ⟨ht1.items, by rw [nodes3, nodes2]; rfl, ?_⟩
        rw [weightOf, values3, values2, update_of_ne apart, update_self]
        rfl
      · refine ⟨ht2.items, by rw [nodes3, update_self], ?_⟩
        rw [weightOf, values3, update_self]
        rfl
    · rcases planted3.greatest with ⟨nil, _⟩ | greatest
      · exact absurd nil (by simp)
      · exact greatest
    · rw [count3]
      unfold poolSize
      omega
  have short : (order ++ [ht1.items]).length < poolSize + 1 := by
    rw [List.length_append, List.length_singleton] at count3
    unfold poolSize
    omega
  obtain ⟨ht4, root, slots, run4, rooted, weight, cache4⟩ := joining.rounds short
  have last : ht3.prev .first = .to (.item ht2.items) := listed3.tail
  refine ⟨{ ht4 with generation := 1 }, root, slots, ?_, ?_, ?_, rfl, ?_⟩
  · have clean : (treeInit decompress ht).prev .first = .not .first := rfl
    have within : (cmpType &&& 0xFF).toNat < initialWeightTypes := by rwa [byte]
    rw [treeBuild, bind_of_ok (get_run _), bind_of_ok (require_of clean _), bind_of_ok (modify_run _ _)]
    refine (bind_of_ok (require_of within _) _).trans ?_
    simp only [byte]
    rw [bind_of_ok run1, bind_of_ok run2, bind_of_ok run3, bind_of_ok (get_run _), last]
    simp only [itemAt]
    rw [bind_of_ok (pure_run _ _), bind_of_ok run4]
    rfl
  · exact rooted.congr ⟨rfl, rfl, rfl, rfl⟩ rfl rfl rfl rfl
  · show weightOf ht4 root < 2 ^ 17
    rw [weight]
    exact light
  · exact cache4.trans (cache3.trans (cache2.trans cache1))

end Huffman

end LibMpq
