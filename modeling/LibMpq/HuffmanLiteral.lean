import LibMpq.HuffmanUpdate

set_option autoImplicit false

namespace LibMpq

open Effect Function Sibling

namespace Huffman

theorem Grown.count {ht : Tree} {roots : List Nat} {slots : List (Slot Nat)} {due : Option Nat}
    (grown : Grown ht roots slots due) : ht.items = (roots ++ flat slots).length := by
  have same : (roots ++ flat slots).Perm (List.range ht.items) := by
    rw [List.perm_ext_iff_of_nodup grown.listed.nodup List.nodup_range]
    intro i
    rw [grown.used, List.mem_range]
  rw [same.length_eq, List.length_range]

theorem flat_length (slots : List (Slot Nat)) : (flat slots).length = 2 * slots.length := by
  induction slots with
  | nil => rfl
  | cons s slots ih =>
    rw [flat_cons, List.length_cons, List.length_cons, ih, List.length_cons]
    omega

def Tree.split (ht : Tree) (order : List Nat) (last : Nat) (value : UInt32) : Tree :=
  let old := ht.items
  let literal := ht.items + 1
  let first := { ht with items := ht.items + 1 }.attached order old
  let second := { first with items := ht.items + 2 }.attached (order ++ [old]) literal
  { second with
    parent := update (update ht.parent old (some last)) literal (some last)
    child := update (update (update ht.child old none) literal none) last (some literal)
    dcmpByte := update (update ht.dcmpByte old (ht.dcmpByte last)) literal value
    byteValue := update (update ht.byteValue old (ht.byteValue last)) literal 0
    symbolNodes := update (update ht.symbolNodes (ht.dcmpByte last).toNat (some old)) value.toNat (some literal) }

structure Named (ht : Tree) : Prop where
  symbols : ∀ s i, ht.symbolNodes s = some i → i < ht.items ∧ ht.child i = none ∧ (ht.dcmpByte i).toNat = s
  present : ∀ i < ht.items, ht.child i = none → ∃ j, ht.symbolNodes (ht.dcmpByte i).toNat = some j
  known : ∀ i < ht.items, ht.child i = none → (ht.dcmpByte i).toNat < 0x102

structure Rooted (ht : Tree) (root : Nat) (slots : List (Slot Nat)) (due : Option Nat) : Prop extends Named ht where
  grown : Grown ht [root] slots due
  controls : ∀ s, s = 0x100 ∨ s = 0x101 → ∃ i, ht.symbolNodes s = some i ∧ weightOf ht i = 1 ∧ due ≠ some i

theorem Rooted.congr {ht ht' : Tree} {root : Nat} {slots : List (Slot Nat)} {due : Option Nat}
    (rooted : Rooted ht root slots due) (shape : SameShape ht ht') (dcmpByte : ht'.dcmpByte = ht.dcmpByte)
    (byteValue : ht'.byteValue = ht.byteValue) (items : ht'.items = ht.items)
    (symbolNodes : ht'.symbolNodes = ht.symbolNodes) : Rooted ht' root slots due := by
  cases ht
  cases ht'
  obtain ⟨rfl, rfl, rfl, rfl⟩ := shape
  subst dcmpByte byteValue items symbolNodes
  obtain ⟨⟨symbols, present, known⟩, ⟨listed, owing, used, room⟩, controls⟩ := rooted
  exact ⟨⟨symbols, present, known⟩, ⟨listed, owing, used, room⟩, controls⟩

namespace Tree

variable (ht : Tree) (order : List Nat) (last : Nat) (value : UInt32)

theorem split_symbolNodes (s : Nat) :
    (ht.split order last value).symbolNodes s = if s = value.toNat then some (ht.items + 1)
      else if s = (ht.dcmpByte last).toNat then some ht.items else ht.symbolNodes s := by
  simp only [split, update_apply]

theorem split_dcmpByte (i : Nat) :
    (ht.split order last value).dcmpByte i = if i = ht.items + 1 then value
      else if i = ht.items then ht.dcmpByte last else ht.dcmpByte i := by
  simp only [split, update_apply]

theorem split_child (i : Nat) :
    (ht.split order last value).child i = if i = last then some (ht.items + 1)
      else if i = ht.items + 1 then none else if i = ht.items then none else ht.child i := by
  simp only [split, update_apply]

theorem split_weight :
    weightOf (ht.split order last value) = update (update (weightOf ht) ht.items (weightOf ht last)) (ht.items + 1) 0 := by
  funext i
  simp only [weightOf, split, update_apply]
  split
  next => rfl
  split <;> rfl

end Tree

theorem update_twice {α : Type} (f : Nat → α) (i j : Nat) (a b c d : α) :
    update (update (update (update f i a) j b) i c) j d = update (update f i c) j d := by
  funext k
  by_cases kj : k = j
  next => rw [kj, update_self, update_self]
  rw [update_of_ne kj, update_of_ne kj]
  by_cases ki : k = i
  next => rw [ki, update_self, update_self]
  rw [update_of_ne ki, update_of_ne ki, update_of_ne kj, update_of_ne ki]

theorem last_item (root : Nat) (slots : List (Slot Nat)) : ∃ front last, [root] ++ flat slots = front ++ [last] := by
  rcases List.eq_nil_or_concat ([root] ++ flat slots) with nil | ⟨front, last, place⟩
  · exact absurd nil (by simp)
  · exact ⟨front, last, by rw [place, List.concat_eq_append]⟩

section Split

variable {ht : Tree} {root : Nat} {slots : List (Slot Nat)} {front : List Nat} {last : Nat}

theorem insertLiteral_split (grown : Grown ht [root] slots none) (place : [root] ++ flat slots = front ++ [last])
    (room : ht.items + 1 < poolSize) (value : UInt32) :
    insertLiteral value ht =
      (do
        updateWeights (some (ht.items + 1))
        if ¬ (← get).compressionTypeZero then updateWeights (some ht.items) : Act Unit)
      (ht.split ([root] ++ flat slots) last value) := by
  have listed := grown.listed
  have tail : ht.prev .first = .to (.item last) := (place ▸ listed).tail
  have fresh : ht.items ∉ [root] ++ flat slots := fun inside => Nat.lt_irrefl _ ((grown.used _).mp inside)
  have inside : last < ht.items := (grown.used _).mp (by simp [place])
  have first := acquireItem_run listed fresh (by omega)
  have listed1 := (@attach_run { ht with items := ht.items + 1 } _ _ listed fresh).2
  have fresh1 : ht.items + 1 ∉ ([root] ++ flat slots) ++ [ht.items] := by
    rw [List.mem_append, List.mem_singleton, grown.used]
    omega
  have second := @acquireItem_run ({ ht with items := ht.items + 1 }.attached ([root] ++ flat slots) ht.items) _ listed1
    fresh1 (by exact room)
  rw [insertLiteral, bind_of_ok (get_run ht), tail]
  simp only [itemAt]
  rw [bind_of_ok (pure_run _ _), bind_of_ok first, bind_of_ok second]
  simp [bind_run, setParent, setDcmpByte, setByteValue, setChild, setSymbolNode, Tree.attached, Tree.split, update_twice]

theorem splitLast_split (grown : Grown ht [root] slots none) (place : [root] ++ flat slots = front ++ [last])
    (room : ht.items + 1 < poolSize) (value : UInt32) :
    splitLast value ht =
      (do
        updateWeights (some (ht.items + 1))
        if ¬ (← get).compressionTypeZero then updateWeights ((← get).symbolNodes value.toNat)
        pure true : Act Bool)
      (ht.split ([root] ++ flat slots) last value) := by
  have listed := grown.listed
  have tail : ht.prev .first = .to (.item last) := (place ▸ listed).tail
  have fresh : ht.items ∉ [root] ++ flat slots := fun inside => Nat.lt_irrefl _ ((grown.used _).mp inside)
  have first := acquireItem_run listed fresh (by omega)
  have listed1 := (@attach_run { ht with items := ht.items + 1 } _ _ listed fresh).2
  have fresh1 : ht.items + 1 ∉ ([root] ++ flat slots) ++ [ht.items] := by
    rw [List.mem_append, List.mem_singleton, grown.used]
    omega
  rw [splitLast, bind_of_ok (get_run ht), tail]
  simp only [itemAt]
  rw [bind_of_ok (pure_run _ _), bind_of_ok first]
  let half : Tree :=
    { ({ ht with items := ht.items + 1 }.attached ([root] ++ flat slots) ht.items) with
      parent := update (update ht.parent ht.items none) ht.items (some last)
      dcmpByte := update ht.dcmpByte ht.items (ht.dcmpByte last)
      byteValue := update ht.byteValue ht.items (ht.byteValue last)
      symbolNodes := update ht.symbolNodes (ht.dcmpByte last).toNat (some ht.items) }
  have second : acquireItem half = .ok (some (ht.items + 1)) _ := acquireItem_run listed1 fresh1 room
  have copied : ∀ rest : Act Bool, (do
      setParent ht.items (some last)
      setDcmpByte ht.items ((← get).dcmpByte last)
      setByteValue ht.items ((← get).byteValue last)
      setSymbolNode ((← get).dcmpByte ht.items).toNat ht.items
      rest : Act Bool) ({ ht with items := ht.items + 1 }.attached ([root] ++ flat slots) ht.items) = rest half := by
    intro rest
    simp [bind_run, setParent, setDcmpByte, setByteValue, setSymbolNode, Tree.attached, half]
  refine (copied _).trans ?_
  rw [bind_of_ok second]
  simp [bind_run, setParent, setDcmpByte, setByteValue, setChild, setSymbolNode, Tree.attached, Tree.split, half]

end Split

def splitUpdates (ht : Tree) : Nat := if ht.compressionTypeZero then 1 else 2

namespace Rooted

variable {ht : Tree} {root x : Nat} {slots : List (Slot Nat)} {front : List Nat} {last : Nat}

theorem owe (rooted : Rooted ht root slots none) (used : x < ht.items) (leaf : ht.child x = none)
    (byte : (ht.dcmpByte x).toNat < 0x100) : Rooted ht root slots (some x) where
  toNamed := rooted.toNamed
  grown := ⟨rooted.grown.listed, rooted.grown.owing.at_leaf ((rooted.grown.used x).mpr used) leaf, rooted.grown.used,
    rooted.grown.room⟩
  controls s control := by
    obtain ⟨i, node, weight, _⟩ := rooted.controls s control
    refine ⟨i, node, weight, ?_⟩
    rintro ⟨⟩
    have := (rooted.symbols s x node).2.2
    omega

theorem raise (rooted : Rooted ht root slots (some x)) (used : x < ht.items) (room : weightOf ht root + 1 < 2 ^ 32) :
    ∃ ht' slots' trades, updateWeights (some x) ht = .ok () ht' ∧ Rooted ht' root slots' none ∧
      Regrown ht ht' trades ∧ trades ≤ poolSize ∧ Climb root slots (weightOf ht) x slots' (weightOf ht') trades ∧
      weightOf ht' root = weightOf ht root + 1 ∧
      (∀ i < ht.items, ht.child i = none → i ≠ x → ht'.byteValue i = ht.byteValue i) ∧
      (x ≠ root → ht.child x = none → weightOf ht' x = weightOf ht x + 1) := by
  obtain ⟨ht', slots', trades, run, grown, regrown, few, climb, top, others, own⟩ :=
    updateWeights_run rooted.grown ((rooted.grown.used x).mpr used) room
  have kept := regrown.kept
  refine ⟨ht', slots', trades, run, ⟨⟨?_, ?_, ?_⟩, grown, ?_⟩, regrown, few, climb, top, others, own⟩
  · intro s i node
    rw [kept.symbolNodes] at node
    obtain ⟨used, leaf, symbol⟩ := rooted.symbols s i node
    exact ⟨kept.items ▸ used, (regrown.leaves i used).mpr leaf, kept.dcmpByte ▸ symbol⟩
  · intro i used leaf
    rw [kept.items] at used
    rw [kept.symbolNodes, kept.dcmpByte]
    exact rooted.present i used ((regrown.leaves i used).mp leaf)
  · intro i used leaf
    rw [kept.items] at used
    rw [kept.dcmpByte]
    exact rooted.known i used ((regrown.leaves i used).mp leaf)
  · intro s control
    obtain ⟨i, node, weight, apart⟩ := rooted.controls s control
    obtain ⟨used, leaf, _⟩ := rooted.symbols s i node
    refine ⟨i, kept.symbolNodes ▸ node, ?_, nofun⟩
    rwa [weightOf, others i used leaf (fun same => apart (same ▸ rfl))]

theorem last_weight (rooted : Rooted ht root slots none) (place : [root] ++ flat slots = front ++ [last]) :
    weightOf ht last = 1 := by
  obtain ⟨i, node, weight, _⟩ := rooted.controls 0x100 (.inl rfl)
  have inside := (rooted.grown.used i).mpr (rooted.symbols _ i node).1
  have positive := rooted.grown.owing.positive last (by simp [place]) nofun
  have sorted := rooted.grown.owing.sorted
  rw [place] at sorted inside
  rcases List.mem_append.mp inside with early | own
  · have := (List.pairwise_append.mp sorted).2.2 i early last (by simp)
    omega
  · rw [← List.mem_singleton.mp own, weight]

theorem split (rooted : Rooted ht root slots none) (place : [root] ++ flat slots = front ++ [last])
    (room : ht.items + 1 < poolSize) {value : UInt32} (byte : value.toNat < 0x100) :
    Rooted (ht.split ([root] ++ flat slots) last value) root (slots ++ [⟨last, ht.items, ht.items + 1⟩])
      (some (ht.items + 1)) := by
  have grown := rooted.grown
  have inside : last < ht.items := (grown.used last).mp (by simp [place])
  have fresh : ht.items ∉ [root] ++ flat slots := fun member => Nat.lt_irrefl _ ((grown.used _).mp member)
  have fresh' : ht.items + 1 ∉ [root] ++ flat slots := fun member => by have := (grown.used _).mp member; omega
  have fresh1 : ht.items + 1 ∉ ([root] ++ flat slots) ++ [ht.items] := by
    rw [List.mem_append, List.mem_singleton, not_or]
    exact ⟨fresh', by omega⟩
  have listed1 := (@attach_run { ht with items := ht.items + 1 } _ _ grown.listed fresh).2
  have listed2 := (@attach_run { ({ ht with items := ht.items + 1 }.attached ([root] ++ flat slots) ht.items) with
    items := ht.items + 2 } _ _ listed1 fresh1).2
  have order : [root] ++ flat (slots ++ [⟨last, ht.items, ht.items + 1⟩]) =
      ([root] ++ flat slots) ++ [ht.items] ++ [ht.items + 1] := by simp
  have weights := ht.split_weight ([root] ++ flat slots) last value
  have leaf := grown.owing.last_leaf place
  have apart : ∀ i < ht.items, i ≠ ht.items ∧ i ≠ ht.items + 1 := by omega
  -- a leaf of the tree before, its copy, or the new one
  have leaves : ∀ i < ht.items + 2, (ht.split ([root] ++ flat slots) last value).child i = none →
      i < ht.items ∧ ht.child i = none ∨ i = ht.items ∨ i = ht.items + 1 := by
    intro i used free
    by_cases old : i < ht.items
    next =>
      rw [ht.split_child] at free
      split at free
      next => exact absurd free nofun
      next =>
        rw [if_neg (apart i old).2, if_neg (apart i old).1] at free
        exact .inl ⟨old, free⟩
    next => omega
  refine ⟨⟨?_, ?_, ?_⟩, ⟨order ▸ listed2, ?_, ?_, room⟩, ?_⟩
  · intro s i node
    show i < ht.items + 2 ∧ _
    rw [ht.split_symbolNodes] at node
    rw [ht.split_child, ht.split_dcmpByte]
    split at node
    next new =>
      obtain rfl := Option.some.inj node
      rw [if_neg (by omega), if_pos rfl, if_pos rfl]
      exact ⟨by omega, rfl, new.symm⟩
    split at node
    next old =>
      obtain rfl := Option.some.inj node
      rw [if_neg (by omega), if_neg (by omega), if_pos rfl, if_neg (by omega), if_pos rfl]
      exact ⟨by omega, rfl, old.symm⟩
    next old =>
      obtain ⟨used, free, symbol⟩ := rooted.symbols s i node
      have moved : i ≠ last := by
        rintro rfl
        exact old symbol.symm
      rw [if_neg moved, if_neg (apart i used).2, if_neg (apart i used).1,
        if_neg (apart i used).2, if_neg (apart i used).1]
      exact ⟨by omega, free, symbol⟩
  · intro i used free
    have some_ : ∀ s, (∃ j, ht.symbolNodes s = some j) →
        ∃ j, (ht.split ([root] ++ flat slots) last value).symbolNodes s = some j := by
      rintro s ⟨j, node⟩
      rw [ht.split_symbolNodes]
      split
      next => exact ⟨_, rfl⟩
      split
      next => exact ⟨_, rfl⟩
      next => exact ⟨j, node⟩
    rcases leaves i used free with ⟨older, free⟩ | rfl | rfl
    · rw [ht.split_dcmpByte, if_neg (apart i older).2, if_neg (apart i older).1]
      exact some_ _ (rooted.present i older free)
    · rw [ht.split_dcmpByte, if_neg (by omega), if_pos rfl]
      exact some_ _ (rooted.present last inside leaf)
    · exact ⟨ht.items + 1, by rw [ht.split_dcmpByte, if_pos rfl, ht.split_symbolNodes, if_pos rfl]⟩
  · intro i used free
    rw [ht.split_dcmpByte]
    rcases leaves i used free with ⟨older, free⟩ | rfl | rfl
    · rw [if_neg (apart i older).2, if_neg (apart i older).1]
      exact rooted.known i older free
    · rw [if_neg (by omega), if_pos rfl]
      exact rooted.known last inside leaf
    · rw [if_pos rfl]
      omega
  · rw [weights]
    exact grown.owing.split place fresh fresh' (by omega)
  · intro i
    rw [order, List.mem_append, List.mem_append, List.mem_singleton, List.mem_singleton, grown.used]
    show _ ↔ i < ht.items + 2
    omega
  · intro s control
    rw [ht.split_symbolNodes, weights, if_neg (by omega)]
    split
    next =>
      refine ⟨ht.items, rfl, ?_, by simp⟩
      rw [update_of_ne (by omega), update_self, rooted.last_weight place]
    next =>
      obtain ⟨i, node, weight, _⟩ := rooted.controls s control
      have used := (rooted.symbols s i node).1
      refine ⟨i, node, ?_, by simpa using (apart i used).2.symm⟩
      rw [update_of_ne (apart i used).2, update_of_ne (apart i used).1, weight]

theorem room (rooted : Rooted ht root slots none) (free : ht.items < poolSize) : ht.items + 1 < poolSize := by
  have count := rooted.grown.count
  rw [List.length_append, List.length_singleton, flat_length] at count
  unfold poolSize at *
  omega

theorem insertLiteral_full (rooted : Rooted ht root slots none) (full : ¬ ht.items < poolSize) (value : UInt32) :
    insertLiteral value ht = .error (.error .malloc) ht := by
  have listed := rooted.grown.listed
  have none_ := acquireItem_full listed full
  obtain ⟨front, last, place⟩ := last_item root slots
  have tail : ht.prev .first = .to (.item last) := (place ▸ listed).tail
  rw [insertLiteral, bind_of_ok (get_run ht), tail]
  simp only [itemAt]
  rw [bind_of_ok (pure_run _ _), bind_of_ok none_, bind_of_ok none_]
  rfl

theorem splitLast_full (rooted : Rooted ht root slots none) (full : ¬ ht.items < poolSize) (value : UInt32) :
    splitLast value ht = .error (.error .unpack) ht := by
  have listed := rooted.grown.listed
  obtain ⟨front, last, place⟩ := last_item root slots
  have tail : ht.prev .first = .to (.item last) := (place ▸ listed).tail
  rw [splitLast, bind_of_ok (get_run ht), tail]
  simp only [itemAt]
  rw [bind_of_ok (pure_run _ _), bind_of_ok (acquireItem_full listed full)]
  rfl

theorem other_control (rooted : Rooted ht root slots none) (place : [root] ++ flat slots = front ++ [last])
    {value : UInt32} (byte : value.toNat < 0x100) :
    ∃ s i, (s = 0x100 ∨ s = 0x101) ∧ i ∈ front ∧ (ht.split ([root] ++ flat slots) last value).symbolNodes s = some i := by
  obtain ⟨s, control, apart⟩ : ∃ s, (s = 0x100 ∨ s = 0x101) ∧ s ≠ (ht.dcmpByte last).toNat := by
    by_cases first : (ht.dcmpByte last).toNat = 0x100
    next => exact ⟨0x101, .inr rfl, by omega⟩
    next => exact ⟨0x100, .inl rfl, Ne.symm first⟩
  obtain ⟨i, node, _, _⟩ := rooted.controls s control
  obtain ⟨used, _, symbol⟩ := rooted.symbols s i node
  have inside := (rooted.grown.used i).mpr used
  have other : i ≠ last := by
    rintro rfl
    exact apart symbol.symm
  rw [place, List.mem_append, List.mem_singleton] at inside
  refine ⟨s, i, control, inside.resolve_right other, ?_⟩
  rw [ht.split_symbolNodes, if_neg (by omega), if_neg apart, node]

theorem raise_split (rooted : Rooted ht root slots none) (place : [root] ++ flat slots = front ++ [last])
    (free : ht.items < poolSize) {value : UInt32} (byte : value.toNat < 0x100) (room : weightOf ht root + 1 < 2 ^ 32) :
    ∃ ht' slots' trades, updateWeights (some (ht.items + 1)) (ht.split ([root] ++ flat slots) last value) = .ok () ht' ∧
      Rooted ht' root slots' none ∧ Regrown (ht.split ([root] ++ flat slots) last value) ht' (trades + 1) ∧
      trades < poolSize ∧ Climb root (slots ++ [⟨last, ht.items, ht.items + 1⟩])
        (update (update (weightOf ht) ht.items (weightOf ht last)) (ht.items + 1) 0) (ht.items + 1) slots' (weightOf ht')
        (trades + 1) ∧
      weightOf ht' root = weightOf ht root + 1 ∧ ht'.child (ht.items + 1) = none := by
  have split := rooted.split place (rooted.room free) byte
  have inside : root < ht.items := (rooted.grown.used root).mp (by simp)
  have top : weightOf (ht.split ([root] ++ flat slots) last value) root = weightOf ht root := by
    rw [ht.split_weight, update_of_ne (by omega), update_of_ne (by omega)]
  have literal : ht.items + 1 < (ht.split ([root] ++ flat slots) last value).items := Nat.lt_succ_self _
  have leaf : (ht.split ([root] ++ flat slots) last value).child (ht.items + 1) = none := by
    have used : last < ht.items := (rooted.grown.used last).mp (by simp [place])
    rw [ht.split_child, if_neg (by omega), if_pos rfl]
  obtain ⟨ht', slots', trades, run, rooted', regrown, few, climb, weight, others, own⟩ :=
    split.raise literal (by rwa [top])
  have leaf' := (regrown.leaves _ literal).mpr leaf
  rw [ht.split_weight] at climb
  cases trades with
  | succ trades => exact ⟨ht', slots', trades, run, rooted', regrown, few, climb, by rw [weight, top], leaf'⟩
  | zero =>
    -- without a trade the parent of the two would stand behind a control symbol and weigh more
    have used : last < ht.items := (rooted.grown.used last).mp (by simp [place])
    have shape := regrown.still rfl
    have grown' := rooted'.grown
    have order : [root] ++ flat slots' = front ++ last :: [ht.items, ht.items + 1] := by
      have listed := grown'.listed
      rw [shape.next, shape.prev] at listed
      rw [listed.unique split.grown.listed, flat_append, ← List.append_assoc, place]
      simp
    have link : ht'.child last = some (ht.items + 1) := by
      rw [shape.child, ht.split_child, if_pos rfl]
    obtain ⟨s, member, rfl, first⟩ := grown'.owing.child_some (by simp [order]) link
    have sum := grown'.owing.sums s member
    have second := grown'.owing.positive s.second (List.mem_append_right _ (mem_flat.mpr ⟨s, member, .inl rfl⟩)) nofun
    have one : weightOf ht' (ht.items + 1) = 1 := by
      rw [own (by omega) leaf, ht.split_weight, update_self]
    rw [if_neg nofun, first, one] at sum
    obtain ⟨c, i, control, early, node⟩ := rooted.other_control place byte
    have sorted := grown'.owing.sorted
    rw [order] at sorted
    have heavier := (List.pairwise_append.mp sorted).2.2 i early s.owner (by simp)
    obtain ⟨j, node', weight', _⟩ := rooted'.controls c control
    rw [regrown.kept.symbolNodes, node] at node'
    obtain rfl := Option.some.inj node'
    omega

theorem insertLiteral_run (rooted : Rooted ht root slots none) (place : [root] ++ flat slots = front ++ [last])
    (free : ht.items < poolSize) {value : UInt32} (byte : value.toNat < 0x100) (zero : ht.compressionTypeZero = true)
    (room : weightOf ht root + 1 < 2 ^ 32) :
    ∃ ht' slots' trades, insertLiteral value ht = .ok () ht' ∧ Rooted ht' root slots' none ∧
      Regrown (ht.split ([root] ++ flat slots) last value) ht' (trades + 1) ∧ trades < poolSize ∧
      weightOf ht' root = weightOf ht root + 1 := by
  obtain ⟨ht', slots', trades, run, rooted', regrown, few, _, weight, _⟩ := rooted.raise_split place free byte room
  refine ⟨ht', slots', trades, ?_, rooted', regrown, few, weight⟩
  have zero' : ht'.compressionTypeZero = true := regrown.kept.compressionTypeZero.trans zero
  rw [insertLiteral_split rooted.grown place (rooted.room free), bind_of_ok run, bind_of_ok (get_run ht'),
    if_neg (by simp [zero'])]
  rfl

theorem splitLast_run (rooted : Rooted ht root slots none) (place : [root] ++ flat slots = front ++ [last])
    (free : ht.items < poolSize) {value : UInt32} (byte : value.toNat < 0x100)
    (room : weightOf ht root + splitUpdates ht < 2 ^ 32) :
    ∃ ht' slots' trades, splitLast value ht = .ok true ht' ∧ Rooted ht' root slots' none ∧
      Regrown (ht.split ([root] ++ flat slots) last value) ht' (trades + 1) ∧ trades < 2 * poolSize ∧
      weightOf ht' root = weightOf ht root + splitUpdates ht := by
  have room1 : weightOf ht root + 1 < 2 ^ 32 := by
    unfold splitUpdates at room
    split at room <;> omega
  obtain ⟨ht1, slots1, trades, run, rooted1, regrown, few, _, weight, leaf⟩ := rooted.raise_split place free byte room1
  have kept := regrown.kept
  have begin_ : splitLast value ht =
      (do
        if ¬ (← get).compressionTypeZero then updateWeights ((← get).symbolNodes value.toNat)
        pure true : Act Bool) ht1 := by
    rw [splitLast_split rooted.grown place (rooted.room free)]
    exact bind_of_ok run _
  rw [begin_, bind_of_ok (get_run ht1)]
  by_cases zero : ht.compressionTypeZero = true
  next =>
    have zero1 : ht1.compressionTypeZero = true := kept.compressionTypeZero.trans zero
    refine ⟨ht1, slots1, trades, ?_, rooted1, regrown, by omega, by rw [weight, splitUpdates, if_pos zero]⟩
    simp [zero1]
  next =>
    have zero1 : ¬ ht1.compressionTypeZero = true := fun h => zero (kept.compressionTypeZero.symm.trans h)
    rw [splitUpdates, if_neg zero] at room ⊢
    have node : ht1.symbolNodes value.toNat = some (ht.items + 1) := by
      rw [kept.symbolNodes, ht.split_symbolNodes, if_pos rfl]
    have used : ht.items + 1 < ht1.items := by
      rw [kept.items]
      exact Nat.lt_succ_self _
    have symbol : ht1.dcmpByte (ht.items + 1) = value := by
      rw [kept.dcmpByte, ht.split_dcmpByte, if_pos rfl]
    obtain ⟨ht2, slots2, more, run2, rooted2, regrown2, few2, _, weight2, _⟩ :=
      (rooted1.owe used leaf (by rwa [symbol])).raise used (by omega)
    refine ⟨ht2, slots2, trades + more, ?_, rooted2, ?_, by omega, by omega⟩
    · beta_reduce
      rw [if_pos zero1, bind_of_ok (get_run ht1), node, bind_of_ok run2, pure_run]
    · have whole := regrown.trans regrown2
      rwa [show trades + 1 + more = trades + more + 1 by omega] at whole

end Rooted

end Huffman

end LibMpq
