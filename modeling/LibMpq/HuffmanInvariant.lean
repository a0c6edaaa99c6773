import LibMpq.HuffmanBuild

set_option autoImplicit false

namespace LibMpq

open Effect Function Sibling

namespace Huffman

structure Family (ht : Tree) (order : List Nat) (i second first : Nat) : Prop where
  place : ∃ front mid post, order = front ++ i :: mid ++ second :: first :: post
  parents : ht.parent first = some i ∧ ht.parent second = some i
  sum : weightOf ht i = weightOf ht second + weightOf ht first

/-- The tree whose items stand in the list in this order. -/
structure Adaptive (ht : Tree) (order : List Nat) : Prop where
  listed : Listed ht.next ht.prev order
  used : order.length = ht.items ∧ ht.items ≤ poolSize
  ordered : order.Pairwise fun a b => ht.byteValue b ≤ ht.byteValue a
  families : ∀ i ∈ order, ∀ first, ht.child i = some first → ∃ second, Family ht order i second first
  rooted : ∃ root rest, order = root :: rest ∧ ht.parent root = none ∧
    ∀ i ∈ rest, ∃ p second first, Family ht order p second first ∧ ht.child p = some first ∧ (i = second ∨ i = first)
  last : ∃ front leaf, order = front ++ [leaf] ∧ ht.child leaf = none
  present : ∀ i ∈ order, ht.child i = none → ∃ j, ht.symbolNodes (ht.dcmpByte i).toNat = some j
  symbols : ∀ s i, ht.symbolNodes s = some i → i ∈ order ∧ ht.child i = none ∧ (ht.dcmpByte i).toNat = s

theorem Rooted.adaptive {ht : Tree} {root : Nat} {slots : List (Slot Nat)} (rooted : Rooted ht root slots none) :
    Adaptive ht ([root] ++ flat slots) := by
  have grown := rooted.grown
  have family : ∀ s ∈ slots, Family ht ([root] ++ flat slots) s.owner s.second s.first := by
    intro s member
    obtain ⟨before, after, rfl⟩ := List.append_of_mem member
    obtain ⟨front, mid, cut⟩ := List.append_of_mem (grown.owing.owned before s after rfl)
    refine ⟨⟨front, mid, flat after, ?_⟩, grown.owing.parents s member, ?_⟩
    · rw [flat_append, flat_cons, ← List.append_assoc, cut]
    · have sum := grown.owing.sums s member
      rwa [if_neg nofun] at sum
  refine ⟨grown.listed, ⟨grown.count.symm, grown.room⟩, ?_, ?_, ?_, ?_, ?_, ?_⟩
  · exact grown.owing.sorted.imp fun le => UInt32.le_iff_toNat_le.mpr le
  · intro i inside first link
    obtain ⟨s, member, rfl, rfl⟩ := grown.owing.child_some inside link
    exact ⟨s.second, family s member⟩
  · refine ⟨root, flat slots, rfl, grown.owing.tops root (by simp), ?_⟩
    intro i inside
    obtain ⟨s, member, is⟩ := mem_flat.mp inside
    exact ⟨s.owner, s.second, s.first, family s member, grown.owing.children s member, is⟩
  · obtain ⟨front, last, place⟩ := last_item root slots
    exact ⟨front, last, place, grown.owing.last_leaf place⟩
  · intro i inside leaf
    exact rooted.present i ((grown.used i).mp inside) leaf
  · intro s i node
    obtain ⟨used, leaf, symbol⟩ := rooted.symbols s i node
    exact ⟨(grown.used i).mpr used, leaf, symbol⟩

/-- What the encoder and the decoder do to a tree. -/
inductive Change
  | update (symbol : Nat)
  | insert (value : UInt32)
  | split (value : UInt32)

def Change.run : Change → Act Unit
  | .update symbol => do updateWeights ((← get).symbolNodes symbol)
  | .insert value => insertLiteral value
  | .split value => do
    let _ ← splitLast value

/-- Only the weights of bytes in the tree are raised, and only bytes become literals. The encoder knows one type. -/
def Change.Performed (ht : Tree) : Change → Prop
  | .update symbol => symbol < 0x100 ∧ ∃ i, ht.symbolNodes symbol = some i
  | .insert value => value.toNat < 0x100 ∧ ht.compressionTypeZero = true
  | .split value => value.toNat < 0x100

def Change.raises (ht : Tree) : Change → Nat
  | .update _ => 1
  | .insert _ => 1
  | .split _ => splitUpdates ht

def rootWeight (ht : Tree) : Nat :=
  match ht.next .first with
  | .to (.item i) => weightOf ht i
  | _ => 0

/-- The weight of the root does not start from zero again. -/
def Change.Fits (ht : Tree) (change : Change) : Prop := rootWeight ht + change.raises ht < 2 ^ 32

/-- The trees of runs whose changes all meet a condition. -/
inductive Reached (condition : Tree → Change → Prop) : Tree → Prop
  | build (decompress : Bool) (memory : Tree) {cmpType : UInt32} {ht : Tree} (known : cmpType.toNat < initialWeightTypes)
      (run : treeBuild cmpType (treeInit decompress memory) = .ok () ht) :
      Reached condition { ht with compressionTypeZero := cmpType = 0 }
  | step {ht ht' : Tree} (before : Reached condition ht) (change : Change) (performed : change.Performed ht)
      (meets : condition ht change) (run : change.run ht = .ok () ht') : Reached condition ht'

theorem Rooted.rootWeight {ht : Tree} {root : Nat} {slots : List (Slot Nat)} {due : Option Nat}
    (rooted : Rooted ht root slots due) : rootWeight ht = weightOf ht root := by
  have first := @Listed.next_end _ _ [] _ rooted.grown.listed
  rw [Huffman.rootWeight, show ht.next .first = _ from first]
  rfl

def Change.symbol : Change → Nat
  | .update symbol => symbol
  | .insert value => value.toNat
  | .split value => value.toNat

def Change.fresh : Change → Nat
  | .update _ => 0
  | .insert _ => 2
  | .split _ => 2

structure Changed (change : Change) (ht ht' : Tree) (trades : Nat) : Prop where
  few : trades ≤ 2 * poolSize
  items : ht'.items = ht.items + change.fresh
  generation : ht'.generation = ht.generation + UInt32.ofNat trades
  quickDecodeCache : ht'.quickDecodeCache = ht.quickDecodeCache
  compressionTypeZero : ht'.compressionTypeZero = ht.compressionTypeZero
  still : trades = 0 → SameShape ht ht' ∧ ht'.dcmpByte = ht.dcmpByte
  named : ∃ i, ht'.symbolNodes change.symbol = some i

theorem Regrown.changed_split {ht ht' : Tree} {order : List Nat} {last trades : Nat} {value : UInt32}
    (regrown : Regrown (ht.split order last value) ht' (trades + 1)) (few : trades < 2 * poolSize) {change : Change}
    (is : change.symbol = value.toNat) (two : change.fresh = 2) : Changed change ht ht' (trades + 1) where
  few := few
  items := by rw [regrown.kept.items, two]; rfl
  generation := regrown.generation
  quickDecodeCache := regrown.kept.quickDecodeCache
  compressionTypeZero := regrown.kept.compressionTypeZero
  still := nofun
  named := ⟨ht.items + 1, by rw [regrown.kept.symbolNodes, is, ht.split_symbolNodes, if_pos rfl]⟩

theorem Rooted.change {ht : Tree} {root : Nat} {slots : List (Slot Nat)} (rooted : Rooted ht root slots none)
    (change : Change) (performed : change.Performed ht) (fits : change.Fits ht) :
    (∃ ht' slots' trades, change.run ht = .ok () ht' ∧ Rooted ht' root slots' none ∧ Changed change ht ht' trades ∧
      weightOf ht' root = weightOf ht root + change.raises ht) ∨
    ht.items = poolSize ∧ ∃ e, change.run ht = .error (.error e) ht := by
  unfold Change.Fits at fits
  rw [rooted.rootWeight] at fits
  obtain ⟨front, last, place⟩ := last_item root slots
  have full : ¬ ht.items < poolSize → ht.items = poolSize := fun h => Nat.le_antisymm rooted.grown.room (Nat.le_of_not_lt h)
  cases change with
  | update symbol =>
    obtain ⟨byte, i, node⟩ := performed
    obtain ⟨used, leaf, is⟩ := rooted.symbols symbol i node
    obtain ⟨ht', slots', trades, run, rooted', regrown, few, _, weight, _⟩ :=
      (rooted.owe used leaf (by rwa [is])).raise used fits
    have kept := regrown.kept
    refine .inl ⟨ht', slots', trades, ?_, rooted', ?_, weight⟩
    · rw [Change.run, bind_of_ok (get_run ht), node, run]
    · exact ⟨by omega, kept.items, regrown.generation, kept.quickDecodeCache, kept.compressionTypeZero,
        fun none_ => ⟨regrown.still none_, kept.dcmpByte⟩, i, kept.symbolNodes ▸ node⟩
  | insert value =>
    by_cases free : ht.items < poolSize
    next =>
      obtain ⟨ht', slots', trades, run, rooted', regrown, few, weight⟩ :=
        rooted.insertLiteral_run place free performed.1 performed.2 fits
      exact .inl ⟨ht', slots', trades + 1, run, rooted', regrown.changed_split (by omega) rfl rfl, weight⟩
    next => exact .inr ⟨full free, _, rooted.insertLiteral_full free value⟩
  | split value =>
    by_cases free : ht.items < poolSize
    next =>
      obtain ⟨ht', slots', trades, run, rooted', regrown, few, weight⟩ := rooted.splitLast_run place free performed fits
      refine .inl ⟨ht', slots', trades + 1, ?_, rooted', regrown.changed_split few rfl rfl, weight⟩
      rw [Change.run, bind_of_ok run, pure_run]
    next =>
      refine .inr ⟨full free, .unpack, ?_⟩
      rw [Change.run, bind_of_error (rooted.splitLast_full free value)]

theorem Reached.rooted {ht : Tree} (reached : Reached (fun ht change => change.Fits ht) ht) :
    ∃ root slots, Rooted ht root slots none := by
  induction reached with
  | build decompress memory known run =>
    obtain ⟨ht', root, slots, run', rooted, _⟩ := treeBuild_run decompress memory known
    rw [run'] at run
    cases run
    exact ⟨root, slots, rooted.congr ⟨rfl, rfl, rfl, rfl⟩ rfl rfl rfl rfl⟩
  | step before change performed fits run ih =>
    obtain ⟨root, slots, rooted⟩ := ih
    rcases rooted.change change performed fits with ⟨ht', slots', _, run', rooted', _⟩ | ⟨_, e, refused⟩
    · rw [run'] at run
      cases run
      exact ⟨root, slots', rooted'⟩
    · rw [refused] at run
      exact absurd run nofun

theorem tree_adaptive (ht : Tree) :
    (∀ (decompress : Bool) (memory : Tree) (cmpType : UInt32), cmpType.toNat < initialWeightTypes →
      ∃ ht, treeBuild cmpType (treeInit decompress memory) = .ok () ht) ∧
    (Reached (fun ht change => change.Fits ht) ht →
      (∃ order, Adaptive ht order) ∧
      ∀ change : Change, change.Performed ht → change.Fits ht →
        (∃ ht', change.run ht = .ok () ht') ∨ ht.items = poolSize ∧ ∃ e, change.run ht = .error (.error e) ht) := by
  refine ⟨fun decompress memory cmpType known => ?_, fun reached => ?_⟩
  · obtain ⟨ht, _, _, run, _⟩ := treeBuild_run decompress memory known
    exact ⟨ht, run⟩
  · obtain ⟨root, slots, rooted⟩ := reached.rooted
    refine ⟨⟨_, rooted.adaptive⟩, fun change performed fits => ?_⟩
    rcases rooted.change change performed fits with ⟨ht', _, _, run, _⟩ | refused
    · exact .inl ⟨ht', run⟩
    · exact .inr refused

-- An update of a byte that the tree of type 0 knows, then a letter that it does not know.
def updateAndInsert (ht : Tree) : Bool :=
  decide (rootWeight ht + 1 < 2 ^ 32) && (ht.symbolNodes 0).isSome &&
    match Change.run (.update 0) ht with
    | .ok _ ht1 =>
      decide (rootWeight ht1 + 1 < 2 ^ 32) && ht1.compressionTypeZero &&
        match Change.run (.insert 0x68) ht1 with
        | .ok _ ht2 => decide (ht2.items = ht.items + 2)
        | .error _ _ => false
    | .error _ _ => false

theorem updateAndInsert_fits {ht : Tree} (goes : updateAndInsert ht = true) :
    ∃ ht1 ht2, Change.run (.update 0) ht = .ok () ht1 ∧ Change.run (.insert 0x68) ht1 = .ok () ht2 ∧
      (Change.update 0).Performed ht ∧ (Change.update 0).Fits ht ∧ (Change.insert 0x68).Performed ht1 ∧
      (Change.insert 0x68).Fits ht1 ∧ ht2.items = ht.items + 2 := by
  unfold updateAndInsert at goes
  cases updated : Change.run (.update 0) ht with
  | error e ht1 => simp [updated] at goes
  | ok u ht1 =>
    cases inserted : Change.run (.insert 0x68) ht1 with
    | error e ht2 => simp [updated, inserted] at goes
    | ok u' ht2 =>
      simp only [updated, inserted, Bool.and_eq_true, decide_eq_true_eq] at goes
      obtain ⟨⟨light, node⟩, ⟨light1, zero⟩, items⟩ := goes
      exact ⟨ht1, ht2, rfl, inserted, ⟨by decide, Option.isSome_iff_exists.mp node⟩, light, ⟨by decide, zero⟩, light1, items⟩

theorem tree_adaptive_two_changes :
    ∃ ht ht1 ht2, treeBuild 0 (treeInit true Tree.zero) = .ok () ht ∧
      Change.run (.update 0) { ht with compressionTypeZero := (0 : UInt32) = 0 } = .ok () ht1 ∧
      Change.run (.insert 0x68) ht1 = .ok () ht2 ∧ ht2.items = ht.items + 2 ∧ ∃ order, Adaptive ht2 order := by
  have known : (0 : UInt32).toNat < initialWeightTypes := by decide +kernel
  obtain ⟨ht, build⟩ := (tree_adaptive Tree.zero).1 true Tree.zero 0 known
  have goes : (match treeBuild 0 (treeInit true Tree.zero) with
      | .ok _ ht => updateAndInsert { ht with compressionTypeZero := (0 : UInt32) = 0 }
      | .error _ _ => false) = true := by
    decide +kernel
  rw [build] at goes
  obtain ⟨ht1, ht2, updated, inserted, known0, fits, new, fits1, items⟩ := updateAndInsert_fits goes
  have reached : Reached (fun ht change => change.Fits ht) _ := .build true Tree.zero known build
  have reached2 := (reached.step (.update 0) known0 fits updated).step (.insert 0x68) new fits1 inserted
  exact ⟨ht, ht1, ht2, build, updated, inserted, items, ((tree_adaptive ht2).2 reached2).1⟩

theorem Rooted.updates {ht : Tree} {root symbol : Nat} {slots : List (Slot Nat)} (rooted : Rooted ht root slots none)
    (byte : symbol < 0x100) {i : Nat} (node : ht.symbolNodes symbol = some i) {k : Nat}
    (fits : weightOf ht root + k < 2 ^ 32) {condition : Tree → Change → Prop} (always : ∀ ht change, condition ht change)
    (reached : Reached condition ht) :
    ∃ ht' slots', Reached condition ht' ∧ Rooted ht' root slots' none ∧ ht'.symbolNodes symbol = some i ∧
      weightOf ht' root = weightOf ht root + k := by
  induction k with
  | zero => exact ⟨ht, slots, reached, rooted, node, rfl⟩
  | succ k ih =>
    obtain ⟨ht1, slots1, reached1, rooted1, node1, weight1⟩ := ih (by omega)
    obtain ⟨used, leaf, is⟩ := rooted1.symbols symbol i node1
    obtain ⟨ht2, slots2, _, run, rooted2, regrown, _, _, weight2, _⟩ :=
      (rooted1.owe used leaf (by rwa [is])).raise used (by omega)
    have whole : Change.run (.update symbol) ht1 = .ok () ht2 := by
      rw [Change.run, bind_of_ok (get_run ht1), node1, run]
    exact ⟨ht2, slots2, reached1.step (.update symbol) ⟨byte, i, node1⟩ (always _ _) whole, rooted2,
      regrown.kept.symbolNodes ▸ node1, by omega⟩

theorem tree_wraps : ¬ ∀ ht, Reached (fun _ _ => True) ht → ∃ order, Adaptive ht order := by
  intro always
  have known : (0 : UInt32).toNat < initialWeightTypes := by decide +kernel
  obtain ⟨ht0, root, slots0, run0, rooted0, weight0, _⟩ := treeBuild_run true Tree.zero known
  have node : (match treeBuild 0 (treeInit true Tree.zero) with
      | .ok _ ht => ht.symbolNodes 0
      | _ => none) = some 0 := by
    decide +kernel
  rw [run0] at node
  have reached0 : Reached (fun _ _ => True) { ht0 with compressionTypeZero := (0 : UInt32) = 0 } :=
    .build true Tree.zero known run0
  have rooted0' : Rooted { ht0 with compressionTypeZero := (0 : UInt32) = 0 } root slots0 none :=
    rooted0.congr ⟨rfl, rfl, rfl, rfl⟩ rfl rfl rfl rfl
  obtain ⟨ht1, slots1, reached1, rooted1, node1, weight1⟩ :=
    @Rooted.updates _ root 0 slots0 rooted0' (by decide) 0 node (2 ^ 32 - 1 - weightOf ht0 root)
      (by show weightOf ht0 root + _ < _; omega) _ (fun _ _ => trivial) reached0
  have full : weightOf ht1 root = 2 ^ 32 - 1 := by
    rw [weight1]
    show weightOf ht0 root + _ = _
    omega
  obtain ⟨used, leaf, is⟩ := rooted1.symbols 0 0 node1
  have owed := (rooted1.owe used leaf (by rw [is]; decide)).grown
  have inside := (owed.used 0).mpr used
  obtain ⟨ht2, slots2, run2, listed2, items2, zero, positive⟩ := updateWeights_wraps owed inside full
  have whole : Change.run (.update 0) ht1 = .ok () ht2 := by
    rw [Change.run, bind_of_ok (get_run ht1), node1, run2]
  obtain ⟨order, adaptive⟩ := always ht2 (reached1.step (.update 0) ⟨by decide, 0, node1⟩ trivial whole)
  obtain rfl := adaptive.listed.unique listed2
  -- the leaves of two symbols are not one item
  have long := adaptive.used.1
  rw [items2, rooted1.grown.count] at long
  have second : flat slots2 ≠ [] := by
    intro nil
    have alone : flat slots1 = [] := by
      rw [nil] at long
      simpa using long.symm
    obtain ⟨j, node', _⟩ := rooted1.controls 0x100 (.inl rfl)
    obtain ⟨used', _, is'⟩ := rooted1.symbols 0x100 j node'
    have inside' := (rooted1.grown.used j).mpr used'
    rw [alone, List.append_nil, List.mem_singleton] at inside inside'
    rw [inside', ← inside, is] at is'
    exact absurd is' (by decide)
  obtain ⟨i, rest, cut⟩ := List.exists_cons_of_ne_nil second
  have ordered := adaptive.ordered
  rw [cut] at ordered
  have light := UInt32.le_iff_toNat_le.mp (List.rel_of_pairwise_cons ordered (List.mem_cons_self))
  have heavy := positive i (by simp [cut])
  unfold weightOf at zero heavy
  omega

end Huffman

end LibMpq
