import LibMpq.HuffmanRuns

set_option autoImplicit false

namespace LibMpq

open Effect Function Sibling Bitstream

namespace Huffman

def mostBytes : Nat := 2 ^ 20

structure Counted (ht : Tree) (root changes : Nat) : Prop where
  generation : ht.generation.toNat ≤ 1 + changes * (2 * poolSize)
  weight : weightOf ht root ≤ 2 ^ 17 + 2 * changes

theorem Change.raises_few (ht : Tree) (change : Change) : change.raises ht ≤ 2 := by
  cases change with
  | update symbol => exact Nat.le_succ 1
  | insert value => exact Nat.le_succ 1
  | split value =>
    simp only [Change.raises, splitUpdates]
    split <;> omega

section Counting

variable {ht ht' : Tree} {root n : Nat} {slots : List (Slot Nat)} {change : Change}

theorem Counted.fits (counted : Counted ht root n) (rooted : Rooted ht root slots none) (room : n < 2 * mostBytes) :
    change.Fits ht := by
  have few := change.raises_few ht
  have weight := counted.weight
  unfold mostBytes at room
  rw [Change.Fits, rooted.rootWeight]
  omega

theorem trades_few (rooted : Rooted ht root slots none) (performed : change.Performed ht) (fits : change.Fits ht) :
    change.trades ht ≤ 2 * poolSize := by
  rcases rooted.change change performed fits with ⟨ht', slots', trades, run, _, changed, _⟩ | ⟨_, e, refused⟩
  · rw [changed.trades_eq run]
    exact changed.few
  · have bare : ht.bare = ht.disguised (0 - ht.generation) Tree.zero.quickDecodeCache := by
      rw [Tree.bare, Tree.disguised, show ht.generation + (0 - ht.generation) = 0 by grind]
    have stays := @Change.run_unseen (0 - ht.generation) Tree.zero.quickDecodeCache change ht
    rw [refused] at stays
    have none_ : change.trades ht = 0 := by
      rw [Change.trades, bare, stays]
      rfl
    exact none_ ▸ Nat.zero_le _

theorem Counted.inRange (counted : Counted ht root n) (rooted : Rooted ht root slots none)
    (performed : change.Performed ht) (room : n < 2 * mostBytes) : change.InRange ht := by
  have fits : change.Fits ht := counted.fits rooted room
  have few := trades_few rooted performed fits
  have generation := counted.generation
  unfold mostBytes at room
  refine ⟨fits, ?_⟩
  unfold poolSize at few generation
  omega

theorem Counted.next (counted : Counted ht root n) (rooted : Rooted ht root slots none)
    (performed : change.Performed ht) (room : n < 2 * mostBytes) (run : change.run ht = .ok () ht') :
    Counted ht' root (n + 1) := by
  have raises := change.raises_few ht
  rcases rooted.change change performed (counted.fits rooted room) with
    ⟨ht1, slots1, trades, run1, _, changed, weight⟩ | ⟨_, e, refused⟩
  · rw [run1] at run
    cases run
    have few := changed.few
    have before := counted.generation
    have light := counted.weight
    constructor
    · rw [changed.generation, UInt32.toNat_add]
      have small : (UInt32.ofNat trades).toNat ≤ trades := by
        rw [UInt32.toNat_ofNat']
        exact Nat.mod_le _ _
      have less := Nat.mod_le (ht.generation.toNat + (UInt32.ofNat trades).toNat) (2 ^ 32)
      rw [Nat.add_mul]
      omega
    · rw [weight]
      omega
  · rw [refused] at run
    cases run

end Counting

def PerformedAll : Tree → List Change → Prop
  | _, [] => True
  | ht, change :: changes => change.Performed ht ∧ ∀ ht', change.run ht = .ok () ht' → PerformedAll ht' changes

theorem Counted.all {ht : Tree} {root n : Nat} {slots : List (Slot Nat)} (changes : List Change)
    (counted : Counted ht root n) (rooted : Rooted ht root slots none) (performed : PerformedAll ht changes)
    (room : n + changes.length ≤ 2 * mostBytes) :
    InRange ht changes ∧ ∀ ht', Change.all changes ht = .ok () ht' → Counted ht' root (n + changes.length) := by
  induction changes generalizing ht n slots with
  | nil =>
    refine ⟨trivial, fun ht' run => ?_⟩
    cases run
    exact counted
  | cons change changes ih =>
    obtain ⟨first, further⟩ := performed
    rw [List.length_cons] at room ⊢
    have early : n < 2 * mostBytes := by omega
    have range := counted.inRange rooted first early
    have later := fun ht1 (run1 : change.run ht = .ok () ht1) =>
      ih (counted.next rooted first early run1) (rooted.step change first range run1).1.rooted.choose_spec
        (further ht1 run1) (by omega)
    refine ⟨⟨range, fun ht1 run1 => (later ht1 run1).1⟩, fun ht' run => ?_⟩
    obtain ⟨_, ht1, run1, rest⟩ := bind_ok.mp run
    have reached := (later ht1 run1).2 ht' rest
    rwa [Nat.add_assoc, Nat.add_comm 1] at reached

def Gone (ht ht' : Tree) : Prop :=
  ∃ changes, changes.length ≤ 2 ∧ PerformedAll ht changes ∧ Change.all changes ht = .ok () ht'

theorem performed_changesFor {ht : Tree} {root : Nat} {slots : List (Slot Nat)} (rooted : Rooted ht root slots none)
    (zero : ht.compressionTypeZero = true) (ranges : ∀ change : Change, change.Performed ht → change.InRange ht)
    (byte : UInt8) : PerformedAll ht (changesFor ht byte) ∧ (changesFor ht byte).length ≤ 2 := by
  have small : (byte.toUInt32).toNat < 0x100 := by
    rw [UInt8.toNat_toUInt32]
    exact byte.toNat_lt
  unfold changesFor
  split
  next =>
    have inserted : (Change.insert byte.toUInt32).Performed ht := ⟨small, zero⟩
    refine ⟨⟨inserted, fun ht1 run => ⟨?_, fun _ _ => trivial⟩⟩, Nat.le_refl 2⟩
    obtain ⟨_, i, named⟩ := rooted.step _ inserted (ranges _ inserted) run
    exact ⟨byte.toNat_lt, i, named⟩
  next known =>
    obtain ⟨i, node⟩ := Option.ne_none_iff_exists'.mp known
    exact ⟨⟨⟨byte.toNat_lt, i, node⟩, fun _ _ => trivial⟩, Nat.le_succ 1⟩

theorem Code.gone {root : Nat} {slots : List (Slot Nat)} {ht ht' : Tree} {byte : UInt8} {bits : List Bool}
    (rooted : Rooted ht root slots none) (zero : ht.compressionTypeZero = true) (code : Code root ht byte bits ht') :
    Gone ht ht' := by
  cases code with
  | known node path range run => exact ⟨[.update byte.toNat], Nat.le_succ 1, ⟨⟨byte.toNat_lt, _, node⟩, fun _ _ => trivial⟩, run⟩
  | new node path range run =>
    have small : (byte.toUInt32).toNat < 0x100 := by
      rw [UInt8.toNat_toUInt32]
      exact byte.toNat_lt
    have inserted : (Change.insert byte.toUInt32).Performed ht := ⟨small, zero⟩
    refine ⟨[.insert byte.toUInt32, .update byte.toNat], Nat.le_refl 2, ⟨inserted, fun ht1 run1 => ⟨?_, fun _ _ => trivial⟩⟩, run⟩
    obtain ⟨_, i, named⟩ := rooted.step _ inserted range.1 run1
    exact ⟨byte.toNat_lt, i, named⟩

theorem Counted.gone {ht ht' : Tree} {root n : Nat} {slots : List (Slot Nat)} (counted : Counted ht root n)
    (rooted : Rooted ht root slots none) (gone : Gone ht ht') (room : n + 2 ≤ 2 * mostBytes) :
    Counted ht' root (n + 2) := by
  obtain ⟨changes, few, performed, run⟩ := gone
  obtain ⟨generation, weight⟩ := (counted.all changes rooted performed (by omega)).2 ht' run
  refine ⟨generation.trans ?_, weight.trans (by omega)⟩
  have more := Nat.mul_le_mul_right (2 * poolSize) (Nat.add_le_add_left few n)
  omega

structure Encoder.Counted (e : Encoder) (root bytes : Nat) : Prop where
  encoding : Encoding root e
  counted : Huffman.Counted e.ht root (2 * bytes)

theorem Encoder.Counted.next {e : Encoder} {root bytes : Nat} (before : e.Counted root bytes) (byte : UInt8)
    (room : bytes < mostBytes) : InRange e.ht (changesFor e.ht byte) ∧
      ∀ e', encodeByte byte e = .ok () e' → e'.Counted root (bytes + 1) := by
  obtain ⟨⟨⟨slots, rooted⟩, zero, sound⟩, counted⟩ := before
  have ranges : ∀ change : Change, change.Performed e.ht → change.InRange e.ht := fun change performed =>
    counted.inRange rooted performed (by omega)
  obtain ⟨performed, few⟩ := performed_changesFor rooted zero ranges byte
  have range := (counted.all _ rooted performed (by omega)).1
  refine ⟨range, fun e' run => ?_⟩
  obtain ⟨bits, code, wrote⟩ := encodeByte_run rooted sound range run
  obtain ⟨rooted', zero'⟩ := code.keeps rooted zero
  exact ⟨⟨rooted', zero', wrote.sound⟩, counted.gone rooted (code.gone rooted zero) (by omega)⟩

theorem encodeUpTo_counted {front : Bytes} {capacity : UInt32} {e : Encoder} (short : front.length ≤ mostBytes)
    (run : encodeUpTo front (Encoder.start capacity) = .ok () e) : ∃ root, e.Counted root front.length := by
  induction front using List.reverseRecOn generalizing e with
  | nil =>
    obtain ⟨_, e0, start, last⟩ := bind_ok.mp run
    cases last
    obtain ⟨ht, root, slots, build, tree, rooted, generation, _, sound, _⟩ := beginStream_run start
    obtain ⟨ht1, root1, slots1, build1, rooted1, weight, _⟩ := treeBuild_run true Tree.zero (show (0 : UInt32).toNat < _ by
      decide +kernel)
    rw [build] at build1
    cases build1
    have light : weightOf e.ht root ≤ 2 ^ 17 + 2 * 0 := by
      have same := rooted.rootWeight
      have same1 := rooted1.rootWeight
      rw [tree] at same ⊢
      change rootWeight ht = _ at same
      rw [← same, same1]
      exact Nat.le_of_lt weight
    refine ⟨root, ⟨⟨slots, rooted⟩, by rw [tree], sound⟩, ⟨?_, light⟩⟩
    rw [tree]
    exact generation ▸ Nat.le_add_right 1 _
  | append_singleton front byte ih =>
    rw [List.length_append, List.length_singleton] at short ⊢
    obtain ⟨e1, run1, next⟩ := encodeUpTo_concat.mp run
    obtain ⟨root, before⟩ := ih (by omega) run1
    exact ⟨root, (before.next byte (by omega)).2 e next⟩

theorem encodeInRange_short {x : Bytes} (short : x.length ≤ mostBytes) (capacity : UInt32) : EncodeInRange x capacity := by
  intro front byte back e split run
  have shorter : front.length < mostBytes := by
    rw [split, List.length_append, List.length_cons] at short
    omega
  obtain ⟨root, before⟩ := encodeUpTo_counted (Nat.le_of_lt shorter) run
  exact (before.next byte shorter).1

def Generations : Tree → List Change → Prop
  | _, [] => True
  | ht, change :: changes =>
    ht.generation.toNat + change.trades ht < 2 ^ 32 ∧ ∀ ht', change.run ht = .ok () ht' → Generations ht' changes

def GenerationsFit (x : Bytes) (capacity : UInt32) : Prop :=
  ∀ front byte back e, x = front ++ byte :: back → encodeUpTo front (Encoder.start capacity) = .ok () e →
    Generations e.ht (changesFor e.ht byte)

theorem InRange.generations {ht : Tree} {changes : List Change} (range : InRange ht changes) : Generations ht changes := by
  induction changes generalizing ht with
  | nil => trivial
  | cons change changes ih => exact ⟨range.1.generation, fun ht' run => ih (range.2 ht' run)⟩

theorem EncodeInRange.generations {x : Bytes} {capacity : UInt32} (range : EncodeInRange x capacity) :
    GenerationsFit x capacity :=
  fun front byte back e split run => (range front byte back e split run).generations

section Weight

variable {ht ht' : Tree} {root : Nat} {slots : List (Slot Nat)}

theorem Rooted.weighed (rooted : Rooted ht root slots none) (change : Change) (performed : change.Performed ht)
    (fits : change.Fits ht) (run : change.run ht = .ok () ht') :
    weightOf ht' root = weightOf ht root + change.raises ht ∧ ht'.items = ht.items + change.fresh := by
  rcases rooted.change change performed fits with ⟨ht1, slots1, trades, run1, _, changed, weight⟩ | ⟨_, e, refused⟩
  · rw [run1] at run
    cases run
    exact ⟨weight, changed.items⟩
  · rw [refused] at run
    cases run

theorem Code.weighed {byte : UInt8} {bits : List Bool} (rooted : Rooted ht root slots none)
    (zero : ht.compressionTypeZero = true) (code : Code root ht byte bits ht') :
    2 * weightOf ht' root + ht.items = 2 * weightOf ht root + 2 + ht'.items := by
  cases code with
  | known node path range run =>
    obtain ⟨weight, items⟩ := rooted.weighed (.update byte.toNat) ⟨byte.toNat_lt, _, node⟩ range.1.fits (all_one run)
    rw [weight, items, Change.raises, Change.fresh]
    omega
  | new node path range run =>
    obtain ⟨_, ht1, inserted, updated⟩ := bind_ok.mp run
    have small : (byte.toUInt32).toNat < 0x100 := by
      rw [UInt8.toNat_toUInt32]
      exact byte.toNat_lt
    obtain ⟨weight1, items1⟩ := rooted.weighed (.insert byte.toUInt32) ⟨small, zero⟩ range.1.fits inserted
    obtain ⟨kept, i, named⟩ := rooted.step (.insert byte.toUInt32) ⟨small, zero⟩ range.1 inserted
    obtain ⟨slots1, rooted1⟩ := kept.rooted
    obtain ⟨weight2, items2⟩ := rooted1.weighed (.update byte.toNat) ⟨byte.toNat_lt, i, named⟩ (range.2 ht1 inserted).1.fits
      (all_one updated)
    rw [weight2, items2, weight1, items1, Change.raises, Change.raises, Change.fresh, Change.fresh]
    omega

theorem Generations.inRange {byte : UInt8} (rooted : Rooted ht root slots none) (zero : ht.compressionTypeZero = true)
    (light : weightOf ht root + 2 < 2 ^ 32) (generations : Generations ht (changesFor ht byte)) :
    InRange ht (changesFor ht byte) := by
  have fits : ∀ {ht1 slots1} {change : Change}, Rooted ht1 root slots1 none → change.raises ht1 = 1 →
      weightOf ht1 root + 1 < 2 ^ 32 → change.Fits ht1 := by
    intro ht1 slots1 change rooted1 once less
    rwa [Change.Fits, rooted1.rootWeight, once]
  unfold changesFor at generations ⊢
  split at generations
  next new =>
    rw [if_pos new]
    have first : (Change.insert byte.toUInt32).Fits ht := fits rooted rfl (by omega)
    have small : (byte.toUInt32).toNat < 0x100 := by
      rw [UInt8.toNat_toUInt32]
      exact byte.toNat_lt
    refine ⟨⟨first, generations.1⟩, fun ht1 inserted => ⟨⟨?_, (generations.2 ht1 inserted).1⟩, fun _ _ => trivial⟩⟩
    obtain ⟨weight, _⟩ := rooted.weighed (.insert byte.toUInt32) ⟨small, zero⟩ first inserted
    obtain ⟨kept, _⟩ := rooted.step (.insert byte.toUInt32) ⟨small, zero⟩ ⟨first, generations.1⟩ inserted
    obtain ⟨slots1, rooted1⟩ := kept.rooted
    refine fits rooted1 rfl ?_
    rw [weight, Change.raises]
    omega
  next known =>
    rw [if_neg known]
    exact ⟨⟨fits rooted rfl (by omega), generations.1⟩, fun _ _ => trivial⟩

end Weight

theorem encoding_light {x : Bytes} {capacity : UInt32} (small : x.length < 2 ^ 31) (generations : GenerationsFit x capacity)
    {front back : Bytes} (split : x = front ++ back) {e : Encoder} (run : encodeUpTo front (Encoder.start capacity) = .ok () e) :
    ∃ root, Encoding root e ∧ 2 * weightOf e.ht root ≤ 2 ^ 18 + 2 * front.length + e.ht.items := by
  induction front using List.reverseRecOn generalizing back e with
  | nil =>
    obtain ⟨_, e0, start, last⟩ := bind_ok.mp run
    cases last
    obtain ⟨ht, root, slots, build, tree, rooted, _, _, sound, _⟩ := beginStream_run start
    obtain ⟨ht1, root1, slots1, build1, rooted1, weight, _⟩ := treeBuild_run true Tree.zero (show (0 : UInt32).toNat < _ by
      decide +kernel)
    rw [build] at build1
    cases build1
    refine ⟨root, ⟨⟨slots, rooted⟩, by rw [tree], sound⟩, ?_⟩
    have same := rooted.rootWeight
    rw [tree] at same ⊢
    change rootWeight ht = weightOf ht root at same
    change 2 * weightOf ht root ≤ _
    rw [← same, rooted1.rootWeight]
    omega
  | append_singleton front byte ih =>
    rw [List.append_assoc] at split
    obtain ⟨e1, run1, next⟩ := encodeUpTo_concat.mp run
    obtain ⟨root, ⟨⟨slots, rooted⟩, zero, sound⟩, light⟩ := ih split run1
    have room := rooted.grown.room
    have shorter : front.length < x.length := by
      rw [split, List.length_append, List.length_append, List.length_singleton]
      omega
    unfold poolSize at room
    have range := (generations front byte back e1 split run1).inRange rooted zero (by omega)
    obtain ⟨bits, code, wrote⟩ := encodeByte_run rooted sound range next
    obtain ⟨rooted', zero'⟩ := code.keeps rooted zero
    have weighed := code.weighed rooted zero
    refine ⟨root, ⟨rooted', zero', wrote.sound⟩, ?_⟩
    rw [List.length_append, List.length_singleton]
    omega

theorem GenerationsFit.inRange {x : Bytes} {capacity : UInt32} (small : x.length < 2 ^ 31)
    (generations : GenerationsFit x capacity) : EncodeInRange x capacity := by
  intro front byte back e split run
  obtain ⟨root, ⟨⟨slots, rooted⟩, zero, _⟩, light⟩ := encoding_light small generations split run
  have room := rooted.grown.room
  have shorter : front.length < x.length := by
    rw [split, List.length_append, List.length_cons]
    omega
  unfold poolSize at room
  exact (generations front byte back e split run).inRange rooted zero (by omega)

section Decoding

variable {d d' : Decoder} {root left left' n : Nat} {slots : List (Slot Nat)} {symbol : UInt32} {view : List Bool}

theorem performed_raisesOf {ht : Tree} (byte : symbol.toNat < 0x100) (node : ∃ i, ht.symbolNodes symbol.toNat = some i)
    (left : Nat) : PerformedAll ht (raisesOf ht symbol left) ∧ (raisesOf ht symbol left).length ≤ 1 := by
  unfold raisesOf
  split
  next => exact ⟨trivial, Nat.zero_le 1⟩
  next => exact ⟨⟨⟨byte, node⟩, fun _ _ => trivial⟩, Nat.le_refl 1⟩

theorem performed_changesOf {ht : Tree} (rooted : Rooted ht root slots none)
    (ranges : ∀ change : Change, change.Performed ht → change.InRange ht) (known : symbol.toNat < 0x102)
    (node : ∃ i, ht.symbolNodes symbol.toNat = some i) {value : UInt32} (small : value.toNat < 0x100) (left : Nat) :
    PerformedAll ht (changesOf ht symbol value left) ∧ (changesOf ht symbol value left).length ≤ 2 := by
  unfold changesOf
  split
  next =>
    have split : (Change.split value).Performed ht := small
    refine ⟨⟨split, fun ht1 run => ?_⟩, ?_⟩
    · obtain ⟨kept, named⟩ := rooted.step _ split (ranges _ split) run
      have later := (performed_raisesOf small named left).1
      unfold raisesOf at later ⊢
      rwa [kept.zero] at later
    · rw [List.length_cons]
      have few : (raisesOf ht value left).length ≤ 1 := by
        unfold raisesOf
        split <;> simp
      omega
  next escape =>
    split
    next => exact ⟨trivial, Nat.zero_le 2⟩
    next ending =>
      have byte : symbol.toNat < 0x100 := by
        have one : symbol.toNat ≠ 0x101 := fun same => escape (UInt32.toNat.inj same)
        have two : symbol.toNat ≠ 0x100 := fun same => ending (UInt32.toNat.inj same)
        omega
      obtain ⟨performed, few⟩ := performed_raisesOf byte node left
      exact ⟨performed, few.trans (Nat.le_succ 1)⟩

theorem emit_gone (known : symbol ≠ 0x100 → symbol.toNat < 0x100) (node : ∃ i, d.ht.symbolNodes symbol.toNat = some i)
    (run : emit symbol left d = .ok (.inl left') d') :
    PerformedAll d.ht (raisesOf d.ht symbol left) ∧ Change.all (raisesOf d.ht symbol left) d.ht = .ok () d'.ht := by
  by_cases byte : symbol = 0x100
  next =>
    rw [byte, emit_end] at run
    cases run
  by_cases last : left - 1 = 0
  next =>
    rw [emit_last byte last] at run
    cases run
  rw [emit_more byte last] at run
  obtain ⟨_, d1, changed, same⟩ := bind_ok.mp run
  obtain ⟨ht1, whole, rfl⟩ := zoom_ok.mp changed
  cases same
  exact ⟨(performed_raisesOf (known byte) node left).1, whole⟩

theorem digest_gone (rooted : Rooted d.ht root slots none)
    (ranges : ∀ change : Change, change.Performed d.ht → change.InRange d.ht) (holds : d.is.Holds view)
    (known : symbol.toNat < 0x102) (node : ∃ i, d.ht.symbolNodes symbol.toNat = some i)
    (run : digest symbol left d = .ok (.inl left') d') : Gone d.ht d'.ht := by
  by_cases escape : symbol = 0x101
  next =>
    subst escape
    by_cases enough : 8 ≤ view.length
    next =>
      obtain ⟨is, escaped, _⟩ := @digest_escape d left view holds enough
      have small := byteAhead_small view
      rw [escaped, ← show byteAhead view = UInt32.ofNat (value (view.take 8)) from rfl] at run
      obtain ⟨new, d1, ran, rest⟩ := bind_ok.mp run
      obtain ⟨ht1, split, rfl⟩ := zoom_ok.mp ran
      cases new with
      | false => cases rest
      | true =>
        have splits : (Change.split (byteAhead view)).run d.ht = .ok () ht1 := by
          rw [Change.run]
          exact bind_of_ok split _
        have performed : (Change.split (byteAhead view)).Performed d.ht := small
        obtain ⟨_, named⟩ := rooted.step _ performed (ranges _ performed) splits
        obtain ⟨later, changed⟩ := @emit_gone { d with is := is, ht := ht1 } _ _ _ _ (fun _ => small) named rest
        refine ⟨.split (byteAhead view) :: raisesOf ht1 (byteAhead view) left, ?_, ⟨performed, fun ht2 again => ?_⟩, ?_⟩
        · exact Nat.succ_le_succ (performed_raisesOf small named left).2
        · rw [splits] at again
          cases again
          exact later
        · rw [Change.all, bind_of_ok splits]
          exact changed
    next =>
      obtain ⟨is, failed⟩ := @digest_short d left view holds enough
      rw [failed] at run
      cases run
  next =>
    rw [digest, if_neg escape] at run
    have other : symbol.toNat ≠ 0x101 := fun same => escape (UInt32.toNat.inj same)
    have literal : symbol ≠ 0x100 → symbol.toNat < 0x100 := by
      intro byte
      have : symbol.toNat ≠ 0x100 := fun same => byte (UInt32.toNat.inj same)
      omega
    obtain ⟨performed, changed⟩ := emit_gone literal node run
    refine ⟨_, ?_, performed, changed⟩
    unfold raisesOf
    split <;> simp

structure Paced (d : Decoder) (root bytes : Nat) : Prop where
  between : Between d root
  counted : Counted d.ht root (2 * bytes)

theorem Paced.inRange (paced : Paced d root n) (room : n < mostBytes) : d.InRange left := by
  obtain ⟨⟨⟨slots, rooted⟩, _, view, holds⟩, counted⟩ := paced
  have ranges : ∀ change : Change, change.Performed d.ht → change.InRange d.ht := fun change performed =>
    counted.inRange rooted performed (by omega)
  intro symbol d1 walked
  rcases rooted.grown.path_cases (by simp) rooted.internal view with
    ⟨bits, rest, leaf, rfl, _, path, free⟩ | ⟨last, path, more⟩
  · obtain ⟨is', walked', after'⟩ := walkSymbol_run rooted holds path free
    rw [walked'] at walked
    cases walked
    obtain ⟨known, node⟩ := rooted.named path free
    obtain ⟨performed, few⟩ := performed_changesOf rooted ranges known node (byteAhead_small is'.view) left
    exact (counted.all _ rooted performed (by omega)).1
  · obtain ⟨is', walked', _⟩ := walkSymbol_fails rooted holds path more
    rw [walked'] at walked
    cases walked

theorem Paced.next (paced : Paced d root n) (room : n < mostBytes) (enough : 7 ≤ d.is.view.length)
    (run : decodeRound fetchSymbol left d = .ok (.inl left') d') : Paced d' root (n + 1) := by
  refine ⟨(decodeRound_next paced.between (paced.inRange room) enough run).1, ?_⟩
  obtain ⟨⟨⟨slots, rooted⟩, cached, view, holds⟩, counted⟩ := paced
  rw [holds.view] at enough
  rcases rooted.grown.path_cases (by simp) rooted.internal view with
    ⟨bits, rest, leaf, rfl, _, path, free⟩ | ⟨last, path, more⟩
  · obtain ⟨is, cache, fetched, after, _⟩ := fetchSymbol_run rooted cached holds enough path free
    obtain ⟨known, node⟩ := rooted.named path free
    rw [decodeRound, bind_of_ok fetched] at run
    have tree : d.ht.disguised 0 cache = { d.ht with quickDecodeCache := cache } := by simp [Tree.disguised]
    rw [← tree] at run
    have rooted' : Rooted (d.ht.disguised 0 cache) root slots none := rooted.congr ⟨rfl, rfl, rfl, rfl⟩ rfl rfl rfl rfl
    have counted' : Counted (d.ht.disguised 0 cache) root (2 * n) := by
      refine ⟨?_, counted.weight⟩
      show (d.ht.generation + 0).toNat ≤ _
      rw [UInt32.add_zero]
      exact counted.generation
    have ranges : ∀ change : Change, change.Performed (d.ht.disguised 0 cache) → change.InRange (d.ht.disguised 0 cache) :=
      fun change performed => counted'.inRange rooted' performed (by omega)
    have gone := @digest_gone { d with is := is, ht := d.ht.disguised 0 cache } _ _ _ _ _ _ _ rooted' ranges after known
      node run
    exact counted'.gone rooted' gone (by omega)
  · obtain ⟨is, failed, _⟩ := fetchSymbol_fails rooted cached holds enough path more
    rw [decodeRound, bind_of_error failed] at run
    cases run

theorem emit_left (run : emit symbol left d = .ok (.inl left') d') : left' + 1 = left ∧ 0 < left' := by
  by_cases byte : symbol = 0x100
  next =>
    rw [byte, emit_end] at run
    cases run
  by_cases last : left - 1 = 0
  next =>
    rw [emit_last byte last] at run
    cases run
  rw [emit_more byte last] at run
  obtain ⟨_, d1, _, same⟩ := bind_ok.mp run
  cases same
  omega

theorem digest_left (run : digest symbol left d = .ok (.inl left') d') : left' + 1 = left ∧ 0 < left' := by
  by_cases escape : symbol = 0x101
  next =>
    rw [digest, if_pos escape] at run
    obtain ⟨_, d1, _, run⟩ := bind_ok.mp run
    obtain ⟨_, d2, _, run⟩ := bind_ok.mp run
    obtain ⟨new, d3, _, run⟩ := bind_ok.mp run
    cases new with
    | false => cases run
    | true => exact emit_left run
  next =>
    rw [digest, if_neg escape] at run
    exact emit_left run

theorem decodeRound_left {fetch : Dec (Option UInt32)} (run : decodeRound fetch left d = .ok (.inl left') d') :
    left' + 1 = left ∧ 0 < left' := by
  obtain ⟨fetched, d1, _, rest⟩ := bind_ok.mp run
  cases fetched with
  | none => cases rest
  | some symbol => exact digest_left rest

theorem turns_left {fetch : Dec (Option UInt32)} {k : Nat} (run : turns (decodeRound fetch) k left d = .ok (.inl left') d') :
    left' + k = left ∧ (0 < left → 0 < left') := by
  induction k generalizing left' d' with
  | zero =>
    cases run
    exact ⟨rfl, id⟩
  | succ k ih =>
    obtain ⟨r, d1, before, next⟩ := bind_ok.mp run
    cases r with
    | inl left1 =>
      obtain ⟨sum, _⟩ := ih before
      obtain ⟨less, more⟩ := decodeRound_left next
      exact ⟨by omega, fun _ => more⟩
    | inr b => cases next

theorem turns_paced {k : Nat} (paced : Paced d root 0) (short : left ≤ mostBytes)
    (enough : ∀ k left' d', turns (decodeRound fetchSymbol) k left d = .ok (.inl left') d' → 7 ≤ d'.is.view.length)
    (run : turns (decodeRound fetchSymbol) k left d = .ok (.inl left') d') : Paced d' root k := by
  induction k generalizing left' d' with
  | zero =>
    cases run
    exact paced
  | succ k ih =>
    have within := (turns_left run).1
    obtain ⟨r, d1, before, next⟩ := bind_ok.mp run
    cases r with
    | inl left1 => exact (ih before).next (by omega) (enough _ _ _ before) next
    | inr b => cases next

end Decoding

theorem checkFailed_same {d d' : Decoder} {u : Unit} (run : checkFailed d = .ok u d') : d' = d := by
  obtain ⟨_, d1, got, rest⟩ := bind_ok.mp run
  cases got
  by_cases failed : d.is.failed = true
  next =>
    rw [if_pos failed] at rest
    cases rest
  next =>
    rw [if_neg failed] at rest
    cases rest
    rfl

theorem openStream_paced (memory : Tree) {is : InputStream} {view : List Bool} (holds : is.Holds view) (out : Bytes)
    {d : Decoder} (run : openStream { ht := treeInit true memory, is := is, out := out } = .ok () d) :
    ∃ root, Paced d root 0 := by
  rcases openStream_run memory holds out with ⟨e, d1, failed, _⟩ | ⟨d1, root, opened, between⟩
  · rw [failed] at run
    cases run
  rw [opened] at run
  cases run
  obtain ⟨byte, d2, read, rest⟩ := bind_ok.mp opened
  obtain ⟨is2, _, rfl⟩ := zoom_ok.mp read
  obtain ⟨_, d3, checked, rest⟩ := bind_ok.mp rest
  obtain rfl := checkFailed_same checked
  by_cases known : byte.toNat < initialWeightTypes
  next =>
    rw [if_neg (not_not.mpr known)] at rest
    beta_reduce at rest
    obtain ⟨_, d4, built, last⟩ := bind_ok.mp rest
    obtain ⟨ht, build, rfl⟩ := zoom_ok.mp built
    cases last
    obtain ⟨ht', root', slots, build', rooted, weight, generation, _⟩ := treeBuild_run true memory known
    cases build'.symm.trans build
    obtain ⟨_, rooted'⟩ := between.rooted
    refine ⟨root, between, generation ▸ Nat.le_add_right 1 _, ?_⟩
    have same : weightOf ht root = weightOf ht root' := rooted'.rootWeight.symm.trans rooted.rootWeight
    exact same ▸ Nat.le_of_lt weight
  next =>
    rw [if_pos known] at rest
    cases rest

theorem quick_decode_transparent (memory : Tree) (is : InputStream) (sound : is.Sound) (clean : is.failed = false)
    (outLength : UInt32) (short : outLength.toNat ≤ mostBytes)
    (enough : ∀ d, openStream { ht := treeInit true memory, is := is, out := [] } = .ok () d → ∀ k left d',
      turns (decodeRound fetchSymbol) k outLength.toNat d = .ok (.inl left) d' → 7 ≤ d'.is.view.length) :
    Alike SameBut (decode outLength { ht := treeInit true memory, is := is, out := [] })
        (decodeWith walkSymbol outLength { ht := treeInit true memory, is := is, out := [] }) ∧
      ∀ d, openStream { ht := treeInit true memory, is := is, out := [] } = .ok () d → ∀ k,
        Alike SameBut (turns (decodeRound fetchSymbol) k outLength.toNat d)
          (turns (decodeRound walkSymbol) k outLength.toNat d) ∧
        ∀ left d', turns (decodeRound fetchSymbol) k outLength.toNat d = .ok (.inl left) d' →
          ∃ root, rootItem d'.ht = .ok (some root) d'.ht ∧
            ∀ index < 0x80, (d'.ht.quickDecodeCache index).generation ≥ d'.ht.generation →
              Describes d'.ht root index (d'.ht.quickDecodeCache index) := by
  refine cache_transparent memory is sound clean outLength _ rfl enough fun d opened k left d' run => ?_
  obtain ⟨root, paced⟩ := openStream_paced memory ⟨sound, rfl, clean⟩ [] opened
  obtain ⟨sum, more⟩ := turns_left run
  exact (turns_paced paced short (enough d opened) run).inRange (by unfold mostBytes at short ⊢; omega)

def roundAhead (capacity k : Nat) (d : Decoder) : Bool :=
  match openStream d with
  | .ok _ d =>
    match turns (decodeRound fetchSymbol) k capacity d with
    | .ok (.inl _) d' => decide (7 ≤ d'.is.view.length)
    | _ => true
  | _ => true

theorem quick_decode_transparent_zeros :
    Alike SameBut (decode 2 (Decoder.start [0, 0, 0, 0, 0])) (decodeWith walkSymbol 2 (Decoder.start [0, 0, 0, 0, 0])) := by
  have ahead : ∀ k < 2, roundAhead 2 k (Decoder.start [0, 0, 0, 0, 0]) = true := by
    decide +kernel
  refine (quick_decode_transparent Tree.zero (Decoder.start [0, 0, 0, 0, 0]).is ?_ rfl 2 (by decide) ?_).1
  · exact (@start_holds [0, 0, 0, 0, 0] (by decide)).toSound
  · intro d opened k left d' run
    have within : 0 < left := (turns_left run).2 (by decide)
    have sum : left + k = 2 := (turns_left run).1
    have early := ahead k (by omega)
    unfold roundAhead at early
    rw [show openStream (Decoder.start [0, 0, 0, 0, 0]) = .ok () d from opened] at early
    simp only at early
    rw [show turns (decodeRound fetchSymbol) k 2 d = .ok (.inl left) d' from run] at early
    exact of_decide_eq_true early

end Huffman

end LibMpq
