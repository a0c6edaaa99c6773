import LibMpq.HuffmanEncode

set_option autoImplicit false

namespace LibMpq

open Effect Function Sibling Bitstream

namespace Huffman

theorem splitLast_insert {ht ht' : Tree} {root : Nat} {slots : List (Slot Nat)} (rooted : Rooted ht root slots none)
    (zero : ht.compressionTypeZero = true) {value : UInt32} (byte : value.toNat < 0x100)
    (room : weightOf ht root + 1 < 2 ^ 32) (run : insertLiteral value ht = .ok () ht') :
    splitLast value ht = .ok true ht' := by
  obtain ⟨front, last, place⟩ := last_item root slots
  by_cases free : ht.items < poolSize
  next =>
    obtain ⟨ht1, _, _, raised, _, regrown, _⟩ := rooted.raise_split place free byte room
    have zero1 : ht1.compressionTypeZero = true := regrown.kept.compressionTypeZero.trans zero
    rw [insertLiteral_split rooted.grown place (rooted.room free), bind_of_ok raised, bind_of_ok (get_run ht1),
      if_neg (by simp [zero1])] at run
    cases run
    rw [splitLast_split rooted.grown place (rooted.room free), bind_of_ok raised, bind_of_ok (get_run ht'),
      if_neg (by simp [zero1])]
    rfl
  next =>
    rw [rooted.insertLiteral_full free] at run
    exact absurd run nofun

theorem Changed.disguised {change : Change} {ht ht' : Tree} {trades : Nat} (changed : Changed change ht ht' trades)
    (cache : Nat → QuickDecode) : Changed change (ht.disguised 0 cache) (ht'.disguised 0 cache) trades where
  few := changed.few
  items := changed.items
  generation := by
    show ht'.generation + 0 = ht.generation + 0 + UInt32.ofNat trades
    rw [changed.generation, UInt32.add_zero, UInt32.add_zero]
  quickDecodeCache := rfl
  compressionTypeZero := changed.compressionTypeZero
  still none_ := ⟨⟨(changed.still none_).1.next, (changed.still none_).1.prev, (changed.still none_).1.parent,
    (changed.still none_).1.child⟩, (changed.still none_).2⟩
  named := changed.named

structure Stepped (ht ht' : Tree) (root : Nat) : Prop where
  rooted : ∃ slots, Rooted ht' root slots none
  zero : ht'.compressionTypeZero = ht.compressionTypeZero
  cached : ∀ cache, Cached (ht.disguised 0 cache) root → Cached (ht'.disguised 0 cache) root

theorem Rooted.step {ht ht' : Tree} {root : Nat} {slots : List (Slot Nat)} (rooted : Rooted ht root slots none)
    (change : Change) (performed : change.Performed ht) (range : change.InRange ht) (run : change.run ht = .ok () ht') :
    Stepped ht ht' root ∧ ∃ i, ht'.symbolNodes change.symbol = some i := by
  rcases rooted.change change performed range.fits with ⟨ht1, slots1, trades, run1, rooted1, changed, _⟩ | ⟨_, e, refused⟩
  · rw [run1] at run
    cases run
    refine ⟨⟨⟨slots1, rooted1⟩, changed.compressionTypeZero, fun cache cached => ?_⟩, changed.named⟩
    refine cached.change (changed.disguised cache) ?_
    have room := range.generation
    rw [changed.trades_eq run1] at room
    show (ht.generation + 0).toNat + trades < 2 ^ 32
    rwa [UInt32.add_zero]
  · rw [refused] at run
    exact absurd run nofun

theorem all_one {change : Change} {ht ht' : Tree} (run : Change.all [change] ht = .ok () ht') : change.run ht = .ok () ht' := by
  obtain ⟨_, ht1, first, last⟩ := bind_ok.mp run
  cases last
  exact first

structure Lockstep (root : Nat) (ht : Tree) (d : Decoder) (view : List Bool) (out : Bytes) : Prop where
  rooted : ∃ slots, Rooted ht root slots none
  zero : ht.compressionTypeZero = true
  tree : ∃ cache, d.ht = ht.disguised 0 cache ∧ Cached (ht.disguised 0 cache) root
  holds : d.is.Holds view
  out : d.out = out

section Step

variable {root : Nat} {ht ht' : Tree} {d : Decoder} {bits rest : List Bool} {out : Bytes} {byte : UInt8}

theorem Lockstep.fetch (lock : Lockstep root ht d (bits ++ rest) out) (enough : 7 ≤ (bits ++ rest).length) {s i : Nat}
    (node : ht.symbolNodes s = some i) (path : ht.path root bits = some i) :
    ∃ d', fetchSymbol d = .ok (some (ht.dcmpByte i)) d' ∧ (ht.dcmpByte i).toNat = s ∧ Lockstep root ht d' rest out := by
  obtain ⟨slots, rooted⟩ := lock.rooted
  obtain ⟨cache, tree, cached⟩ := lock.tree
  obtain ⟨used, leaf, symbol⟩ := rooted.symbols s i node
  have rooted' : Rooted d.ht root slots none := tree ▸ rooted.congr ⟨rfl, rfl, rfl, rfl⟩ rfl rfl rfl rfl
  have path' : d.ht.path root bits = some i := by
    rw [tree, ← path]
    exact @SameShape.path ht (ht.disguised 0 cache) ⟨rfl, rfl, rfl, rfl⟩ root bits
  obtain ⟨is, cache', run, holds, cached'⟩ := fetchSymbol_run rooted' (tree ▸ cached) lock.holds enough path'
    (tree ▸ leaf)
  refine ⟨{ d with is := is, ht := ht.disguised 0 cache' }, ?_, symbol, ⟨lock.rooted, lock.zero, ⟨cache', rfl, ?_⟩, holds,
    lock.out⟩⟩
  · rw [run, tree]
    rfl
  · rw [tree] at cached'
    exact cached'

theorem byte_symbol {symbol : UInt32} (same : symbol.toNat = byte.toNat) : symbol = byte.toUInt32 :=
  UInt32.toNat.inj (by rw [same, UInt8.toNat_toUInt32])

theorem byte_apart {symbol : UInt32} (high : 0x100 ≤ symbol.toNat) : byte.toUInt32 ≠ symbol := by
  rintro rfl
  have := byte.toNat_lt
  rw [UInt8.toNat_toUInt32] at high
  omega

theorem Lockstep.decode (lock : Lockstep root ht d (bits ++ rest) out) (left : Nat) (enough : 7 ≤ (bits ++ rest).length)
    (code : Code root ht byte bits ht') :
    ∃ ht1 d1, decodeRound fetchSymbol left d = emit byte.toUInt32 left d1 ∧ Lockstep root ht1 d1 rest out ∧
      (∃ i, ht1.symbolNodes byte.toNat = some i) ∧ Change.InRange ht1 (.update byte.toNat) ∧
      Change.run (.update byte.toNat) ht1 = .ok () ht' := by
  cases code with
  | @known i _ _ node path range run =>
    obtain ⟨d1, fetched, symbol, lock1⟩ := lock.fetch enough node path
    rw [byte_symbol symbol] at fetched
    refine ⟨ht, d1, ?_, lock1, ⟨i, node⟩, range.1, all_one run⟩
    rw [decodeRound, bind_of_ok fetched]
    show digest byte.toUInt32 left d1 = _
    rw [digest, if_neg (byte_apart (by decide))]
  | @new i code _ node path range run =>
    rw [List.append_assoc] at lock enough
    obtain ⟨d1, fetched, symbol, lock1⟩ := lock.fetch enough node path
    obtain ⟨slots, rooted⟩ := lock.rooted
    obtain ⟨_, ht1, inserted, updated⟩ := bind_ok.mp run
    have small : (byte.toUInt32).toNat < 0x100 := by
      rw [UInt8.toNat_toUInt32]
      exact byte.toNat_lt
    obtain ⟨kept, named⟩ := rooted.step (.insert byte.toUInt32) ⟨small, lock.zero⟩ range.1 inserted
    have room : weightOf ht root + 1 < 2 ^ 32 := by
      have fits := range.1.fits
      unfold Change.Fits at fits
      rwa [rooted.rootWeight] at fits
    have split := splitLast_insert rooted lock.zero small room inserted
    obtain ⟨is, escaped, holds2⟩ := @digest_escape d1 left (bitsOf 8 byte.toNat ++ rest) lock1.holds (by simp)
    rw [List.drop_left' (bitsOf_length 8 _)] at holds2
    have literal : UInt32.ofNat (value ((bitsOf 8 byte.toNat ++ rest).take 8)) = byte.toUInt32 := by
      rw [List.take_left' (bitsOf_length 8 _), value_bitsOf]
      refine byte_symbol ?_
      have := byte.toNat_lt
      rw [UInt32.toNat_ofNat_of_lt' (by simp [UInt32.size]; omega)]
      omega
    obtain ⟨cache, tree, cached⟩ := lock1.tree
    refine ⟨ht1, { d1 with is := is, ht := ht1.disguised 0 cache }, ?_, ?_, ?_, range.2 ht1 inserted |>.1, all_one updated⟩
    · have escape : ht.dcmpByte i = 0x101 := UInt32.toNat.inj symbol
      rw [decodeRound, bind_of_ok fetched, escape]
      show digest 0x101 left d1 = _
      rw [escaped, literal]
      have done := (@splitLast_unseen 0 cache byte.toUInt32).ok split
      rw [← tree] at done
      rw [bind_of_ok (@onTree_ok _ _ { d1 with is := is } _ _ done)]
      rfl
    · exact ⟨kept.rooted, kept.zero.trans lock.zero, ⟨cache, rfl, kept.cached cache cached⟩, holds2, lock1.out⟩
    · obtain ⟨j, name⟩ := named
      exact ⟨j, name⟩

theorem Lockstep.step (lock : Lockstep root ht d (bits ++ rest) out) (left : Nat) (enough : 7 ≤ (bits ++ rest).length)
    (code : Code root ht byte bits ht') (more : left - 1 ≠ 0) :
    ∃ d', decodeRound fetchSymbol left d = .ok (.inl (left - 1)) d' ∧ Lockstep root ht' d' rest (out ++ [byte]) := by
  obtain ⟨ht1, d1, run, lock1, named, range, updated⟩ := lock.decode left enough code
  obtain ⟨slots, rooted⟩ := lock1.rooted
  obtain ⟨cache, tree, cached⟩ := lock1.tree
  have symbol : (byte.toUInt32).toNat = byte.toNat := UInt8.toNat_toUInt32 byte
  obtain ⟨kept, _⟩ := rooted.step (.update byte.toNat) ⟨byte.toNat_lt, named⟩ range updated
  refine ⟨{ d1 with ht := ht'.disguised 0 cache, out := d1.out ++ [byte] }, ?_, ⟨kept.rooted, kept.zero.trans lock1.zero,
    ⟨cache, rfl, kept.cached cache cached⟩, lock1.holds, by rw [← lock1.out]⟩⟩
  have zero : d1.ht.compressionTypeZero = true := tree ▸ lock1.zero
  have raises : raisesOf d1.ht byte.toUInt32 left = [.update byte.toNat] := by
    rw [raisesOf, if_neg (by simp [more, zero]), symbol]
  have all : Change.all [.update byte.toNat] d1.ht = .ok () (ht'.disguised 0 cache) := by
    have plain : Change.all [.update byte.toNat] ht1 = .ok () ht' := by
      rw [Change.all, bind_of_ok updated]
      rfl
    rw [tree]
    exact (changes_unseen _).ok plain
  have same : (byte.toUInt32).toUInt8 = byte := by simp
  rw [run, emit_more (byte_apart (by decide)) more, raises, same,
    bind_of_ok (@onTree_ok _ _ { d1 with out := d1.out ++ [byte] } _ _ all)]
  rfl

theorem Lockstep.last (lock : Lockstep root ht d (bits ++ rest) out) (left : Nat) (enough : 7 ≤ (bits ++ rest).length)
    (code : Code root ht byte bits ht') (last : left - 1 = 0) :
    ∃ d', decodeRound fetchSymbol left d = .ok (.inr (returned (out ++ [byte]))) d' ∧ d'.out = out ++ [byte] := by
  obtain ⟨ht1, d1, run, lock1, _⟩ := lock.decode left enough code
  have same : (byte.toUInt32).toUInt8 = byte := by simp
  refine ⟨{ d1 with out := out ++ [byte] }, ?_, rfl⟩
  rw [run, emit_last (byte_apart (by decide)) last, same, lock1.out]

theorem Lockstep.ends (lock : Lockstep root ht d (bits ++ rest) out) (left : Nat) (enough : 7 ≤ (bits ++ rest).length) {i : Nat}
    (node : ht.symbolNodes 0x100 = some i) (path : ht.path root bits = some i) :
    ∃ d', decodeRound fetchSymbol left d = .ok (.inr (returned out)) d' ∧ d'.out = out := by
  obtain ⟨d1, fetched, symbol, lock1⟩ := lock.fetch enough node path
  have marker : ht.dcmpByte i = 0x100 := UInt32.toNat.inj symbol
  refine ⟨d1, ?_, lock1.out⟩
  rw [decodeRound, bind_of_ok fetched, marker]
  show digest 0x100 left d1 = _
  rw [digest, if_neg (by decide), emit_end, lock1.out]

end Step

end Huffman

end LibMpq
