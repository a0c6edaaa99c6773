import LibMpq.HuffmanRounds

set_option autoImplicit false

namespace LibMpq

open Effect Function Sibling Bitstream

namespace Huffman

namespace OutputStream

def written (os : OutputStream) : List Bool := ofBytes os.out ++ bitsOf os.bits os.bitBuf.toNat

structure Sound (os : OutputStream) : Prop where
  small : os.bitBuf.toNat < 2 ^ os.bits
  few : os.bits < 8

end OutputStream

structure Wrote (os os' : OutputStream) (bits : List Bool) : Prop where
  sound : os'.Sound
  written : os'.written = os.written ++ bits
  capacity : os'.capacity = os.capacity

theorem Wrote.trans {os os' os'' : OutputStream} {bits bits' : List Bool} (first : Wrote os os' bits)
    (second : Wrote os' os'' bits') : Wrote os os'' (bits ++ bits') :=
  ⟨second.sound, by rw [second.written, first.written, List.append_assoc], second.capacity.trans first.capacity⟩

theorem bitBuf_bit {buf bit : UInt32} {bits : Nat} (small : buf.toNat < 2 ^ bits) (few : bits < 8) :
    (buf ||| (bit &&& 1) <<< UInt32.ofNat bits).toNat = buf.toNat + 2 ^ bits * (bit.toNat % 2) := by
  have low : bit &&& 1 = (UInt8.ofNat (bit.toNat % 2)).toUInt32 := by
    apply UInt32.toNat.inj
    rw [UInt32.toNat_and, UInt8.toNat_toUInt32, UInt8.toNat_ofNat_of_lt' (by simp [UInt8.size]; omega)]
    exact Nat.and_one_is_mod _
  rw [low, bitBuf_or small few, UInt8.toNat_ofNat_of_lt' (by simp [UInt8.size]; omega)]

theorem writeBit_run {os os' : OutputStream} (sound : os.Sound) {bit : UInt32} (run : writeBit bit os = .ok () os') :
    Wrote os os' [decide (bit.toNat % 2 = 1)] := by
  have value := @bitBuf_bit os.bitBuf bit os.bits sound.small sound.few
  have small := sound.small
  have within : os.bitBuf.toNat + 2 ^ os.bits * (bit.toNat % 2) < 2 ^ (os.bits + 1) := by
    rw [pow_succ]
    rcases Nat.mod_two_eq_zero_or_one bit.toNat with even | odd
    · rw [even]; omega
    · rw [odd]; omega
  have grown : bitsOf (os.bits + 1) (os.bitBuf.toNat + 2 ^ os.bits * (bit.toNat % 2)) =
      bitsOf os.bits os.bitBuf.toNat ++ [decide (bit.toNat % 2 = 1)] := by
    rw [bitsOf_add, ← bitsOf_mod os.bits, Nat.add_mul_mod_self_left, bitsOf_mod, Nat.add_mul_div_left _ _ (Nat.two_pow_pos _),
      Nat.div_eq_of_lt small, Nat.zero_add, bitsOf, bitsOf, Nat.mod_mod]
  rw [writeBit, bind_of_ok (modify_run _ _), bind_of_ok (get_run _)] at run
  by_cases full : os.bits + 1 = 8
  next =>
    rw [if_pos full, bind_of_ok (get_run _), bind_of_ok (get_run _)] at run
    by_cases room : os.out.length ≥ os.capacity.toNat
    next =>
      rw [if_pos room] at run
      cases run
    next =>
      rw [if_neg room] at run
      cases run
      refine ⟨⟨Nat.one_pos, Nat.zero_lt_succ 7⟩, ?_, rfl⟩
      have byte : ((os.bitBuf ||| (bit &&& 1) <<< UInt32.ofNat os.bits).toUInt8).toNat =
          os.bitBuf.toNat + 2 ^ os.bits * (bit.toNat % 2) := by
        rw [UInt32.toNat_toUInt8, value, Nat.mod_eq_of_lt]
        rwa [full] at within
      show ofBytes (os.out ++ [_]) ++ bitsOf 0 0 = _
      rw [ofBytes_append, ofBytes_cons, byte, ← full, grown, OutputStream.written]
      simp [bitsOf]
  next =>
    rw [if_neg full] at run
    cases run
    refine ⟨⟨?_, ?_⟩, ?_, rfl⟩
    · show (os.bitBuf ||| (bit &&& 1) <<< UInt32.ofNat os.bits).toNat < 2 ^ (os.bits + 1)
      rwa [value]
    · have := sound.few
      show os.bits + 1 < 8
      omega
    · show ofBytes os.out ++ bitsOf (os.bits + 1) (os.bitBuf ||| (bit &&& 1) <<< UInt32.ofNat os.bits).toNat = _
      rw [value, grown, OutputStream.written, List.append_assoc]

theorem writeBits_run {os os' : OutputStream} (sound : os.Sound) {count : Nat} {value : UInt32}
    (run : writeBits count value os = .ok () os') : Wrote os os' (bitsOf count value.toNat) := by
  induction count generalizing os value with
  | zero =>
    cases run
    exact ⟨sound, by simp [bitsOf], rfl⟩
  | succ count ih =>
    obtain ⟨_, os1, run1, run2⟩ := bind_ok.mp run
    have wrote := writeBit_run sound run1
    have rest := ih wrote.sound run2
    have half : (value >>> 1).toNat = value.toNat / 2 := by
      rw [UInt32.toNat_shiftRight]
      exact Nat.shiftRight_eq_div_pow _ 1
    rw [half] at rest
    exact wrote.trans rest

section Climbs

variable {ht : Tree} {root : Nat} {slots : List (Slot Nat)} {due : Option Nat}

theorem Grown.turn_parent (grown : Grown ht [root] slots due) {i parent child : Nat} (inside : i ∈ [root] ++ flat slots)
    (up : ht.parent i = some parent) (down : ht.child parent = some child) :
    ht.turn parent (decide (ht.prev (.item child) = .to (.item i))) = some i := by
  obtain ⟨s, member, rfl, is⟩ := grown.owing.parent_some inside up
  obtain ⟨zero, one⟩ := grown.turn_slot member
  rw [grown.owing.children s member] at down
  obtain rfl := Option.some.inj down
  have link : ht.prev (.item s.first) = .to (.item s.second) := by
    rw [Tree.turn, grown.owing.children s member] at one
    simp only [if_true] at one
    split at one
    next second same => rw [same, Option.some.inj one]
    next => cases one
  rw [link]
  rcases is with rfl | rfl
  · simpa using one
  · have apart := grown.owing.apart member
    simpa [apart] using zero

theorem code_digit (bits : UInt32) (count : Nat) (room : bits.toNat < 2 ^ count) (few : count + 1 < 32) (bit : Bool) :
    (bits <<< 1 ||| (if bit then 1 else 0)).toNat = 2 * bits.toNat + bit.toNat := by
  have small : bits.toNat < 2 ^ 31 := room.trans_le (Nat.pow_le_pow_right (by decide) (by omega))
  have shift : (bits <<< 1).toNat = bits.toNat * 2 := by
    rw [UInt32.toNat_shiftLeft]
    show (bits.toNat <<< 1) % 2 ^ 32 = _
    rw [Nat.shiftLeft_eq, Nat.mod_eq_of_lt (by omega)]
  have one : (if bit then 1 else 0 : UInt32).toNat = bit.toNat := by cases bit <;> rfl
  rw [UInt32.toNat_or, shift, one]
  have digit : bit.toNat < 2 ^ 1 := bit.toNat_lt
  have or_ := Nat.shiftLeft_add_eq_or_of_lt digit bits.toNat
  rw [Nat.shiftLeft_eq, pow_one] at or_
  omega

theorem codeRounds_run (grown : Grown ht [root] slots due) {leaf : Nat} {fuel i count : Nat} {bits : UInt32}
    (inside : i ∈ [root] ++ flat slots) (small : bits.toNat < 2 ^ count) (few : count < 32)
    (path : ht.path i (bitsOf count bits.toNat) = some leaf) {ht' : Tree} {code : UInt32} {length : Nat}
    (run : rounds codeRound fuel (i, bits, count) ht = .ok (code, length) ht') :
    ht' = ht ∧ ht.path root (bitsOf length code.toNat) = some leaf := by
  induction fuel generalizing i bits count with
  | zero => cases run
  | succ fuel ih =>
    cases up : ht.parent i with
    | none =>
      have step : codeRound (i, bits, count) ht = .ok (.inr (bits, count)) ht := by
        rw [codeRound, bind_of_ok (get_run ht), up]
        rfl
      rw [rounds_done step] at run
      cases run
      obtain rfl : i = root := by simpa using grown.owing.parent_none inside up
      exact ⟨rfl, path⟩
    | some parent =>
      obtain ⟨s, member, own, is⟩ := grown.owing.parent_some inside up
      have child : ht.child parent = some s.first := by rw [← own, grown.owing.children s member]
      have turn := grown.turn_parent inside up child
      let digit := decide (ht.prev (.item s.first) = .to (.item i))
      have step : codeRound (i, bits, count) ht =
          if count + 1 = 32 then .error (.error .format) ht
          else .ok (.inl (parent, bits <<< 1 ||| (if digit then 1 else 0), count + 1)) ht := by
        rw [codeRound, bind_of_ok (get_run ht), up]
        simp only
        rw [child]
        simp only [given]
        rw [bind_of_ok (pure_run _ _)]
        by_cases long : count + 1 = 32
        next =>
          rw [if_pos long, if_pos long]
          rfl
        next => simp [long, digit]
      by_cases long : count + 1 = 32
      next =>
        rw [if_pos long] at step
        rw [rounds_error step] at run
        cases run
      next =>
        rw [if_neg long] at step
        rw [rounds_next step] at run
        have next := code_digit bits count small (by omega) digit
        refine ih (own ▸ grown.owing.owner_mem member) ?_ (by omega) ?_ run
        · rw [next, pow_succ]
          have := digit.toNat_lt
          omega
        · have half : (2 * bits.toNat + digit.toNat) / 2 = bits.toNat := by
            have := digit.toNat_lt
            omega
          have low : decide ((2 * bits.toNat + digit.toNat) % 2 = 1) = digit := by cases digit <;> simp
          rw [next, bitsOf, half, low, Tree.path, turn]
          exact path

end Climbs

theorem inTree_ok {α : Type} {x : Act α} {e e' : Encoder} {a : α} :
    inTree x e = .ok a e' ↔ ∃ ht, x e.ht = .ok a ht ∧ e' = { e with ht := ht } := zoom_ok

theorem toStream_ok {α : Type} {x : Out α} {e e' : Encoder} {a : α} :
    toStream x e = .ok a e' ↔ ∃ os, x e.os = .ok a os ∧ e' = { e with os := os } := zoom_ok

theorem failAs_ok {σ α : Type} {code : Error} {x : Op (Stop Error) σ α} {s s' : σ} {a : α} :
    failAs code x s = .ok a s' ↔ x s = .ok a s' := by
  unfold failAs
  split
  next _ _ failed => rw [failed]; simp
  next => rfl

theorem encodeSymbol_run {e e' : Encoder} {root : Nat} {slots : List (Slot Nat)} (grown : Grown e.ht [root] slots none)
    (sound : e.os.Sound) {i : Nat} (inside : i ∈ [root] ++ flat slots) (run : encodeSymbol (some i) e = .ok () e') :
    ∃ code, e.ht.path root code = some i ∧ e'.ht = e.ht ∧ Wrote e.os e'.os code := by
  obtain ⟨i', e1, given_, run⟩ := bind_ok.mp run
  obtain ⟨ht1, same, rfl⟩ := inTree_ok.mp given_
  obtain ⟨rfl, rfl⟩ := pure_ok.mp same
  obtain ⟨⟨bits, count⟩, e2, climb, run⟩ := bind_ok.mp run
  obtain ⟨ht2, climbed, rfl⟩ := inTree_ok.mp climb
  obtain ⟨rfl, path⟩ := codeRounds_run grown inside Nat.one_pos (by decide) rfl climbed
  obtain ⟨os, written, rfl⟩ := toStream_ok.mp run
  exact ⟨_, path, rfl, writeBits_run sound written⟩

inductive Code (root : Nat) (ht : Tree) (byte : UInt8) : List Bool → Tree → Prop
  | known {i : Nat} {bits : List Bool} {ht' : Tree} (node : ht.symbolNodes byte.toNat = some i)
      (path : ht.path root bits = some i) (range : InRange ht [.update byte.toNat])
      (run : Change.all [.update byte.toNat] ht = .ok () ht') : Code root ht byte bits ht'
  | new {i : Nat} {bits : List Bool} {ht' : Tree} (node : ht.symbolNodes 0x101 = some i)
      (path : ht.path root bits = some i) (range : InRange ht [.insert byte.toUInt32, .update byte.toNat])
      (run : Change.all [.insert byte.toUInt32, .update byte.toNat] ht = .ok () ht') :
      Code root ht byte (bits ++ bitsOf 8 byte.toNat) ht'

def changesFor (ht : Tree) (byte : UInt8) : List Change :=
  if ht.symbolNodes byte.toNat = none then [.insert byte.toUInt32, .update byte.toNat] else [.update byte.toNat]

theorem encodeByte_run {e e' : Encoder} {root : Nat} {slots : List (Slot Nat)} (rooted : Rooted e.ht root slots none)
    (sound : e.os.Sound) {byte : UInt8} (range : InRange e.ht (changesFor e.ht byte)) (run : encodeByte byte e = .ok () e') :
    ∃ bits, Code root e.ht byte bits e'.ht ∧ Wrote e.os e'.os bits := by
  rw [encodeByte, bind_of_ok (get_run e)] at run
  unfold changesFor at range
  cases node : e.ht.symbolNodes byte.toNat with
  | none =>
    rw [if_pos node] at range
    rw [node] at run
    obtain ⟨_, e1, first, run⟩ := bind_ok.mp run
    rw [failAs_ok, bind_of_ok (get_run e)] at first
    obtain ⟨_, e2, escape, literal⟩ := bind_ok.mp first
    obtain ⟨i, escapeNode, _⟩ := rooted.controls 0x101 (.inr rfl)
    rw [escapeNode] at escape
    have inside := (rooted.grown.used i).mpr (rooted.symbols _ i escapeNode).1
    obtain ⟨code, path, same, wrote⟩ := encodeSymbol_run rooted.grown sound inside escape
    obtain ⟨os, written, rfl⟩ := toStream_ok.mp literal
    have wrote2 := writeBits_run wrote.sound written
    rw [UInt8.toNat_toUInt32] at wrote2
    obtain ⟨_, e3, second, third⟩ := bind_ok.mp run
    obtain ⟨ht3, inserted, rfl⟩ := inTree_ok.mp (failAs_ok.mp second)
    obtain ⟨ht4, updated, rfl⟩ := inTree_ok.mp third
    refine ⟨_, .new escapeNode path range ?_, wrote.trans wrote2⟩
    rw [same] at inserted
    rw [Change.all, bind_of_ok (show Change.run (.insert byte.toUInt32) e.ht = .ok () ht3 from inserted), Change.all,
      bind_of_ok (show Change.run (.update byte.toNat) ht3 = .ok () ht4 from updated)]
    rfl
  | some i =>
    rw [if_neg (by simp [node])] at range
    rw [node] at run
    obtain ⟨_, e1, first, second⟩ := bind_ok.mp run
    have inside := (rooted.grown.used i).mpr (rooted.symbols _ i node).1
    obtain ⟨code, path, same, wrote⟩ := encodeSymbol_run rooted.grown sound inside (failAs_ok.mp first)
    obtain ⟨ht2, updated, rfl⟩ := inTree_ok.mp second
    refine ⟨code, .known node path range ?_, wrote⟩
    have raised : Change.run (.update byte.toNat) e.ht = .ok () ht2 := by
      rw [Change.run, bind_of_ok (get_run e.ht), node, ← same]
      exact updated
    rw [Change.all, bind_of_ok raised]
    rfl

end Huffman

end LibMpq
