import LibMpq.Base.Bitstream
import LibMpq.HuffmanCodec

set_option autoImplicit false

namespace LibMpq

open Effect Bitstream

namespace Huffman

namespace InputStream

def view (is : InputStream) : List Bool := bitsOf is.bits is.bitBuf.toNat ++ ofBytes is.rest

structure Sound (is : InputStream) : Prop where
  small : is.bitBuf.toNat < 2 ^ is.bits
  fits : is.bits ≤ 32

end InputStream

theorem bitBuf_or {buf : UInt32} {byte : UInt8} {bits : Nat} (small : buf.toNat < 2 ^ bits) (few : bits < 8) :
    (buf ||| byte.toUInt32 <<< UInt32.ofNat bits).toNat = buf.toNat + 2 ^ bits * byte.toNat := by
  have shift : (UInt32.ofNat bits).toNat = bits := UInt32.toNat_ofNat_of_lt' (by simp [UInt32.size]; omega)
  have top : byte.toNat * 2 ^ bits < 2 ^ 32 := by
    have h1 := byte.toNat_lt
    have h2 : 2 ^ bits ≤ 2 ^ 8 := Nat.pow_le_pow_right (by decide) (by omega)
    calc byte.toNat * 2 ^ bits ≤ byte.toNat * 2 ^ 8 := Nat.mul_le_mul_left _ h2
      _ < 2 ^ 32 := by omega
  rw [UInt32.toNat_or, UInt32.toNat_shiftLeft, shift, Nat.mod_eq_of_lt (show bits < 32 by omega), Nat.shiftLeft_eq,
    UInt8.toNat_toUInt32, Nat.mod_eq_of_lt top, ← Nat.shiftLeft_eq, Nat.or_comm, ← Nat.shiftLeft_add_eq_or_of_lt small,
    Nat.shiftLeft_eq]
  ring

theorem fill_run {required : Nat} (few : required ≤ 8) (is : InputStream) (sound : is.Sound) (rest : Bytes) :
    (fill required is rest).view = bitsOf is.bits is.bitBuf.toNat ++ ofBytes rest ∧ (fill required is rest).Sound ∧
      (fill required is rest).failed = is.failed ∧
      ((fill required is rest).bits < required → (fill required is rest).rest = []) := by
  induction rest generalizing is with
  | nil => exact ⟨rfl, ⟨sound.small, sound.fits⟩, rfl, fun _ => rfl⟩
  | cons byte rest ih =>
    rw [fill]
    split
    next less =>
      have value := @bitBuf_or is.bitBuf byte is.bits sound.small (by omega)
      have sound' : InputStream.Sound
          { is with bitBuf := is.bitBuf ||| byte.toUInt32 <<< UInt32.ofNat is.bits, bits := is.bits + 8 } := by
        refine ⟨?_, by show is.bits + 8 ≤ 32; omega⟩
        show (is.bitBuf ||| byte.toUInt32 <<< UInt32.ofNat is.bits).toNat < 2 ^ (is.bits + 8)
        have := byte.toNat_lt
        have small := sound.small
        rw [value, pow_add]
        calc is.bitBuf.toNat + 2 ^ is.bits * byte.toNat < 2 ^ is.bits + 2 ^ is.bits * byte.toNat := by omega
          _ = 2 ^ is.bits * (byte.toNat + 1) := by ring
          _ ≤ 2 ^ is.bits * 2 ^ 8 := Nat.mul_le_mul_left _ (by omega)
      obtain ⟨same, sound2, failed, empty⟩ := ih _ sound'
      refine ⟨?_, sound2, failed, empty⟩
      rw [same, ofBytes_cons, ← List.append_assoc]
      congr 1
      show bitsOf (is.bits + 8) (is.bitBuf ||| byte.toUInt32 <<< UInt32.ofNat is.bits).toNat = _
      rw [value, bitsOf_add, Nat.add_mul_div_left _ _ (Nat.two_pow_pos _), Nat.div_eq_of_lt sound.small, Nat.zero_add,
        ← bitsOf_mod is.bits, Nat.add_mul_mod_self_left, bitsOf_mod]
    next enough => exact ⟨rfl, ⟨sound.small, sound.fits⟩, rfl, fun less => absurd less enough⟩

theorem refill_run {required : Nat} (few : required ≤ 8) {is : InputStream} (sound : is.Sound) :
    ∃ is', refill required is = .ok (decide (required ≤ is.view.length)) is' ∧ is'.view = is.view ∧ is'.Sound ∧
      (required ≤ is.view.length → is'.failed = is.failed ∧ required ≤ is'.bits) ∧
      (¬ required ≤ is.view.length → is'.failed = true) := by
  obtain ⟨same, sound', failed, empty⟩ := fill_run few is sound is.rest
  have begin_ : refill required is =
      (do
        if (← get).bits < required then do
          modify fun is => { is with failed := true }
          pure false
        else pure true : In Bool) (fill required is is.rest) := by
    rw [refill, bind_of_ok (modify_run _ _)]
  have length : (fill required is is.rest).view.length = is.view.length := by rw [same]; rfl
  rw [begin_, bind_of_ok (get_run _)]
  by_cases less : (fill required is is.rest).bits < required
  next =>
    have short : ¬ required ≤ is.view.length := by
      rw [← length, InputStream.view, empty less, ofBytes_nil, List.append_nil, bitsOf_length]
      omega
    refine ⟨{ fill required is is.rest with failed := true }, ?_, same, ⟨sound'.small, sound'.fits⟩,
      fun enough => absurd enough short, fun _ => rfl⟩
    rw [if_pos less, decide_eq_false short]
    rfl
  next =>
    have enough : required ≤ is.view.length := by
      rw [← length, InputStream.view, List.length_append, bitsOf_length]
      omega
    refine ⟨_, ?_, same, sound', fun _ => ⟨failed, by omega⟩, fun short => absurd enough short⟩
    rw [if_neg less, decide_eq_true enough]
    rfl

theorem skip_run {count : Nat} {is : InputStream} (sound : is.Sound) (enough : count ≤ is.bits) (few : count < 32) :
    ∃ is', skip count is = .ok () is' ∧ is'.view = is.view.drop count ∧ is'.Sound ∧ is'.failed = is.failed := by
  have shift : (UInt32.ofNat count).toNat = count := UInt32.toNat_ofNat_of_lt' (by simp [UInt32.size]; omega)
  have value : (is.bitBuf >>> UInt32.ofNat count).toNat = is.bitBuf.toNat / 2 ^ count := by
    rw [UInt32.toNat_shiftRight, shift, Nat.mod_eq_of_lt few, Nat.shiftRight_eq_div_pow]
  refine ⟨_, modify_run _ _, ?_, ⟨?_, ?_⟩, rfl⟩
  · show bitsOf (is.bits - count) (is.bitBuf >>> UInt32.ofNat count).toNat ++ ofBytes is.rest = _
    rw [value, ← drop_bitsOf enough, InputStream.view, List.drop_append_of_le_length (by rwa [bitsOf_length])]
  · show (is.bitBuf >>> UInt32.ofNat count).toNat < 2 ^ (is.bits - count)
    rw [value, Nat.div_lt_iff_lt_mul (Nat.two_pow_pos _), ← pow_add, Nat.sub_add_cancel enough]
    exact sound.small
  · have := sound.fits
    show is.bits - count ≤ 32
    omega

theorem low_bits {is : InputStream} {count : Nat} (enough : count ≤ is.bits) {mask : UInt32}
    (ones : mask.toNat = 2 ^ count - 1) : (is.bitBuf &&& mask).toNat = value (is.view.take count) := by
  rw [UInt32.toNat_and, ones, Nat.and_two_pow_sub_one_eq_mod, InputStream.view,
    List.take_append_of_le_length (by rwa [bitsOf_length]), take_bitsOf enough, value_bitsOf]

theorem readBit_run {is : InputStream} (sound : is.Sound) {b : Bool} {bits : List Bool} (starts : is.view = b :: bits) :
    ∃ is', readBit is = .ok b is' ∧ is'.view = bits ∧ is'.Sound ∧ is'.failed = is.failed := by
  obtain ⟨is1, run1, view1, sound1, failed1, _⟩ := refill_run (show 1 ≤ 8 by decide) sound
  have enough : 1 ≤ is.view.length := by simp [starts]
  rw [decide_eq_true enough] at run1
  obtain ⟨failed1, inside⟩ := failed1 enough
  obtain ⟨is2, run2, view2, sound2, failed2⟩ := skip_run sound1 inside (by decide)
  have low := @low_bits is1 1 inside 1 rfl
  rw [view1, starts] at low view2
  refine ⟨is2, ?_, view2, sound2, failed2.trans failed1⟩
  have bit : decide (is1.bitBuf &&& 1 ≠ 0) = b := by
    cases b with
    | true =>
      refine decide_eq_true fun zero => ?_
      rw [zero] at low
      exact absurd low (by simp [value])
    | false =>
      refine decide_eq_false (not_not.mpr (UInt32.toNat.inj ?_))
      rw [low]
      rfl
  rw [readBit, bind_of_ok run1, if_pos rfl, bind_of_ok (get_run is1), bind_of_ok run2, bit, pure_run]

theorem readBit_fails {is : InputStream} (sound : is.Sound) (empty : is.view = []) :
    ∃ is', readBit is = .ok false is' ∧ is'.view = [] ∧ is'.Sound ∧ is'.failed = true := by
  obtain ⟨is1, run1, view1, sound1, _, failed1⟩ := refill_run (show 1 ≤ 8 by decide) sound
  have short : ¬ 1 ≤ is.view.length := by simp [empty]
  rw [decide_eq_false short] at run1
  refine ⟨is1, ?_, view1.trans empty, sound1, failed1 short⟩
  rw [readBit, bind_of_ok run1]
  rfl

theorem peekSevenBits_run {is : InputStream} (sound : is.Sound) (enough : 7 ≤ is.view.length) :
    ∃ is' n7bits, peekSevenBits is = .ok n7bits is' ∧ n7bits.toNat = value (is.view.take 7) ∧ is'.view = is.view ∧
      is'.Sound ∧ is'.failed = is.failed ∧ 7 ≤ is'.bits := by
  obtain ⟨is1, run1, view1, sound1, failed1, _⟩ := refill_run (show 7 ≤ 8 by decide) sound
  rw [decide_eq_true enough] at run1
  obtain ⟨failed1, inside⟩ := failed1 enough
  have low := @low_bits is1 7 inside 0x7F rfl
  refine ⟨is1, _, ?_, view1 ▸ low, view1, sound1, failed1, inside⟩
  rw [peekSevenBits, bind_of_ok run1, if_pos rfl, bind_of_ok (get_run is1), pure_run]

theorem peekSevenBits_fails {is : InputStream} (sound : is.Sound) (short : ¬ 7 ≤ is.view.length) :
    ∃ is', peekSevenBits is = .ok 0 is' ∧ is'.failed = true := by
  obtain ⟨is1, run1, _, _, _, failed1⟩ := refill_run (show 7 ≤ 8 by decide) sound
  rw [decide_eq_false short] at run1
  refine ⟨is1, ?_, failed1 short⟩
  rw [peekSevenBits, bind_of_ok run1]
  rfl

theorem readByte_run {is : InputStream} (sound : is.Sound) (enough : 8 ≤ is.view.length) :
    ∃ is' byte, readByte is = .ok byte is' ∧ byte.toNat = value (is.view.take 8) ∧ is'.view = is.view.drop 8 ∧
      is'.Sound ∧ is'.failed = is.failed := by
  obtain ⟨is1, run1, view1, sound1, failed1, _⟩ := refill_run (Nat.le_refl 8) sound
  rw [decide_eq_true enough] at run1
  obtain ⟨failed1, inside⟩ := failed1 enough
  obtain ⟨is2, run2, view2, sound2, failed2⟩ := skip_run sound1 inside (by decide)
  have low := @low_bits is1 8 inside 0xFF rfl
  refine ⟨is2, _, ?_, view1 ▸ low, view1 ▸ view2, sound2, failed2.trans failed1⟩
  rw [readByte, bind_of_ok run1, if_pos rfl, bind_of_ok (get_run is1), bind_of_ok run2, pure_run]

theorem readByte_fails {is : InputStream} (sound : is.Sound) (short : ¬ 8 ≤ is.view.length) :
    ∃ is', readByte is = .ok 0 is' ∧ is'.view = is.view ∧ is'.Sound ∧ is'.failed = true := by
  obtain ⟨is1, run1, view1, sound1, _, failed1⟩ := refill_run (Nat.le_refl 8) sound
  rw [decide_eq_false short] at run1
  refine ⟨is1, ?_, view1, sound1, failed1 short⟩
  rw [readByte, bind_of_ok run1]
  rfl

end Huffman

end LibMpq
