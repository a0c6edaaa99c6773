import LibMpq.Base.Bytes

set_option autoImplicit false

namespace Keystream

def mask (pad : Nat → UInt8) : Nat → Bytes → Bytes
  | _, [] => []
  | start, b :: rest => (b ^^^ pad start) :: mask pad (start + 1) rest

variable {pad : Nat → UInt8}

@[simp] theorem mask_length (start : Nat) (data : Bytes) : (mask pad start data).length = data.length := by
  induction data generalizing start with
  | nil => rfl
  | cons b rest ih => rw [mask, List.length_cons, List.length_cons, ih]

theorem mask_mask (start : Nat) (data : Bytes) : mask pad start (mask pad start data) = data := by
  induction data generalizing start with
  | nil => rfl
  | cons b rest ih => rw [mask, mask, ih, UInt8.xor_assoc, UInt8.xor_self, UInt8.xor_zero]

theorem mask_append (start : Nat) (first second : Bytes) :
    mask pad start (first ++ second) = mask pad start first ++ mask pad (start + first.length) second := by
  induction first generalizing start with
  | nil => rfl
  | cons b rest ih =>
    rw [List.cons_append, mask, mask, ih, List.length_cons, List.cons_append]
    congr 3
    omega

theorem mask_take (start : Nat) (data : Bytes) (count : Nat) :
    (mask pad start data).take count = mask pad start (data.take count) := by
  induction data generalizing start count with
  | nil => rw [mask, List.take_nil, mask]
  | cons b rest ih =>
    cases count with
    | zero => rfl
    | succ count => rw [mask, List.take_succ_cons, List.take_succ_cons, mask, ih]

theorem mask_drop (start : Nat) (data : Bytes) (count : Nat) :
    (mask pad start data).drop count = mask pad (start + count) (data.drop count) := by
  induction data generalizing start count with
  | nil => rw [mask, List.drop_nil, mask]
  | cons b rest ih =>
    cases count with
    | zero => rfl
    | succ count =>
      rw [mask, List.drop_succ_cons, List.drop_succ_cons, ih, Nat.add_assoc, Nat.add_comm 1]

theorem mask_eq_zipWith {start : Nat} {data key : Bytes} (length : key.length = data.length)
    (same : ∀ i, i < key.length → pad (start + i) = key.getD i 0) :
    mask pad start data = List.zipWith (· ^^^ ·) data key := by
  induction data generalizing start key with
  | nil => rw [List.length_eq_zero_iff.mp length, mask, List.zipWith_nil_left]
  | cons b rest ih =>
    cases key with
    | nil => cases length
    | cons k key =>
      have head : pad start = k := same 0 (Nat.succ_pos _)
      rw [mask, List.zipWith_cons_cons, head, ih (Nat.succ.inj length) fun i inside => ?_]
      have later := same (i + 1) (Nat.succ_lt_succ inside)
      rw [Nat.add_assoc, Nat.add_comm 1 i, later]
      rfl

theorem ofNat_xor (width x y : Nat) :
    Bytes.ofNat width (x ^^^ y) =
      List.zipWith (· ^^^ ·) (Bytes.ofNat width x) (Bytes.ofNat width y) := by
  induction width generalizing x y with
  | zero => rfl
  | succ width ih =>
    have high : (x ^^^ y) / 256 = x / 256 ^^^ y / 256 := @Nat.xor_div_two_pow x y 8
    have low : UInt8.ofNat (x ^^^ y) = UInt8.ofNat x ^^^ UInt8.ofNat y := by
      apply UInt8.toBitVec_inj.mp
      exact BitVec.ofNat_xor
    rw [Bytes.ofNat, Bytes.ofNat, Bytes.ofNat, high, low, ih, List.zipWith_cons_cons]

end Keystream
