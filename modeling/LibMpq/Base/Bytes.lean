import Mathlib.Data.UInt
import Mathlib.Tactic.Common
import Mathlib.Tactic.Ring

set_option autoImplicit false

abbrev Bytes := List UInt8

namespace Bytes

def zeros (count : Nat) : Bytes := List.replicate count 0

@[simp] theorem zeros_length (count : Nat) : (zeros count).length = count :=
  List.length_replicate

def overlay (new old : Bytes) : Bytes := new ++ old.drop new.length

@[simp] theorem overlay_length (new old : Bytes) :
    (overlay new old).length = max new.length old.length := by
  simp only [overlay, List.length_append, List.length_drop]
  omega

@[simp] theorem take_overlay (new old : Bytes) : (overlay new old).take new.length = new := by
  simp [overlay]

def ofNat : Nat → Nat → Bytes
  | 0, _ => []
  | width + 1, n => UInt8.ofNat n :: ofNat width (n / 256)

def toNat : Bytes → Nat
  | [] => 0
  | b :: rest => b.toNat + 256 * toNat rest

@[simp] theorem ofNat_length (width n : Nat) : (ofNat width n).length = width := by
  induction width generalizing n with
  | zero => rfl
  | succ width ih => simp [ofNat, ih]

theorem toNat_ofNat (width n : Nat) : toNat (ofNat width n) = n % 256 ^ width := by
  induction width generalizing n with
  | zero => simp [ofNat, toNat, Nat.mod_one]
  | succ width ih =>
    rw [ofNat, toNat, ih, pow_succ, Nat.mul_comm (256 ^ width) 256, Nat.mod_mul]
    simp

theorem toNat_ofNat_of_lt {width n : Nat} (bound : n < 256 ^ width) :
    toNat (ofNat width n) = n := by
  rw [toNat_ofNat, Nat.mod_eq_of_lt bound]

theorem ofNat_toNat (b : Bytes) : ofNat b.length (toNat b) = b := by
  induction b with
  | nil => rfl
  | cons x rest ih =>
    have low : (x.toNat + 256 * toNat rest) / 256 = toNat rest := by
      have := x.toNat_lt
      omega
    have head : UInt8.ofNat (x.toNat + 256 * toNat rest) = x := by
      apply UInt8.toNat_inj.mp
      have := x.toNat_lt
      simp only [UInt8.toNat_ofNat']
      omega
    simp [ofNat, toNat, low, head, ih]

theorem toNat_lt (b : Bytes) : toNat b < 256 ^ b.length := by
  induction b with
  | nil => simp [toNat]
  | cons x rest ih =>
    have := x.toNat_lt
    simp only [toNat, List.length_cons, pow_succ]
    omega

def piece (size : Nat) (x : Bytes) (i : Nat) : Bytes := (x.drop (i * size)).take size

@[simp] theorem piece_length (size : Nat) (x : Bytes) (i : Nat) :
    (piece size x i).length = min size (x.length - i * size) := by
  simp [piece]

theorem piece_append {size i : Nat} {x : Bytes} (whole : (i + 1) * size ≤ x.length) (rest : Bytes) :
    piece size (x ++ rest) i = piece size x i := by
  rw [Nat.add_mul, one_mul] at whole
  rw [piece, piece, List.drop_append_of_le_length (by omega), List.take_append_of_le_length]
  rw [List.length_drop]
  omega

theorem take_append_piece (size : Nat) (x : Bytes) (i : Nat) :
    x.take (i * size) ++ piece size x i = x.take ((i + 1) * size) := by
  rw [piece, Nat.add_mul, one_mul, List.take_add]

theorem flatMap_piece (size : Nat) (x : Bytes) (count : Nat) :
    (List.range count).flatMap (piece size x) = x.take (count * size) := by
  induction count with
  | zero => simp
  | succ count ih => rw [List.range_succ, List.flatMap_append, ih]; simp [take_append_piece]

end Bytes
