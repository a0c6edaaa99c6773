import Mathlib.Algebra.Order.Ring.Nat
import Mathlib.Data.Nat.Bitwise
import Mathlib.Tactic.Ring

set_option autoImplicit false

namespace BitSerial

variable {α : Type}

def append (v : Nat) (bits : List Bool) : Nat := bits.foldl (fun v bit => 2 * v + bit.toNat) v

theorem append_testBits (v value width : Nat) :
    append v ((List.range width).map fun i => value.testBit (width - 1 - i)) =
      v * 2 ^ width + value % 2 ^ width := by
  induction width generalizing v with
  | zero => simp [append, Nat.mod_one]
  | succ width ih =>
    have rest : (List.range width).map (fun i => value.testBit (width + 1 - 1 - (i + 1))) =
        (List.range width).map fun i => value.testBit (width - 1 - i) := by
      refine List.map_congr_left fun i _ => ?_
      rw [show width + 1 - 1 - (i + 1) = width - 1 - i by omega]
    have next := ih (2 * v + (value.testBit width).toNat)
    rw [append] at next
    rw [List.range_succ_eq_map, List.map_cons, List.map_map, append, List.foldl_cons]
    simp only [Function.comp_def, Nat.succ_eq_add_one]
    rw [rest, show width + 1 - 1 - 0 = width by omega, next, pow_succ, Nat.mod_mul, Nat.toNat_testBit]
    ring

theorem foldl_keeps {P : α → Nat → Prop} {f : α → Bool → α}
    (step : ∀ r v bit, P r v → P (f r bit) (2 * v + bit.toNat)) (bits : List Bool) {r : α} {v : Nat}
    (start : P r v) : P (bits.foldl f r) (append v bits) := by
  induction bits generalizing r v with
  | nil => exact start
  | cons bit rest ih => exact ih (step r v bit start)

/-- Doubling, then adding where the bit is set; squaring and multiplying when `op` is a product. -/
def doubleAdd (op : α → α → α) (base result : α) (bit : Bool) : α :=
  if bit then op (op result result) base else op result result

theorem doubleAdd_keeps {P : α → Nat → Prop} {op : α → α → α} {base : α}
    (adds : ∀ {x y u v}, P x u → P y v → P (op x y) (u + v)) (one : P base 1) (bits : List Bool) {r : α} {v : Nat}
    (start : P r v) : P (bits.foldl (doubleAdd op base) r) (append v bits) := by
  refine foldl_keeps ?_ bits start
  intro r v bit holds
  have doubled : P (op r r) (2 * v) := by
    rw [Nat.two_mul]
    exact adds holds holds
  cases bit with
  | false => exact doubled
  | true => exact adds doubled one

def doubleAddFromFirst (op : α → α → α) (zero base : α) (result : Option α) (bit : Bool) : Option α :=
  match result with
  | none => if bit then some (op zero base) else none
  | some value => some (doubleAdd op base value bit)

def Started (P : α → Nat → Prop) (result : Option α) (v : Nat) : Prop :=
  match result with
  | none => v = 0
  | some value => P value v

theorem doubleAddFromFirst_keeps {P : α → Nat → Prop} {op : α → α → α} {zero base : α}
    (adds : ∀ {x y u v}, P x u → P y v → P (op x y) (u + v)) (none : P zero 0) (one : P base 1)
    (bits : List Bool) : Started P (bits.foldl (doubleAddFromFirst op zero base) .none) (append 0 bits) := by
  refine @foldl_keeps _ (Started P) _ ?_ bits _ _ rfl
  intro r v bit holds
  cases r with
  | none =>
    obtain rfl : v = 0 := holds
    cases bit with
    | false => exact rfl
    | true => exact adds none one
  | some value => exact doubleAdd_keeps adds one [bit] holds

end BitSerial
