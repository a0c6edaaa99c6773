import LibMpq.Base.Radix
import LibMpq.RsaPower

set_option autoImplicit false

namespace LibMpq

namespace Rsa

abbrev rsaMaxSize : Nat := 256

namespace Limbs

open Radix
open Bytes (zeros)

def addStep (a b : UInt8) (carry : UInt32) : UInt8 × UInt32 :=
  let value := a.toUInt32 + b.toUInt32 + carry
  (value.toUInt8, value >>> 8)

def subtractStep (sum n : UInt8) (borrow : UInt32) : UInt8 × UInt32 :=
  let value := sum.toUInt32 - n.toUInt32 - borrow
  (value.toUInt8, value >>> 31)

-- The loop that takes the bytes of the one array where the mask is set.
def select (mask : UInt32) (masked other : Bytes) : Bytes :=
  List.zipWith (fun a b => ((a.toUInt32 &&& mask) ||| (b.toUInt32 &&& ~~~mask)).toUInt8) masked other

def addMod (a b n : Bytes) : Bytes :=
  let sum := chain addStep a b 0
  let reduced := chain subtractStep sum.1 n 0
  let mask := 0 - (sum.2 ||| (reduced.2 ^^^ 1))
  select mask reduced.1 sum.1

def bitAt (b : Bytes) (index shift : Nat) : UInt32 :=
  ((b.getD index 0).toUInt32 >>> UInt32.ofNat shift) &&& 1

def multiply (a b n : Bytes) (size : Nat) : Bytes :=
  (List.range (size * 8)).reverse.foldl
    (fun result bit =>
      let mask := 0 - bitAt b (bit / 8) (bit % 8)
      let result := addMod result result n
      let sum := addMod result a n
      select mask sum result) (zeros size)

-- Whether `memcmp` is negative.
def memcmpNegative : Bytes → Bytes → Bool
  | a :: as, b :: bs => if a = b then memcmpNegative as bs else a < b
  | _, _ => false

-- `rsa_key_validate`
def keyValidate (key : Bytes) (size : Nat) : Bool :=
  let small := ((key.drop size).take (size - 1)).foldl (· ||| ·) 0
  ¬ (size = 0 ∨ size > rsaMaxSize ∨ key.length ≠ 2 * size ∨ key.getD 0 0 &&& 0x80 = 0 ∨
    key.getD (size - 1) 0 &&& 1 = 0 ∨ key.getD (2 * size - 1) 0 &&& 1 = 0) ∧
  ¬ ((small = 0 ∧ key.getD (2 * size - 1) 0 < 3) ∨ memcmpNegative (key.drop size) (key.take size) = false)

def one (size : Nat) : Bytes := 1 :: zeros (size - 1)

def power (key base n : Bytes) (size : Nat) : Bytes :=
  (List.range (size * 8)).foldl
    (fun result bit =>
      let mask := 0 - bitAt key (size + bit / 8) (7 - bit % 8)
      let result := multiply result result n size
      let product := multiply result base n size
      select mask product result) (one size)

-- No result yet while no bit has been set.
def powerFromFirst (key base n : Bytes) (size : Nat) : Option Bytes :=
  (List.range (size * 8)).foldl
    (fun result bit =>
      let set := bitAt key (size + bit / 8) (7 - bit % 8)
      match result with
      | none => if set = 0 then none else some (multiply (one size) base n size)
      | some result =>
        let result := multiply result result n size
        some (if set ≠ 0 then multiply result base n size else result)) none

-- `libmpq__rsa_weak_operation`
def weakOperation (key input : Bytes) : Except Error Bytes :=
  if memcmpNegative (input.take rsaSize) (key.take rsaSize) = false then .error .format
  else
    let n := (key.take rsaSize).reverse
    let base := (input.take rsaSize).reverse
    .ok (power key base n rsaSize).reverse

-- `libmpq__rsa_strong_public_operation`
def strongPublicOperation (key input : Bytes) : Except Error Bytes :=
  if keyValidate key rsaStrongSize = false ∨
      memcmpNegative (input.take rsaStrongSize) (key.take rsaStrongSize) = false then .error .format
  else
    let n := (key.take rsaStrongSize).reverse
    let base := (input.take rsaStrongSize).reverse
    match powerFromFirst key base n rsaStrongSize with
    | none => .error .format
    | some result => .ok result.reverse

abbrev Holds : Nat → Bytes → Nat → Prop := Radix.Holds Bytes.toNat

theorem number_toNat (b : Bytes) : Radix.number 256 (fun x : UInt8 => (x.toNat : ℤ)) b = Bytes.toNat b := by
  induction b with
  | nil => rfl
  | cons x rest ih => simp [Radix.number, Bytes.toNat, ih]

theorem addStep_exact (a b : UInt8) (carry : UInt32) (fits : carry.toNat ≤ 1) :
    (addStep a b carry).2.toNat ≤ 1 ∧
      ((addStep a b carry).1.toNat : ℤ) + 256 * (addStep a b carry).2.toNat = a.toNat + 1 * b.toNat + carry.toNat := by
  have := a.toNat_lt
  have := b.toNat_lt
  have value : (a.toUInt32 + b.toUInt32 + carry).toNat = a.toNat + b.toNat + carry.toNat := by
    simp only [UInt32.toNat_add, UInt8.toNat_toUInt32]
    omega
  simp only [addStep, UInt32.toNat_toUInt8, UInt32.toNat_shiftRight, value, UInt32.reduceToNat, Nat.reduceMod,
    Nat.shiftRight_eq_div_pow]
  omega

theorem subtractStep_exact (sum n : UInt8) (borrow : UInt32) (fits : borrow.toNat ≤ 1) :
    (subtractStep sum n borrow).2.toNat ≤ 1 ∧
      ((subtractStep sum n borrow).1.toNat : ℤ) + 256 * -(subtractStep sum n borrow).2.toNat =
        sum.toNat + -1 * n.toNat + -borrow.toNat := by
  have := sum.toNat_lt
  have := n.toNat_lt
  have value : (sum.toUInt32 - n.toUInt32 - borrow).toNat =
      (2 ^ 32 + sum.toNat - n.toNat - borrow.toNat) % 2 ^ 32 := by
    simp only [UInt32.toNat_sub, UInt8.toNat_toUInt32]
    omega
  simp only [subtractStep, UInt32.toNat_toUInt8, UInt32.toNat_shiftRight, value, UInt32.reduceToNat, Nat.reduceMod,
    Nat.shiftRight_eq_div_pow]
  omega

abbrev digit (x : UInt8) : ℤ := x.toNat

theorem add_chain {a b : Bytes} (same : b.length = a.length) :
    (chain addStep a b 0).2.toNat ≤ 1 ∧
      Bytes.toNat a + Bytes.toNat b =
        Bytes.toNat (chain addStep a b 0).1 + 256 ^ a.length * (chain addStep a b 0).2.toNat := by
  obtain ⟨fits, total⟩ := @chain_number _ _ _ _ addStep 256 1 (fun carry => carry.toNat ≤ 1) digit digit digit
    (fun carry => carry.toNat) addStep_exact a b same 0 (by decide)
  simp only [number_toNat, UInt32.toNat_zero, Nat.cast_zero] at total
  refine ⟨fits, ?_⟩
  zify
  linarith

theorem pick_word {bit : UInt32} (small : bit.toNat ≤ 1) (a b : UInt32) :
    (a &&& (0 - bit)) ||| (b &&& ~~~(0 - bit)) = if bit.toNat = 1 then a else b := by
  rcases Nat.le_one_iff_eq_zero_or_eq_one.mp small with zero | one
  · obtain rfl : bit = 0 := UInt32.toNat_inj.mp zero
    simp
  · obtain rfl : bit = 1 := UInt32.toNat_inj.mp one
    have ones : (0 - 1 : UInt32) = -1 := by decide
    simp [ones]

theorem pick_byte {bit : UInt32} (small : bit.toNat ≤ 1) (a b : UInt8) :
    ((a.toUInt32 &&& (0 - bit)) ||| (b.toUInt32 &&& ~~~(0 - bit))).toUInt8 = if bit.toNat = 1 then a else b := by
  rw [pick_word small]
  split <;> simp

theorem flag_bit {carry borrow : UInt32} (carryFits : carry.toNat ≤ 1) (borrowFits : borrow.toNat ≤ 1) :
    (carry ||| (borrow ^^^ 1)).toNat ≤ 1 ∧
      ((carry ||| (borrow ^^^ 1)).toNat = 1 ↔ carry.toNat ≠ 0 ∨ borrow.toNat = 0) := by
  have bits : ∀ word : UInt32, word.toNat ≤ 1 → word = 0 ∨ word = 1 := by
    intro word small
    rcases Nat.le_one_iff_eq_zero_or_eq_one.mp small with zero | one
    · exact .inl (UInt32.toNat_inj.mp zero)
    · exact .inr (UInt32.toNat_inj.mp one)
  rcases bits carry carryFits with rfl | rfl <;> rcases bits borrow borrowFits with rfl | rfl <;> decide

theorem Holds.addMod {size u v m : Nat} {a b n : Bytes} (first : Holds size a u) (second : Holds size b v)
    (third : Holds size n m) : Holds size (addMod a b n) (Rsa.addMod m u v size) := by
  have sumSame := second.length.trans first.length.symm
  have sumLength := @chain_length _ _ _ _ addStep a b sumSame 0
  obtain ⟨carryFits, sums⟩ := add_chain sumSame
  rw [first.length] at sums sumLength
  have same := third.length.trans sumLength.symm
  have length := @chain_length _ _ _ _ subtractStep _ n same 0
  obtain ⟨borrowFits, differences⟩ := @chain_difference _ _ subtractStep 256 UInt8.toNat UInt32.toNat _ number_toNat
    subtractStep_exact _ _ same 0 rfl
  rw [sumLength] at differences length
  unfold Limbs.addMod
  simp only
  generalize chain addStep a b 0 = sum at *
  generalize chain subtractStep sum.1 n 0 = reduced at *
  have bound := Bytes.toNat_lt reduced.1
  rw [length] at bound
  obtain ⟨small, chosen⟩ := flag_bit carryFits borrowFits
  have difference : Holds size reduced.1 (Bytes.toNat reduced.1) := ⟨length, rfl⟩
  have picked := difference.select (pick_byte small) ⟨sumLength, rfl⟩
  have once := subtract_once sums differences borrowFits bound
  rw [first.value, second.value, third.value] at once
  rw [Rsa.addMod, ← once, ← if_congr chosen rfl rfl]
  exact picked

theorem getD_toNat (b : Bytes) (index : Nat) : (b.getD index 0).toNat = Bytes.toNat b / 2 ^ (8 * index) % 2 ^ 8 := by
  induction b generalizing index with
  | nil => simp [Bytes.toNat]
  | cons x rest ih =>
    have := x.toNat_lt
    cases index with
    | zero =>
      simp only [List.getD_cons_zero, Bytes.toNat, Nat.mul_zero, pow_zero, Nat.div_one]
      omega
    | succ index =>
      have high : (x.toNat + 256 * Bytes.toNat rest) / 2 ^ 8 = Bytes.toNat rest := by omega
      rw [List.getD_cons_succ, ih, Bytes.toNat, Nat.mul_succ, Nat.add_comm (8 * index), pow_add,
        ← Nat.div_div_eq_div_mul, high]

theorem bitAt_toNat (b : Bytes) (index : Nat) {shift : Nat} (small : shift < 8) :
    (bitAt b index shift).toNat = ((Bytes.toNat b).testBit (8 * index + shift)).toNat := by
  have value : (bitAt b index shift).toNat = (b.getD index 0).toNat / 2 ^ shift % 2 := by
    have kept : shift % 2 ^ 32 % 32 = shift := by omega
    rw [bitAt, UInt32.toNat_and, UInt32.toNat_shiftRight, UInt8.toNat_toUInt32, UInt32.toNat_ofNat', kept,
      UInt32.toNat_one, Nat.and_one_is_mod, Nat.shiftRight_eq_div_pow]
  rw [value, ← Nat.toNat_testBit, getD_toNat, Nat.testBit_mod_two_pow, Nat.testBit_div_two_pow, decide_eq_true small,
    Bool.true_and, Nat.add_comm]

theorem reverse_range (count : Nat) : (List.range count).reverse = (List.range count).map fun i => count - 1 - i := by
  rw [List.range_eq_range', List.reverse_range', ← List.range_eq_range']
  simp

theorem bitAt_small (b : Bytes) (index shift : Nat) : (bitAt b index shift).toNat ≤ 1 := by
  rw [bitAt, UInt32.toNat_and, UInt32.toNat_one, Nat.and_one_is_mod]
  omega

theorem Holds.zeros (size : Nat) : Holds size (zeros size) 0 := by
  refine ⟨Bytes.zeros_length size, ?_⟩
  induction size with
  | zero => rfl
  | succ size ih => rw [Bytes.zeros, List.replicate_succ, Bytes.toNat, ← Bytes.zeros, ih]; rfl

theorem Holds.multiply {size u v m : Nat} {a b n : Bytes} (first : Holds size a u) (second : Holds size b v)
    (third : Holds size n m) : Holds size (multiply a b n size) (Rsa.multiply m u v size) := by
  unfold Limbs.multiply Rsa.multiply
  rw [reverse_range, bitsOf, List.foldl_map, List.foldl_map]
  refine List.foldl_rel (Holds.zeros size) fun i inside x r holds => ?_
  have doubled := holds.addMod holds third
  have picked := (doubled.addMod first third).select
    (pick_byte (bitAt_small b ((size * 8 - 1 - i) / 8) ((size * 8 - 1 - i) % 8))) doubled
  have bit := bitAt_toNat b ((size * 8 - 1 - i) / 8) (Nat.mod_lt (size * 8 - 1 - i) (show 0 < 8 by decide))
  rw [Nat.div_add_mod, second.value] at bit
  rw [bit, if_congr Bool.toNat_eq_one rfl rfl] at picked
  exact picked

theorem toNat_append (a b : Bytes) : Bytes.toNat (a ++ b) = Bytes.toNat a + 256 ^ a.length * Bytes.toNat b := by
  have split := Radix.number_append 256 digit a b
  rw [number_toNat, number_toNat, number_toNat] at split
  exact_mod_cast split

theorem beNat_cons (x : UInt8) (rest : Bytes) : beNat (x :: rest) = x.toNat * 256 ^ rest.length + beNat rest := by
  rw [beNat, List.reverse_cons, toNat_append, List.length_reverse, ← beNat, Bytes.toNat, Bytes.toNat]
  ring

theorem memcmpNegative_eq {a b : Bytes} (same : a.length = b.length) : memcmpNegative a b = below a b := by
  induction a generalizing b with
  | nil =>
    obtain rfl := List.eq_nil_of_length_eq_zero same.symm
    rfl
  | cons x xs ih =>
    cases b with
    | nil => cases same
    | cons y ys =>
      have rest : xs.length = ys.length := by simpa using same
      have first := beNat_lt xs
      have second := beNat_lt ys
      rw [memcmpNegative, below, beNat_cons, beNat_cons, rest]
      rw [rest] at first
      split
      next equal =>
        rw [ih rest, below, equal, Bool.eq_iff_iff, decide_eq_true_iff, decide_eq_true_iff]
        omega
      next other =>
        rw [Bool.eq_iff_iff, decide_eq_true_iff, decide_eq_true_iff, UInt8.lt_iff_toNat_lt]
        have apart : x.toNat ≠ y.toNat := fun equal => other (UInt8.toNat_inj.mp equal)
        constructor
        · intro less
          have scaled := Nat.mul_le_mul_right (256 ^ ys.length) (Nat.succ_le_of_lt less)
          rw [Nat.succ_mul] at scaled
          omega
        · intro less
          by_contra more
          have scaled := Nat.mul_le_mul_right (256 ^ ys.length) (show y.toNat + 1 ≤ x.toNat by omega)
          rw [Nat.succ_mul] at scaled
          omega

theorem foldl_or_zero (b : Bytes) (start : UInt8) :
    b.foldl (· ||| ·) start = 0 ↔ start = 0 ∧ ∀ x ∈ b, x = 0 := by
  induction b generalizing start with
  | nil => simp
  | cons x rest ih =>
    have zero : start ||| x = 0 ↔ start = 0 ∧ x = 0 := by
      simp only [← UInt8.toNat_inj, UInt8.toNat_or, UInt8.toNat_zero, Nat.or_eq_zero_iff]
    rw [List.foldl_cons, ih, zero, List.forall_mem_cons, and_assoc]

theorem toNat_eq_zero (b : Bytes) : Bytes.toNat b = 0 ↔ ∀ x ∈ b, x = 0 := by
  induction b with
  | nil => simp [Bytes.toNat]
  | cons x rest ih =>
    rw [List.forall_mem_cons, ← ih, ← UInt8.toNat_inj, UInt8.toNat_zero, Bytes.toNat]
    omega

theorem byte_bits (x : UInt8) : (x &&& 0x80 = 0 ↔ ¬ 0x80 ≤ x) ∧ (x &&& 1 = 0 ↔ ¬ x % 2 = 1) := by
  have each : ∀ n : Fin 256, ((UInt8.ofNat n.1 &&& 0x80 = 0 ↔ ¬ 0x80 ≤ UInt8.ofNat n.1) ∧
      (UInt8.ofNat n.1 &&& 1 = 0 ↔ ¬ UInt8.ofNat n.1 % 2 = 1)) := by
    decide +kernel
  have here := each ⟨x.toNat, x.toNat_lt⟩
  rwa [UInt8.ofNat_toNat] at here

theorem three_le_beNat {b : Bytes} (some : 0 < b.length) :
    3 ≤ beNat b ↔ ¬ ((b.take (b.length - 1)).foldl (· ||| ·) 0 = 0 ∧ b.getD (b.length - 1) 0 < 3) := by
  obtain rfl | ⟨front, last, rfl⟩ := List.eq_nil_or_concat' b
  · cases some
  · have value : beNat (front ++ [last]) = last.toNat + 256 * beNat front := by
      rw [beNat, List.reverse_append, List.reverse_singleton, List.singleton_append, Bytes.toNat, ← beNat]
    have zero : beNat front = 0 ↔ ∀ x ∈ front, x = 0 := by
      rw [beNat, toNat_eq_zero]
      simp only [List.mem_reverse]
    have small : last < 3 ↔ last.toNat < 3 := UInt8.lt_iff_toNat_lt
    have length : (front ++ [last]).length - 1 = front.length := by simp
    rw [length, List.take_left, foldl_or_zero, value, ← zero]
    simp only [List.getD_eq_getElem?_getD, List.getElem?_concat_length, Option.getD_some, true_and, small]
    omega

theorem keyValidate_eq {key : Bytes} {size : Nat} (positive : 0 < size) (small : size ≤ rsaMaxSize) :
    keyValidate key size = Rsa.keyValidate key size := by
  by_cases length : key.length = 2 * size
  · have same : (key.drop size).length = (key.take size).length := by
      rw [List.length_drop, List.length_take]
      omega
    have half : (key.drop size).length = size := by
      rw [List.length_drop]
      omega
    have last : (key.drop size).getD (size - 1) 0 = key.getD (2 * size - 1) 0 := by
      rw [List.getD_eq_getElem?_getD, List.getElem?_drop, ← List.getD_eq_getElem?_getD]
      congr 1
      omega
    have large := @three_le_beNat (key.drop size) (by omega)
    rw [half, last] at large
    rw [keyValidate, Rsa.keyValidate, memcmpNegative_eq same, Bool.eq_iff_iff, decide_eq_true_iff, decide_eq_true_iff,
      large, (byte_bits _).1, (byte_bits _).2, (byte_bits _).2]
    have fits : ¬ size > rsaMaxSize := Nat.not_lt.mpr small
    simp only [positive.ne', fits, length, ne_eq, not_true_eq_false, false_or, not_or, not_not, Bool.not_eq_false,
      true_and, and_assoc]
  · rw [keyValidate, Rsa.keyValidate]
    simp [length]

theorem bitAt_key {key : Bytes} {size i : Nat} (length : key.length = 2 * size) (inside : i < size * 8) :
    (bitAt key (size + i / 8) (7 - i % 8)).toNat = ((exponent key size).testBit (size * 8 - 1 - i)).toNat := by
  have half : (key.drop size).length = size := by
    rw [List.length_drop]
    omega
  have mirrored : bitAt key (size + i / 8) (7 - i % 8) =
      bitAt (key.drop size).reverse (size - 1 - i / 8) (7 - i % 8) := by
    rw [bitAt, bitAt, List.getD_eq_getElem?_getD, List.getD_eq_getElem?_getD, List.getElem?_reverse (by omega), half,
      List.getElem?_drop]
    congr 6
    omega
  rw [mirrored, bitAt_toNat _ _ (by omega), exponent, beNat]
  congr 2
  omega

theorem Holds.one {size : Nat} (positive : 0 < size) : Holds size (one size) 1 := by
  obtain ⟨size, rfl⟩ : ∃ rest, size = rest + 1 := ⟨size - 1, by omega⟩
  rw [Limbs.one, Nat.add_sub_cancel]
  refine ⟨by simp, ?_⟩
  rw [Bytes.toNat, (Holds.zeros size).value]
  rfl

theorem holds_reverse {b : Bytes} {size : Nat} (length : b.length = size) : Holds size b.reverse (beNat b) :=
  ⟨by rw [List.length_reverse, length], rfl⟩

theorem Holds.reverse {size v : Nat} {x : Bytes} (holds : Holds size x v) : x.reverse = ofNatBe size v := by
  rw [ofNatBe, ← holds.value, ← holds.length, Bytes.ofNat_toNat]

theorem take_length {key : Bytes} {size : Nat} (enough : size ≤ key.length) : (key.take size).length = size := by
  rw [List.length_take]
  omega

section power

variable {size u m : Nat} {key base n : Bytes}

theorem Holds.power (positive : 0 < size) (length : key.length = 2 * size) (first : Holds size base u)
    (second : Holds size n m) :
    Holds size (power key base n size)
      (Rsa.power (fun a b => Rsa.multiply m a b size) 1 u (exponent key size) (size * 8)) := by
  unfold Limbs.power Rsa.power
  rw [bitsOf, List.foldl_map]
  refine List.foldl_rel (Holds.one positive) fun i inside x v holds => ?_
  have squared := holds.multiply holds second
  have picked := (squared.multiply first second).select (pick_byte (bitAt_small key (size + i / 8) (7 - i % 8))) squared
  rw [bitAt_key length (List.mem_range.mp inside), if_congr Bool.toNat_eq_one rfl rfl] at picked
  exact picked

inductive Agree (size : Nat) : Option Bytes → Option Nat → Prop
  | waiting : Agree size none none
  | started {x : Bytes} {v : Nat} : Holds size x v → Agree size (some x) (some v)

theorem agree_powerFromFirst (positive : 0 < size) (length : key.length = 2 * size) (first : Holds size base u)
    (second : Holds size n m) :
    Agree size (powerFromFirst key base n size)
      (Rsa.powerFromFirst (fun a b => Rsa.multiply m a b size) u (exponent key size) (size * 8)) := by
  unfold Limbs.powerFromFirst Rsa.powerFromFirst
  rw [bitsOf, List.foldl_map]
  refine @List.foldl_rel _ _ _ _ _ _ _ _ (Agree size) .waiting fun i inside x v agree => ?_
  have bit := bitAt_key length (List.mem_range.mp inside)
  generalize (exponent key size).testBit (size * 8 - 1 - i) = set at bit
  have clear : bitAt key (size + i / 8) (7 - i % 8) = 0 ↔ set = false := by
    rw [← UInt32.toNat_inj, bit]
    cases set <;> decide
  cases agree with
  | waiting =>
    simp only [clear]
    cases set with
    | false => exact .waiting
    | true => exact .started ((Holds.one positive).multiply first second)
  | started holds =>
    have squared := holds.multiply holds second
    simp only [clear, ne_eq]
    cases set with
    | false => exact .started squared
    | true => exact .started (squared.multiply first second)

end power

theorem weakOperation_eq {key input : Bytes} (keyLength : key.length = 2 * rsaSize)
    (inputLength : input.length = rsaSize) : weakOperation key input = Rsa.weakOperation key input := by
  have part := @take_length key rsaSize (by omega)
  have result := Holds.power (by decide) keyLength (holds_reverse inputLength) (holds_reverse part)
  rw [weakOperation, Rsa.weakOperation, List.take_of_length_le inputLength.le,
    memcmpNegative_eq (inputLength.trans part.symm)]
  cases below input (key.take rsaSize) with
  | false => rfl
  | true => exact congrArg Except.ok result.reverse

theorem strongPublicOperation_eq {key input : Bytes} (inputLength : input.length = rsaStrongSize) :
    strongPublicOperation key input = Rsa.strongPublicOperation key input := by
  rw [strongPublicOperation, Rsa.strongPublicOperation, keyValidate_eq (by decide) le_rfl,
    List.take_of_length_le inputLength.le]
  by_cases accepted : Rsa.keyValidate key rsaStrongSize = true
  case neg => simp [accepted]
  case pos =>
    have keyLength : key.length = 2 * rsaStrongSize := (of_decide_eq_true accepted).1
    have part := @take_length key rsaStrongSize (by omega)
    have result := @agree_powerFromFirst rsaStrongSize _ _ key _ _ (by decide) keyLength
      (holds_reverse inputLength) (holds_reverse part)
    rw [memcmpNegative_eq (inputLength.trans part.symm)]
    cases below input (key.take rsaStrongSize) with
    | false => simp
    | true =>
      rw [if_neg (by simp [accepted]), if_pos ⟨accepted, rfl⟩]
      simp only
      generalize powerFromFirst key input.reverse (key.take rsaStrongSize).reverse rsaStrongSize = limbs at *
      generalize Rsa.powerFromFirst (fun a b => Rsa.multiply (beNat (key.take rsaStrongSize)) a b rsaStrongSize)
        (beNat input) (beNat (key.drop rsaStrongSize)) (rsaStrongSize * 8) = number at *
      cases result with
      | waiting => rfl
      | started holds => exact congrArg Except.ok holds.reverse

end Limbs

end Rsa

end LibMpq
