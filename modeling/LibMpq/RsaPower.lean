import Mathlib.Data.Nat.Prime.Basic
import LibMpq.Base.BitSerial
import LibMpq.Base.Montgomery
import LibMpq.Rsa

set_option autoImplicit false

namespace LibMpq

namespace Rsa

open BitSerial Montgomery

theorem beNat_lt (b : Bytes) : beNat b < 256 ^ b.length := by
  have below := Bytes.toNat_lt b.reverse
  rw [List.length_reverse] at below
  exact below

theorem beNat_mod (b : Bytes) : beNat b % 256 = (b.getD (b.length - 1) 0).toNat := by
  obtain rfl | ⟨front, last, rfl⟩ := List.eq_nil_or_concat' b
  · rfl
  · have small := last.toNat_lt
    rw [beNat, List.reverse_append, List.reverse_singleton, List.singleton_append, Bytes.toNat,
      Nat.add_mul_mod_self_left, Nat.mod_eq_of_lt (by omega)]
    simp

theorem beNat_cons (x : UInt8) (rest : Bytes) : beNat (x :: rest) = x.toNat * 256 ^ rest.length + beNat rest := by
  have last : ∀ low : Bytes, Bytes.toNat (low ++ [x]) = x.toNat * 256 ^ low.length + Bytes.toNat low := by
    intro low
    induction low with
    | nil => simp [Bytes.toNat]
    | cons d low ih =>
      rw [List.cons_append, Bytes.toNat, ih, Bytes.toNat, List.length_cons, pow_succ, Nat.mul_add, Nat.mul_left_comm,
        Nat.mul_comm 256, Nat.add_left_comm]
  rw [beNat, List.reverse_cons, last, List.length_reverse, beNat]

-- A number whose first byte is below 128 is below a number whose first byte is not.
theorem beNat_lt_of_head {first second : Bytes} (same : first.length = second.length) (some_ : second ≠ [])
    (low : first.getD 0 0 < 0x80) (high : 0x80 ≤ second.getD 0 0) : beNat first < beNat second := by
  cases second with
  | nil => exact absurd rfl some_
  | cons y more =>
    cases first with
    | nil => cases same
    | cons x rest =>
      have digit : x.toNat + 1 ≤ y.toNat := by
        have small : x.toNat < 128 := UInt8.lt_iff_toNat_lt.mp low
        have large : 128 ≤ y.toNat := UInt8.le_iff_toNat_le.mp high
        omega
      have same : rest.length = more.length := Nat.succ_inj.mp same
      rw [beNat_cons, beNat_cons, ← same]
      calc x.toNat * 256 ^ rest.length + beNat rest < x.toNat * 256 ^ rest.length + 256 ^ rest.length :=
            Nat.add_lt_add_left (beNat_lt rest) _
        _ = (x.toNat + 1) * 256 ^ rest.length := by rw [Nat.add_mul, Nat.one_mul]
        _ ≤ y.toNat * 256 ^ rest.length := Nat.mul_le_mul_right _ digit
        _ ≤ y.toNat * 256 ^ rest.length + beNat more := Nat.le_add_right _ _

structure Valid (n e size : Nat) : Prop where
  fits : n ≤ 256 ^ size
  odd : n % 2 = 1
  large : 3 ≤ e
  below : e < n

abbrev modulus (key : Bytes) (size : Nat) : Nat := beNat (key.take size)

abbrev exponent (key : Bytes) (size : Nat) : Nat := beNat (key.drop size)

theorem valid_of_keyValidate {key : Bytes} {size : Nat} (valid : keyValidate key size = true) :
    Valid (modulus key size) (exponent key size) size := by
  obtain ⟨length, -, odd, -, large, less⟩ := of_decide_eq_true valid
  have part : (key.take size).length = size := by
    rw [List.length_take]
    omega
  have less := of_decide_eq_true less
  have bound := beNat_lt (key.take size)
  rw [part] at bound
  refine ⟨bound.le, ?_, large, less⟩
  have positive : 0 < size := by
    rcases Nat.eq_zero_or_pos size with rfl | positive
    · rw [List.take_zero] at less
      exact absurd less (Nat.not_lt_zero _)
    · exact positive
  have low := beNat_mod (key.take size)
  rw [part, List.getD_eq_getElem?_getD, List.getElem?_take_of_lt (by omega), ← List.getD_eq_getElem?_getD] at low
  have word : (key.getD (size - 1) 0).toNat % 2 = 1 := congrArg UInt8.toNat odd
  show beNat (key.take size) % 2 = 1
  omega

theorem addMod_eq {n a b size : Nat} (fits : n ≤ 256 ^ size) (first : a < n) (second : b < n) :
    addMod n a b size = (a + b) % n := by
  simp only [addMod]
  split
  next more => rw [Nat.mod_eq_of_lt (by omega), Nat.mod_eq_sub_mod more, Nat.mod_eq_of_lt (by omega)]
  next less => rw [Nat.mod_eq_of_lt (by omega)]

theorem multiply_eq {n a b size : Nat} (fits : n ≤ 256 ^ size) (first : a < n) (second : b < 256 ^ size) :
    multiply n a b size = a * b % n := by
  have adds : ∀ {x y u v}, x = a * u % n → y = a * v % n → addMod n x y size = a * (u + v) % n := by
    rintro x y u v rfl rfl
    rw [addMod_eq fits (Nat.mod_lt _ (by omega)) (Nat.mod_lt _ (by omega)), ← Nat.add_mod, Nat.mul_add]
  have bits : b < 2 ^ (size * 8) := by
    rwa [Nat.mul_comm size, pow_mul]
  have whole := @doubleAdd_keeps _ (fun r v => r = a * v % n) _ _ adds
    (by rw [Nat.mul_one, Nat.mod_eq_of_lt first]) (bitsOf b (size * 8)) 0 0 (by simp)
  rw [bitsOf, append_testBits, Nat.zero_mul, Nat.zero_add, Nat.mod_eq_of_lt bits] at whole
  exact whole

theorem multiply_pow {n base size : Nat} (fits : n ≤ 256 ^ size) (positive : 0 < n) {x y u v : Nat}
    (first : x = base ^ u % n) (second : y = base ^ v % n) : multiply n x y size = base ^ (u + v) % n := by
  subst first second
  have reduced : ∀ k, base ^ k % n < n := fun k => Nat.mod_lt _ positive
  rw [multiply_eq fits (reduced u) ((reduced v).trans_le fits), ← Nat.mul_mod, pow_add]

theorem append_bitsOf {value width : Nat} (fits : value < 2 ^ width) : append 0 (bitsOf value width) = value := by
  rw [bitsOf, append_testBits, Nat.zero_mul, Nat.zero_add, Nat.mod_eq_of_lt fits]

theorem Valid.bits {n e size : Nat} (valid : Valid n e size) : e < 2 ^ (size * 8) := by
  rw [Nat.mul_comm size, pow_mul]
  exact valid.below.trans_le valid.fits

theorem power_multiply {n e size base : Nat} (valid : Valid n e size) (less : base < n) :
    power (fun a b => multiply n a b size) 1 base e (size * 8) = base ^ e % n := by
  have := valid.below
  have := valid.large
  have whole := @doubleAdd_keeps _ (fun r v => r = base ^ v % n) _ _
    (multiply_pow valid.fits (by omega)) (by rw [pow_one, Nat.mod_eq_of_lt less])
    (bitsOf e (size * 8)) 1 0 (by rw [pow_zero, Nat.mod_eq_of_lt (by omega)])
  rw [append_bitsOf valid.bits] at whole
  exact whole

theorem powerFromFirst_multiply {n e size base : Nat} (valid : Valid n e size) (less : base < n) :
    powerFromFirst (fun a b => multiply n a b size) base e (size * 8) = some (base ^ e % n) := by
  have := valid.below
  have := valid.large
  have whole := @doubleAddFromFirst_keeps _ (fun r v => r = base ^ v % n) _ 1 _
    (multiply_pow valid.fits (by omega)) (by rw [pow_zero, Nat.mod_eq_of_lt (by omega)])
    (by rw [pow_one, Nat.mod_eq_of_lt less]) (bitsOf e (size * 8))
  rw [append_bitsOf valid.bits] at whole
  have same : powerFromFirst (fun a b => multiply n a b size) base e (size * 8) =
      (bitsOf e (size * 8)).foldl (doubleAddFromFirst (fun a b => multiply n a b size) 1 base) none := by
    unfold powerFromFirst
    congr 1
    funext result bit
    cases result <;> rfl
  rw [same]
  -- The exponent is not zero, so one of its bits started the loop.
  cases run : (bitsOf e (size * 8)).foldl (doubleAddFromFirst (fun a b => multiply n a b size) 1 base) none with
  | none =>
    rw [run] at whole
    exact absurd whole (by show e ≠ 0; omega)
  | some value =>
    rw [run] at whole
    exact congrArg some whole

open scoped UInt32.CommRing in
theorem mul_negInverse {word : UInt32} (odd : word.toNat % 2 = 1) : word * negInverse word = 0 - 1 := by
  -- What one is short of a product, an even word, is squared five times.
  have half : ∃ h : UInt32, 1 - word * 1 = 2 * h := by
    refine ⟨UInt32.ofNat ((2 ^ 32 + 1 - word.toNat) / 2), UInt32.toNat_inj.mp ?_⟩
    have := word.toNat_lt
    simp only [UInt32.toNat_sub, UInt32.toNat_mul, UInt32.toNat_ofNat', UInt32.toNat_one, UInt32.reduceToNat]
    omega
  have same : (fun inverse : UInt32 => inverse * (2 - word * inverse)) = newton word := rfl
  have inverse : word * (newton word)^[5] 1 = 1 := by
    obtain ⟨h, even⟩ := half
    have error := newton_error word 1 5
    have zero : (2 : UInt32) ^ 2 ^ 5 = 0 := by decide
    rw [even, mul_pow] at error
    rw [zero, zero_mul] at error
    exact (sub_eq_zero.mp error).symm
  rw [negInverse, List.foldl_const, List.length_range, same, zero_sub, mul_neg, inverse, zero_sub]

theorem negInverse_spec {n : Nat} (odd : n % 2 = 1) :
    2 ^ 32 ∣ n * (negInverse (UInt32.ofNat n)).toNat + 1 := by
  have low : (UInt32.ofNat n).toNat = n % 2 ^ 32 := UInt32.toNat_ofNat'
  have product := congrArg UInt32.toNat (@mul_negInverse (UInt32.ofNat n) (by omega))
  have top : (0 - 1 : UInt32).toNat = 2 ^ 32 - 1 := by decide
  rw [UInt32.toNat_mul, low, Nat.mod_mul_mod, top] at product
  omega
theorem foldl_range_rounds (base n inverse a b words : Nat) :
    (List.range words).foldl (fun t i => reduce base n inverse (t + a * (b / base ^ i % base))) 0 =
      rounds base n inverse a b words := by
  induction words with
  | zero => rfl
  | succ words ih => rw [List.range_succ, List.foldl_append, ih]; rfl

theorem montgomeryMultiply_eq (n : Nat) (inverse : UInt32) (words a b : Nat) :
    montgomeryMultiply n inverse words a b =
      finish n (rounds (2 ^ 32) n inverse.toNat a b words) := by
  rw [← foldl_range_rounds]
  simp only [← pow_mul]
  rfl

abbrev radix (words : Nat) : Nat := (2 ^ 32) ^ words

theorem montgomeryRSquared_eq {n words : Nat} (fits : n ≤ 256 ^ (words * 4)) (large : 1 < n) :
    montgomeryRSquared n words = radix words * radix words % n := by
  have doubled : ∀ k, (fun value => addMod n value value (words * 4))^[k] 1 = 2 ^ k % n := by
    intro k
    induction k with
    | zero => rw [Function.iterate_zero_apply, pow_zero, Nat.mod_eq_of_lt large]
    | succ k ih =>
      have less := Nat.mod_lt (2 ^ k) (show 0 < n by omega)
      rw [Function.iterate_succ_apply', ih, addMod_eq fits less less, ← Nat.add_mod, pow_succ, Nat.mul_two]
  rw [montgomeryRSquared, List.foldl_const, List.length_range, doubled, radix, ← pow_mul, ← pow_add]
  congr 2
  omega

section form

variable {n words : Nat} {inverse : UInt32}

structure Form (n words x v : Nat) : Prop where
  less : x < n
  form : x ≡ v * radix words [MOD n]

theorem coprime_radix (odd : n % 2 = 1) : Nat.Coprime n (radix words) := by
  rw [radix, ← pow_mul]
  exact (Nat.coprime_two_right.mpr (Nat.odd_iff.mpr odd)).pow_right _

theorem montgomeryMultiply_less (positive : 0 < n) {a : Nat} (reduced : a ≤ n) (b : Nat) :
    montgomeryMultiply n inverse words a b < n := by
  rw [montgomeryMultiply_eq]
  exact finish_lt (rounds_lt (by decide) positive reduced b words)

theorem montgomeryMultiply_modEq (odd : n % 2 = 1) (negated : 2 ^ 32 ∣ n * inverse.toNat + 1) {a b p : Nat}
    (fits : b < radix words) (product : a * b ≡ p * radix words [MOD n]) :
    montgomeryMultiply n inverse words a b ≡ p [MOD n] := by
  have short := (product_modEq (a := a) negated fits).trans product
  rw [← montgomeryMultiply_eq, Nat.mul_comm] at short
  exact Nat.ModEq.cancel_right_of_coprime (coprime_radix odd) short

theorem Form.mul (odd : n % 2 = 1) (negated : 2 ^ 32 ∣ n * inverse.toNat + 1) (fits : n ≤ radix words)
    {x y u v : Nat} (first : Form n words x u) (second : Form n words y v) :
    Form n words (montgomeryMultiply n inverse words x y) (u * v) := by
  have positive : 0 < n := Nat.zero_lt_of_lt first.less
  refine ⟨montgomeryMultiply_less positive first.less.le y, ?_⟩
  refine montgomeryMultiply_modEq odd negated (second.less.trans_le fits) ?_
  have both := first.form.mul second.form
  rw [show u * v * radix words * radix words = u * radix words * (v * radix words) by ring]
  exact both

theorem Form.enter (odd : n % 2 = 1) (negated : 2 ^ 32 ∣ n * inverse.toNat + 1) (fits : n ≤ radix words)
    {x : Nat} (less : x < n) :
    Form n words (montgomeryMultiply n inverse words x (radix words * radix words % n)) x := by
  have positive : 0 < n := Nat.zero_lt_of_lt less
  refine ⟨montgomeryMultiply_less positive less.le _, ?_⟩
  refine montgomeryMultiply_modEq odd negated ((Nat.mod_lt _ positive).trans_le fits) ?_
  rw [Nat.mul_assoc]
  exact (Nat.mod_modEq _ _).mul_left x

theorem Form.leave (odd : n % 2 = 1) (negated : 2 ^ 32 ∣ n * inverse.toNat + 1) (large : 1 < radix words)
    {x v : Nat} (held : Form n words x v) : montgomeryMultiply n inverse words x 1 = v % n := by
  have positive : 0 < n := Nat.zero_lt_of_lt held.less
  have same : montgomeryMultiply n inverse words x 1 ≡ v [MOD n] :=
    montgomeryMultiply_modEq odd negated large (by rw [Nat.mul_one]; exact held.form)
  rw [← Nat.mod_eq_of_lt (montgomeryMultiply_less positive held.less.le 1)]
  exact same

end form

theorem power_montgomery {n e words base : Nat} (valid : Valid n e (words * 4)) (less : base < n) :
    let mul := montgomeryMultiply n (negInverse (UInt32.ofNat n)) words
    mul (power mul (mul 1 (montgomeryRSquared n words)) (mul base (montgomeryRSquared n words)) e (words * 4 * 8)) 1 =
      base ^ e % n := by
  have large : 1 < n := by
    have := valid.large
    have := valid.below
    omega
  have negated := negInverse_spec valid.odd
  have fits : n ≤ radix words := by
    have bytes : radix words = 256 ^ (words * 4) := by
      rw [radix, Nat.mul_comm words, pow_mul, show (256 : Nat) ^ 4 = 2 ^ 32 from rfl]
    rw [bytes]
    exact valid.fits
  simp only
  rw [montgomeryRSquared_eq valid.fits large]
  have entered := Form.enter valid.odd negated fits less
  have unit := Form.enter valid.odd negated fits large
  have powers := @doubleAdd_keeps _ (fun x v => Form n words x (base ^ v))
    (montgomeryMultiply n (negInverse (UInt32.ofNat n)) words) _
    (fun first second => by rw [pow_add]; exact Form.mul valid.odd negated fits first second)
    (by rw [pow_one]; exact entered) (bitsOf e (words * 4 * 8)) _ 0
    (by rw [pow_zero]; exact unit)
  rw [append_bitsOf valid.bits] at powers
  exact Form.leave valid.odd negated (large.trans_le fits) powers

theorem below_of_lt {first second : Bytes} (less : beNat first < beNat second) : below first second = true :=
  decide_eq_true less

-- The modulus of a key has its top bit set, an encoded digest has not.
theorem less_of_top {key input : Bytes} {size : Nat} (valid : keyValidate key size = true)
    (length : input.length = size) (top : input.getD 0 0 < 0x80) : beNat input < modulus key size := by
  obtain ⟨whole, high, -⟩ := of_decide_eq_true valid
  cases size with
  | zero =>
    cases List.length_eq_zero_iff.mp whole
    exact absurd high (by decide)
  | succ size =>
    cases key with
    | nil => cases whole
    | cons y more =>
      have long : (input.length = ((y :: more).take (size + 1)).length) := by
        rw [List.length_take]
        omega
      exact beNat_lt_of_head long (List.cons_ne_nil _ _) top high

theorem weakOperation_pow {key input : Bytes} (valid : keyValidate key rsaSize = true)
    (less : beNat input < modulus key rsaSize) :
    weakOperation key input =
      .ok (ofNatBe rsaSize (beNat input ^ exponent key rsaSize % modulus key rsaSize)) := by
  rw [weakOperation, if_pos (below_of_lt less)]
  simp only
  rw [power_multiply (valid_of_keyValidate valid) less]

theorem strongPublicOperation_pow {key input : Bytes} (valid : keyValidate key rsaStrongSize = true)
    (less : beNat input < modulus key rsaStrongSize) :
    strongPublicOperation key input =
      .ok (ofNatBe rsaStrongSize (beNat input ^ exponent key rsaStrongSize % modulus key rsaStrongSize)) := by
  rw [strongPublicOperation, if_pos ⟨valid, below_of_lt less⟩]
  simp only
  rw [powerFromFirst_multiply (valid_of_keyValidate valid) less]

theorem strongPrivateOperation_pow {key input : Bytes} (valid : keyValidate key rsaStrongSize = true)
    (less : beNat input < modulus key rsaStrongSize) :
    strongPrivateOperation key input =
      .ok (ofNatBe rsaStrongSize (beNat input ^ exponent key rsaStrongSize % modulus key rsaStrongSize)) := by
  have whole := @power_montgomery _ _ (rsaStrongSize / 4) _ (valid_of_keyValidate valid) less
  rw [strongPrivateOperation, if_pos ⟨valid, below_of_lt less⟩]
  exact congrArg (fun power => Except.ok (ofNatBe rsaStrongSize power)) whole

end Rsa

end LibMpq
