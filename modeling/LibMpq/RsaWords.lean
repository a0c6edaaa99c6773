import LibMpq.RsaLimbs

set_option autoImplicit false

namespace LibMpq

namespace Rsa

namespace Words

open Radix
open Limbs (bitAt)

structure Sum where
  words : List UInt32
  high : UInt32
  top : UInt32

def multiplyAddStep (factor t word : UInt32) (carry : UInt64) : UInt32 × UInt64 :=
  let value := t.toUInt64 + word.toUInt64 * factor.toUInt64 + carry
  (value.toUInt32, value >>> 32)

-- One round of `montgomery_multiply`: a word of `right`, and the division by the base.
def round (left modulus : List UInt32) (inverse : UInt32) (t : Sum) (right : UInt32) : Sum :=
  let row := chain (multiplyAddStep right) t.words left 0
  let value := t.high.toUInt64 + row.2
  let high := value.toUInt32
  let top := (value >>> 32).toUInt32
  let factor := ((row.1.headD 0).toUInt64 * inverse.toUInt64).toUInt32
  -- The lowest word that is stored is dropped; the others move down by one.
  let reduced := chain (multiplyAddStep factor) row.1 modulus 0
  let value := high.toUInt64 + reduced.2
  let carry := top.toUInt64 + (value >>> 32)
  { words := reduced.1.tail ++ [value.toUInt32], high := carry.toUInt32, top := (carry >>> 32).toUInt32 }

def subtractStep (t n : UInt32) (borrow : UInt32) : UInt32 × UInt32 :=
  let difference := t.toUInt64 - n.toUInt64 - borrow.toUInt64
  (difference.toUInt32, (difference >>> 63).toUInt32)

def select (mask : UInt32) (masked other : List UInt32) : List UInt32 :=
  List.zipWith (fun a b => (a &&& mask) ||| (b &&& ~~~mask)) masked other

def montgomeryMultiply (left right modulus : List UInt32) (inverse : UInt32) : List UInt32 :=
  let t := right.foldl (round left modulus inverse)
    { words := List.replicate modulus.length 0, high := 0, top := 0 }
  let reduced := chain subtractStep t.words modulus 0
  let mask := 0 - ((if t.high ≠ 0 then 1 else 0) ||| (reduced.2 ^^^ 1))
  select mask reduced.1 t.words

def loadWords (bytes : Bytes) (words : Nat) : List UInt32 :=
  (List.range words).map fun i => Crypto.loadLe32 (bytes.drop (4 * i))

def montgomeryRSquared (modulus : List UInt32) : List UInt32 :=
  let bytes := modulus.flatMap Crypto.storeLe32
  let value := (List.range (modulus.length * 64)).foldl (fun value _ => Limbs.addMod value value bytes)
    (Limbs.one (modulus.length * 4))
  loadWords value modulus.length

def power (key : Bytes) (size : Nat) (base start modulus : List UInt32) (inverse : UInt32) : List UInt32 :=
  (List.range (size * 8)).foldl
    (fun result bit =>
      let mask := 0 - bitAt key (size + bit / 8) (7 - bit % 8)
      let squared := montgomeryMultiply result result modulus inverse
      let product := montgomeryMultiply squared base modulus inverse
      select mask product squared) start

def loadBeWords (bytes : Bytes) (size : Nat) : List UInt32 :=
  (List.range (size / 4)).map fun i => Sha1.loadBe32 (bytes.drop (size - 4 * (i + 1)))

def storeBeWords (words : List UInt32) : Bytes := words.reverse.flatMap Sha1.storeBe32

def one (words : Nat) : List UInt32 := 1 :: List.replicate (words - 1) 0

def privatePower (key input : Bytes) (size : Nat) : Bytes :=
  let modulus := loadBeWords key size
  let base := loadBeWords input size
  let inverse := negInverse (modulus.headD 0)
  let one := one (size / 4)
  let rSquared := montgomeryRSquared modulus
  let base := montgomeryMultiply base rSquared modulus inverse
  let result := montgomeryMultiply one rSquared modulus inverse
  let result := power key size base result modulus inverse
  storeBeWords (montgomeryMultiply result one modulus inverse)

-- `libmpq__rsa_strong_private_operation`
def strongPrivateOperation (key input : Bytes) : Except Error Bytes :=
  if Limbs.keyValidate key rsaStrongSize = false ∨
      Limbs.memcmpNegative (input.take rsaStrongSize) (key.take rsaStrongSize) = false then .error .format
  else .ok (privatePower key input rsaStrongSize)

def wordsNat : List UInt32 → Nat
  | [] => 0
  | word :: rest => word.toNat + 2 ^ 32 * wordsNat rest

abbrev digit (x : UInt32) : ℤ := x.toNat

theorem number_wordsNat (words : List UInt32) : Radix.number (2 ^ 32) digit words = wordsNat words := by
  induction words with
  | nil => rfl
  | cons word rest ih =>
    rw [Radix.number, ih, wordsNat]
    push_cast
    rfl

theorem wordsNat_lt (words : List UInt32) : wordsNat words < radix words.length := by
  have bounds := (@number_bounds _ (2 ^ 32) digit (fun d => ⟨by positivity, by exact_mod_cast d.toNat_lt⟩) words).2
  rw [number_wordsNat] at bounds
  exact_mod_cast bounds

theorem wordsNat_append (low high : List UInt32) :
    wordsNat (low ++ high) = wordsNat low + radix low.length * wordsNat high := by
  have split := number_append (2 ^ 32) digit low high
  rw [number_wordsNat, number_wordsNat, number_wordsNat] at split
  exact_mod_cast split

theorem multiplyAddStep_exact (factor t word : UInt32) (carry : UInt64) (fits : carry.toNat < 2 ^ 32) :
    (multiplyAddStep factor t word carry).2.toNat < 2 ^ 32 ∧
      digit (multiplyAddStep factor t word carry).1 + 2 ^ 32 * ((multiplyAddStep factor t word carry).2.toNat : ℤ) =
        digit t + digit factor * digit word + carry.toNat := by
  have := t.toNat_lt
  have product : word.toNat * factor.toNat ≤ (2 ^ 32 - 1) * (2 ^ 32 - 1) :=
    Nat.mul_le_mul (Nat.le_pred_of_lt word.toNat_lt) (Nat.le_pred_of_lt factor.toNat_lt)
  have value : (t.toUInt64 + word.toUInt64 * factor.toUInt64 + carry).toNat =
      t.toNat + word.toNat * factor.toNat + carry.toNat := by
    simp only [UInt64.toNat_add, UInt64.toNat_mul, UInt32.toNat_toUInt64]
    omega
  simp only [digit, multiplyAddStep, UInt64.toNat_toUInt32, UInt64.toNat_shiftRight, value, UInt64.reduceToNat,
    Nat.reduceMod, Nat.shiftRight_eq_div_pow]
  rw [mul_comm (factor.toNat : ℤ)]
  refine ⟨by omega, ?_⟩
  norm_cast
  omega

theorem subtractStep_exact (t n borrow : UInt32) (fits : borrow.toNat ≤ 1) :
    (subtractStep t n borrow).2.toNat ≤ 1 ∧
      digit (subtractStep t n borrow).1 + 2 ^ 32 * -((subtractStep t n borrow).2.toNat : ℤ) =
        digit t + -1 * digit n + -borrow.toNat := by
  have := t.toNat_lt
  have := n.toNat_lt
  have value : (t.toUInt64 - n.toUInt64 - borrow.toUInt64).toNat =
      (2 ^ 64 + t.toNat - n.toNat - borrow.toNat) % 2 ^ 64 := by
    simp only [UInt64.toNat_sub, UInt32.toNat_toUInt64]
    omega
  simp only [digit, subtractStep, UInt64.toNat_toUInt32, UInt64.toNat_shiftRight, value, UInt64.reduceToNat,
    Nat.reduceMod, Nat.shiftRight_eq_div_pow]
  omega

theorem multiplyAdd_chain (factor : UInt32) {t word : List UInt32} (same : word.length = t.length) :
    (chain (multiplyAddStep factor) t word 0).2.toNat < 2 ^ 32 ∧
      wordsNat (chain (multiplyAddStep factor) t word 0).1 +
          radix t.length * (chain (multiplyAddStep factor) t word 0).2.toNat =
        wordsNat t + factor.toNat * wordsNat word := by
  obtain ⟨fits, total⟩ := @chain_number _ _ _ _ (multiplyAddStep factor) (2 ^ 32) (digit factor)
    (fun carry => carry.toNat < 2 ^ 32) digit digit digit (fun carry => carry.toNat) (multiplyAddStep_exact factor)
    t word same 0 (by decide)
  simp only [number_wordsNat, UInt64.toNat_zero, Nat.cast_zero, add_zero] at total
  exact ⟨fits, by exact_mod_cast total⟩

abbrev Holds : Nat → List UInt32 → Nat → Prop := Radix.Holds wordsNat

structure Sum.Is (count : Nat) (t : Sum) (v : Nat) : Prop where
  length : t.words.length = count
  value : wordsNat t.words + radix count * t.high.toNat = v

theorem round_quotient {base place low lowest rest carry carry' high top factor n sum : Nat}
    (row : low + base * place * (high + base * top) = sum)
    (reduced : lowest + base * rest + base * place * carry = low + factor * n) (digit : lowest < base)
    (last : carry' = top + (high + carry) / base) :
    rest + place * ((high + carry) % base) + base * place * carry' = (sum + factor * n) / base := by
  have parts := Nat.div_add_mod (high + carry) base
  have whole : sum + factor * n =
      lowest + base * (rest + place * ((high + carry) % base) + base * place * carry') := by
    calc sum + factor * n = low + factor * n + base * place * (high + base * top) := by rw [← row]; ring
      _ = lowest + base * rest + base * place * (high + carry) + base * place * base * top := by rw [← reduced]; ring
      _ = lowest + base * rest + base * place * (base * ((high + carry) / base) + (high + carry) % base) +
          base * place * base * top := by rw [parts]
      _ = _ := by rw [last]; ring
  rw [whole, Nat.add_mul_div_left _ _ (by omega), Nat.div_eq_of_lt digit, Nat.zero_add]

theorem Sum.Is.round {count a n v : Nat} {left modulus : List UInt32} {inverse right : UInt32} {t : Sum}
    (sum : t.Is (count + 1) v) (first : Holds (count + 1) left a) (third : Holds (count + 1) modulus n)
    (small : v < 2 * n) (reduced : a ≤ n) :
    (Words.round left modulus inverse t right).Is (count + 1)
      (Montgomery.reduce (2 ^ 32) n inverse.toNat (v + a * right.toNat)) := by
  have less := @Montgomery.reduce_lt (2 ^ 32) n inverse.toNat v a right.toNat (by decide) small reduced right.toNat_lt
  have firstSame := first.length.trans sum.length.symm
  obtain ⟨rowFits, row⟩ := multiplyAdd_chain right firstSame
  have rowLength := @chain_length _ _ _ _ (multiplyAddStep right) t.words left firstSame 0
  unfold Words.round
  simp only
  generalize chain (multiplyAddStep right) t.words left 0 = stored at *
  rw [sum.length] at row rowLength
  have high : (t.high.toUInt64 + stored.2).toNat = t.high.toNat + stored.2.toNat := by
    have := t.high.toNat_lt
    rw [UInt64.toNat_add, UInt32.toNat_toUInt64]
    omega
  generalize t.high.toUInt64 + stored.2 = carried at *
  generalize factorOf : ((stored.1.headD 0).toUInt64 * inverse.toUInt64).toUInt32 = factor
  have thirdSame := third.length.trans rowLength.symm
  obtain ⟨reducedFits, reducedRow⟩ := multiplyAdd_chain factor thirdSame
  have reducedLength := @chain_length _ _ _ _ (multiplyAddStep factor) stored.1 modulus thirdSame 0
  generalize chain (multiplyAddStep factor) stored.1 modulus 0 = shifted at *
  rw [rowLength] at reducedRow reducedLength
  have place : radix (count + 1) = 2 ^ 32 * radix count := by rw [radix, pow_succ, Nat.mul_comm]
  have total : wordsNat stored.1 + radix (count + 1) * carried.toNat = v + a * right.toNat := by
    rw [high, Nat.mul_add, ← sum.value, first.value.symm, Nat.mul_comm (wordsNat left)]
    omega
  have quotient : factor.toNat = Montgomery.quotient (2 ^ 32) inverse.toNat (v + a * right.toNat) := by
    obtain ⟨l0, more, words⟩ := List.exists_cons_of_length_eq_add_one rowLength
    have low : (v + a * right.toNat) % 2 ^ 32 = l0.toNat := by
      have := l0.toNat_lt
      rw [← total, words, wordsNat, place, Nat.mul_assoc]
      omega
    rw [Montgomery.quotient, low, ← factorOf, words]
    simp
  obtain ⟨lowest, rest, words⟩ := List.exists_cons_of_length_eq_add_one reducedLength
  have restLength : rest.length = count := by simpa [words] using reducedLength
  rw [words, wordsNat, third.value] at reducedRow
  have value : (carried.toUInt32.toUInt64 + shifted.2).toNat = carried.toNat % 2 ^ 32 + shifted.2.toNat := by
    rw [UInt64.toNat_add, UInt32.toNat_toUInt64, UInt64.toNat_toUInt32]
    omega
  generalize carried.toUInt32.toUInt64 + shifted.2 = final at *
  have carry : ((carried >>> 32).toUInt32.toUInt64 + final >>> 32).toNat =
      carried.toNat / 2 ^ 32 + (carried.toNat % 2 ^ 32 + shifted.2.toNat) / 2 ^ 32 := by
    have := carried.toNat_lt
    simp only [UInt64.toNat_add, UInt32.toNat_toUInt64, UInt64.toNat_toUInt32, UInt64.toNat_shiftRight,
      UInt64.reduceToNat, Nat.reduceMod, Nat.shiftRight_eq_div_pow]
    omega
  generalize (carried >>> 32).toUInt32.toUInt64 + final >>> 32 = last at *
  have stores := @round_quotient (2 ^ 32) (radix count) (wordsNat stored.1) lowest.toNat (wordsNat rest)
    shifted.2.toNat last.toNat (carried.toNat % 2 ^ 32) (carried.toNat / 2 ^ 32) factor.toNat n
    (v + a * right.toNat) (by rw [Nat.mod_add_div, ← place, total]) (by rw [← place, reducedRow]) lowest.toNat_lt carry
  rw [quotient, ← Montgomery.reduce, ← value, ← place] at stores
  -- What is reduced is below twice the modulus, so nothing is left for the top word.
  have one : last.toNat ≤ 1 := by
    by_contra more
    have bound := wordsNat_lt modulus
    rw [third.length, third.value] at bound
    have scaled := Nat.mul_le_mul_left (radix (count + 1)) (show 2 ≤ last.toNat by omega)
    omega
  refine ⟨by simp [words, restLength], ?_⟩
  rw [words, List.tail_cons, wordsNat_append, restLength, ← stores]
  simp only [wordsNat, UInt64.toNat_toUInt32]
  rw [Nat.mod_eq_of_lt (show last.toNat < 2 ^ 32 by omega), Nat.mul_zero, Nat.add_zero]

theorem Sum.Is.rounds {count a b n i : Nat} {left modulus : List UInt32} {inverse : UInt32} {t : Sum}
    (first : Holds (count + 1) left a) (third : Holds (count + 1) modulus n) (some : 0 < n) (reduced : a ≤ n)
    (right : List UInt32) (later : wordsNat right = b / radix i)
    (sum : t.Is (count + 1) (Montgomery.rounds (2 ^ 32) n inverse.toNat a b i)) :
    (right.foldl (Words.round left modulus inverse) t).Is (count + 1)
      (Montgomery.rounds (2 ^ 32) n inverse.toNat a b (i + right.length)) := by
  induction right generalizing t i with
  | nil => exact sum
  | cons word rest ih =>
    have small : Montgomery.rounds (2 ^ 32) n inverse.toNat a b i < 2 * n :=
      Montgomery.rounds_lt (by decide) some reduced b i
    have next : (Words.round left modulus inverse t word).Is (count + 1) _ := sum.round first third small reduced
    have := word.toNat_lt
    rw [wordsNat] at later
    have digit : word.toNat = b / radix i % 2 ^ 32 := by omega
    have high : wordsNat rest = b / radix (i + 1) := by
      rw [show radix (i + 1) = radix i * 2 ^ 32 from pow_succ _ _, ← Nat.div_div_eq_div_mul]
      omega
    rw [digit] at next
    have whole := ih high next
    rw [Nat.add_right_comm] at whole
    exact whole

theorem wordsNat_replicate (count : Nat) : wordsNat (List.replicate count 0) = 0 := by
  induction count with
  | zero => rfl
  | succ count ih => rw [List.replicate_succ, wordsNat, ih]; rfl

theorem Holds.montgomeryMultiply {count a b n : Nat} {left right modulus : List UInt32} (inverse : UInt32)
    (first : Holds (count + 1) left a) (second : Holds (count + 1) right b) (third : Holds (count + 1) modulus n)
    (reduced : a < n) :
    Holds (count + 1) (montgomeryMultiply left right modulus inverse)
      (Rsa.montgomeryMultiply n inverse (count + 1) a b) := by
  have some : 0 < n := by omega
  have start : Sum.Is (count + 1) { words := List.replicate modulus.length 0, high := 0, top := 0 } 0 :=
    ⟨by simp [third.length], by simp [wordsNat_replicate]⟩
  have sum := @Sum.Is.rounds count a b n 0 left modulus inverse _ first third some reduced.le right
    (by rw [second.value, radix, pow_zero, Nat.div_one]) start
  rw [second.length, Nat.zero_add] at sum
  have small : Montgomery.rounds (2 ^ 32) n inverse.toNat a b (count + 1) < 2 * n :=
    Montgomery.rounds_lt (by decide) some reduced.le b (count + 1)
  rw [montgomeryMultiply_eq]
  unfold Words.montgomeryMultiply
  simp only
  generalize right.foldl (round left modulus inverse)
    { words := List.replicate modulus.length 0, high := 0, top := 0 } = t at *
  generalize Montgomery.rounds (2 ^ 32) n inverse.toNat a b (count + 1) = v at *
  have same := third.length.trans sum.length.symm
  have length := @chain_length _ _ _ _ subtractStep t.words modulus same 0
  obtain ⟨borrowFits, differences⟩ := @chain_difference _ _ subtractStep (2 ^ 32) UInt32.toNat UInt32.toNat _
    number_wordsNat subtractStep_exact _ _ same 0 rfl
  generalize chain subtractStep t.words modulus 0 = difference at *
  rw [sum.length] at length differences
  rw [third.value] at differences
  have bound := wordsNat_lt difference.1
  rw [length] at bound
  have highBit : (if t.high ≠ 0 then 1 else 0 : UInt32).toNat ≤ 1 := by split <;> decide
  obtain ⟨flag, chosen⟩ := Limbs.flag_bit highBit borrowFits
  have carried : (if t.high ≠ 0 then 1 else 0 : UInt32).toNat ≠ 0 ↔ t.high.toNat ≠ 0 := by
    by_cases zero : t.high = 0
    · simp [zero]
    · simpa [zero] using fun none => zero (UInt32.toNat_inj.mp none)
  have taken : Holds (count + 1) difference.1 (wordsNat difference.1) := ⟨length, rfl⟩
  have picked := taken.select (Limbs.pick_word flag) ⟨sum.length, rfl⟩
  have once := subtract_once sum.value.symm differences borrowFits bound
  have fits : n < radix (count + 1) := by
    rw [← third.value, ← third.length]
    exact wordsNat_lt modulus
  rw [if_congr (chosen.trans (or_congr_left carried)) rfl rfl, once, Nat.mod_eq_of_lt (by omega)] at picked
  exact picked

theorem holds_storeLe32 (words : List UInt32) :
    Limbs.Holds (words.length * 4) (words.flatMap Crypto.storeLe32) (wordsNat words) := by
  induction words with
  | nil => exact ⟨rfl, rfl⟩
  | cons word rest ih =>
    have low : Bytes.toNat (Crypto.storeLe32 word) = word.toNat :=
      Bytes.toNat_ofNat_of_lt (by simpa using word.toNat_lt)
    rw [List.flatMap_cons]
    refine ⟨?_, ?_⟩
    · rw [List.length_append, ih.length, Crypto.storeLe32_length, List.length_cons]
      omega
    · rw [Limbs.toNat_append, ih.value, Crypto.storeLe32_length, low, wordsNat, show (256 : Nat) ^ 4 = 2 ^ 32 from rfl]

theorem holds_loadWords {bytes : Bytes} {words v : Nat} (holds : Limbs.Holds (words * 4) bytes v) :
    Holds words (loadWords bytes words) v := by
  refine ⟨by simp [loadWords], ?_⟩
  induction words generalizing bytes v with
  | zero =>
    obtain rfl := List.eq_nil_of_length_eq_zero (holds.length.trans (Nat.zero_mul 4))
    exact holds.value
  | succ words ih =>
    have front : (bytes.take 4).length = 4 := by
      rw [List.length_take, holds.length]
      omega
    have parts := Limbs.toNat_append (bytes.take 4) (bytes.drop 4)
    rw [List.take_append_drop, front, holds.value] at parts
    have rest := @ih (bytes.drop 4) _ ⟨by rw [List.length_drop, holds.length]; omega, rfl⟩
    have low : (Crypto.loadLe32 bytes).toNat = Bytes.toNat (bytes.take 4) := by
      have small := Bytes.toNat_lt (bytes.take 4)
      rw [front] at small
      rw [Crypto.loadLe32, UInt32.toNat_ofNat']
      omega
    have shifted : loadWords bytes (words + 1) = Crypto.loadLe32 bytes :: loadWords (bytes.drop 4) words := by
      rw [loadWords, List.range_succ_eq_map, List.map_cons, List.map_map, loadWords, Nat.mul_zero, List.drop_zero]
      congr 2
      funext i
      rw [Function.comp_apply, List.drop_drop, Nat.mul_succ, Nat.add_comm]
    rw [shifted, wordsNat, rest, low, parts, show (256 : Nat) ^ 4 = 2 ^ 32 from rfl]

theorem loadBeWords_eq {bytes : Bytes} {size : Nat} (enough : size ≤ bytes.length) :
    loadBeWords bytes size = loadWords (bytes.take size).reverse (size / 4) := by
  have length := Limbs.take_length enough
  refine List.map_congr_left fun i inside => ?_
  have below := List.mem_range.mp inside
  have same : size - 4 * i - (size - 4 * i - 4) = 4 := by omega
  rw [Sha1.loadBe32, Crypto.loadLe32, List.drop_reverse, List.take_reverse, List.length_take, length, List.take_take,
    Nat.min_eq_left (Nat.sub_le _ _), List.drop_take, same, Nat.mul_succ, Nat.sub_add_eq]

theorem holds_loadBeWords {bytes : Bytes} {words : Nat} (enough : words * 4 ≤ bytes.length) :
    Holds words (loadBeWords bytes (words * 4)) (beNat (bytes.take (words * 4))) := by
  rw [loadBeWords_eq enough, Nat.mul_div_cancel _ (by decide)]
  exact holds_loadWords (Limbs.holds_reverse (Limbs.take_length enough))

theorem Holds.storeBeWords {words v : Nat} {x : List UInt32} (holds : Holds words x v) :
    storeBeWords x = ofNatBe (words * 4) v := by
  have bytes := (holds_storeLe32 x).reverse
  rw [List.reverse_flatMap, holds.length, holds.value] at bytes
  exact bytes

theorem Holds.montgomeryRSquared {count n : Nat} {modulus : List UInt32} (holds : Holds count modulus n)
    (positive : 0 < count) : Holds count (montgomeryRSquared modulus) (Rsa.montgomeryRSquared n count) := by
  have bytes := holds_storeLe32 modulus
  rw [holds.length, holds.value] at bytes
  unfold Words.montgomeryRSquared Rsa.montgomeryRSquared
  simp only [holds.length]
  refine holds_loadWords (List.foldl_rel (Limbs.Holds.one (by omega)) fun _ _ x v value => ?_)
  exact value.addMod value bytes

theorem Holds.power {count n size base start : Nat} {key : Bytes} {x y modulus : List UInt32} (inverse : UInt32)
    (length : key.length = 2 * size) (first : Holds (count + 1) x base) (second : Holds (count + 1) y start)
    (third : Holds (count + 1) modulus n) (less : start < n) :
    Holds (count + 1) (power key size x y modulus inverse)
        (Rsa.power (Rsa.montgomeryMultiply n inverse (count + 1)) start base (exponent key size) (size * 8)) ∧
      Rsa.power (Rsa.montgomeryMultiply n inverse (count + 1)) start base (exponent key size) (size * 8) < n := by
  unfold Words.power Rsa.power
  rw [bitsOf, List.foldl_map]
  refine @List.foldl_rel _ _ _ _ _ _ _ _ (fun x v => Holds (count + 1) x v ∧ v < n) ⟨second, less⟩ ?_
  rintro i inside x v ⟨holds, small⟩
  have positive : 0 < n := by omega
  have squared := holds.montgomeryMultiply inverse holds third small
  have reduced : Rsa.montgomeryMultiply n inverse (count + 1) v v < n :=
    montgomeryMultiply_less positive small.le v
  have product := squared.montgomeryMultiply inverse first third reduced
  have picked := product.select (Limbs.pick_word (Limbs.bitAt_small key (size + i / 8) (7 - i % 8))) squared
  rw [Limbs.bitAt_key length (List.mem_range.mp inside), if_congr Bool.toNat_eq_one rfl rfl] at picked
  refine ⟨picked, ?_⟩
  simp only
  split
  · exact montgomeryMultiply_less positive reduced.le base
  · exact reduced

theorem Holds.one (count : Nat) : Holds (count + 1) (one (count + 1)) 1 := by
  refine ⟨by simp [Words.one], ?_⟩
  rw [Words.one, Nat.add_sub_cancel, wordsNat, wordsNat_replicate]
  rfl

theorem Holds.head {count v : Nat} {x : List UInt32} (holds : Holds (count + 1) x v) :
    x.headD 0 = UInt32.ofNat v := by
  obtain ⟨word, rest, rfl⟩ := List.exists_cons_of_length_eq_add_one holds.length
  have := word.toNat_lt
  rw [List.headD_cons, ← UInt32.toNat_inj, UInt32.toNat_ofNat', ← holds.value, wordsNat]
  omega

theorem privatePower_eq {key input : Bytes} {count : Nat} (keyLength : key.length = 2 * ((count + 1) * 4))
    (inputLength : input.length = (count + 1) * 4) (large : 1 < modulus key ((count + 1) * 4))
    (less : beNat input < modulus key ((count + 1) * 4)) :
    let n := modulus key ((count + 1) * 4)
    let mul := Rsa.montgomeryMultiply n (negInverse (UInt32.ofNat n)) (count + 1)
    let rSquared := Rsa.montgomeryRSquared n (count + 1)
    privatePower key input ((count + 1) * 4) =
      ofNatBe ((count + 1) * 4)
        (mul (Rsa.power mul (mul 1 rSquared) (mul (beNat input) rSquared) (exponent key ((count + 1) * 4))
          ((count + 1) * 4 * 8)) 1) := by
  simp only
  have n := @holds_loadBeWords key (count + 1) (by omega)
  have base := @holds_loadBeWords input (count + 1) inputLength.ge
  rw [List.take_of_length_le inputLength.le] at base
  have positive : 0 < modulus key ((count + 1) * 4) := by omega
  have rSquared := n.montgomeryRSquared (Nat.succ_pos count)
  unfold privatePower
  simp only [Nat.mul_div_cancel _ (show 0 < 4 by decide)]
  rw [n.head]
  generalize negInverse (UInt32.ofNat (beNat (key.take ((count + 1) * 4)))) = inverse
  have unit := (Holds.one count).montgomeryMultiply inverse rSquared n large
  have entered := base.montgomeryMultiply inverse rSquared n less
  obtain ⟨result, small⟩ := Holds.power inverse keyLength entered unit n
    (montgomeryMultiply_less positive large.le _)
  exact (result.montgomeryMultiply inverse (Holds.one count) n small).storeBeWords

theorem strongPrivateOperation_eq {key input : Bytes} (inputLength : input.length = rsaStrongSize) :
    strongPrivateOperation key input = Rsa.strongPrivateOperation key input := by
  rw [strongPrivateOperation, Rsa.strongPrivateOperation, Limbs.keyValidate_eq (by decide) le_rfl,
    List.take_of_length_le inputLength.le]
  by_cases accepted : Rsa.keyValidate key rsaStrongSize = true
  case neg => simp [accepted]
  case pos =>
    have keyLength : key.length = 2 * rsaStrongSize := (of_decide_eq_true accepted).1
    have part := @Limbs.take_length key rsaStrongSize (by omega)
    rw [Limbs.memcmpNegative_eq (inputLength.trans part.symm)]
    cases less : below input (key.take rsaStrongSize) with
    | false => simp
    | true =>
      rw [if_neg (by simp [accepted]), if_pos ⟨accepted, rfl⟩]
      have valid := valid_of_keyValidate accepted
      have large : 1 < modulus key rsaStrongSize := by
        have := valid.large
        have := valid.below
        omega
      exact congrArg Except.ok (@privatePower_eq key input 63 keyLength inputLength large (of_decide_eq_true less))

end Words

/-- A key that the validator takes, and an input below its modulus. -/
structure Accepted (key input : Bytes) (size : Nat) : Prop where
  valid : Limbs.keyValidate key size = true
  length : input.length = size
  less : beNat input < modulus key size

structure IsPower (key input : Bytes) (size : Nat) (output : Bytes) : Prop where
  length : output.length = size
  value : beNat output = beNat input ^ exponent key size % modulus key size

theorem isPower_ofNatBe {key : Bytes} {size : Nat} (valid : keyValidate key size = true) (input : Bytes) :
    IsPower key input size (ofNatBe size (beNat input ^ exponent key size % modulus key size)) := by
  have holds := valid_of_keyValidate valid
  have small : beNat input ^ exponent key size % modulus key size < 256 ^ size :=
    (Nat.mod_lt _ (by have := holds.below; omega)).trans_le holds.fits
  constructor
  · rw [ofNatBe, List.length_reverse, Bytes.ofNat_length]
  · rw [beNat, ofNatBe, List.reverse_reverse, Bytes.toNat_ofNat_of_lt small]

theorem operations_pow :
    (∀ key input, Accepted key input rsaSize →
      ∃ output, Limbs.weakOperation key input = .ok output ∧ IsPower key input rsaSize output) ∧
    (∀ key input, Accepted key input rsaStrongSize →
      ∃ output, Limbs.strongPublicOperation key input = .ok output ∧
        Words.strongPrivateOperation key input = .ok output ∧ IsPower key input rsaStrongSize output) := by
  constructor
  · rintro key input ⟨accepted, length, less⟩
    rw [Limbs.keyValidate_eq (by decide) (by decide)] at accepted
    refine ⟨_, ?_, isPower_ofNatBe accepted input⟩
    rw [Limbs.weakOperation_eq (of_decide_eq_true accepted).1 length, weakOperation_pow accepted less]
  · rintro key input ⟨accepted, length, less⟩
    rw [Limbs.keyValidate_eq (by decide) le_rfl] at accepted
    refine ⟨_, ?_, ?_, isPower_ofNatBe accepted input⟩
    · rw [Limbs.strongPublicOperation_eq length, strongPublicOperation_pow accepted less]
    · rw [Words.strongPrivateOperation_eq length, strongPrivateOperation_pow accepted less]

-- The largest modulus of a width, with the exponent three.
def cubeKey (size : Nat) : Bytes := List.replicate size 0xFF ++ Bytes.zeros (size - 1) ++ [3]

def two (size : Nat) : Bytes := Bytes.zeros (size - 1) ++ [2]

theorem operations_pow_two :
    (∃ output, Limbs.weakOperation (cubeKey rsaSize) (two rsaSize) = .ok output ∧
      IsPower (cubeKey rsaSize) (two rsaSize) rsaSize output) ∧
    (∃ output, Limbs.strongPublicOperation (cubeKey rsaStrongSize) (two rsaStrongSize) = .ok output ∧
      Words.strongPrivateOperation (cubeKey rsaStrongSize) (two rsaStrongSize) = .ok output ∧
      IsPower (cubeKey rsaStrongSize) (two rsaStrongSize) rsaStrongSize output) := by
  have weak : Accepted (cubeKey rsaSize) (two rsaSize) rsaSize :=
    ⟨by decide +kernel, by decide +kernel, by decide +kernel⟩
  have strong : Accepted (cubeKey rsaStrongSize) (two rsaStrongSize) rsaStrongSize :=
    ⟨by decide +kernel, by decide +kernel, by decide +kernel⟩
  exact ⟨operations_pow.1 _ _ weak, operations_pow.2 _ _ strong⟩

end Rsa

end LibMpq
