import LibMpq.Checksum

set_option autoImplicit false

namespace LibMpq

namespace Rsa

abbrev rsaSize : Nat := 64
abbrev rsaStrongSize : Nat := 256

def beNat (b : Bytes) : Nat := Bytes.toNat b.reverse

def ofNatBe (width n : Nat) : Bytes := (Bytes.ofNat width n).reverse

-- The `memcmp` of two big-endian strings of one width.
def below (first second : Bytes) : Bool := beNat first < beNat second

def keyValidate (key : Bytes) (size : Nat) : Bool :=
  key.length = 2 * size ∧ 0x80 ≤ key.getD 0 0 ∧ key.getD (size - 1) 0 % 2 = 1 ∧
    key.getD (2 * size - 1) 0 % 2 = 1 ∧ 3 ≤ beNat (key.drop size) ∧
    below (key.drop size) (key.take size)

def addMod (n a b : Nat) (size : Nat) : Nat :=
  let sum := a + b
  if sum ≥ n then (sum - n) % 256 ^ size else sum

def bitsOf (value width : Nat) : List Bool :=
  (List.range width).map fun i => value.testBit (width - 1 - i)

-- Bit-serial double-and-add from the most significant bit.
def multiply (n a b : Nat) (size : Nat) : Nat :=
  (bitsOf b (size * 8)).foldl
    (fun result bit =>
      let doubled := addMod n result result size
      if bit then addMod n doubled a size else doubled) 0

def power (mul : Nat → Nat → Nat) (one base exponent width : Nat) : Nat :=
  (bitsOf exponent width).foldl
    (fun result bit => let squared := mul result result; if bit then mul squared base else squared) one

-- `libmpq__rsa_weak_operation`
def weakOperation (key input : Bytes) : Except Error Bytes :=
  if below input (key.take rsaSize) then
    let n := beNat (key.take rsaSize)
    let mul := fun a b => multiply n a b rsaSize
    .ok (ofNatBe rsaSize (power mul 1 (beNat input) (beNat (key.drop rsaSize)) (rsaSize * 8)))
  else .error .format

-- The Newton iteration for the negated inverse of an odd word.
def negInverse (word : UInt32) : UInt32 :=
  0 - (List.range 5).foldl (fun inverse _ => inverse * (2 - word * inverse)) 1

def montgomeryMultiply (n : Nat) (inverse : UInt32) (words a b : Nat) : Nat :=
  let step := fun t i =>
    let t := t + a * (b / 2 ^ (32 * i) % 2 ^ 32)
    let m := t % 2 ^ 32 * inverse.toNat % 2 ^ 32
    (t + m * n) / 2 ^ 32
  let t := (List.range words).foldl step 0
  if t ≥ n then t - n else t

def montgomeryRSquared (n words : Nat) : Nat :=
  (List.range (words * 64)).foldl (fun value _ => addMod n value value (words * 4)) 1

-- `libmpq__rsa_strong_private_operation`
def strongPrivateOperation (key input : Bytes) : Except Error Bytes :=
  if keyValidate key rsaStrongSize ∧ below input (key.take rsaStrongSize) then
    let n := beNat (key.take rsaStrongSize)
    let words := rsaStrongSize / 4
    let inverse := negInverse (UInt32.ofNat n)
    let mul := montgomeryMultiply n inverse words
    let rSquared := montgomeryRSquared n words
    let base := mul (beNat input) rSquared
    let result := power mul (mul 1 rSquared) base (beNat (key.drop rsaStrongSize))
      (rsaStrongSize * 8)
    .ok (ofNatBe rsaStrongSize (mul result 1))
  else .error .format

-- Squaring starts at the first set bit of the exponent.
def powerFromFirst (mul : Nat → Nat → Nat) (base exponent width : Nat) : Option Nat :=
  (bitsOf exponent width).foldl
    (fun result bit =>
      match result with
      | none => if bit then some (mul 1 base) else none
      | some value => let squared := mul value value; some (if bit then mul squared base else squared))
    none

-- `libmpq__rsa_strong_public_operation`
def strongPublicOperation (key input : Bytes) : Except Error Bytes :=
  if keyValidate key rsaStrongSize ∧ below input (key.take rsaStrongSize) then
    let n := beNat (key.take rsaStrongSize)
    let mul := fun a b => multiply n a b rsaStrongSize
    match powerFromFirst mul (beNat input) (beNat (key.drop rsaStrongSize)) (rsaStrongSize * 8) with
    | some result => .ok (ofNatBe rsaStrongSize result)
    | none => .error .format
  else .error .format

def md5Encode (digest : Digest) : Bytes :=
  [0, 1] ++ List.replicate 27 0xFF ++ [0] ++
    [0x30, 0x20, 0x30, 0x0C, 0x06, 0x08, 0x2A, 0x86, 0x48, 0x86, 0xF7, 0x0D, 0x02, 0x05, 0x05, 0x00,
      0x04, 0x10] ++ digest.1

end Rsa

end LibMpq
