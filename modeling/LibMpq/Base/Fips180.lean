import LibMpq.Base.Iterated

set_option autoImplicit false

namespace Fips180

structure Words where
  a : UInt32
  b : UInt32
  c : UInt32
  d : UInt32
  e : UInt32

def rotl (n : Nat) (x : UInt32) : UInt32 := (x <<< UInt32.ofNat n) ||| (x >>> UInt32.ofNat (32 - n))

def ch (x y z : UInt32) : UInt32 := (x &&& y) ^^^ (~~~x &&& z)
def parity (x y z : UInt32) : UInt32 := x ^^^ y ^^^ z
def maj (x y z : UInt32) : UInt32 := (x &&& y) ^^^ (x &&& z) ^^^ (y &&& z)

def f (t : Nat) : UInt32 → UInt32 → UInt32 → UInt32 :=
  if t ≤ 19 then ch else if t ≤ 39 then parity else if t ≤ 59 then maj else parity

def k (t : Nat) : UInt32 :=
  if t ≤ 19 then 0x5A827999 else if t ≤ 39 then 0x6ED9EBA1 else if t ≤ 59 then 0x8F1BBCDC else 0xCA62C1D6

-- A big-endian word of the block.
def word (block : Bytes) (t : Nat) : UInt32 :=
  UInt32.ofNat (Bytes.toNat ((block.drop (4 * t)).take 4).reverse)

def schedule (block : Bytes) (t : Nat) : UInt32 :=
  if t < 16 then word block t
  else rotl 1 (schedule block (t - 3) ^^^ schedule block (t - 8) ^^^ schedule block (t - 14) ^^^
    schedule block (t - 16))

def round (W : Nat → UInt32) (s : Words) (t : Nat) : Words :=
  ⟨rotl 5 s.a + f t s.b s.c s.d + s.e + k t + W t, s.a, rotl 30 s.b, s.c, s.d⟩

def compress (s : Words) (block : Bytes) : Words :=
  let r := (List.range 80).foldl (round (schedule block)) s
  ⟨r.a + s.a, r.b + s.b, r.c + s.c, r.d + s.d, r.e + s.e⟩

def start : Words := ⟨0x67452301, 0xEFCDAB89, 0x98BADCFE, 0x10325476, 0xC3D2E1F0⟩

-- The length in bits, high byte first.
def lengthBytes (bits : Nat) : Bytes := (Bytes.ofNat 8 bits).reverse

def bigEndian (x : UInt32) : Bytes := (Bytes.ofNat 4 x.toNat).reverse

/-- The SHA-1 digest of a message of less than 2^64 bits. -/
def digest (message : Bytes) : Bytes :=
  let s := Iterated.chained 64 compress start (Iterated.padded lengthBytes message)
  bigEndian s.a ++ bigEndian s.b ++ bigEndian s.c ++ bigEndian s.d ++ bigEndian s.e

end Fips180
