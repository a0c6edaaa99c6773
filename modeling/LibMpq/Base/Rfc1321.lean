import LibMpq.Base.Iterated

set_option autoImplicit false

namespace Rfc1321

structure Registers where
  a : UInt32
  b : UInt32
  c : UInt32
  d : UInt32

def F (x y z : UInt32) : UInt32 := (x &&& y) ||| (~~~x &&& z)
def G (x y z : UInt32) : UInt32 := (x &&& z) ||| (y &&& ~~~z)
def H (x y z : UInt32) : UInt32 := x ^^^ y ^^^ z
def I (x y z : UInt32) : UInt32 := y ^^^ (x ||| ~~~z)

def rotate (x : UInt32) (s : Nat) : UInt32 := (x <<< UInt32.ofNat s) ||| (x >>> UInt32.ofNat (32 - s))

-- The table T: the integer part of 2^32 times the sine of 1, 2, ..., 64.
def T : List Nat :=
  [0xd76aa478, 0xe8c7b756, 0x242070db, 0xc1bdceee, 0xf57c0faf, 0x4787c62a, 0xa8304613, 0xfd469501,
   0x698098d8, 0x8b44f7af, 0xffff5bb1, 0x895cd7be, 0x6b901122, 0xfd987193, 0xa679438e, 0x49b40821,
   0xf61e2562, 0xc040b340, 0x265e5a51, 0xe9b6c7aa, 0xd62f105d, 0x02441453, 0xd8a1e681, 0xe7d3fbc8,
   0x21e1cde6, 0xc33707d6, 0xf4d50d87, 0x455a14ed, 0xa9e3e905, 0xfcefa3f8, 0x676f02d9, 0x8d2a4c8a,
   0xfffa3942, 0x8771f681, 0x6d9d6122, 0xfde5380c, 0xa4beea44, 0x4bdecfa9, 0xf6bb4b60, 0xbebfbc70,
   0x289b7ec6, 0xeaa127fa, 0xd4ef3085, 0x04881d05, 0xd9d4d039, 0xe6db99e5, 0x1fa27cf8, 0xc4ac5665,
   0xf4292244, 0x432aff97, 0xab9423a7, 0xfc93a039, 0x655b59c3, 0x8f0ccc92, 0xffeff47d, 0x85845dd1,
   0x6fa87e4f, 0xfe2ce6e0, 0xa3014314, 0x4e0811a1, 0xf7537e82, 0xbd3af235, 0x2ad7d2bb, 0xeb86d391]

-- The index k of the word that each operation adds, round by round.
def order : List Nat :=
  [0, 1, 2, 3, 4, 5, 6, 7, 8, 9, 10, 11, 12, 13, 14, 15,
   1, 6, 11, 0, 5, 10, 15, 4, 9, 14, 3, 8, 13, 2, 7, 12,
   5, 8, 11, 14, 1, 4, 7, 10, 13, 0, 3, 6, 9, 12, 15, 2,
   0, 7, 14, 5, 12, 3, 10, 1, 8, 15, 6, 13, 4, 11, 2, 9]

-- The rotations of the four operations of a row, by round.
def rotations : List (List Nat) := [[7, 12, 17, 22], [5, 9, 14, 20], [4, 11, 16, 23], [6, 10, 15, 21]]

def mixing : Nat → UInt32 → UInt32 → UInt32 → UInt32
  | 0 => F
  | 1 => G
  | 2 => H
  | _ => I

def assigned (X : Nat → UInt32) (n : Nat) (a b c d : UInt32) : UInt32 :=
  b + rotate (a + mixing (n / 16) b c d + X (order.getD n 0) + UInt32.ofNat (T.getD n 0))
    ((rotations.getD (n / 16) []).getD (n % 4) 0)

-- A row: [ABCD], [DABC], [CDAB], [BCDA].
def row (X : Nat → UInt32) (r : Registers) (n : Nat) : Registers :=
  let r := { r with a := assigned X (4 * n) r.a r.b r.c r.d }
  let r := { r with d := assigned X (4 * n + 1) r.d r.a r.b r.c }
  let r := { r with c := assigned X (4 * n + 2) r.c r.d r.a r.b }
  { r with b := assigned X (4 * n + 3) r.b r.c r.d r.a }

def word (block : Bytes) (k : Nat) : UInt32 := UInt32.ofNat (Bytes.toNat ((block.drop (4 * k)).take 4))

def compress (r : Registers) (block : Bytes) : Registers :=
  let s := (List.range 16).foldl (row (word block)) r
  ⟨r.a + s.a, r.b + s.b, r.c + s.c, r.d + s.d⟩

def start : Registers := ⟨0x67452301, 0xEFCDAB89, 0x98BADCFE, 0x10325476⟩

-- The low-order 64 bits of the length in bits, low byte first.
def lengthBytes (bits : Nat) : Bytes := Bytes.ofNat 8 (bits % 2 ^ 64)

/-- The MD5 digest of a message. -/
def digest (message : Bytes) : Bytes :=
  let r := Iterated.chained 64 compress start (Iterated.padded lengthBytes message)
  Bytes.ofNat 4 r.a.toNat ++ Bytes.ofNat 4 r.b.toNat ++ Bytes.ofNat 4 r.c.toNat ++ Bytes.ofNat 4 r.d.toNat

end Rfc1321
