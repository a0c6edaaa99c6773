import LibMpq.Base.Chunked
import LibMpq.Crypto

set_option autoImplicit false

namespace LibMpq

open Effect Chunked

namespace Checksum

structure Adler where
  low : Nat
  high : Nat

def adlerStep (s : Adler) (b : UInt8) : Adler :=
  let low := (s.low + b.toNat) % 65521
  { low, high := (s.high + low) % 65521 }

def adler32 (start : UInt32) (data : Bytes) : UInt32 :=
  let s := data.foldl adlerStep { low := start.toNat % 65536, high := start.toNat / 65536 }
  UInt32.ofNat (s.high * 65536 + s.low)

def crcBit (crc : UInt32) : UInt32 :=
  if crc &&& 1 = 1 then (crc >>> (1 : UInt32)) ^^^ 0xEDB88320 else crc >>> (1 : UInt32)

def crcByte (crc : UInt32) (b : UInt8) : UInt32 :=
  crcBit (crcBit (crcBit (crcBit (crcBit (crcBit (crcBit (crcBit (crc ^^^ b.toUInt32))))))))

def crc32 (start : UInt32) (data : Bytes) : UInt32 := ~~~(data.foldl crcByte (~~~start))

theorem crc32_append (start : UInt32) (a b : Bytes) :
    crc32 start (a ++ b) = crc32 (crc32 start a) b := by
  simp [crc32]

end Checksum

abbrev Digest := { bytes : Bytes // bytes.length = 16 }

def Digest.zero : Digest := ⟨Bytes.zeros 16, Bytes.zeros_length 16⟩

-- `pending` is the used part of the context's 64-byte buffer.
structure Md5 where
  a : UInt32
  b : UInt32
  c : UInt32
  d : UInt32
  size : UInt64
  pending : Bytes

namespace Md5

def constants : List Nat :=
  [0xd76aa478, 0xe8c7b756, 0x242070db, 0xc1bdceee, 0xf57c0faf, 0x4787c62a, 0xa8304613, 0xfd469501,
   0x698098d8, 0x8b44f7af, 0xffff5bb1, 0x895cd7be, 0x6b901122, 0xfd987193, 0xa679438e, 0x49b40821,
   0xf61e2562, 0xc040b340, 0x265e5a51, 0xe9b6c7aa, 0xd62f105d, 0x02441453, 0xd8a1e681, 0xe7d3fbc8,
   0x21e1cde6, 0xc33707d6, 0xf4d50d87, 0x455a14ed, 0xa9e3e905, 0xfcefa3f8, 0x676f02d9, 0x8d2a4c8a,
   0xfffa3942, 0x8771f681, 0x6d9d6122, 0xfde5380c, 0xa4beea44, 0x4bdecfa9, 0xf6bb4b60, 0xbebfbc70,
   0x289b7ec6, 0xeaa127fa, 0xd4ef3085, 0x04881d05, 0xd9d4d039, 0xe6db99e5, 0x1fa27cf8, 0xc4ac5665,
   0xf4292244, 0x432aff97, 0xab9423a7, 0xfc93a039, 0x655b59c3, 0x8f0ccc92, 0xffeff47d, 0x85845dd1,
   0x6fa87e4f, 0xfe2ce6e0, 0xa3014314, 0x4e0811a1, 0xf7537e82, 0xbd3af235, 0x2ad7d2bb, 0xeb86d391]

def shifts : List Nat := [7, 12, 17, 22, 5, 9, 14, 20, 4, 11, 16, 23, 6, 10, 15, 21]

def rotateLeft (value : UInt32) (shift : Nat) : UInt32 :=
  (value <<< UInt32.ofNat shift) ||| (value >>> UInt32.ofNat (32 - shift))

def mixRound (words : List UInt32) (s : Md5) (i : Nat) : Md5 :=
  let f :=
    if i < 16 then (s.b &&& s.c) ||| (~~~s.b &&& s.d)
    else if i < 32 then (s.d &&& s.b) ||| (~~~s.d &&& s.c)
    else if i < 48 then s.b ^^^ s.c ^^^ s.d
    else s.c ^^^ (s.b ||| ~~~s.d)
  let index :=
    if i < 16 then i
    else if i < 32 then (5 * i + 1) % 16
    else if i < 48 then (3 * i + 5) % 16
    else (7 * i) % 16
  let value := s.a + f + UInt32.ofNat (constants.getD i 0) + words.getD index 0
  let shift := shifts.getD ((i / 16) * 4 + i % 4) 0
  { s with a := s.d, b := s.b + rotateLeft value shift, c := s.b, d := s.c }

def transform (s : Md5) (block : Bytes) : Md5 :=
  let words := (List.range 16).map fun i => Crypto.loadLe32 (block.drop (4 * i))
  let mixed := (List.range 64).foldl (mixRound words) s
  { s with a := s.a + mixed.a, b := s.b + mixed.b, c := s.c + mixed.c, d := s.d + mixed.d }

def init : Md5 :=
  { a := 0x67452301, b := 0xEFCDAB89, c := 0x98BADCFE, d := 0x10325476, size := 0, pending := [] }

def buffer : Buffer Empty Md5 where
  room s := 64 - s.pending.length
  push data s :=
    { s with size := s.size + UInt64.ofNat data.length, pending := s.pending ++ data }
  flush := modify fun s => { transform s s.pending with pending := [] }

def update (s : Md5) (data : Bytes) : Md5 := final (buffer.feed data.length data s)

def finish (s : Md5) : Digest :=
  let used := s.size.toNat % 64
  let padding := (0x80 :: Bytes.zeros 63).take (if used < 56 then 56 - used else 120 - used)
  let s := update (update s padding) (Bytes.ofNat 8 (s.size * 8).toNat)
  ⟨Crypto.storeLe32 s.a ++ Crypto.storeLe32 s.b ++ Crypto.storeLe32 s.c ++ Crypto.storeLe32 s.d,
    by simp⟩

def Ready (s : Md5) : Prop := 0 < buffer.room s

theorem buffer_laws : buffer.Laws fun _ => True where
  room_push := by
    intro data s _ _
    simp only [buffer, List.length_append]
    omega
  push_append := by
    intro a b s _
    simp [buffer, UInt64.add_assoc]
  valid_push := fun _ => trivial
  valid_flush := by
    intro s s' _ run
    cases run
    simp [buffer]

theorem init_ready : init.Ready := by
  simp [Ready, buffer, init]

theorem update_ready {s : Md5} (ready : s.Ready) (data : Bytes) : (update s data).Ready := by
  rw [update, buffer_laws.feed_eq_feedBytes trivial ready le_rfl]
  cases run : buffer.feedBytes data s with
  | ok _ s' => exact (buffer_laws.feedBytes_ok trivial ready run).2
  | error e s' => exact e.elim

theorem update_append {s : Md5} (ready : s.Ready) (a b : Bytes) :
    update s (a ++ b) = update (update s a) b := by
  rw [update, buffer_laws.feed_append trivial ready, bind_run, update, update]
  cases run : buffer.feed a.length a s with
  | ok _ s' => rfl
  | error e s' => exact e.elim

end Md5

structure Sha1 where
  a : UInt32
  b : UInt32
  c : UInt32
  d : UInt32
  e : UInt32
  bits : UInt64
  pending : Bytes

namespace Sha1

def loadBe32 (b : Bytes) : UInt32 := UInt32.ofNat (Bytes.toNat (b.take 4).reverse)

def storeBe32 (value : UInt32) : Bytes := (Crypto.storeLe32 value).reverse

def extendWords (words : List UInt32) (i : Nat) : List UInt32 :=
  words ++ [Md5.rotateLeft (words.getD (i - 3) 0 ^^^ words.getD (i - 8) 0 ^^^
    words.getD (i - 14) 0 ^^^ words.getD (i - 16) 0) 1]

def mixRound (words : List UInt32) (s : Sha1) (i : Nat) : Sha1 :=
  let f :=
    if i < 20 then (s.b &&& s.c) ||| (~~~s.b &&& s.d)
    else if i < 40 then s.b ^^^ s.c ^^^ s.d
    else if i < 60 then (s.b &&& s.c) ||| (s.b &&& s.d) ||| (s.c &&& s.d)
    else s.b ^^^ s.c ^^^ s.d
  let k : UInt32 :=
    if i < 20 then 0x5A827999 else if i < 40 then 0x6ED9EBA1 else if i < 60 then 0x8F1BBCDC
    else 0xCA62C1D6
  { s with
    a := Md5.rotateLeft s.a 5 + f + s.e + k + words.getD i 0
    b := s.a
    c := Md5.rotateLeft s.b 30
    d := s.c
    e := s.d }

def transform (s : Sha1) (block : Bytes) : Sha1 :=
  let first := (List.range 16).map fun i => loadBe32 (block.drop (4 * i))
  let words := (List.range' 16 64).foldl extendWords first
  let mixed := (List.range 80).foldl (mixRound words) s
  { s with
    a := s.a + mixed.a, b := s.b + mixed.b, c := s.c + mixed.c, d := s.d + mixed.d
    e := s.e + mixed.e }

def init : Sha1 where
  a := 0x67452301
  b := 0xEFCDAB89
  c := 0x98BADCFE
  d := 0x10325476
  e := 0xC3D2E1F0
  bits := 0
  pending := []

def buffer : Buffer Empty Sha1 where
  room s := 64 - s.pending.length
  push data s := { s with pending := s.pending ++ data }
  flush := modify fun s => { transform s s.pending with pending := [] }

def update (s : Sha1) (data : Bytes) : Sha1 :=
  final (buffer.feed data.length data { s with bits := s.bits + UInt64.ofNat data.length * 8 })

def finish (s : Sha1) : Bytes :=
  let used := s.pending.length
  let padding := (0x80 :: Bytes.zeros 63).take (if used < 56 then 56 - used else 120 - used)
  let s := update (update s padding) (Bytes.ofNat 8 s.bits.toNat).reverse
  storeBe32 s.a ++ storeBe32 s.b ++ storeBe32 s.c ++ storeBe32 s.d ++ storeBe32 s.e

end Sha1

end LibMpq
