import LibMpq.Base.Mealy
import LibMpq.CryptTable
import LibMpq.Types

set_option autoImplicit false

-- `mpq-crypto.c`. Characters are signed, as on the common targets, so that a byte from 0x80 on
-- reaches the C library's `toupper` as a negative number.

namespace LibMpq

/-- A C string: the bytes before its terminator. -/
abbrev Name := { bytes : Bytes // (0 : UInt8) ∉ bytes }

def ascii (text : List Char) : Bytes := text.map fun c => UInt8.ofNat c.toNat

namespace Crypto

def loadLe32 (b : Bytes) : UInt32 := UInt32.ofNat (Bytes.toNat (b.take 4))

def storeLe32 (value : UInt32) : Bytes := Bytes.ofNat 4 value.toNat

@[simp] theorem storeLe32_length (value : UInt32) : (storeLe32 value).length = 4 := by
  simp [storeLe32]

@[simp] theorem loadLe32_storeLe32 (value : UInt32) (rest : Bytes) :
    loadLe32 (storeLe32 value ++ rest) = value := by
  have front : (storeLe32 value ++ rest).take 4 = storeLe32 value :=
    List.take_left' (storeLe32_length value)
  rw [loadLe32, front, storeLe32, Bytes.toNat_ofNat_of_lt (by simpa using value.toNat_lt)]
  simp

-- The C locale of glibc takes -128 to -2 for the bytes 0x80 to 0xFE; -1 is `EOF`, which it keeps.
def toupper (c : UInt8) : UInt32 :=
  if 0x61 ≤ c ∧ c ≤ 0x7A then c.toUInt32 - 0x20
  else if c = 0xFF then 0xFFFFFFFF
  else c.toUInt32

structure HashState where
  seed1 : UInt32
  seed2 : UInt32

def hashStep (offset : UInt32) (s : HashState) (c : UInt8) : HashState :=
  let ch := toupper c
  let seed1 := cryptBuf (offset + ch).toNat ^^^ (s.seed1 + s.seed2)
  ⟨seed1, ch + seed1 + s.seed2 + (s.seed2 <<< (5 : UInt32)) + 3⟩

-- Byte 0xFF under offset 0 is a read outside the table, where the code has no result: the value
-- here means nothing then (`watchedHash` in `NameHash` reports the read).
def hashString (key : Bytes) (offset : UInt32) : UInt32 :=
  (key.foldl (hashStep offset) { seed1 := 0x7FED7FED, seed2 := 0xEEEEEEEE }).seed1

def nextSeed (seed : UInt32) : UInt32 := (((~~~seed) <<< (0x15 : UInt32)) + 0x11111111) ||| (seed >>> (0x0B : UInt32))

def nextSeed2 (value seed2 : UInt32) : UInt32 := value + seed2 + (seed2 <<< (5 : UInt32)) + 3

def mixSeed2 (seed seed2 : UInt32) : UInt32 := seed2 + cryptBuf (0x400 + (seed &&& (0xFF : UInt32)).toNat)

-- Both loops stop at a trailing partial word and leave it as it is.
def encryptWords (seed seed2 : UInt32) : Bytes → Bytes
  | b0 :: b1 :: b2 :: b3 :: rest =>
    let seed2 := mixSeed2 seed seed2
    let value := loadLe32 [b0, b1, b2, b3]
    let ch := value ^^^ (seed + seed2)
    storeLe32 ch ++ encryptWords (nextSeed seed) (nextSeed2 value seed2) rest
  | tail => tail

def decryptWords (seed seed2 : UInt32) : Bytes → Bytes
  | b0 :: b1 :: b2 :: b3 :: rest =>
    let seed2 := mixSeed2 seed seed2
    let ch := loadLe32 [b0, b1, b2, b3] ^^^ (seed + seed2)
    storeLe32 ch ++ decryptWords (nextSeed seed) (nextSeed2 ch seed2) rest
  | tail => tail

def encryptBlock (data : Bytes) (seed : UInt32) : Bytes := encryptWords seed 0xEEEEEEEE data

def decryptBlock (data : Bytes) (seed : UInt32) : Bytes := decryptWords seed 0xEEEEEEEE data

-- The signatures `libmpq__crypto_detect_file_key` looks for, with the word that follows each.
def knownWords (fileSize : UInt32) : List (UInt32 × UInt32) :=
  [(0x46464952, fileSize - 8), (0x00905A4D, 3), (0x6D783F3C, 0x6576206C), (0x1A51504D, 32)]

def secondWord (data : Bytes) (seed first seed2 : UInt32) : UInt32 :=
  let next := nextSeed seed
  loadLe32 (data.drop 4) ^^^ (next + mixSeed2 next (nextSeed2 first seed2))

def signatureSeed (data : Bytes) (low : Nat) (known : UInt32 × UInt32) : Option UInt32 :=
  let mixed := 0xEEEEEEEE + cryptBuf (0x400 + low)
  let seed := (loadLe32 data ^^^ known.1) - mixed
  if (seed &&& (0xFF : UInt32)).toNat ≠ low then none
  else if secondWord data seed known.1 mixed = known.2 then some seed
  else none

def detectFileKey (data : Bytes) (fileSize : UInt32) : Option UInt32 :=
  if data.length < 8 then none
  else
    (List.range 0x100).findSome? fun low =>
      (knownWords fileSize).findSome? (signatureSeed data low)

-- The first offset of a sector table is its own size; the second is at most one sector on.
def tableSeed (data : Bytes) (size blockSize : UInt32) (low : Nat) : Option UInt32 :=
  let seed := (loadLe32 data ^^^ size) - 0xEEEEEEEE - cryptBuf (0x400 + low)
  let mixed := mixSeed2 seed 0xEEEEEEEE
  if loadLe32 data ^^^ (seed + mixed) ≠ size then none
  else if secondWord data seed size mixed - size ≤ blockSize then some (seed + 1)
  else none

def deriveBlockTableSeed (data : Bytes) (blockSize : UInt32) : Option UInt32 :=
  if data.length < 8 then none
  else (List.range 0x100).findSome? (tableSeed data (UInt32.ofNat data.length) blockSize)

@[simp] theorem encryptWords_length (seed seed2 : UInt32) (data : Bytes) :
    (encryptWords seed seed2 data).length = data.length := by
  fun_induction encryptWords seed seed2 data with
  | case1 => simp_all; omega
  | case2 => rfl

@[simp] theorem encryptBlock_length (data : Bytes) (seed : UInt32) :
    (encryptBlock data seed).length = data.length := encryptWords_length _ _ _

@[simp] theorem decryptWords_length (seed seed2 : UInt32) (data : Bytes) :
    (decryptWords seed seed2 data).length = data.length := by
  fun_induction decryptWords seed seed2 data with
  | case1 => simp_all; omega
  | case2 => rfl

@[simp] theorem decryptBlock_length (data : Bytes) (seed : UInt32) :
    (decryptBlock data seed).length = data.length := decryptWords_length _ _ _

theorem storeLe32_loadLe32 (b0 b1 b2 b3 : UInt8) :
    storeLe32 (loadLe32 [b0, b1, b2, b3]) = [b0, b1, b2, b3] := by
  have bound := Bytes.toNat_lt [b0, b1, b2, b3]
  have back := Bytes.ofNat_toNat [b0, b1, b2, b3]
  simp only [List.length_cons, List.length_nil] at bound back
  simp only [storeLe32, loadLe32, List.take_succ_cons, List.take_zero]
  rw [UInt32.toNat_ofNat_of_lt' (by simpa using bound)]
  exact back

def words : Bytes → List UInt32
  | b0 :: b1 :: b2 :: b3 :: rest => loadLe32 [b0, b1, b2, b3] :: words rest
  | _ => []

def leftover : Bytes → Bytes
  | _ :: _ :: _ :: _ :: rest => leftover rest
  | tail => tail

def stored (values : List UInt32) : Bytes := values.flatMap storeLe32

theorem stored_cons (value : UInt32) (values : List UInt32) :
    stored (value :: values) = storeLe32 value ++ stored values := rfl

@[simp] theorem stored_length (values : List UInt32) : (stored values).length = 4 * values.length := by
  induction values with
  | nil => rfl
  | cons value values ih =>
    rw [stored_cons, List.length_append, ih, storeLe32_length, List.length_cons]
    omega

theorem words_short {data : Bytes} (short : data.length < 4) : words data = [] := by
  unfold words
  split
  · simp only [List.length_cons] at short
    omega
  · rfl

theorem leftover_short {data : Bytes} (short : data.length < 4) : leftover data = data := by
  unfold leftover
  split
  · simp only [List.length_cons] at short
    omega
  · rfl

theorem words_store (value : UInt32) (rest : Bytes) :
    words (storeLe32 value ++ rest) = value :: words rest := by
  have loaded := loadLe32_storeLe32 value []
  rw [List.append_nil] at loaded
  obtain ⟨b0, b1, b2, b3, bytes⟩ : ∃ b0 b1 b2 b3, storeLe32 value = [b0, b1, b2, b3] := ⟨_, _, _, _, rfl⟩
  rw [bytes] at loaded ⊢
  rw [← loaded]
  rfl

theorem leftover_store (value : UInt32) (rest : Bytes) :
    leftover (storeLe32 value ++ rest) = leftover rest := rfl

theorem words_stored (values : List UInt32) (rest : Bytes) :
    words (stored values ++ rest) = values ++ words rest := by
  induction values with
  | nil => rfl
  | cons value values ih => rw [stored_cons, List.append_assoc, words_store, ih, List.cons_append]

theorem leftover_stored (values : List UInt32) (rest : Bytes) :
    leftover (stored values ++ rest) = leftover rest := by
  induction values with
  | nil => rfl
  | cons value values ih => rw [stored_cons, List.append_assoc, leftover_store, ih]

theorem stored_words (data : Bytes) : stored (words data) ++ leftover data = data := by
  fun_induction words data with
  | case1 b0 b1 b2 b3 rest ih =>
    rw [leftover, stored_cons, storeLe32_loadLe32, List.append_assoc, ih]
    rfl
  | case2 data short =>
    unfold leftover
    split
    · exact absurd rfl (short _ _ _ _ _)
    · rfl

theorem leftover_lt (data : Bytes) : (leftover data).length < 4 := by
  fun_induction leftover data with
  | case1 b0 b1 b2 b3 rest ih => exact ih
  | case2 tail short =>
    match tail, short with
    | [], _ | [_], _ | [_, _], _ | [_, _, _], _ => simp
    | b0 :: b1 :: b2 :: b3 :: rest, short => exact absurd rfl (short b0 b1 b2 b3 rest)

theorem words_length (data : Bytes) : 4 * (words data).length = data.length - data.length % 4 := by
  have whole := congrArg List.length (stored_words data)
  have rest := leftover_lt data
  rw [List.length_append, stored_length] at whole
  omega

theorem leftover_eq (data : Bytes) : leftover data = data.drop (data.length - data.length % 4) := by
  conv_rhs => rw [← words_length, ← stored_length, ← stored_words data]
  simp [words_stored, words_short (leftover_lt data)]

-- The state is the seed with the running second seed.
def encryptor : Mealy (UInt32 × UInt32) UInt32 UInt32 where
  next s value := (nextSeed s.1, nextSeed2 value (mixSeed2 s.1 s.2))
  out s value := value ^^^ (s.1 + mixSeed2 s.1 s.2)

def decryptor : Mealy (UInt32 × UInt32) UInt32 UInt32 where
  next s value := (nextSeed s.1, nextSeed2 (value ^^^ (s.1 + mixSeed2 s.1 s.2)) (mixSeed2 s.1 s.2))
  out s value := value ^^^ (s.1 + mixSeed2 s.1 s.2)

theorem xor_xor_self (a b : UInt32) : a ^^^ b ^^^ b = a := by
  rw [UInt32.xor_assoc, UInt32.xor_self, UInt32.xor_zero]

theorem decryptor_undoes : Mealy.Undoes decryptor encryptor where
  out _ value := xor_xor_self value _
  next s value := by
    simp only [decryptor, encryptor]
    rw [xor_xor_self]

theorem encryptor_undoes : Mealy.Undoes encryptor decryptor where
  out _ value := xor_xor_self value _
  next _ _ := rfl

theorem encryptWords_eq (seed seed2 : UInt32) (data : Bytes) :
    encryptWords seed seed2 data = stored (encryptor.run (seed, seed2) (words data)) ++ leftover data := by
  fun_induction encryptWords seed seed2 data with
  | case1 seed seed2 b0 b1 b2 b3 rest mixed value ch ih =>
    rw [ih, ← List.append_assoc]
    rfl
  | case2 seed seed2 tail short =>
    unfold words leftover
    split
    · exact absurd rfl (short _ _ _ _ _)
    · rfl

theorem decryptWords_eq (seed seed2 : UInt32) (data : Bytes) :
    decryptWords seed seed2 data = stored (decryptor.run (seed, seed2) (words data)) ++ leftover data := by
  fun_induction decryptWords seed seed2 data with
  | case1 seed seed2 b0 b1 b2 b3 rest mixed ch ih =>
    rw [ih, ← List.append_assoc]
    rfl
  | case2 seed seed2 tail short =>
    unfold words leftover
    split
    · exact absurd rfl (short _ _ _ _ _)
    · rfl

theorem words_whole (values : List UInt32) (data : Bytes) :
    words (stored values ++ leftover data) = values := by
  rw [words_stored, words_short (leftover_lt data), List.append_nil]

theorem leftover_whole (values : List UInt32) (data : Bytes) :
    leftover (stored values ++ leftover data) = leftover data := by
  rw [leftover_stored, leftover_short (leftover_lt data)]

theorem decryptWords_encryptWords (seed seed2 : UInt32) (data : Bytes) :
    decryptWords seed seed2 (encryptWords seed seed2 data) = data := by
  rw [decryptWords_eq, encryptWords_eq, words_whole, leftover_whole, decryptor_undoes.run, stored_words]

theorem encryptWords_decryptWords (seed seed2 : UInt32) (data : Bytes) :
    encryptWords seed seed2 (decryptWords seed seed2 data) = data := by
  rw [encryptWords_eq, decryptWords_eq, words_whole, leftover_whole, encryptor_undoes.run, stored_words]

theorem decryptBlock_encryptBlock (data : Bytes) (seed : UInt32) :
    decryptBlock (encryptBlock data seed) seed = data := decryptWords_encryptWords _ _ _

theorem encryptBlock_decryptBlock (data : Bytes) (seed : UInt32) :
    encryptBlock (decryptBlock data seed) seed = data := encryptWords_decryptWords _ _ _

theorem words_append {first : Bytes} (whole : first.length % 4 = 0) (second : Bytes) :
    words (first ++ second) = words first ++ words second ∧ leftover (first ++ second) = leftover second := by
  have nothing : leftover first = [] := by
    rw [leftover_eq, whole, Nat.sub_zero, List.drop_length]
  have split : first = stored (words first) := by
    conv_lhs => rw [← stored_words first, nothing, List.append_nil]
  constructor
  · rw [split, words_stored, ← split]
  · rw [split, leftover_stored]

theorem decryptBlock_take {count : Nat} (whole : count % 4 = 0) (data : Bytes) (seed : UInt32) :
    decryptBlock (data.take count) seed = (decryptBlock data seed).take count := by
  by_cases short : data.length ≤ count
  · rw [List.take_of_length_le short, List.take_of_length_le (by simpa using short)]
  · have length : (data.take count).length = count := List.length_take_of_le (by omega)
    obtain ⟨both, -⟩ := words_append (by rwa [length]) (data.drop count)
    obtain ⟨-, rest⟩ := words_append (by rwa [length]) []
    rw [List.append_nil] at rest
    rw [List.take_append_drop] at both
    have words := words_length (data.take count)
    rw [length] at words
    unfold decryptBlock
    rw [decryptWords_eq _ _ data, both, Mealy.run_append, stored, List.flatMap_append, List.append_assoc,
      List.take_left' (by rw [← stored, stored_length, Mealy.run_length, words, whole, Nat.sub_zero]),
      decryptWords_eq, rest, leftover, List.append_nil, stored]
    exact nofun

theorem encryptBlock_leftover (data : Bytes) (seed : UInt32) :
    leftover (encryptBlock data seed) = leftover data := by
  rw [encryptBlock, encryptWords_eq, leftover_whole]

theorem decryptBlock_leftover (data : Bytes) (seed : UInt32) :
    leftover (decryptBlock data seed) = leftover data := by
  rw [decryptBlock, decryptWords_eq, leftover_whole]

theorem encryptBlock_short {data : Bytes} (short : data.length < 4) (seed : UInt32) :
    encryptBlock data seed = data := by
  unfold encryptBlock encryptWords
  split
  · simp only [List.length_cons] at short
    omega
  · rfl

end Crypto

end LibMpq
