import LibMpq.Crypto

set_option autoImplicit false

namespace LibMpq

namespace Crypto

-- What the first word decrypts to under a seed; `secondWord` goes on from it.
def firstWord (data : Bytes) (seed : UInt32) : UInt32 :=
  loadLe32 data ^^^ (seed + mixSeed2 seed 0xEEEEEEEE)

theorem loadLe32_front (b0 b1 b2 b3 : UInt8) (rest : Bytes) :
    loadLe32 (b0 :: b1 :: b2 :: b3 :: rest) = loadLe32 [b0, b1, b2, b3] := by simp [loadLe32]

theorem drop_storeLe32 (value : UInt32) (rest : Bytes) : (storeLe32 value ++ rest).drop 4 = rest :=
  List.drop_left' (storeLe32_length value)

theorem decryptBlock_words {data : Bytes} (long : 8 ≤ data.length) (seed : UInt32) :
    loadLe32 (decryptBlock data seed) = firstWord data seed ∧
      loadLe32 ((decryptBlock data seed).drop 4) =
        secondWord data seed (firstWord data seed) (mixSeed2 seed 0xEEEEEEEE) := by
  match data, long with
  | b0 :: b1 :: b2 :: b3 :: c0 :: c1 :: c2 :: c3 :: rest, _ =>
    have first := loadLe32_front b0 b1 b2 b3 (c0 :: c1 :: c2 :: c3 :: rest)
    have second := loadLe32_front c0 c1 c2 c3 rest
    constructor
    · rw [decryptBlock, decryptWords, loadLe32_storeLe32, firstWord, first]
    · rw [decryptBlock, decryptWords, drop_storeLe32, decryptWords, loadLe32_storeLe32, secondWord, firstWord,
        first, ← second]
      rfl

def keyByte (seed : UInt32) : Nat := (seed &&& (0xFF : UInt32)).toNat

theorem keyByte_lt (seed : UInt32) : keyByte seed < 0x100 := by
  rw [keyByte, UInt32.toNat_and]
  exact Nat.lt_of_le_of_lt Nat.and_le_right (by decide)

theorem mixSeed2_eq (seed seed2 : UInt32) : mixSeed2 seed seed2 = seed2 + cryptBuf (0x400 + keyByte seed) := rfl

open scoped UInt32.CommRing in
theorem sub_mix (seed start mixed : UInt32) : seed + (start + mixed) - start - mixed = seed := by ring

open scoped UInt32.CommRing in
theorem sub_mixed (seed mixed : UInt32) : seed + mixed - mixed = seed := by ring

open scoped UInt32.CommRing in
theorem sub_add_mixed (sum mixed : UInt32) : sum - mixed + mixed = sum := by ring

-- The first word and its plaintext give the sum of the seed and the mixed second seed.
theorem firstWord_eq_iff {data : Bytes} {seed value : UInt32} :
    firstWord data seed = value ↔ loadLe32 data ^^^ value = seed + mixSeed2 seed 0xEEEEEEEE := by
  rw [firstWord]
  constructor
  · rintro rfl
    rw [← UInt32.xor_assoc, UInt32.xor_self, UInt32.zero_xor]
  · intro sum
    rw [← sum, ← UInt32.xor_assoc, UInt32.xor_self, UInt32.zero_xor]

-- What the search accepts: the plaintext's first two words, under the seed of the table.
def Plausible (data : Bytes) (size blockSize seed : UInt32) : Prop :=
  firstWord data seed = size ∧ secondWord data seed size (mixSeed2 seed 0xEEEEEEEE) - size ≤ blockSize

theorem tableSeed_sound {data : Bytes} {size blockSize key : UInt32} {low : Nat}
    (found : tableSeed data size blockSize low = some key) : Plausible data size blockSize (key - 1) := by
  simp only [tableSeed] at found
  split at found
  · cases found
  next first =>
    split at found
    next second =>
      cases found
      rw [sub_mixed]
      exact ⟨not_not.mp first, second⟩
    next => cases found

theorem tableSeed_complete {data : Bytes} {size blockSize seed : UInt32}
    (reasonable : Plausible data size blockSize seed) :
    tableSeed data size blockSize (keyByte seed) = some (seed + 1) := by
  obtain ⟨first, second⟩ := reasonable
  have inverted : (loadLe32 data ^^^ size) - 0xEEEEEEEE - cryptBuf (0x400 + keyByte seed) = seed := by
    rw [firstWord_eq_iff.mp first, mixSeed2_eq, sub_mix]
  simp only [tableSeed, inverted]
  rw [if_neg fun wrong => wrong first, if_pos second]

theorem deriveBlockTableSeed_sound {data : Bytes} {blockSize key : UInt32}
    (found : deriveBlockTableSeed data blockSize = some key) :
    8 ≤ data.length ∧ Plausible data (UInt32.ofNat data.length) blockSize (key - 1) := by
  rw [deriveBlockTableSeed] at found
  split at found
  · cases found
  next long =>
    obtain ⟨low, -, accepted⟩ := List.exists_of_findSome?_eq_some found
    exact ⟨not_lt.mp long, tableSeed_sound accepted⟩

theorem deriveBlockTableSeed_complete {data : Bytes} {blockSize seed : UInt32} (long : 8 ≤ data.length)
    (reasonable : Plausible data (UInt32.ofNat data.length) blockSize seed) :
    (deriveBlockTableSeed data blockSize).isSome = true := by
  rw [deriveBlockTableSeed, if_neg (not_lt.mpr long), List.findSome?_isSome_iff]
  exact ⟨keyByte seed, List.mem_range.mpr (keyByte_lt seed), by rw [tableSeed_complete reasonable]; rfl⟩

-- The plaintext starts with this signature, under the seed of the member.
def Signed (data : Bytes) (known : UInt32 × UInt32) (seed : UInt32) : Prop :=
  firstWord data seed = known.1 ∧ secondWord data seed known.1 (mixSeed2 seed 0xEEEEEEEE) = known.2

theorem signatureSeed_sound {data : Bytes} {low : Nat} {known : UInt32 × UInt32} {key : UInt32}
    (found : signatureSeed data low known = some key) : Signed data known key := by
  simp only [signatureSeed] at found
  split at found
  · cases found
  next guessed =>
    split at found
    next second =>
      injection found with same
      rw [same] at guessed second
      have mixed : mixSeed2 key 0xEEEEEEEE = 0xEEEEEEEE + cryptBuf (0x400 + low) := by
        rw [mixSeed2_eq, keyByte, not_not.mp guessed]
      constructor
      · rw [firstWord_eq_iff, mixed, ← same, sub_add_mixed]
      · rw [mixed, second]
    next => cases found

theorem signatureSeed_complete {data : Bytes} {known : UInt32 × UInt32} {seed : UInt32}
    (signed : Signed data known seed) : signatureSeed data (keyByte seed) known = some seed := by
  obtain ⟨first, second⟩ := signed
  rw [mixSeed2_eq] at second
  have inverted : (loadLe32 data ^^^ known.1) - (0xEEEEEEEE + cryptBuf (0x400 + keyByte seed)) = seed := by
    rw [firstWord_eq_iff.mp first, mixSeed2_eq, sub_mixed]
  simp only [signatureSeed, inverted]
  rw [if_neg fun wrong => wrong rfl, if_pos second]

theorem detectFileKey_sound {data : Bytes} {fileSize key : UInt32}
    (found : detectFileKey data fileSize = some key) :
    8 ≤ data.length ∧ ∃ known ∈ knownWords fileSize, Signed data known key := by
  rw [detectFileKey] at found
  split at found
  · cases found
  next long =>
    obtain ⟨low, -, matched⟩ := List.exists_of_findSome?_eq_some found
    obtain ⟨known, listed, accepted⟩ := List.exists_of_findSome?_eq_some matched
    exact ⟨not_lt.mp long, known, listed, signatureSeed_sound accepted⟩

theorem detectFileKey_complete {data : Bytes} {fileSize seed : UInt32} {known : UInt32 × UInt32}
    (long : 8 ≤ data.length) (listed : known ∈ knownWords fileSize) (signed : Signed data known seed) :
    (detectFileKey data fileSize).isSome = true := by
  rw [detectFileKey, if_neg (not_lt.mpr long), List.findSome?_isSome_iff]
  have inner : ((knownWords fileSize).findSome? (signatureSeed data (keyByte seed))).isSome = true := by
    rw [List.findSome?_isSome_iff]
    exact ⟨known, listed, by rw [signatureSeed_complete signed]; rfl⟩
  exact ⟨keyByte seed, List.mem_range.mpr (keyByte_lt seed), inner⟩

-- The first two words of a buffer.
def frontWords (data : Bytes) : UInt32 × UInt32 := (loadLe32 data, loadLe32 (data.drop 4))

theorem signed_iff {data : Bytes} (long : 8 ≤ data.length) (known : UInt32 × UInt32) (seed : UInt32) :
    Signed data known seed ↔ frontWords (decryptBlock data seed) = known := by
  obtain ⟨first, second⟩ := decryptBlock_words long seed
  obtain ⟨one, two⟩ := known
  simp only [Signed, frontWords, first, second, Prod.mk.injEq]
  constructor
  · rintro ⟨rfl, rest⟩
    exact ⟨rfl, rest⟩
  · rintro ⟨rfl, rest⟩
    exact ⟨rfl, rest⟩

theorem plausible_iff {data : Bytes} (long : 8 ≤ data.length) (size blockSize seed : UInt32) :
    Plausible data size blockSize seed ↔
      loadLe32 (decryptBlock data seed) = size ∧
        loadLe32 ((decryptBlock data seed).drop 4) - size ≤ blockSize := by
  obtain ⟨first, second⟩ := decryptBlock_words long seed
  rw [Plausible, first, second]
  constructor
  · rintro ⟨rfl, rest⟩
    exact ⟨rfl, rest⟩
  · rintro ⟨rfl, rest⟩
    exact ⟨rfl, rest⟩

theorem sub_le_of_between {first second limit : UInt32} (above : first.toNat ≤ second.toNat)
    (near : second.toNat ≤ first.toNat + limit.toNat) : second - first ≤ limit := by
  rw [UInt32.le_iff_toNat_le, UInt32.toNat_sub_of_le _ _ (UInt32.le_iff_toNat_le.mpr above)]
  omega

theorem le_add_of_sub_le {first second limit : UInt32} (near : second - first ≤ limit) :
    second.toNat ≤ first.toNat + limit.toNat := by
  rw [UInt32.le_iff_toNat_le, UInt32.toNat_sub] at near
  have := first.toNat_lt
  have := second.toNat_lt
  omega

/-- What the two searches owe: a key for everything that was encrypted so, and nothing else. -/
structure RecoveryLaw : Prop where
  tableFound : ∀ (seed blockSize : UInt32) (table : Bytes), 8 ≤ table.length →
    (loadLe32 table).toNat = table.length →
      (loadLe32 table).toNat ≤ (loadLe32 (table.drop 4)).toNat →
        (loadLe32 (table.drop 4)).toNat ≤ (loadLe32 table).toNat + blockSize.toNat →
          (deriveBlockTableSeed (encryptBlock table (seed - 1)) blockSize).isSome = true
  tableSound : ∀ (data : Bytes) (blockSize key : UInt32), deriveBlockTableSeed data blockSize = some key →
    loadLe32 (decryptBlock data (key - 1)) = UInt32.ofNat data.length ∧
      loadLe32 ((decryptBlock data (key - 1)).drop 4) - UInt32.ofNat data.length ≤ blockSize ∧
        (loadLe32 ((decryptBlock data (key - 1)).drop 4)).toNat ≤
          (UInt32.ofNat data.length).toNat + blockSize.toNat
  signatureFound : ∀ (seed fileSize : UInt32) (plain : Bytes), 8 ≤ plain.length →
    frontWords plain ∈ knownWords fileSize →
      (detectFileKey (encryptBlock plain seed) fileSize).isSome = true
  signatureSound : ∀ (data : Bytes) (fileSize key : UInt32), detectFileKey data fileSize = some key →
    frontWords (decryptBlock (data.take 8) key) ∈ knownWords fileSize

theorem key_recovery : RecoveryLaw where
  tableFound seed blockSize table long size above near := by
    have whole : 8 ≤ (encryptBlock table (seed - 1)).length := by rwa [encryptBlock_length]
    refine deriveBlockTableSeed_complete whole ((plausible_iff whole _ _ (seed - 1)).mpr ?_)
    rw [decryptBlock_encryptBlock, encryptBlock_length]
    have first : loadLe32 table = UInt32.ofNat table.length := by rw [← size, UInt32.ofNat_toNat]
    exact ⟨first, first ▸ sub_le_of_between above near⟩
  tableSound data blockSize key found := by
    obtain ⟨long, reasonable⟩ := deriveBlockTableSeed_sound found
    obtain ⟨first, second⟩ := (plausible_iff long _ _ _).mp reasonable
    exact ⟨first, second, le_add_of_sub_le second⟩
  signatureFound seed fileSize plain long listed := by
    have whole : 8 ≤ (encryptBlock plain seed).length := by rwa [encryptBlock_length]
    refine detectFileKey_complete whole listed ((signed_iff whole _ seed).mpr ?_)
    rw [decryptBlock_encryptBlock]
  signatureSound data fileSize key found := by
    obtain ⟨long, known, listed, signed⟩ := detectFileKey_sound found
    have front := decryptBlock_take (show 8 % 4 = 0 by rfl) data key
    rw [(signed_iff long known key).mp signed |>.symm] at listed
    rw [front]
    have words : frontWords ((decryptBlock data key).take 8) = frontWords (decryptBlock data key) := by
      simp [frontWords, loadLe32, List.take_take, List.drop_take]
    rwa [words]

end Crypto

end LibMpq
