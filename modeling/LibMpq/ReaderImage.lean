import LibMpq.ReaderHealthy
import LibMpq.ReaderOpen

set_option autoImplicit false

namespace LibMpq

open Effect Bits

namespace StoredMember

variable {codecs : Codecs} (m : StoredMember codecs)

theorem has_exists {bits : UInt32} (other : Flag.exists_ &&& bits = 0) :
    has (Flag.exists_ ||| m.flags) bits = has m.flags bits := by
  rw [or_has, has, other]
  rfl

theorem serialized_eq : Reading.serialized (Flag.exists_ ||| m.flags) = Writing.sectorTable m.flags := by
  have tabled : has (Flag.exists_ ||| m.flags) (Flag.compressed ||| Flag.compressPkzip) =
      (has m.flags Flag.implode || has m.flags Flag.compress) := by
    rw [or_has, has_known m.known, ← has_or]
    rfl
  rw [Reading.serialized, Writing.sectorTable, tabled, or_has]
  cases has m.flags Flag.single <;> cases has m.flags Flag.implode <;>
    cases has m.flags Flag.compress <;> rfl

theorem blockMethod_eq : Reading.blockMethod (Flag.exists_ ||| m.flags) = Reading.blockMethod m.flags := by
  rw [Reading.blockMethod, Reading.blockMethod, m.has_exists (by decide), m.has_exists (by decide)]

theorem offset_mono {i j : Nat} (le : i ≤ j) (inside : j ≤ m.count) : m.offset i ≤ m.offset j := by
  rw [m.offset_of_le inside, m.offset_of_le (le.trans inside)]
  exact Nat.add_le_add_left (Segments.start_mono m.stored le) _

theorem offset_zero : m.offset 0 = m.tableSize := by
  rw [m.offset_of_le (Nat.zero_le _), Segments.start_zero, Nat.add_zero]

theorem offset_le_image (i : Nat) : m.offset i ≤ m.image.length := by
  by_cases inside : i ≤ m.count
  · exact m.offset_le inside
  · rw [offset, if_neg inside, image_length, Nat.add_assoc]

theorem packed_raw {i : Nat} (below : i < m.count) (raw : Reading.blockMethod m.flags = Flag.compressNone)
    (small : (Bytes.piece m.sectorSize m.content i).length < 2 ^ 31) :
    m.packed i = Bytes.piece m.sectorSize m.content i := by
  have recovers := m.recovers i below
  rw [raw] at recovers
  have size : (UInt32.ofNat (Bytes.piece m.sectorSize m.content i).length).toNat =
      (Bytes.piece m.sectorSize m.content i).length :=
    UInt32.toNat_ofNat_of_lt' (by simp only [UInt32.size]; omega)
  obtain ⟨status, -⟩ := recovers.decodes small [] _ size
  have whole : (m.packed i).length = (Bytes.piece m.sectorSize m.content i).length := by
    by_contra other
    have short : (m.packed i).length < (Bytes.piece m.sectorSize m.content i).length :=
      lt_of_le_of_ne recovers.length_le other
    rw [Compression.decompressBlock, if_pos rfl, if_pos (by rwa [size])] at status
    have negative : Error.size.code < 0 := Error.code_neg _
    rw [show Error.size.code = Int32.ofNat _ from status, Int32.lt_iff_toInt_lt,
      Int32.toInt_ofNat_of_lt small] at negative
    exact absurd negative (by simp)
  obtain ⟨-, bytes⟩ := recovers.decodes small [] _ size
  rw [Compression.decompressBlock, if_pos rfl, if_neg (by omega),
    Compression.copyOut_whole (size.trans whole.symm), ← whole] at bytes
  rwa [Bytes.take_overlay] at bytes

end StoredMember

namespace Reading

structure Placed {codecs : Codecs} (a : ReadArchive) (number : Nat) (m : StoredMember codecs) : Prop where
  member : number < a.files
  holds : a.source.Holds (payloadOffset a (entryIndex a number)) m.image
  inside : payloadOffset a (entryIndex a number) + m.image.length ≤ a.source.size
  packedSize : (entry a number).packedSize.toNat = m.image.length
  unpackedSize : (entry a number).unpackedSize.toNat = m.content.length
  flags : (entry a number).flags = Flag.exists_ ||| m.flags
  version : a.header.version.toUInt32 = m.version
  sectorSize : a.blockSize.toNat = m.sectorSize
  exclusive : ¬ (has m.flags Flag.compress = true ∧ has m.flags Flag.implode = true)
  sector : 512 ≤ m.sectorSize

section placed

variable {codecs : Codecs} {a : ReadArchive} {number : Nat} {m : StoredMember codecs}

theorem Placed.positive (placed : Placed a number m) : 0 < m.sectorSize :=
  (Nat.succ_pos 511).trans_le placed.sector

theorem Placed.has_eq (placed : Placed a number m) {bits : UInt32} (other : Flag.exists_ &&& bits = 0) :
    has (entry a number).flags bits = has m.flags bits := by
  rw [placed.flags, m.has_exists other]

theorem Placed.size_eq (placed : Placed a number m) : memberSize a number = m.content.length :=
  placed.unpackedSize

theorem Placed.countable_iff (placed : Placed a number m) :
    Countable a number ↔ has m.flags Flag.single = true ∨ m.content.length + m.sectorSize ≤ 2 ^ 32 := by
  rw [Countable, placed.has_eq (by decide), placed.size_eq, placed.sectorSize]

theorem Placed.count_eq (placed : Placed a number m) (countable : Countable a number)
    (some : m.content ≠ [] ∨ has m.flags Flag.single = true) : countFileBlocks a number = m.count := by
  by_cases single : has m.flags Flag.single = true
  · rw [countFileBlocks, placed.has_eq (by decide), if_pos single, m.single single]
  · have some := some.resolve_right single
    have positive : 0 < a.blockSize.toNat := by rw [placed.sectorSize]; exact placed.positive
    rw [countFileBlocks_multi positive (by rwa [placed.has_eq (by decide)]) countable, placed.size_eq,
      placed.sectorSize]
    have covers := m.covers
    have tight := m.tight some
    have least := m.positive
    have split : m.count * m.sectorSize = (m.count - 1) * m.sectorSize + m.sectorSize := by
      rw [← Nat.succ_mul, Nat.succ_eq_add_one, Nat.sub_add_cancel least]
    have more := placed.positive
    refine Nat.div_eq_of_lt_le ?_ ?_
    · omega
    · rw [Nat.succ_mul]
      omega

theorem Placed.entries_le (placed : Placed a number m) (tabled : Writing.sectorTable m.flags = true) :
    m.entries * 4 ≤ m.image.length ∧ m.image.length < 2 ^ 32 := by
  have small := (entry a number).packedSize.toNat_lt
  rw [placed.packedSize] at small
  refine ⟨?_, small⟩
  rw [m.image_length, StoredMember.tableSize, if_pos tabled, Nat.add_assoc]
  exact Nat.le_add_right _ _

theorem Placed.offset_toNat (placed : Placed a number m) (i : Nat) :
    (UInt32.ofNat (m.offset i)).toNat = m.offset i := by
  have small := (entry a number).packedSize.toNat_lt
  rw [placed.packedSize] at small
  exact UInt32.toNat_ofNat_of_lt' ((m.offset_le_image i).trans_lt small)

theorem Placed.payloadRange (placed : Placed a number m) {relative size : Nat}
    (inside : relative + size ≤ m.image.length) :
    Reading.payloadRange a (entryIndex a number) relative size := by
  have source := placed.inside
  exact ⟨by omega, by omega⟩

def plainTable (m : StoredMember codecs) : Bytes :=
  Wire.le32.encodeTable (fun i => UInt32.ofNat (m.offset i)) m.entries

theorem plainTable_offset {i : Nat} (inside : i < m.entries) :
    Wire.le32.decodeTable (plainTable m) i = UInt32.ofNat (m.offset i) := by
  have decoded := Wire.le32.decodeTable_encodeTable (fun i => UInt32.ofNat (m.offset i)) inside []
  rwa [List.append_nil] at decoded

theorem plainTable_first (tabled : Writing.sectorTable m.flags = true) :
    Crypto.loadLe32 (plainTable m) = UInt32.ofNat (m.entries * 4) := by
  have least : 0 < m.entries := by
    rw [StoredMember.entries]
    omega
  have first := plainTable_offset least
  rw [m.offset_zero, StoredMember.tableSize, if_pos tabled] at first
  rw [← first, Wire.decodeTable, Nat.zero_mul, List.drop_zero]
  rfl

theorem Placed.ascending (placed : Placed a number m) {count : Nat} (le : count ≤ m.count + 1)
    {table : Nat → UInt32} (offsets : ∀ i, i < count → table i = UInt32.ofNat (m.offset i)) :
    ascending table (entry a number).packedSize count = true := by
  rw [Reading.ascending, List.all_eq_true]
  intro i below
  have below := List.mem_range.mp below
  rw [offsets i (by omega), offsets (i + 1) (by omega), decide_eq_true_eq, UInt32.le_iff_toNat_le,
    UInt32.le_iff_toNat_le, placed.offset_toNat, placed.offset_toNat, placed.packedSize]
  exact ⟨m.offset_mono (Nat.le_succ i) (by omega), m.offset_le_image _⟩

def Keyed (a : ReadArchive) (number : Nat) (m : StoredMember codecs) (name : Option Bytes) : Prop :=
  has m.flags Flag.encrypted = true → name.map (fileSeed (entry a number)) = some m.key

theorem setFlags_self (index : Nat) (a : ReadArchive) : setFlags index (a.block index).flags a = a := by
  unfold setFlags
  congr 1
  funext j
  split
  next here => rw [here]
  next => rfl

theorem Placed.encrypted_flags (placed : Placed a number m)
    (encrypted : has m.flags Flag.encrypted = true) :
    (entry a number).flags ||| Flag.encrypted = (entry a number).flags := by
  have single : Bits.Single Flag.encrypted := ⟨16, by decide⟩
  exact single.or_eq (by rwa [placed.has_eq (by decide)])

theorem table_eq (tabled : Writing.sectorTable m.flags = true) :
    m.table = m.encrypt (plainTable m) (m.key - 1) := by
  rw [StoredMember.table, if_pos tabled]
  rfl

theorem Placed.table_read (placed : Placed a number m) (tabled : Writing.sectorTable m.flags = true) :
    sourceReadAt a.source (payloadOffset a (entryIndex a number)) (m.entries * 4) Faults.healthy =
      .ok m.table Faults.healthy := by
  have length : m.table.length = m.entries * 4 := by
    rw [m.table_length, StoredMember.tableSize, if_pos tabled]
  have whole := placed.holds
  rw [StoredMember.image, List.append_assoc] at whole
  have some : m.table ≠ [] := by
    rw [← List.length_pos_iff, length, StoredMember.entries]
    omega
  rw [← length]
  exact sourceReadAt_stored (File.holds_append.mp whole).1 some

theorem Placed.settled (placed : Placed a number m) (tabled : Writing.sectorTable m.flags = true) :
    (if looksEncrypted m.table (m.entries * 4) then
        modify (setFlags (entryIndex a number) ((a.block (entryIndex a number)).flags ||| Flag.encrypted))
      else pure () : Op Error ReadArchive Unit) a = .ok () a := by
  split
  next looks =>
    have encrypted : has m.flags Flag.encrypted = true := by
      by_contra plain
      rw [table_eq tabled, StoredMember.encrypt, if_neg plain] at looks
      exact looks.1 (plainTable_first tabled)
    have same := placed.encrypted_flags encrypted
    rw [entry] at same
    rw [modify_run, same, setFlags_self]
  next => rfl

theorem Placed.decrypted (placed : Placed a number m) (tabled : Writing.sectorTable m.flags = true)
    {name : Option Bytes} (keyed : Keyed a number m name) :
    (if has (a.block (entryIndex a number)).flags Flag.encrypted = true then
        decryptTable a (m.entries * 4) m.table (name.map (fileSeed (entry a number)))
      else pure { raw := m.table, seed := name.map (fileSeed (entry a number)) } :
        Op Error ReadArchive LoadedTable) a =
      .ok { raw := plainTable m, seed := name.map (fileSeed (entry a number)) } a := by
  have flag : has (a.block (entryIndex a number)).flags Flag.encrypted = has m.flags Flag.encrypted :=
    placed.has_eq (by decide)
  rw [flag, table_eq tabled, StoredMember.encrypt]
  split
  next encrypted =>
    have first : ¬ Crypto.loadLe32 (Crypto.decryptBlock (Crypto.encryptBlock (plainTable m) (m.key - 1))
        (m.key - 1)) ≠ UInt32.ofNat (m.entries * 4) := by
      rw [Crypto.decryptBlock_encryptBlock]
      exact not_not.mpr (plainTable_first tabled)
    rw [keyed encrypted, decryptTable, Option.orElse_some]
    simp only
    rw [bind_of_ok (failIf_false first _ _), pure_run, Crypto.decryptBlock_encryptBlock]
  next plain => rw [pure_run]

theorem loadTable_placed (placed : Placed a number m) (quiet : a.plan = Faults.healthy)
    (tabled : Writing.sectorTable m.flags = true) {name : Option Bytes} (keyed : Keyed a number m name) :
    loadTable number (m.entries * 4) (m.count + 1) (name.map (fileSeed (entry a number))) a =
      .ok
        { table := Wire.le32.decodeTable (plainTable m)
          seed := name.map (fileSeed (entry a number)) } a := by
  obtain ⟨room, small⟩ := placed.entries_le tabled
  have first : ¬ Wire.le32.decodeTable (plainTable m) 0 ≠ UInt32.ofNat (m.entries * 4) := by
    rw [← plainTable_first tabled, Wire.decodeTable, Nat.zero_mul, List.drop_zero]
    exact not_not.mpr rfl
  have ordered : ¬ ascending (Wire.le32.decodeTable (plainTable m))
      (a.block (entryIndex a number)).packedSize (m.count + 1) = false := by
    rw [Bool.not_eq_false]
    exact placed.ascending le_rfl fun i below => plainTable_offset (by rw [StoredMember.entries]; omega)
  have fits : ¬ ((a.block (entryIndex a number)).packedSize.toNat < m.entries * 4 ∨
      ¬ Reading.payloadRange a (entryIndex a number) 0 (m.entries * 4)) := by
    have size : (a.block (entryIndex a number)).packedSize.toNat = m.image.length := placed.packedSize
    rw [size, not_or, not_not]
    exact ⟨Nat.not_lt.mpr room, placed.payloadRange (by omega)⟩
  unfold loadTable
  rw [bind_of_ok (get_run a), bind_of_ok (failIf_false fits _ _),
    bind_of_ok (onPlan_healthy quiet (request_healthy _)),
    bind_of_ok (onPlan_healthy quiet (placed.table_read tabled)), bind_of_ok (placed.settled tabled),
    bind_of_ok (get_run a), bind_of_ok (placed.decrypted tabled keyed), bind_of_ok (failIf_false first _ _),
    bind_of_ok (failIf_false ordered _ _), pure_run]

def Reportable (m : StoredMember codecs) : Prop := min m.sectorSize m.content.length < 2 ^ 31

theorem Reportable.piece_lt (reportable : Reportable m) (i : Nat) :
    (Bytes.piece m.sectorSize m.content i).length < 2 ^ 31 := by
  unfold Reportable at reportable
  rw [Bytes.piece_length]
  omega

theorem sums_nil (plain : Writing.sectorTable m.flags = false) : m.sums = [] := by
  refine m.unchecked (Bool.eq_false_iff.mpr fun crc => ?_)
  rw [(m.checked crc).1] at plain
  cases plain

theorem offset_untabled (plain : Writing.sectorTable m.flags = false) {i : Nat} (le : i ≤ m.count) :
    m.offset i = Segments.start m.packed i := by
  rw [m.offset_of_le le, StoredMember.tableSize, if_neg (by rw [plain]; decide), Nat.zero_add]
  exact Segments.start_of_lengths m.stored_length i

theorem start_raw (reportable : Reportable m) (raw : blockMethod m.flags = Flag.compressNone) {i : Nat}
    (le : i ≤ m.count) : Segments.start m.packed i = min (i * m.sectorSize) m.content.length := by
  induction i with
  | zero => simp
  | succ i ih =>
    rw [Segments.start_succ, ih (by omega), m.packed_raw le raw (reportable.piece_lt i),
      Bytes.piece_length, Nat.succ_mul]
    omega

theorem Placed.synthesized_eq (placed : Placed a number m) (countable : Countable a number)
    (reportable : Reportable m) (plain : Writing.sectorTable m.flags = false)
    (some : m.content ≠ [] ∨ has m.flags Flag.single = true) {i : Nat} (le : i ≤ m.count) :
    synthesized a number i = UInt32.ofNat (m.offset i) := by
  have count := placed.count_eq countable some
  rw [synthesized, offset_untabled plain le]
  simp only [placed.has_eq (show Flag.exists_ &&& Flag.single = 0 by decide), count]
  by_cases single : has m.flags Flag.single = true
  · have one := m.single single
    rw [if_pos single]
    rcases Nat.le_one_iff_eq_zero_or_eq_one.mp (one ▸ le) with rfl | rfl
    · rfl
    · have image : m.image.length = Segments.start m.packed 1 := by
        rw [m.image_length, StoredMember.tableSize, if_neg (by rw [plain]; decide), sums_nil plain, one,
          Nat.zero_add]
        exact Segments.start_of_lengths m.stored_length 1
      rw [if_pos rfl, ← image, ← placed.packedSize, UInt32.ofNat_toNat]
  · have raw : blockMethod m.flags = Flag.compressNone := by
      rw [Writing.sectorTable, decide_eq_false_iff_not] at plain
      rw [blockMethod, if_neg fun compressed => plain ⟨Bool.eq_false_iff.mpr single, .inl compressed⟩,
        if_neg fun imploded => plain ⟨Bool.eq_false_iff.mpr single, .inr imploded⟩]
    have covers := m.covers
    have tight := m.tight (some.resolve_right single)
    rw [if_neg single, start_raw reportable raw le]
    by_cases last : i = m.count
    · rw [if_pos last, last, Nat.min_eq_right covers, ← placed.unpackedSize, UInt32.ofNat_toNat]
    · have before : i * m.sectorSize ≤ (m.count - 1) * m.sectorSize :=
        Nat.mul_le_mul_right _ (by omega)
      rw [if_neg last, Nat.min_eq_left (by omega), ← placed.sectorSize, UInt32.ofNat_mul,
        UInt32.ofNat_toNat]

theorem Placed.count_le (placed : Placed a number m) : m.count ≤ 2 ^ 23 := by
  have size := (entry a number).unpackedSize.toNat_lt
  rw [placed.unpackedSize] at size
  by_cases none : m.content = []
  · rw [m.empty none]
    decide
  · have tight := m.tight none
    have sectors : (m.count - 1) * 512 ≤ (m.count - 1) * m.sectorSize :=
      Nat.mul_le_mul_left _ placed.sector
    omega

def cacheOf (a : ReadArchive) (number : Nat) (m : StoredMember codecs) (name : Option Bytes) :
    FileCache where
  packedOffset :=
    if Writing.sectorTable m.flags then Wire.le32.decodeTable (plainTable m) else synthesized a number
  packedOffsetCount := m.count + 1
  openCount := 1
  seed := name.map (fileSeed (entry a number))

theorem detectSeed_placed (placed : Placed a number m) {name : Option Bytes} (keyed : Keyed a number m name)
    (count : Nat) (table : Nat → UInt32) :
    detectSeed number count { table, seed := name.map (fileSeed (entry a number)) } a =
      .ok { table, seed := name.map (fileSeed (entry a number)) } a := by
  have known : ¬ ((entry a number).flags &&& (Flag.encrypted ||| Flag.compressed) = Flag.encrypted ∧
      name.map (fileSeed (entry a number)) = none ∧ (entry a number).packedSize.toNat ≥ 4) := by
    rintro ⟨masked, unknown, -⟩
    have encrypted : has m.flags Flag.encrypted = true := by
      rw [← placed.has_eq (by decide), has]
      have both : (entry a number).flags &&& Flag.encrypted =
          (entry a number).flags &&& (Flag.encrypted ||| Flag.compressed) &&& Flag.encrypted := by
        rw [UInt32.and_assoc]
        rfl
      rw [both, masked]
      decide
    rw [keyed encrypted] at unknown
    cases unknown
  unfold detectSeed
  rw [bind_of_ok (get_run a)]
  simp only
  rw [if_neg known, pure_run]

section acquire

variable (placed : Placed a number m) (quiet : a.plan = Faults.healthy) (countable : Countable a number)
  (some_ : m.content ≠ [] ∨ has m.flags Flag.single = true)
include placed quiet countable some_

theorem loadOffsets_placed {name : Option Bytes} (keyed : Keyed a number m name) :
    loadOffsets number name a = .ok (cacheOf a number m name) a := by
  have count := placed.count_eq countable some_
  have few := placed.count_le
  have bounded : ¬ countFileBlocks a number > (2 ^ 32 - 1) / 4 - 2 := by
    rw [count]
    omega
  have size : 4 * (m.count + 1) + (if has (entry a number).flags Flag.sectorCrc then 4 else 0) =
      m.entries * 4 := by
    rw [placed.has_eq (by decide), StoredMember.entries]
    split <;> omega
  have table : (if serialized (entry a number).flags then
        loadTable number (m.entries * 4) (m.count + 1) (name.map (fileSeed (entry a number)))
      else pure { table := synthesized a number, seed := name.map (fileSeed (entry a number)) } :
        Op Error ReadArchive Offsets) a =
      .ok
        { table := (cacheOf a number m name).packedOffset
          seed := name.map (fileSeed (entry a number)) } a := by
    rw [placed.flags, m.serialized_eq, cacheOf]
    split
    next tabled => exact loadTable_placed placed quiet tabled keyed
    next => rw [pure_run]
  unfold loadOffsets
  rw [bind_of_ok (get_run a)]
  simp only
  rw [bind_of_ok (failIf_false bounded _ _), bind_of_ok (onPlan_healthy quiet (request_healthy _)),
    bind_of_ok (onPlan_healthy quiet (request_healthy _)), count, size, bind_of_ok table,
    bind_of_ok (detectSeed_placed placed keyed _ _), pure_run]
  rfl

theorem offsetsAcquire_placed {name : Option Bytes} (keyed : Keyed a number m name)
    (fresh : a.cache number = none) :
    offsetsAcquire number name a = .ok () (storeCache number (some (cacheOf a number m name)) a) := by
  unfold offsetsAcquire
  rw [bind_of_ok (get_run a), bind_of_ok (failIf_false (Nat.not_le.mpr placed.member) _ _), fresh]
  simp only
  rw [bind_of_ok (loadOffsets_placed placed quiet countable some_ keyed), modify_run]

omit quiet in
theorem Placed.blockSize_eq {i : Nat} (below : i < m.count) :
    unpackedBlockSize a number i = (Bytes.piece m.sectorSize m.content i).length := by
  have positive : 0 < a.blockSize.toNat := by rw [placed.sectorSize]; exact placed.positive
  have covers := m.covers
  rw [unpackedBlockSize_eq positive (by rwa [placed.count_eq countable some_]), Bytes.piece_length,
    unitOf, placed.has_eq (by decide), placed.size_eq, placed.sectorSize, Nat.succ_mul]
  split
  next single =>
    have one := m.single single
    rw [one] at below covers
    rw [Nat.lt_one_iff.mp below]
    omega
  next => omega

variable (reportable : Reportable m)
include reportable

structure Knows (m : StoredMember codecs) (file : FileCache) : Prop where
  offsets : ∀ i, i ≤ m.count → file.packedOffset i = UInt32.ofNat (m.offset i)
  sums : has m.flags Flag.sectorCrc = true →
    file.packedOffset (m.count + 1) = UInt32.ofNat (m.offset (m.count + 1))
  count : file.packedOffsetCount = m.count + 1
  seed : has m.flags Flag.encrypted = true → file.seed = some m.key

omit quiet in
theorem knows_cacheOf {name : Option Bytes} (keyed : Keyed a number m name) :
    Knows m (cacheOf a number m name) where
  offsets i le := by
    unfold cacheOf
    cases tabled : Writing.sectorTable m.flags with
    | true => exact plainTable_offset (by rw [StoredMember.entries]; omega)
    | false => exact placed.synthesized_eq countable reportable tabled some_ le
  sums crc := by
    rw [cacheOf, if_pos (m.checked crc).1]
    exact plainTable_offset (by rw [StoredMember.entries, if_pos crc]; omega)
  count := rfl
  seed := keyed

omit placed countable some_ quiet reportable in
theorem stored_holds {f : File} {pos : Nat} (holds : f.Holds pos m.image) {i : Nat} (below : i < m.count) :
    f.Holds (pos + m.offset i) (m.stored i) := by
  rw [StoredMember.image, List.append_assoc] at holds
  have sectors := (File.holds_append.mp (File.holds_append.mp holds).2).1
  rw [m.table_length] at sectors
  rw [m.offset_of_le below.le, ← Nat.add_assoc]
  exact Segments.holds_of_join sectors below

variable {file : FileCache} (knows : Knows m file)
include knows

section cached

variable (cached : a.cache number = some file)
include cached

omit quiet reportable in
theorem packedBlock_placed {i : Nat} (below : i < m.count) :
    packedBlock a number i = some (m.packed i) := by
  have start := knows.offsets i below.le
  have stop := knows.offsets (i + 1) below
  have next := m.offset_succ below
  have last := m.offset_le_image (i + 1)
  have order : UInt32.ofNat (m.offset i) ≤ UInt32.ofNat (m.offset (i + 1)) := by
    rw [UInt32.le_iff_toNat_le, placed.offset_toNat, placed.offset_toNat]
    omega
  have length : (UInt32.ofNat (m.offset (i + 1)) - UInt32.ofNat (m.offset i)).toNat =
      (m.packed i).length := by
    rw [UInt32.toNat_sub_of_le _ _ order, placed.offset_toNat, placed.offset_toNat]
    omega
  have valid : packedRange a number i file := by
    refine ⟨placed.member, ?_, ?_, ?_, ?_, ?_⟩
    · exact below.trans_eq (placed.count_eq countable some_).symm
    · rw [knows.count]
      exact Nat.succ_lt_succ below
    · rw [start, stop]
      exact order
    · rw [stop, UInt32.le_iff_toNat_le, placed.offset_toNat]
      exact last.trans_eq placed.packedSize.symm
    · rw [start, stop, length, placed.offset_toNat]
      exact placed.payloadRange (by omega)
  have stored : storedBlock a number i file = m.stored i := by
    rw [storedBlock, start, stop, length, placed.offset_toNat, ← m.stored_length]
    exact (stored_holds placed.holds below).read
  rw [packedBlock, cached]
  simp only
  rw [if_pos valid, stored, decryptStored, start, stop, length, StoredMember.stored, StoredMember.encrypt,
    placed.has_eq (by decide)]
  by_cases encrypted : has m.flags Flag.encrypted = true
  · rw [if_pos encrypted]
    by_cases short : (m.packed i).length < 4
    · rw [if_neg (by omega), Crypto.encryptBlock_short short]
    · rw [if_pos ⟨encrypted, by omega⟩, knows.seed encrypted, Option.map_some,
        Crypto.decryptBlock_encryptBlock]
  · rw [if_neg encrypted, if_neg fun both => encrypted both.1]

omit quiet in
theorem blockData_placed {i : Nat} (below : i < m.count) :
    blockData codecs a number i = some (Bytes.piece m.sectorSize m.content i) := by
  have small := reportable.piece_lt i
  have size : (UInt32.ofNat (Bytes.piece m.sectorSize m.content i).length).toNat =
      (Bytes.piece m.sectorSize m.content i).length :=
    UInt32.toNat_ofNat_of_lt' (by simp only [UInt32.size]; omega)
  obtain ⟨status, bytes⟩ := (m.recovers i below).decodes small
    (Bytes.zeros (Bytes.piece m.sectorSize m.content i).length) _ size
  have reported : ¬ Int32.ofNat (Bytes.piece m.sectorSize m.content i).length < 0 := by
    rw [Int32.lt_iff_toInt_lt, Int32.toInt_ofNat_of_lt small]
    simp
  rw [blockData, packedBlock_placed placed countable some_ knows cached below, Option.bind_some,
    placed.blockSize_eq countable some_ below, placed.flags, placed.version, unpacked, m.blockMethod_eq,
    m.has_exists (by decide), m.has_exists (by decide), if_neg placed.exclusive, status, if_neg reported,
    Int32.toNatClampNeg_ofNat_of_lt small, bytes]

omit quiet in
theorem definite_placed {i : Nat} (below : i < m.count) : Definite codecs a number i := by
  intro packed stored
  rw [packedBlock_placed placed countable some_ knows cached below] at stored
  cases stored
  have small := reportable.piece_lt i
  rw [placed.blockSize_eq countable some_ below, placed.flags, placed.version, m.blockMethod_eq]
  exact (m.recovers i below).determined small
    (UInt32.toNat_ofNat_of_lt' (by simp only [UInt32.size]; omega))

omit quiet in
theorem whole_placed : Whole codecs a number := by
  intro i below
  have below : i < m.count := by rwa [← placed.count_eq countable some_]
  exact ⟨definite_placed placed countable some_ reportable knows cached below, _, blockData_placed placed countable some_ reportable knows cached below,
    (placed.blockSize_eq countable some_ below).symm⟩

omit quiet in
theorem contentUpTo_placed : contentUpTo codecs a number (countFileBlocks a number) = m.content := by
  have pieces : contentUpTo codecs a number m.count =
      (List.range m.count).flatMap (Bytes.piece m.sectorSize m.content) := by
    refine List.flatMap_congr fun i inside => ?_
    rw [dataAt, blockData_placed placed countable some_ reportable knows cached (List.mem_range.mp inside),
      Option.getD_some]
  rw [placed.count_eq countable some_, pieces, Bytes.flatMap_piece, List.take_of_length_le m.covers]

end cached

omit placed countable some_ quiet reportable knows in
theorem sums_holds {f : File} {pos : Nat} (holds : f.Holds pos m.image) :
    f.Holds (pos + m.offset m.count) m.sums := by
  rw [StoredMember.image] at holds
  have behind := (File.holds_append.mp holds).2
  rw [List.length_append, m.table_length] at behind
  rw [m.offset_of_le le_rfl]
  exact behind

def sumTable (m : StoredMember codecs) : Bytes :=
  Wire.le32.encodeTable (fun i => Checksum.adler32 0 (m.packed i)) m.count

omit placed countable some_ quiet reportable knows in
theorem sumTable_length (m : StoredMember codecs) : (sumTable m).length = m.count * 4 :=
  Wire.encodeTable_length _ _ _

omit placed countable some_ quiet reportable knows in
theorem sums_bounds (crc : has m.flags Flag.sectorCrc = true) :
    0 < m.sums.length ∧ m.sums.length ≤ m.count * 4 := by
  obtain ⟨-, recovers⟩ := m.checked crc
  have least := m.positive
  have width := sumTable_length m
  refine ⟨List.length_pos_iff.mpr (recovers.ne_nil (List.length_pos_iff.mp ?_)), ?_⟩
  · change 0 < (sumTable m).length
    omega
  · exact width ▸ recovers.length_le

omit placed countable some_ quiet reportable knows in
theorem sums_decoded (crc : has m.flags Flag.sectorCrc = true) (few : m.count ≤ 2 ^ 23) :
    ∃ out : Bytes, out.take (sumTable m).length = sumTable m ∧
      Compression.decompressBlock codecs true m.sums (Bytes.zeros (m.count * 4))
        (UInt32.ofNat (m.count * 4)) Flag.compressMulti m.version = ⟨Int32.ofNat (m.count * 4), out⟩ := by
  obtain ⟨-, recovers⟩ := m.checked crc
  have width := sumTable_length m
  have size : (UInt32.ofNat (m.count * 4)).toNat = (sumTable m).length := by
    rw [width]
    exact UInt32.toNat_ofNat_of_lt' (by simp only [UInt32.size]; omega)
  have decodes := recovers.decodes (show (sumTable m).length < 2 ^ 31 by omega)
    (Bytes.zeros (m.count * 4)) _ size
  generalize Compression.decompressBlock codecs true m.sums (Bytes.zeros (m.count * 4))
    (UInt32.ofNat (m.count * 4)) Flag.compressMulti m.version = result at decodes ⊢
  obtain ⟨status, out⟩ := result
  obtain ⟨rfl, bytes⟩ := decodes
  refine ⟨out, bytes, ?_⟩
  rw [← width]
  rfl

omit reportable in
theorem sectorTableOf_checked (cached : a.cache number = some file)
    (crc : has m.flags Flag.sectorCrc = true) :
    ∃ out : Bytes, out.take (sumTable m).length = sumTable m ∧
      sectorTableOf codecs number a = .ok (some (Wire.le32.decodeTable out)) a := by
  have count := placed.count_eq countable some_
  have few := placed.count_le
  have least := m.positive
  obtain ⟨more, fewer⟩ := sums_bounds crc
  have start := knows.offsets m.count le_rfl
  have stop := knows.sums crc
  have gap : m.offset (m.count + 1) = m.offset m.count + m.sums.length := by
    rw [m.offset_last, m.offset_of_le le_rfl, m.image_length]
  have last := m.offset_le_image (m.count + 1)
  have order : UInt32.ofNat (m.offset m.count) ≤ UInt32.ofNat (m.offset (m.count + 1)) := by
    rw [UInt32.le_iff_toNat_le, placed.offset_toNat, placed.offset_toNat]
    omega
  have length : (UInt32.ofNat (m.offset (m.count + 1)) - UInt32.ofNat (m.offset m.count)).toNat =
      m.sums.length := by
    rw [UInt32.toNat_sub_of_le _ _ order, placed.offset_toNat, placed.offset_toNat]
    omega
  have present : ¬ (m.count = 0 ∨ has (entry a number).flags Flag.sectorCrc = false ∨
      serialized (entry a number).flags = false) := by
    rw [placed.has_eq (by decide), crc, placed.flags, m.serialized_eq, (m.checked crc).1]
    simp only [reduceCtorEq, or_false]
    omega
  have nonempty : ¬ (UInt32.ofNat (m.offset (m.count + 1)) = 0 ∨
      UInt32.ofNat (m.offset (m.count + 1)) = UInt32.ofNat (m.offset m.count)) := by
    rw [← UInt32.toNat_inj, ← UInt32.toNat_inj, placed.offset_toNat, placed.offset_toNat]
    simp only [UInt32.toNat_zero]
    omega
  have bounds : ¬ (UInt32.ofNat (m.offset (m.count + 1)) < UInt32.ofNat (m.offset m.count) ∨
      UInt32.ofNat (m.offset (m.count + 1)) > (entry a number).packedSize) := by
    refine not_or.mpr ⟨UInt32.not_lt.mpr order, ?_⟩
    rw [gt_iff_lt, UInt32.not_lt, UInt32.le_iff_toNat_le, placed.offset_toNat, placed.packedSize]
    exact last
  have range : Reading.payloadRange a (entryIndex a number) (UInt32.ofNat (m.offset m.count)).toNat
      m.sums.length := by
    rw [placed.offset_toNat]
    exact placed.payloadRange (by omega)
  have read : sourceReadAt a.source
      (payloadOffset a (entryIndex a number) + (UInt32.ofNat (m.offset m.count)).toNat) m.sums.length
      Faults.healthy = .ok m.sums Faults.healthy := by
    rw [placed.offset_toNat]
    exact sourceReadAt_stored (sums_holds placed.holds) (List.length_pos_iff.mp more)
  obtain ⟨out, bytes, decoded⟩ := sums_decoded crc few
  have whole : ¬ (Int32.ofNat (m.count * 4) < 0 ∨
      (Int32.ofNat (m.count * 4)).toNatClampNeg ≠ m.count * 4) := by
    have small : m.count * 4 < 2 ^ 31 := by omega
    rw [Int32.toNatClampNeg_ofNat_of_lt small, Int32.lt_iff_toInt_lt, Int32.toInt_ofNat_of_lt small]
    simp only [Int32.toInt_zero, ne_eq, not_true, or_false, not_lt]
    omega
  have granted : decide (a.plan 0 = none) = true := by
    rw [quiet]
    rfl
  have spent : (modify fun a => { a with plan := a.plan.rest } : Op Error ReadArchive PUnit) a =
      .ok () a := by
    rw [modify_run, quiet, Faults.rest_healthy, ← quiet]
  refine ⟨out, bytes, ?_⟩
  unfold sectorTableOf
  rw [bind_of_ok (get_run a), count]
  simp only
  rw [if_neg present, cached]
  simp only
  rw [bind_of_ok (failIf_false (not_not.mpr knows.count) _ _), start, stop, if_neg nonempty, length,
    bind_of_ok (failIf_false bounds _ _), bind_of_ok (failIf_false (by simp only [int32Max]; omega) _ _),
    bind_of_ok (failIf_false (Nat.not_lt.mpr fewer) _ _), bind_of_ok (failIf_false (not_not.mpr range) _ _),
    bind_of_ok (onPlan_healthy quiet (request_healthy _)), bind_of_ok (onPlan_healthy quiet read),
    bind_of_ok (get_run a), bind_of_ok spent, granted, placed.version, decoded,
    bind_of_ok (failIf_false whole _ _), pure_run]

omit quiet countable some_ reportable knows in
theorem sectorTableOf_unchecked (plain : has m.flags Flag.sectorCrc = false) :
    sectorTableOf codecs number a = .ok none a := by
  have absent : countFileBlocks a number = 0 ∨ has (entry a number).flags Flag.sectorCrc = false ∨
      serialized (entry a number).flags = false := by
    rw [placed.has_eq (by decide), plain]
    exact .inr (.inl rfl)
  unfold sectorTableOf
  rw [bind_of_ok (get_run a)]
  simp only
  rw [if_pos absent, pure_run]

omit quiet countable some_ reportable knows in
theorem Placed.withCache (file : Option FileCache) :
    Placed (storeCache number file a) number m :=
  ⟨placed.member, placed.holds, placed.inside, placed.packedSize, placed.unpackedSize, placed.flags,
    placed.version, placed.sectorSize, placed.exclusive, placed.sector⟩

omit reportable in
theorem sectorChecksums_placed (held : Held a number file) :
    ∃ checksums, sectorChecksums codecs number a = .ok checksums a ∧
      mismatchUpTo a number checksums (countFileBlocks a number) = false := by
  have knows' : Knows m { file with openCount := file.openCount + 1 } :=
    ⟨knows.offsets, knows.sums, knows.count, knows.seed⟩
  have placed' := placed.withCache (some { file with openCount := file.openCount + 1 })
  rw [sectorChecksums, holding_shared (sectorTableOf_only codecs number) held quiet]
  cases crc : has m.flags Flag.sectorCrc with
  | false =>
    have run : sectorTableOf codecs number (shared number file a) = .ok none (shared number file a) :=
      sectorTableOf_unchecked placed' crc
    rw [run]
    refine ⟨none, rfl, ?_⟩
    rw [mismatchUpTo, List.any_eq_false]
    exact fun i _ => Bool.false_ne_true
  | true =>
    obtain ⟨out, bytes, run⟩ := sectorTableOf_checked placed' quiet countable some_ knows' (if_pos rfl) crc
    have run : sectorTableOf codecs number (shared number file a) = _ := run
    rw [run]
    refine ⟨_, rfl, ?_⟩
    rw [mismatchUpTo, List.any_eq_false]
    intro i inside
    have below : i < m.count := by
      rw [← placed.count_eq countable some_]
      exact List.mem_range.mp inside
    have sum : Wire.le32.decodeTable out i = Checksum.adler32 0 (m.packed i) := by
      have decoded := Wire.le32.decodeTable_encodeTable (fun i => Checksum.adler32 0 (m.packed i)) below
        (out.drop (sumTable m).length)
      rwa [show Wire.le32.encodeTable _ m.count = _ from bytes.symm, List.take_append_drop] at decoded
    rw [packedAt, packedBlock_placed placed countable some_ knows held.cached below, Option.getD_some,
      Option.map_some, sum, mismatched]
    simp

end acquire

structure Intact (codecs : Codecs) (a : ReadArchive) (number : Nat) (x : Bytes) (b : ReadArchive)
    (checksums : Option (Nat → UInt32)) : Prop where
  loaded : Loaded codecs a number b checksums
  agrees : mismatchUpTo b number checksums (countFileBlocks a number) = false
  content : contentUpTo codecs b number (countFileBlocks a number) = x

section intact

variable (placed : Placed a number m) (quiet : a.plan = Faults.healthy) (countable : Countable a number)
  (reportable : Reportable m)
include placed quiet countable reportable

theorem Placed.intact_of_held (some_ : m.content ≠ [] ∨ has m.flags Flag.single = true) {b : ReadArchive}
    {file : FileCache} (acquired : offsetsAcquire number none a = .ok () b)
    (same : b = storeCache number (some file) a) (spare : Spare a number) (counted : file.openCount ≠ 0)
    (knows : Knows m file) : ∃ checksums, Intact codecs a number m.content b checksums := by
  subst same
  have placed' := placed.withCache (some file)
  have held : Held (storeCache number (some file) a) number file :=
    ⟨placed.member, if_pos rfl, counted⟩
  obtain ⟨checksums, table, agrees⟩ := sectorChecksums_placed placed' quiet countable some_ knows held
  exact ⟨checksums, ⟨spare, acquired, whole_placed placed' countable some_ reportable knows held.cached, table⟩,
    agrees, contentUpTo_placed placed' countable some_ reportable knows held.cached⟩

theorem Placed.intact (some_ : m.content ≠ [] ∨ has m.flags Flag.single = true)
    (plain : has m.flags Flag.encrypted = false) (fresh : a.cache number = none) :
    ∃ b checksums, Intact codecs a number m.content b checksums := by
  have keyed : Keyed a number m none := fun encrypted => absurd encrypted (by rw [plain]; decide)
  have acquired := offsetsAcquire_placed placed quiet countable some_ keyed fresh
  exact ⟨_, placed.intact_of_held quiet countable reportable some_ acquired rfl (.of_none fresh)
    (show (1 : UInt32) ≠ 0 by decide) (knows_cacheOf placed countable some_ reportable keyed)⟩

end intact

end placed

theorem readBlocks_small {codecs : Codecs} {number : Nat} {checksums : Option (Nat → UInt32)} {k : Nat}
    {s s' : ReadState} {a a' : ReadArchive}
    (run : readBlocks codecs number checksums k s a = .ok s' a') :
    s'.total ≤ s.total + k * (2 ^ 31 - 1) := by
  induction k generalizing s' a' with
  | zero =>
    cases run
    exact Nat.le_add_right _ _
  | succ k ih =>
    unfold readBlocks at run
    rw [List.range_succ, List.foldlM_append] at run
    obtain ⟨t, b, before, run⟩ := bind_ok.mp run
    have bound := ih before
    rw [List.foldlM_cons] at run
    obtain ⟨t', b', block, run⟩ := bind_ok.mp run
    cases run
    unfold readBlock at block
    simp only at block
    split at block
    next status w _ =>
      cases block
      have small := status.toNatClampNeg_lt
      simp only
      omega
    next => cases block

theorem readMember_steps {codecs : Codecs} {a a' : ReadArchive} {number : Nat} {buffer : Bytes} {s : ReadState}
    (run : readMember codecs number buffer a = .ok s a') :
    ∃ b c checksums t, Spares number a b ∧ t.total = memberSize a number ∧
      readBlocks codecs number checksums (countFileBlocks a number) ⟨buffer, 0, false, false⟩ b = .ok t c := by
  unfold readMember at run
  rw [bind_of_ok (get_run a)] at run
  obtain ⟨-, run⟩ := failIf_bind_ok.mp run
  obtain ⟨-, run⟩ := failIf_bind_ok.mp run
  obtain ⟨_, b, acquired, run⟩ := bind_ok.mp run
  obtain ⟨t, c, held, -⟩ := bind_ok.mp run
  unfold holding at held
  split at held
  next r d inner =>
    obtain ⟨checksums, e, tried, inner⟩ := bind_ok.mp inner
    obtain ⟨t', f, blocks, inner⟩ := bind_ok.mp inner
    obtain ⟨complete, -⟩ := failIf_bind_ok.mp inner
    exact ⟨e, f, checksums.join, t', trans_of (Spares number) ((offsetsAcquire_spares none).ok acquired)
      ((sectorChecksums_spares codecs).attempt.ok tried), not_not.mp complete, blocks⟩
  next => cases held

theorem readMember_small {codecs : Codecs} {a a' : ReadArchive} {number : Nat} {buffer : Bytes}
    {s : ReadState} (run : readMember codecs number buffer a = .ok s a') :
    memberSize a number ≤ countFileBlocks a number * (2 ^ 31 - 1) := by
  obtain ⟨b, c, checksums, t, -, total, blocks⟩ := readMember_steps run
  have bound := readBlocks_small blocks
  rwa [total, Nat.zero_add] at bound

end Reading

end LibMpq
