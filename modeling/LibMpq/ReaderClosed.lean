import LibMpq.ReaderAttributes

set_option autoImplicit false

namespace LibMpq

open Effect Bits

namespace Reading

structure Booked {codecs : Codecs} (b : WriteArchive) (i : Nat) (m : StoredMember codecs) : Prop where
  high : b.blockEx i = 0
  packedSize : (b.block i).packedSize.toNat = m.image.length
  unpackedSize : (b.block i).unpackedSize.toNat = m.content.length
  flags : (b.block i).flags = Flag.exists_ ||| m.flags
  version : m.version = b.header.version.toUInt32
  sectorSize : m.sectorSize = b.sectorSize

theorem booked_of_holding {codecs : Codecs} {b : WriteArchive} {low i : Nat} {m : StoredMember codecs}
    (holding : Writing.Holding b low i m) : Booked b i m :=
  ⟨holding.high, holding.packedSize, holding.unpackedSize, holding.flags, holding.version,
    holding.sectorSize⟩

section members

variable {codecs : Codecs} {o : CreateOptions} {b : WriteArchive} {file : File} {a : ReadArchive}
  (opened : Opened b file a) (made : Writing.CreatedWith o b) (sound : Writing.Sound b)
include opened

theorem Opened.entry_eq (sound : Writing.Sound b) {i : Nat} (below : i < b.nextBlock) :
    entryIndex a i = i ∧ entry a i = b.block i := by
  have index : entryIndex a i = i := opened.indices i below
  rw [entry, index]
  exact ⟨rfl, opened.block i (below.trans_le sound.nextBlock)⟩

theorem Opened.payloadOffset_eq (sound : Writing.Sound b) {i : Nat} (below : i < b.nextBlock) :
    payloadOffset a (entryIndex a i) = (b.block i).offset.toNat := by
  rw [payloadOffset, (opened.entry_eq sound below).1, opened.archiveOffset, opened.blockEx i below,
    opened.block i (below.trans_le sound.nextBlock)]
  simp

include made sound

theorem Opened.placed {i : Nat} {m : StoredMember codecs} (below : i < b.nextBlock) (booked : Booked b i m)
    (holds : file.Holds (b.block i).offset.toNat m.image)
    (inside : (b.block i).offset.toNat + m.image.length ≤ file.size)
    (exclusive : ¬ (has m.flags Flag.compress = true ∧ has m.flags Flag.implode = true)) :
    Placed a i m := by
  obtain ⟨index, entry_⟩ := opened.entry_eq sound below
  have place := opened.payloadOffset_eq sound below
  constructor
  case member => exact below.trans_eq opened.files.symm
  case holds => rwa [place, opened.source]
  case inside => rwa [place, opened.source]
  case packedSize => rw [entry_, booked.packedSize]
  case unpackedSize => rw [entry_, booked.unpackedSize]
  case flags => rw [entry_, booked.flags]
  case version => rw [opened.version, booked.version]
  case sectorSize => rw [opened.blockSize, booked.sectorSize]
  case exclusive => exact exclusive
  case sector =>
    obtain ⟨k, -, power, -⟩ := Writing.sectorSizeOf_power made.valid
    rw [booked.sectorSize, made.sectorSize, power]
    exact Nat.le_mul_of_pos_right _ (Nat.two_pow_pos k)

end members

-- Accepted sectors have at most 2 GiB.
theorem sector_le {o : CreateOptions} {b : WriteArchive} (made : Writing.CreatedWith o b) :
    b.sectorSize ≤ 2 ^ 31 := by
  obtain ⟨k, small, power, -⟩ := Writing.sectorSizeOf_power made.valid
  rw [made.sectorSize, power]
  exact Nat.mul_le_mul_left 512 (Nat.pow_le_pow_right (by decide) small)

section attributes

variable {codecs : Codecs} {o : CreateOptions} {b : WriteArchive} {file : File} {a : ReadArchive}
  {members : List (StoredMember codecs)} {n : Nat} {m : StoredMember codecs}

theorem payload_small (entries : Nat → FileAttributes) {count : Nat} (self : Nat) (flags : UInt32)
    (few : count ≤ 2 ^ 26) : (Attributes.payload entries count self flags).length < 2 ^ 31 := by
  have columns : Attributes.columnsSize count flags ≤ count * 28 := by
    unfold Attributes.columnsSize
    split <;> split <;> split <;> omega
  have bits : (if has flags attributePatchBit then (count + 6) / 8 else 0) ≤ (count + 6) / 8 := by
    split <;> omega
  rw [Attributes.payload_length]
  omega

theorem load_described (opened : Opened b file a)
    (made : Writing.CreatedWith o b) (sound : Writing.Sound b) (layout : Writing.Layout o)
    (placed : Placed a n m) (found : fileNumber a attributesName = .ok n) (flags : m.flags = Flag.compress)
    (below : n < b.nextBlock) (describes : Writing.Describes o b members n m.content) :
    ∃ rows view, verdict (attributesLoad codecs a) = .ok view ∧
      Attributes.Shows rows (Writing.capacityOf o) n o.attributes view ∧ n < Writing.capacityOf o ∧
      ∀ j m', j < n → members[j]? = some m' →
        (b.signature = true → Writing.sameIdentity (b.names j) signatureName = false) →
        Writing.RowOf o.attributes m'.content (rows j).crc32 (rows j).md5 := by
  obtain ⟨rows, content, inside, recorded⟩ := describes
  have few : Writing.capacityOf o ≤ 2 ^ 26 := by
    have half := sound.capacity
    have limit := layout.hashCapacity
    rw [made.capacity, made.hashCapacity] at half
    omega
  have small := payload_small rows n o.attributes few
  have sector := sector_le made
  rw [← content] at small
  have unit : m.sectorSize = b.sectorSize := by rw [← placed.sectorSize, opened.blockSize]
  have unloaded : Unloaded a n m := by
    refine ⟨placed, opened.plan, found, ?_, ?_, ?_, ?_, opened.cache n, opened.attributes,
      opened.attributesError⟩
    · rw [← List.length_pos_iff, content, Attributes.payload_length]
      omega
    · rw [flags]
      decide
    · exact placed.countable_iff.mpr (.inr (by omega))
    · exact (Nat.min_le_right _ _).trans_lt small
  have known : o.attributes &&& ~~~attributesAll = 0 := by
    have valid := made.valid
    simp only [Writing.validateOptions, decide_eq_true_eq] at valid
    exact valid.2.2.1
  obtain ⟨view, loaded, shows⟩ := attributesLoad_placed unloaded content
    (opened.blockCount.trans made.capacity) (opened.entry_eq sound below).1 inside known
  exact ⟨rows, view, loaded, shows, inside, recorded⟩

-- The row of a member agrees with its contents as far as it says anything.
theorem matchesAttributes_of_row {rows : Nat → FileAttributes} {count own : Nat} {flags : UInt32}
    {view : Attributes.View} (shows : Attributes.Shows rows count own flags view) {j : Nat}
    (below : j < count) (other : j ≠ own) {x : Bytes}
    (row : Writing.RowOf flags x (rows j).crc32 (rows j).md5) :
    matchesAttributes (Attributes.get view j) x = true := by
  obtain ⟨crc, md5⟩ := Attributes.get_flags shows below
  rw [matchesAttributes, decide_eq_true_eq, crc, md5]
  refine ⟨fun recorded => ?_, fun recorded => ?_⟩
  · rw [Attributes.get_crc32 shows below recorded, if_neg other, row.crc recorded]
  · have recorded := (Bool.and_eq_true_iff.mp recorded).1
    rw [Attributes.get_md5 shows below recorded, if_neg other, row.md5 recorded]

end attributes

end Reading

end LibMpq
