import LibMpq.Integrity

set_option autoImplicit false

namespace LibMpq

open Effect Bits

namespace Reading

def archiveSizePacked (a : ReadArchive) : Nat :=
  ((List.range a.files).map fun i => (entry a i).packedSize.toNat).sum

def archiveSizeUnpacked (a : ReadArchive) : Nat :=
  ((List.range a.files).map fun i => (entry a i).unpackedSize.toNat).sum

def ofEntry {α : Type} (ask : ReadArchive → Nat → α) (a : ReadArchive) (number : Nat) : Except Error α :=
  if number ≥ a.files then .error .exist else .ok (ask a number)

def fileSizePacked : ReadArchive → Nat → Except Error Nat :=
  ofEntry fun a n => (entry a n).packedSize.toNat

def fileOffset : ReadArchive → Nat → Except Error Nat :=
  ofEntry fun a n => (entry a n).offset.toNat + (a.blockEx (entryIndex a n)).toNat * 2 ^ 32

def fileBlocks : ReadArchive → Nat → Except Error Nat := ofEntry countFileBlocks

def fileFlags : ReadArchive → Nat → Except Error UInt32 := ofEntry fun a n => (entry a n).flags

structure Extent where
  start : Nat
  length : Nat

-- A serialized member's extents are in its offset table.
def sectorExtent (number block : Nat) : Op Error ReadArchive Extent := do
  let a ← get
  match a.cache number with
  | none => throw .openFile
  | some file => do
    failIf (file.packedOffset (block + 1) < file.packedOffset block) .format
    pure
      { start := (file.packedOffset block).toNat
        length := (file.packedOffset (block + 1) - file.packedOffset block).toNat }

-- The two offsets are read before the table is given back, and compared after that.
def storedExtent (number block : Nat) : Op Error ReadArchive Extent := do
  let a ← get
  let e := entry a number
  if has e.flags Flag.single then pure { start := 0, length := e.packedSize.toNat }
  else if serialized e.flags then do
    offsetsAcquire number none
    holding number (sectorExtent number block)
  else
    pure { start := block * a.blockSize.toNat, length := unpackedBlockSize a number block }

-- `libmpq__reader_block_size_packed`
def blockSizePacked (number block : Nat) : Op Error ReadArchive Nat := do
  let a ← get
  failIf (number ≥ a.files ∨ block ≥ countFileBlocks a number) .exist
  let extent ← storedExtent number block
  let packedSize := (entry a number).packedSize.toNat
  failIf (extent.start > packedSize ∨ extent.length > packedSize - extent.start) .format
  failIf (¬ payloadRange a (entryIndex a number) extent.start extent.length) .read
  pure extent.length

-- `read_packed` on a prefix of a sector
def methodByte (number block size : Nat) : Op Error ReadArchive UInt32 := do
  let a ← get
  match a.cache number with
  | none => throw .openFile
  | some file => do
    let packed ← onPlan (sourceReadAt a.source
      (payloadOffset a (entryIndex a number) + (file.packedOffset block).toNat) size)
    if has (entry a number).flags Flag.encrypted ∧ size ≥ 4 then
      match file.seed with
      | none => throw .decrypt
      | some seed => pure ((Crypto.decryptBlock packed (seed + UInt32.ofNat block)).headD 0).toUInt32
    else pure (packed.headD 0).toUInt32

-- `libmpq__reader_block_compression`
def blockCompression (number block : Nat) : Op Error ReadArchive UInt32 := do
  let packed ← blockSizePacked number block
  let a ← get
  let unpacked ← fromExcept (blockSizeUnpacked a number block)
  let flags := (entry a number).flags
  if packed ≥ unpacked ∨ has flags (Flag.compress ||| Flag.implode) = false then pure 0
  else do
    failIf (packed = 0) .format
    if has flags Flag.compress = false then pure (Stage.mask .pkzip)
    else do
      offsetsAcquire number none
      holding number
        (methodByte number block (min packed (if has flags Flag.encrypted then 4 else 1)))

/-- The blocks of a member cut it into sectors: as many as it takes, none of them empty. -/
structure Partitioned (a : ReadArchive) (number : Nat) : Prop where
  blocks : fileBlocks a number =
    .ok (if has (entry a number).flags Flag.single then 1
      else (memberSize a number + a.blockSize.toNat - 1) / a.blockSize.toNat)
  sizes : ∀ block, block < countFileBlocks a number →
    ∃ size, blockSizeUnpacked a number block = .ok size ∧ (0 < memberSize a number → 1 ≤ size ∧
      if has (entry a number).flags Flag.single then size = memberSize a number
      else size ≤ a.blockSize.toNat)
  total : ((List.range (countFileBlocks a number)).map fun block =>
    (blockSizeUnpacked a number block).toOption.getD 0).sum = memberSize a number

section partition

variable {a : ReadArchive} {number : Nat} (member : number < a.files) (positive : 0 < a.blockSize.toNat)
include member positive

omit positive in
theorem blockSizeUnpacked_below {block : Nat} (below : block < countFileBlocks a number) :
    blockSizeUnpacked a number block = .ok (unpackedBlockSize a number block) := by
  rw [blockSizeUnpacked, if_neg (not_or.mpr ⟨Nat.not_le.mpr member, Nat.not_le.mpr below⟩)]

theorem partitioned_of_countable (countable : Countable a number) : Partitioned a number := by
  constructor
  case blocks =>
    rw [fileBlocks, ofEntry, if_neg (Nat.not_le.mpr member)]
    split
    next single => rw [countFileBlocks, if_pos single]
    next multi => rw [countFileBlocks_multi positive multi countable]
  case sizes =>
    intro block below
    refine ⟨_, blockSizeUnpacked_below member below, fun some_ => ?_⟩
    rw [unpackedBlockSize_eq positive below]
    by_cases single : has (entry a number).flags Flag.single = true
    · rw [countFileBlocks, if_pos single, Nat.lt_one_iff] at below
      rw [if_pos single, unitOf, if_pos single, below]
      omega
    · have start := blockStart_lt positive single below
      rw [if_neg single, unitOf, if_neg single, Nat.succ_mul]
      omega
  case total =>
    rw [← sum_all_unpackedBlockSize positive countable]
    refine congrArg List.sum (List.map_congr_left fun block inside => ?_)
    rw [blockSizeUnpacked_below member (List.mem_range.mp inside)]
    rfl

omit member in
theorem countable_of_partitioned (partitioned : Partitioned a number) : Countable a number := by
  by_contra wraps
  -- A wrapped sum counts no block, but the member has bytes.
  have some_ := memberSize_pos_of_overflow wraps
  have total := partitioned.total
  rw [countFileBlocks_overflow positive wraps] at total
  simp at total
  omega

end partition

theorem partitioned_iff (a : ReadArchive) (number : Nat) (member : number < a.files)
    (sectors : ∃ shift : UInt32, shift ≤ 22 ∧ a.blockSize = 512 <<< shift) :
    Partitioned a number ↔ has (entry a number).flags Flag.single = true ∨
      (entry a number).unpackedSize.toNat + a.blockSize.toNat ≤ 2 ^ 32 := by
  obtain ⟨shift, small, size⟩ := sectors
  have positive := sectorSize_pos small size
  exact ⟨countable_of_partitioned positive, partitioned_of_countable member positive⟩

theorem trio_partitioned_iff :
    Partitioned trio 0 ↔ has (entry trio 0).flags Flag.single = true ∨ 3 + 512 ≤ 2 ^ 32 :=
  partitioned_iff trio 0 (by decide) ⟨0, by decide, rfl⟩

theorem oversized_not_partitioned : 0 < oversized.files ∧
    (∃ shift : UInt32, shift ≤ 22 ∧ oversized.blockSize = 512 <<< shift) ∧ ¬ Partitioned oversized 0 := by
  refine ⟨by decide, ⟨22, by decide, rfl⟩, fun partitioned => ?_⟩
  exact absurd (countable_of_partitioned (by decide) partitioned) (by decide)

end Reading

end LibMpq
