import LibMpq.Attributes
import LibMpq.Base.File
import LibMpq.Compression
import LibMpq.Tables

set_option autoImplicit false

namespace LibMpq

open Effect Bits

/-- A member's sector offsets, cached while someone holds them (`mpq_file_s`). -/
structure FileCache where
  packedOffset : Nat → UInt32
  packedOffsetCount : Nat
  openCount : UInt32
  seed : Option UInt32

/-- An archive handle in read mode. -/
structure ReadArchive where
  source : File
  plan : Faults
  archiveOffset : Nat
  blockSize : UInt32
  header : Header
  headerEx : HeaderEx
  hash : Nat → HashEntry
  block : Nat → BlockEntry
  blockEx : Nat → UInt16
  blockTableIndices : Nat → Nat
  blockTableDiff : Nat → Nat
  files : Nat
  cache : Nat → Option FileCache
  attributes : Option Attributes.View
  attributesError : Option Error

namespace Reading

structure Fetch where
  stored : Bytes
  error : Option Error

-- `libmpq__source_read_at`; a failing read may have stored a part of the range.
def fetch (source : File) (offset size : Nat) (plan : Faults) : Fetch × Faults :=
  if offset > source.size ∨ size > source.size - offset then (⟨[], some .read⟩, plan)
  else if size = 0 then (⟨[], none⟩, plan)
  else
    match plan 0 with
    | some _ => (⟨[], some .seek⟩, plan.rest)
    | none =>
      match plan 1 with
      | none => (⟨source.read offset size, none⟩, plan.rest.rest)
      | some k => (⟨(source.read offset size).take k, some .read⟩, plan.rest.rest)

def sourceReadAt (source : File) (offset size : Nat) : Op Error Faults Bytes := fun plan =>
  match fetch source offset size plan with
  | (⟨stored, none⟩, rest) => .ok stored rest
  | (⟨_, some e⟩, rest) => .error e rest

def onPlan {α : Type} (x : Op Error Faults α) : Op Error ReadArchive α :=
  zoom (·.plan) (fun plan a => { a with plan }) x

def headerAt (source : File) (offset : Nat) : Op Error Faults Header := do
  failIf (offset > source.size ∨ headerWireSize > source.size - offset) .format
  let raw ← sourceReadAt source offset headerWireSize
  pure (Tables.headerWire.decode raw)

-- Protected archives may store a bogus header size.
def normalizeHeader (header : Header) : Header :=
  if header.version = 0 then { header with headerSize := 32 }
  else if header.version = 1 then { header with headerSize := 44 }
  else header

def findHeader (source : File) (search : Bool) : Nat → Nat → Op Error Faults (Nat × Header)
  | 0, _ => throw .format
  | fuel + 1, offset => do
    let header ← headerAt source offset
    if header.magic = headerMagic then do
      failIf (header.version > 1) .format
      pure (offset, normalizeHeader header)
    else do
      failIf (search = false) .format
      findHeader source search fuel (offset + 512)

def tableBytes (count : UInt32) (width : Nat) : Nat := count.toNat * width

def tableFits (source : File) (count : UInt32) (width : Nat) : Prop :=
  tableBytes count width ≤ 2 ^ 32 - 1 ∧ tableBytes count width ≤ source.size

instance (source : File) (count : UInt32) (width : Nat) : Decidable (tableFits source count width) :=
  inferInstanceAs (Decidable (_ ∧ _))

def readHeaderEx (source : File) (offset : Nat) (header : Header) : Op Error Faults HeaderEx :=
  if header.version = 1 then do
    failIf (offset + headerWireSize > source.size ∨
      headerExWireSize > source.size - (offset + headerWireSize)) .format
    let raw ← sourceReadAt source (offset + headerWireSize) headerExWireSize
    pure (Tables.headerExWire.decode raw)
  else pure { extendedOffset := 0, hashTableOffsetHigh := 0, blockTableOffsetHigh := 0 }

def readTable (source : File) (offset bytes : Nat) (key : UInt32) : Op Error Faults Bytes := do
  request .malloc
  let raw ← sourceReadAt source offset bytes
  pure (Crypto.decryptBlock raw key)

-- A table that the extension promises but the file does not hold is a format error.
def asFormat {σ α : Type} (x : Op Error σ α) : Op Error σ α := fun s =>
  match x s with
  | .error .read s' => .error .format s'
  | result => result

def readBlockEx (source : File) (offset : Nat) (header : Header) (headerEx : HeaderEx) :
    Op Error Faults (Nat → UInt16) :=
  if headerEx.extendedOffset > 0 then do
    request .malloc
    let raw ← asFormat (sourceReadAt source
      (headerEx.extendedOffset + UInt64.ofNat offset).toNat
      (tableBytes header.blockTableCount blockExEntryWireSize))
    pure (Wire.le16.decodeTable raw)
  else pure fun _ => 0

structure FileMap where
  files : Nat
  indices : Nat → Nat
  diff : Nat → Nat

def mapStep (block : Nat → BlockEntry) (m : FileMap) (i : Nat) : FileMap :=
  let m := { m with diff := fun j => if j = i then i - m.files else m.diff j }
  if has (block i).flags Flag.exists_ then
    { m with
      indices := fun j => if j = m.files then i else m.indices j
      files := m.files + 1 }
  else m

def buildMap (block : Nat → BlockEntry) (count : Nat) : FileMap :=
  (List.range count).foldl (mapStep block) { files := 0, indices := fun _ => 0, diff := fun _ => 0 }

def tableOffset (low : UInt32) (high : UInt16) (offset : Nat) : Nat :=
  low.toNat + high.toNat * 2 ^ 32 + offset

-- `libmpq__reader_archive_open_source`; an offset of -1 searches for the header.
def openSource (source : File) (archiveOffset : Int) : Op Error Faults ReadArchive := do
  failIf (archiveOffset < -1) .seek
  request .malloc
  let (offset, header) ←
    findHeader source (archiveOffset = -1) (source.size / 512 + 1) archiveOffset.toNat
  failIf (header.blockSize > 22) .format
  failIf (¬ (tableFits source header.hashTableCount hashEntryWireSize ∧
    tableFits source header.blockTableCount blockEntryWireSize)) .format
  let headerEx ← readHeaderEx source offset header
  request .malloc
  let hashes ← readTable source
    (tableOffset header.hashTableOffset headerEx.hashTableOffsetHigh offset)
    (tableBytes header.hashTableCount hashEntryWireSize) Tables.hashTableKey
  let blocks ← readTable source
    (tableOffset header.blockTableOffset headerEx.blockTableOffsetHigh offset)
    (tableBytes header.blockTableCount blockEntryWireSize) Tables.blockTableKey
  let blockEx ← readBlockEx source offset header headerEx
  let block := Tables.blockWire.decodeTable blocks
  let files := buildMap block header.blockTableCount.toNat
  let plan ← get
  pure
    { source
      plan
      archiveOffset := offset
      blockSize := 512 <<< header.blockSize.toUInt32
      header
      headerEx
      hash := Tables.hashWire.decodeTable hashes
      block
      blockEx
      blockTableIndices := files.indices
      blockTableDiff := files.diff
      files := files.files
      cache := fun _ => none
      attributes := none
      attributesError := none }

def openPath (source : File) (archiveOffset : Int) : Op Error Faults ReadArchive := do
  request .openFile
  request .seek
  openSource source archiveOffset

-- `libmpq__archive_open`
def archiveOpen (source : File) (archiveOffset : Int) (plan : Faults) : Except Error ReadArchive :=
  match openPath source archiveOffset plan with
  | .ok a _ => .ok a
  | .error e _ => .error e

def entryIndex (a : ReadArchive) (number : Nat) : Nat := a.blockTableIndices number

def entry (a : ReadArchive) (number : Nat) : BlockEntry := a.block (entryIndex a number)

def hashTableSize (a : ReadArchive) : Nat := a.header.hashTableCount.toNat

def numberOf (a : ReadArchive) (index : Nat) : Except Error Nat :=
  if index ≥ a.header.blockTableCount.toNat ∨ has (a.block index).flags Flag.exists_ = false then
    .error .format
  else if index - a.blockTableDiff index ≥ a.files then .error .format
  else .ok (index - a.blockTableDiff index)

def probe (a : ReadArchive) (hash2 hash3 : UInt32) (home : Nat) : Nat → Nat → Except Error Nat
  | 0, _ => .error .exist
  | fuel + 1, i =>
    let slot := a.hash i
    if slot.blockTableIndex = hashFree then .error .exist
    else if slot.hashA = hash2 ∧ slot.hashB = hash3 then numberOf a slot.blockTableIndex.toNat
    else if (i + 1) % hashTableSize a = home then .error .exist
    else probe a hash2 hash3 home fuel ((i + 1) % hashTableSize a)

-- `libmpq__file_number_from_hash`
def fileNumberFromHash (a : ReadArchive) (h : FileHash) : Except Error Nat :=
  if hashTableSize a = 0 then .error .exist
  else
    let home := h.hash1.toNat % hashTableSize a
    probe a h.hash2 h.hash3 home (hashTableSize a) home

-- `libmpq__file_number`
def fileNumber (a : ReadArchive) (name : Bytes) : Except Error Nat :=
  fileNumberFromHash a (fileHash name)

def fileSizeUnpacked (a : ReadArchive) (number : Nat) : Except Error Nat :=
  if number ≥ a.files then .error .exist else .ok (entry a number).unpackedSize.toNat

-- The sum wraps in 32 bits, as in the source.
def countFileBlocks (a : ReadArchive) (number : Nat) : Nat :=
  if has (entry a number).flags Flag.single then 1
  else (((entry a number).unpackedSize + a.blockSize - 1) / a.blockSize).toNat

def unpackedBlockSize (a : ReadArchive) (number block : Nat) : Nat :=
  if has (entry a number).flags Flag.single then (entry a number).unpackedSize.toNat
  else if block < countFileBlocks a number - 1 then a.blockSize.toNat
  else ((entry a number).unpackedSize - a.blockSize * UInt32.ofNat block).toNat

-- `libmpq__block_size_unpacked`
def blockSizeUnpacked (a : ReadArchive) (number block : Nat) : Except Error Nat :=
  if number ≥ a.files ∨ block ≥ countFileBlocks a number then .error .exist
  else .ok (unpackedBlockSize a number block)

def payloadOffset (a : ReadArchive) (index : Nat) : Nat :=
  a.archiveOffset + ((a.block index).offset.toNat + (a.blockEx index).toNat * 2 ^ 32)

-- `libmpq__reader_validate_payload_range`
def payloadRange (a : ReadArchive) (index relative size : Nat) : Prop :=
  payloadOffset a index + relative ≤ a.source.size ∧
    size ≤ a.source.size - (payloadOffset a index + relative)

instance (a : ReadArchive) (index relative size : Nat) :
    Decidable (payloadRange a index relative size) := inferInstanceAs (Decidable (_ ∧ _))

-- The key of a member with this name; `0x00020000` ties it to the member's place and size.
def fileSeed (e : BlockEntry) (name : Bytes) : UInt32 :=
  let seed := Crypto.hashString name 0x300
  if has e.flags Flag.fixKey then (seed + e.offset) ^^^ e.unpackedSize else seed

def serialized (flags : UInt32) : Bool :=
  has flags (Flag.compressed ||| Flag.compressPkzip) && !has flags Flag.single

def setFlags (index : Nat) (flags : UInt32) (a : ReadArchive) : ReadArchive :=
  { a with block := fun j => if j = index then { a.block j with flags } else a.block j }

-- A wrong first offset exposes a table whose encrypted flag was dropped.
def looksEncrypted (raw : Bytes) (size : Nat) : Prop :=
  Crypto.loadLe32 raw ≠ UInt32.ofNat size ∧ Crypto.loadLe32 raw ≠ UInt32.ofNat (size + 4)

instance (raw : Bytes) (size : Nat) : Decidable (looksEncrypted raw size) :=
  inferInstanceAs (Decidable (_ ∧ _))

structure LoadedTable where
  raw : Bytes
  seed : Option UInt32

def decryptTable (a : ReadArchive) (size : Nat) (raw : Bytes) (seed : Option UInt32) :
    Op Error ReadArchive LoadedTable :=
  match seed.orElse fun _ => Crypto.deriveBlockTableSeed raw a.blockSize with
  | none => throw .decrypt
  | some seed => do
    let plain := Crypto.decryptBlock raw (seed - 1)
    failIf (Crypto.loadLe32 plain ≠ UInt32.ofNat size) .decrypt
    pure { raw := plain, seed := some seed }

def ascending (offsets : Nat → UInt32) (packedSize : UInt32) (count : Nat) : Bool :=
  (List.range (count - 1)).all fun i =>
    offsets i ≤ offsets (i + 1) ∧ offsets (i + 1) ≤ packedSize

structure Offsets where
  table : Nat → UInt32
  seed : Option UInt32

def loadTable (number size count : Nat) (seed : Option UInt32) : Op Error ReadArchive Offsets := do
  let a ← get
  let index := entryIndex a number
  let e := a.block index
  failIf (e.packedSize.toNat < size ∨ ¬ payloadRange a index 0 size) .format
  onPlan (request .malloc)
  let raw ← onPlan (sourceReadAt a.source (payloadOffset a index) size)
  (if looksEncrypted raw size then modify (setFlags index (e.flags ||| Flag.encrypted)) else pure ())
  let encrypted := has ((← get).block index).flags Flag.encrypted
  let loaded ← (if encrypted then decryptTable a size raw seed else pure { raw, seed })
  let table := Wire.le32.decodeTable loaded.raw
  failIf (table 0 ≠ UInt32.ofNat size) .format
  failIf (ascending table e.packedSize count = false) .format
  pure { table, seed := loaded.seed }

def synthesized (a : ReadArchive) (number : Nat) : Nat → UInt32 := fun i =>
  let e := entry a number
  if has e.flags Flag.single then if i = 1 then e.packedSize else 0
  else if i = countFileBlocks a number then e.unpackedSize
  else UInt32.ofNat i * a.blockSize

-- Raw encrypted members have no table to recover a key from, only their first words.
def detectSeed (number count : Nat) (offsets : Offsets) : Op Error ReadArchive Offsets := do
  let a ← get
  let e := entry a number
  if e.flags &&& (Flag.encrypted ||| Flag.compressed) = Flag.encrypted ∧ offsets.seed = none ∧
      e.packedSize.toNat ≥ 4 then do
    failIf (count < 2) .format
    failIf (offsets.table 1 < offsets.table 0) .format
    failIf ((offsets.table 1 - offsets.table 0).toNat < 8) .decrypt
    let first ← onPlan (sourceReadAt a.source (payloadOffset a (entryIndex a number)) 8)
    match Crypto.detectFileKey first e.unpackedSize with
    | none => throw .decrypt
    | some seed => pure { offsets with seed := some seed }
  else pure offsets

def loadOffsets (number : Nat) (name : Option Bytes) : Op Error ReadArchive FileCache := do
  let a ← get
  let e := entry a number
  let blocks := countFileBlocks a number
  failIf (blocks > (2 ^ 32 - 1) / 4 - 2) .format
  let count := blocks + 1
  let size := 4 * count + (if has e.flags Flag.sectorCrc then 4 else 0)
  onPlan (request .malloc)
  onPlan (request .malloc)
  let seed := name.map (fileSeed e)
  let offsets ←
    (if serialized e.flags then loadTable number size count seed
      else pure { table := synthesized a number, seed })
  let offsets ← detectSeed number count offsets
  pure
    { packedOffset := offsets.table, packedOffsetCount := count, openCount := 1
      seed := offsets.seed }

def storeCache (number : Nat) (file : Option FileCache) (a : ReadArchive) : ReadArchive :=
  { a with cache := fun j => if j = number then file else a.cache j }

-- A named read can supply a key to an anonymous cached open.
def shareCache (e : BlockEntry) (name : Option Bytes) (file : FileCache) : FileCache :=
  { file with
    seed := file.seed.orElse fun _ => name.map (fileSeed e)
    openCount := file.openCount + 1 }

-- `libmpq__reader_offsets_acquire`
def offsetsAcquire (number : Nat) (name : Option Bytes) : Op Error ReadArchive Unit := do
  let a ← get
  failIf (number ≥ a.files) .exist
  match a.cache number with
  | some file => modify (storeCache number (some (shareCache (entry a number) name file)))
  | none => do
    let file ← loadOffsets number name
    modify (storeCache number (some file))

-- `libmpq__reader_offsets_release`
def offsetsRelease (number : Nat) : Op Error ReadArchive Unit := do
  let a ← get
  failIf (number ≥ a.files) .exist
  match a.cache number with
  | none => throw .openFile
  | some file =>
    let left := file.openCount - 1
    modify (storeCache number (if left = 0 then none else some { file with openCount := left }))

/-- The caller's buffer and what the reader reports beside its return value. -/
structure Window where
  plan : Faults
  buffer : Bytes
  mismatch : Bool
  lossy : Bool

def windowPlan {α : Type} (x : Op Error Faults α) : Op Error Window α :=
  zoom (·.plan) (fun plan w => { w with plan }) x

-- Raw unencrypted blocks go straight into the caller's buffer.
def readDirect (source : File) (offset size : Nat) : Op Error Window Bytes := fun w =>
  let (result, plan) := fetch source offset size w.plan
  let w := { w with plan, buffer := Bytes.overlay result.stored w.buffer }
  match result.error with
  | none => .ok result.stored w
  | some e => .error e w

-- `read_packed` into a buffer of its own; a block below one word is not encrypted.
def readPacked (a : ReadArchive) (number block : Nat) (file : FileCache) (size : Nat) :
    Op Error Window Bytes := do
  let packed ← windowPlan (sourceReadAt a.source
    (payloadOffset a (entryIndex a number) + (file.packedOffset block).toNat) size)
  if has (entry a number).flags Flag.encrypted ∧ size ≥ 4 then
    match file.seed with
    | none => throw .decrypt
    | some seed => pure (Crypto.decryptBlock packed (seed + UInt32.ofNat block))
  else pure packed

def noteLossy (flags : UInt32) (packed : Bytes) (size : Nat) (w : Window) : Window :=
  if has flags Flag.compress ∧ packed.length < size ∧ packed.length ≠ 0 ∧
      has (packed.headD 0).toUInt32 Compression.waveMasks then { w with lossy := true }
  else w

-- Zero and all ones stand for a checksum that was never recorded.
def noteMismatch (checksum : Option UInt32) (packed : Bytes) (w : Window) : Window :=
  match checksum with
  | none => w
  | some sum =>
    if sum ≠ 0 ∧ sum ≠ 0xFFFFFFFF ∧ Checksum.adler32 0 packed ≠ sum then { w with mismatch := true }
    else w

def granted : Op Error Window Bool := fun w =>
  .ok (w.plan 0 = none) { w with plan := w.plan.rest }

def decodeInto (codecs : Codecs) (packed : Bytes) (size : Nat) (method version : UInt32) :
    Op Error Window Int32 := do
  let granted ← granted
  let w ← get
  let result :=
    Compression.decompressBlock codecs granted packed w.buffer (UInt32.ofNat size) method version
  set { w with buffer := result.out }
  failIf (result.status < 0) .unpack
  pure result.status

def unpackBlock (codecs : Codecs) (flags version : UInt32) (packed : Bytes) (size : Nat) :
    Op Error Window Int32 := do
  let compressed := has flags Flag.compress
  let imploded := has flags Flag.implode
  let status ← (if compressed then decodeInto codecs packed size Flag.compressMulti version
    else pure 0)
  let status ← (if imploded then decodeInto codecs packed size Flag.compressPkzip version
    else pure status)
  failIf (compressed ∧ imploded) .unpack
  if compressed = false ∧ imploded = false then
    decodeInto codecs packed size Flag.compressNone version
  else pure status

-- `libmpq__reader_block_read_acquired`
def blockReadAcquired (codecs : Codecs) (a : ReadArchive) (number block : Nat)
    (checksum : Option UInt32) : Op Error Window Int32 := do
  failIf (number ≥ a.files) .exist
  failIf (block ≥ countFileBlocks a number) .exist
  match a.cache number with
  | none => throw .openFile
  | some file =>
    failIf (file.packedOffsetCount ≤ block + 1) .exist
    let outSize := (← get).buffer.length
    let size := unpackedBlockSize a number block
    failIf (size > outSize) .size
    let e := entry a number
    let start := file.packedOffset block
    let stop := file.packedOffset (block + 1)
    failIf (stop < start ∨ stop > e.packedSize) .format
    let inSize := (stop - start).toNat
    failIf (¬ payloadRange a (entryIndex a number) start.toNat inSize) .read
    let direct := !has e.flags (Flag.encrypted ||| Flag.compress ||| Flag.implode) &&
      decide (inSize ≤ outSize)
    let packed ←
      (if direct then
        readDirect a.source (payloadOffset a (entryIndex a number) + start.toNat) inSize
      else do
        windowPlan (request .malloc)
        readPacked a number block file inSize)
    modify (noteLossy e.flags packed size)
    modify (noteMismatch checksum packed)
    unpackBlock codecs e.flags a.header.version.toUInt32 packed size

def sectorTableOf (codecs : Codecs) (number : Nat) : Op Error ReadArchive (Option (Nat → UInt32)) := do
  let a ← get
  let e := entry a number
  let blocks := countFileBlocks a number
  if blocks = 0 ∨ has e.flags Flag.sectorCrc = false ∨ serialized e.flags = false then pure none
  else
    match a.cache number with
    | none => throw .openFile
    | some file => do
      failIf (file.packedOffsetCount ≠ blocks + 1) .openFile
      let start := file.packedOffset blocks
      let stop := file.packedOffset (blocks + 1)
      if stop = 0 ∨ stop = start then pure none
      else do
        failIf (stop < start ∨ stop > e.packedSize) .format
        let size := blocks * 4
        failIf (size > int32Max) .size
        let packedSize := (stop - start).toNat
        failIf (packedSize > size) .format
        failIf (¬ payloadRange a (entryIndex a number) start.toNat packedSize) .read
        onPlan (request .malloc)
        let packed ← onPlan (sourceReadAt a.source
          (payloadOffset a (entryIndex a number) + start.toNat) packedSize)
        let granted := decide ((← get).plan 0 = none)
        modify fun a => { a with plan := a.plan.rest }
        let result := Compression.decompressBlock codecs granted packed (Bytes.zeros size)
          (UInt32.ofNat size) Flag.compressMulti a.header.version.toUInt32
        failIf (result.status < 0 ∨ result.status.toNatClampNeg ≠ size) .format
        pure (some (Wire.le32.decodeTable result.out))

def holding {α : Type} (number : Nat) (x : Op Error ReadArchive α) : Op Error ReadArchive α := fun a =>
  match x a with
  | .ok r a' => .ok r (final (offsetsRelease number a'))
  | .error e a' => .error e (final (offsetsRelease number a'))

-- `libmpq__reader_sector_checksums`
def sectorChecksums (codecs : Codecs) (number : Nat) :
    Op Error ReadArchive (Option (Nat → UInt32)) := do
  offsetsAcquire number none
  holding number (sectorTableOf codecs number)

structure ReadState where
  buffer : Bytes
  total : Nat
  mismatch : Bool
  lossy : Bool

def readBlock (codecs : Codecs) (number : Nat) (checksums : Option (Nat → UInt32)) (i : Nat)
    (s : ReadState) : Op Error ReadArchive ReadState := fun a =>
  let size := unpackedBlockSize a number i
  let window : Window :=
    { plan := a.plan, buffer := (s.buffer.drop s.total).take size
      mismatch := s.mismatch, lossy := s.lossy }
  match blockReadAcquired codecs a number i (checksums.map (· i)) window with
  | .ok status w =>
    .ok
      { buffer := s.buffer.take s.total ++ Bytes.overlay w.buffer (s.buffer.drop s.total)
        total := s.total + status.toNatClampNeg
        mismatch := w.mismatch
        lossy := w.lossy }
      { a with plan := w.plan }
  | .error e w => .error e { a with plan := w.plan }

def readBlocks (codecs : Codecs) (number : Nat) (checksums : Option (Nat → UInt32)) (blocks : Nat)
    (s : ReadState) : Op Error ReadArchive ReadState :=
  (List.range blocks).foldlM (fun s i => readBlock codecs number checksums i s) s

structure FileData where
  buffer : Bytes
  transferred : Nat

-- A sector table that cannot be read is left to explicit verification.
def readMember (codecs : Codecs) (number : Nat) (buffer : Bytes) : Op Error ReadArchive ReadState := do
  let a ← get
  failIf (number ≥ a.files) .exist
  let expected := (entry a number).unpackedSize.toNat
  failIf (expected > buffer.length) .size
  let blocks := countFileBlocks a number
  offsetsAcquire number none
  let s ← holding number (do
    let checksums ← attempt (sectorChecksums codecs number)
    let s ← readBlocks codecs number checksums.join blocks
      { buffer, total := 0, mismatch := false, lossy := false }
    failIf (s.total ≠ expected) .read
    pure s)
  failIf s.mismatch .read
  pure s

-- `libmpq__attributes_compare_file` for every checksum the row has
def matchesAttributes (row : FileAttributes) (data : Bytes) : Bool :=
  (has row.flags attributeCrc32 → Checksum.crc32 0 data = row.crc32) ∧
    (has row.flags attributeMd5 → (Md5.init.update data).finish = row.md5)

def isMember (a : ReadArchive) (name : Bytes) (number : Nat) : Bool :=
  match fileNumber a name with
  | .ok n => n = number
  | .error _ => false

-- `libmpq__attributes_verify_data`: attributes that cannot be loaded are not compared.
def verifyData (load : Op Error ReadArchive Attributes.View) (number : Nat) (data : Bytes) :
    Op Error ReadArchive Unit := do
  let a ← get
  failIf ((entry a number).unpackedSize.toNat ≠ data.length) .size
  if isMember a attributesName number ∨ isMember a signatureName number then pure ()
  else do
    let view ← attempt load
    match view with
    | none => pure ()
    | some view =>
      let row := Attributes.get view (entryIndex a number)
      failIf (matchesAttributes row data = false) .read

def fileReadWith (load : Op Error ReadArchive Attributes.View) (codecs : Codecs) (number : Nat)
    (buffer : Bytes) : Op Error ReadArchive FileData := do
  let s ← readMember codecs number buffer
  (if s.lossy then pure () else verifyData load number (s.buffer.take s.total))
  pure { buffer := s.buffer, transferred := s.total }

def rememberError (e : Error) : Op Error ReadArchive Attributes.View := do
  (if e = .exist ∨ e = .format then modify fun a => { a with attributesError := some e }
    else pure ())
  throw e

def parseAttributes (codecs : Codecs) (number size : Nat) : Op Error ReadArchive Attributes.View := do
  offsetsAcquire number (some attributesName)
  -- The attributes member is not verified against itself, so nothing is loaded in turn.
  let data ← holding number (fileReadWith (throw .format) codecs number (Bytes.zeros size))
  failIf (data.transferred ≠ size) .read
  let a ← get
  fromExcept (Attributes.parse data.buffer a.header.blockTableCount.toNat (entryIndex a number))

-- `libmpq__attributes_load`
def attributesLoad (codecs : Codecs) : Op Error ReadArchive Attributes.View := do
  let a ← get
  match a.attributes, a.attributesError with
  | some view, _ => pure view
  | none, some e => throw e
  | none, none =>
    match fileNumber a attributesName with
    | .error e => rememberError e
    | .ok number => do
      let size := (entry a number).unpackedSize.toNat
      if size < 8 ∨ size > 8 + a.header.blockTableCount.toNat * 32 then rememberError .format
      else do
        onPlan (request .malloc)
        let before ← get
        match parseAttributes codecs number size before with
        | .ok view a' => do
          set { a' with attributes := some view }
          pure view
        | .error e a' => do
          set (if e = .format then { a' with attributesError := some e } else a')
          throw e

-- `libmpq__file_read`
def fileRead (codecs : Codecs) (number : Nat) (buffer : Bytes) : Op Error ReadArchive FileData :=
  fileReadWith (attributesLoad codecs) codecs number buffer

end Reading

end LibMpq
