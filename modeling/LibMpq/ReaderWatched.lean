import LibMpq.Base.Watched
import LibMpq.ReaderCalls

set_option autoImplicit false

-- The calls by file number of `mpq-reader.c`, `mpq-api.c`, `mpq-verify.c`, `mpq-attributes.c`
-- and `mpq-stream.c` once more, with every index into the four arrays of an archive and with
-- the range, the buffer and the sums of every read.

namespace LibMpq

open Effect Bits Reading

namespace Watching

-- What a watched call looks at: the indices into the arrays, or the reads of the source.
inductive Watch where
  | arrays | reads
  deriving DecidableEq

section accesses

variable {σ : Type} (w : Watch) (a : ReadArchive)

def slots (a : ReadArchive) : Nat := a.header.blockTableCount.toNat

-- `mpq_map`, `mpq_block`, `mpq_block_ex` and `mpq_file` have one slot for each block table entry.
def slot (i : Nat) : Op (Stop Error) σ Unit := require (w = .arrays → i < slots a)

def mapAt (number : Nat) : Op (Stop Error) σ Nat := do
  slot w a number
  pure (entryIndex a number)

def blockAt (index : Nat) : Op (Stop Error) σ BlockEntry := do
  slot w a index
  pure (a.block index)

def entryAt (number : Nat) : Op (Stop Error) σ BlockEntry := do
  let index ← mapAt w a number
  blockAt w a index

def fileAt (number : Nat) : Op (Stop Error) σ (Option FileCache) := do
  slot w a number
  pure (a.cache number)

-- The sum that a read starts at, with both parts of the payload's own offset.
def payloadAt (index relative : Nat) : Op (Stop Error) σ Nat := do
  slot w a index
  require (w = .reads → payloadOffset a index + relative < 2 ^ 64)
  pure (payloadOffset a index + relative)

def ranged (source : File) (offset size room : Nat) : Op (Stop Error) σ Unit :=
  require (w = .reads → offset + size ≤ source.size ∧ size ≤ room)

-- `libmpq__source_read_at` into a buffer with this much room
def sourceReadAt (source : File) (offset size room : Nat) : Op (Stop Error) Faults Bytes := do
  ranged w source offset size room
  plainly (Reading.sourceReadAt source offset size)

-- `libmpq__reader_count_file_blocks`
def countFileBlocks (number : Nat) : Op (Stop Error) σ Nat := do
  let _ ← entryAt w a number
  pure (Reading.countFileBlocks a number)

-- `libmpq__reader_validate_file_number`
def validateFileNumber (number : Nat) : Op (Stop Error) σ Unit := stopIf (number ≥ a.files) .exist

-- `libmpq__reader_validate_block_number`
def validateBlockNumber (number block : Nat) : Op (Stop Error) σ Unit := do
  let blocks ← countFileBlocks w a number
  stopIf (block ≥ blocks) .exist

-- `libmpq__block_size_unpacked`
def blockSizeUnpacked (number block : Nat) : Op (Stop Error) σ Nat := do
  validateFileNumber a number
  validateBlockNumber w a number block
  let _ ← entryAt w a number
  pure (unpackedBlockSize a number block)

end accesses

variable (w : Watch)

def onPlan {α : Type} (x : Op (Stop Error) Faults α) : Op (Stop Error) ReadArchive α :=
  zoom (·.plan) (fun plan a => { a with plan }) x

def windowPlan {α : Type} (x : Op (Stop Error) Faults α) : Op (Stop Error) Window α :=
  zoom (·.plan) (fun plan w => { w with plan }) x

def loadTable (number size count : Nat) (seed : Option UInt32) : Op (Stop Error) ReadArchive Offsets := do
  let a ← get
  let index ← mapAt w a number
  let e ← blockAt w a index
  stopIf (e.packedSize.toNat < size ∨ ¬ payloadRange a index 0 size) .format
  onPlan (plainly (request .malloc))
  let offset ← payloadAt w a index 0
  let raw ← onPlan (sourceReadAt w a.source offset size size)
  (if looksEncrypted raw size then modify (setFlags index (e.flags ||| Flag.encrypted)) else pure ())
  let encrypted := has ((← get).block index).flags Flag.encrypted
  let loaded ← (if encrypted then plainly (decryptTable a size raw seed) else pure { raw, seed })
  let table := Wire.le32.decodeTable loaded.raw
  stopIf (table 0 ≠ UInt32.ofNat size) .format
  stopIf (ascending table e.packedSize count = false) .format
  pure { table, seed := loaded.seed }

-- The eight bytes are read without a look at the payload range.
def detectSeed (number count : Nat) (offsets : Offsets) : Op (Stop Error) ReadArchive Offsets := do
  let a ← get
  let index ← mapAt w a number
  let e ← entryAt w a number
  if e.flags &&& (Flag.encrypted ||| Flag.compressed) = Flag.encrypted ∧ offsets.seed = none ∧
      e.packedSize.toNat ≥ 4 then do
    stopIf (count < 2) .format
    stopIf (offsets.table 1 < offsets.table 0) .format
    stopIf ((offsets.table 1 - offsets.table 0).toNat < 8) .decrypt
    let offset ← payloadAt w a index 0
    let first ← onPlan (sourceReadAt w a.source offset 8 8)
    match Crypto.detectFileKey first e.unpackedSize with
    | none => throw (.error .decrypt)
    | some seed => pure { offsets with seed := some seed }
  else pure offsets

def loadOffsets (number : Nat) (name : Option Bytes) : Op (Stop Error) ReadArchive FileCache := do
  let a ← get
  let e ← entryAt w a number
  let blocks ← countFileBlocks w a number
  stopIf (blocks > (2 ^ 32 - 1) / 4 - 2) .format
  let count := blocks + 1
  let size := 4 * count + (if has e.flags Flag.sectorCrc then 4 else 0)
  slot w a number
  onPlan (plainly (request .malloc))
  onPlan (plainly (request .malloc))
  let seed := name.map (fileSeed e)
  let offsets ←
    (if serialized e.flags then loadTable w number size count seed
      else pure { table := synthesized a number, seed })
  let offsets ← detectSeed w number count offsets
  pure
    { packedOffset := offsets.table, packedOffsetCount := count, openCount := 1
      seed := offsets.seed }

-- `libmpq__reader_offsets_acquire`
def offsetsAcquire (number : Nat) (name : Option Bytes) : Op (Stop Error) ReadArchive Unit := do
  let a ← get
  validateFileNumber a number
  let file ← fileAt w a number
  match file with
  | some file => do
    let e ← entryAt w a number
    modify (storeCache number (some (shareCache e name file)))
  | none => do
    let file ← loadOffsets w number name
    modify (storeCache number (some file))

-- `libmpq__reader_offsets_release`
def offsetsRelease (number : Nat) : Op (Stop Error) ReadArchive Unit := do
  let a ← get
  validateFileNumber a number
  let file ← fileAt w a number
  match file with
  | none => throw (.error .openFile)
  | some file =>
    let left := file.openCount - 1
    modify (storeCache number (if left = 0 then none else some { file with openCount := left }))

def holding {α : Type} (number : Nat) (x : Op (Stop Error) ReadArchive α) :
    Op (Stop Error) ReadArchive α := fun a =>
  match x a with
  | .ok r a' => (recover (offsetsRelease w number) >>= fun _ => pure r) a'
  | .error (.error e) a' => (recover (offsetsRelease w number) >>= fun _ => throw (.error e)) a'
  | .error stop a' => .error stop a'

def releasing {α : Type} (number : Nat) (x : Op (Stop Error) ReadArchive α) :
    Op (Stop Error) ReadArchive α := fun a =>
  match x a with
  | .ok r a' => (offsetsRelease w number >>= fun _ => pure r) a'
  | .error (.error e) a' => (recover (offsetsRelease w number) >>= fun _ => throw (.error e)) a'
  | .error stop a' => .error stop a'

def readDirect (source : File) (offset size room : Nat) : Op (Stop Error) Window Bytes := do
  ranged w source offset size room
  plainly (Reading.readDirect source offset size)

-- `read_packed`
def readPacked (a : ReadArchive) (number block : Nat) (file : FileCache) (size room : Nat) :
    Op (Stop Error) Window Bytes := do
  let index ← mapAt w a number
  slot w a number
  let offset ← payloadAt w a index (file.packedOffset block).toNat
  let packed ← windowPlan (sourceReadAt w a.source offset size room)
  let e ← entryAt w a number
  if has e.flags Flag.encrypted ∧ size ≥ 4 then
    match file.seed with
    | none => throw (.error .decrypt)
    | some seed => pure (Crypto.decryptBlock packed (seed + UInt32.ofNat block))
  else pure packed

-- `libmpq__reader_block_read_acquired`
def blockReadAcquired (codecs : Codecs) (a : ReadArchive) (number block : Nat)
    (checksum : Option UInt32) : Op (Stop Error) Window Int32 := do
  validateFileNumber a number
  validateBlockNumber w a number block
  let file ← fileAt w a number
  match file with
  | none => throw (.error .openFile)
  | some file =>
    stopIf (file.packedOffsetCount ≤ block + 1) .exist
    let outSize := (← get).buffer.length
    let size ← blockSizeUnpacked w a number block
    stopIf (size > outSize) .size
    let index ← mapAt w a number
    let e ← entryAt w a number
    let start := file.packedOffset block
    let stop := file.packedOffset (block + 1)
    stopIf (stop < start ∨ stop > e.packedSize) .format
    let inSize := (stop - start).toNat
    stopIf (¬ payloadRange a index start.toNat inSize) .read
    let direct := !has e.flags (Flag.encrypted ||| Flag.compress ||| Flag.implode) &&
      decide (inSize ≤ outSize)
    let packed ←
      (if direct then do
        let offset ← payloadAt w a index start.toNat
        readDirect w a.source offset inSize outSize
      else do
        windowPlan (plainly (request .malloc))
        readPacked w a number block file inSize inSize)
    modify (noteLossy e.flags packed size)
    modify (noteMismatch checksum packed)
    plainly (unpackBlock codecs e.flags a.header.version.toUInt32 packed size)

def readAcquired (codecs : Codecs) (number block : Nat) (checksum : Option UInt32) (buffer : Bytes)
    (mismatch : Bool) : Op (Stop Error) ReadArchive (Nat × Window) := fun a =>
  match blockReadAcquired w codecs a number block checksum
      { plan := a.plan, buffer, mismatch, lossy := false } with
  | .ok status window => .ok (status.toNatClampNeg, window) { a with plan := window.plan }
  | .error stop window => .error stop { a with plan := window.plan }

-- `libmpq__reader_block_read`: the block number comes before the file number.
def blockRead (codecs : Codecs) (number block : Nat) (checksum : Option UInt32) (buffer : Bytes) :
    Op (Stop Error) ReadArchive (Nat × Window) := do
  let a ← get
  validateBlockNumber w a number block
  offsetsAcquire w number none
  holding w number (readAcquired w codecs number block checksum buffer false)

def sectorExtent (number block : Nat) : Op (Stop Error) ReadArchive Extent := do
  let a ← get
  let file ← fileAt w a number
  match file with
  | none => throw (.error .openFile)
  | some file => do
    stopIf (file.packedOffset (block + 1) < file.packedOffset block) .format
    pure
      { start := (file.packedOffset block).toNat
        length := (file.packedOffset (block + 1) - file.packedOffset block).toNat }

def storedExtent (number block : Nat) : Op (Stop Error) ReadArchive Extent := do
  let a ← get
  let e ← entryAt w a number
  if has e.flags Flag.single then pure { start := 0, length := e.packedSize.toNat }
  else if serialized e.flags then do
    offsetsAcquire w number none
    holding w number (sectorExtent w number block)
  else pure { start := block * a.blockSize.toNat, length := unpackedBlockSize a number block }

-- `libmpq__reader_block_size_packed`
def blockSizePacked (number block : Nat) : Op (Stop Error) ReadArchive Nat := do
  let a ← get
  validateFileNumber a number
  validateBlockNumber w a number block
  let extent ← storedExtent w number block
  let e ← entryAt w a number
  stopIf (extent.start > e.packedSize.toNat ∨ extent.length > e.packedSize.toNat - extent.start) .format
  stopIf (¬ payloadRange a (entryIndex a number) extent.start extent.length) .read
  pure extent.length

-- `read_packed` into a prefix of four bytes
def methodByte (number block size : Nat) : Op (Stop Error) ReadArchive UInt32 := do
  let a ← get
  let file ← fileAt w a number
  match file with
  | none => throw (.error .openFile)
  | some file => do
    let index ← mapAt w a number
    let offset ← payloadAt w a index (file.packedOffset block).toNat
    let packed ← onPlan (sourceReadAt w a.source offset size 4)
    let e ← entryAt w a number
    if has e.flags Flag.encrypted ∧ size ≥ 4 then
      match file.seed with
      | none => throw (.error .decrypt)
      | some seed => pure ((Crypto.decryptBlock packed (seed + UInt32.ofNat block)).headD 0).toUInt32
    else pure (packed.headD 0).toUInt32

-- `libmpq__reader_block_compression`
def blockCompression (number block : Nat) : Op (Stop Error) ReadArchive UInt32 := do
  let packed ← blockSizePacked w number block
  let a ← get
  let unpacked ← blockSizeUnpacked w a number block
  let e ← entryAt w a number
  if packed ≥ unpacked ∨ has e.flags (Flag.compress ||| Flag.implode) = false then pure 0
  else do
    stopIf (packed = 0) .format
    if has e.flags Flag.compress = false then pure (Stage.mask .pkzip)
    else do
      offsetsAcquire w number none
      holding w number
        (methodByte w number block (min packed (if has e.flags Flag.encrypted then 4 else 1)))

def sectorTableOf (codecs : Codecs) (number : Nat) :
    Op (Stop Error) ReadArchive (Option (Nat → UInt32)) := do
  let a ← get
  let index ← mapAt w a number
  let e ← entryAt w a number
  let blocks ← countFileBlocks w a number
  if blocks = 0 ∨ has e.flags Flag.sectorCrc = false ∨ serialized e.flags = false then pure none
  else do
    let file ← fileAt w a number
    match file with
    | none => throw (.error .openFile)
    | some file => do
      stopIf (file.packedOffsetCount ≠ blocks + 1) .openFile
      let start := file.packedOffset blocks
      let stop := file.packedOffset (blocks + 1)
      if stop = 0 ∨ stop = start then pure none
      else do
        stopIf (stop < start ∨ stop > e.packedSize) .format
        let size := blocks * 4
        stopIf (size > int32Max) .size
        let packedSize := (stop - start).toNat
        stopIf (packedSize > size) .format
        stopIf (¬ payloadRange a index start.toNat packedSize) .read
        let offset ← payloadAt w a index start.toNat
        onPlan (plainly (request .malloc))
        let packed ← onPlan (sourceReadAt w a.source offset packedSize packedSize)
        let granted := decide ((← get).plan 0 = none)
        modify fun a => { a with plan := a.plan.rest }
        let result := Compression.decompressBlock codecs granted packed (Bytes.zeros size)
          (UInt32.ofNat size) Flag.compressMulti a.header.version.toUInt32
        stopIf (result.status < 0 ∨ result.status.toNatClampNeg ≠ size) .format
        pure (some (Wire.le32.decodeTable result.out))

-- `libmpq__reader_sector_checksums`
def sectorChecksums (codecs : Codecs) (number : Nat) :
    Op (Stop Error) ReadArchive (Option (Nat → UInt32)) := do
  offsetsAcquire w number none
  holding w number (sectorTableOf w codecs number)

def verifyStored (codecs : Codecs) (number block : Nat) : Op (Stop Error) ReadArchive BlockVerdict := do
  let checksums ← sectorChecksums w codecs number
  match checksums.map (· block) with
  | none => throw (.error .exist)
  | some stored => do
    stopIf (stored = 0 ∨ stored = 0xFFFFFFFF) .exist
    let size ← blockSizeUnpacked w (← get) number block
    onPlan (plainly (request .malloc))
    let (transferred, window) ← blockRead w codecs number block (some stored) (Bytes.zeros size)
    stopIf (transferred ≠ size) .read
    pure { checksum := stored, mismatches := sectorBits window.mismatch }

-- `libmpq__verify_block`
def verifyBlock (codecs : Codecs) (number block : Nat) : Op (Stop Error) ReadArchive BlockVerdict := do
  let a ← get
  validateFileNumber a number
  validateBlockNumber w a number block
  let e ← entryAt w a number
  stopIf (¬ sectorized e.flags) .exist
  offsetsAcquire w number none
  releasing w number (verifyStored w codecs number block)

section names

variable {σ : Type} (a : ReadArchive)

def numberOf (index : Nat) : Op (Stop Error) σ Nat := do
  stopIf (index ≥ a.header.blockTableCount.toNat) .format
  let e ← blockAt w a index
  stopIf (has e.flags Flag.exists_ = false) .format
  slot w a index
  stopIf (index - a.blockTableDiff index ≥ a.files) .format
  pure (index - a.blockTableDiff index)

def probe (hash2 hash3 : UInt32) (home : Nat) : Nat → Nat → Op (Stop Error) σ Nat
  | 0, _ => throw (.error .exist)
  | fuel + 1, i =>
    let slot := a.hash i
    if slot.blockTableIndex = hashFree then throw (.error .exist)
    else if slot.hashA = hash2 ∧ slot.hashB = hash3 then numberOf w a slot.blockTableIndex.toNat
    else if (i + 1) % hashTableSize a = home then throw (.error .exist)
    else probe hash2 hash3 home fuel ((i + 1) % hashTableSize a)

-- `libmpq__file_number`
def fileNumber (name : Bytes) : Op (Stop Error) σ Nat :=
  let h := fileHash name
  if hashTableSize a = 0 then throw (.error .exist)
  else
    let home := h.hash1.toNat % hashTableSize a
    probe w a h.hash2 h.hash3 home (hashTableSize a) home

def isMember (name : Bytes) (number : Nat) : Op (Stop Error) σ Bool := do
  let found ← recover (fileNumber w a name)
  pure (decide (found = some number))

end names

-- One block into the rest of the caller's buffer
def readSlice (codecs : Codecs) (number : Nat) (checksums : Option (Nat → UInt32)) (i : Nat)
    (s : ReadState) : Op (Stop Error) ReadArchive ReadState := fun a =>
  let size := unpackedBlockSize a number i
  let window : Window :=
    { plan := a.plan, buffer := (s.buffer.drop s.total).take size
      mismatch := s.mismatch, lossy := s.lossy }
  match blockReadAcquired w codecs a number i (checksums.map (· i)) window with
  | .ok status window =>
    .ok
      { buffer := s.buffer.take s.total ++ Bytes.overlay window.buffer (s.buffer.drop s.total)
        total := s.total + status.toNatClampNeg
        mismatch := window.mismatch
        lossy := window.lossy }
      { a with plan := window.plan }
  | .error stop window => .error stop { a with plan := window.plan }

def readBlock (codecs : Codecs) (number : Nat) (checksums : Option (Nat → UInt32)) (i : Nat)
    (s : ReadState) : Op (Stop Error) ReadArchive ReadState := do
  let _ ← recover (blockSizeUnpacked w (← get) number i)
  readSlice w codecs number checksums i s

def readBlocks (codecs : Codecs) (number : Nat) (checksums : Option (Nat → UInt32)) (blocks : Nat)
    (s : ReadState) : Op (Stop Error) ReadArchive ReadState :=
  (List.range blocks).foldlM (fun s i => readBlock w codecs number checksums i s) s

def readMember (codecs : Codecs) (number : Nat) (buffer : Bytes) :
    Op (Stop Error) ReadArchive ReadState := do
  let a ← get
  validateFileNumber a number
  let e ← entryAt w a number
  let expected := e.unpackedSize.toNat
  stopIf (expected > buffer.length) .size
  let blocks ← countFileBlocks w a number
  offsetsAcquire w number none
  let s ← holding w number (do
    let checksums ← recover (sectorChecksums w codecs number)
    let s ← readBlocks w codecs number checksums.join blocks
      { buffer, total := 0, mismatch := false, lossy := false }
    stopIf (s.total ≠ expected) .read
    pure s)
  stopIf s.mismatch .read
  pure s

-- `libmpq__attributes_verify_data`
def verifyData (load : Op (Stop Error) ReadArchive Attributes.View) (number : Nat) (data : Bytes) :
    Op (Stop Error) ReadArchive Unit := do
  let a ← get
  let e ← entryAt w a number
  stopIf (e.unpackedSize.toNat ≠ data.length) .size
  let attributes ← isMember w a attributesName number
  let signature ← isMember w a signatureName number
  if attributes ∨ signature then pure ()
  else do
    let view ← recover load
    match view with
    | none => pure ()
    | some view =>
      let index ← mapAt w a number
      let row := Attributes.get view index
      stopIf (matchesAttributes row data = false) .read

def fileReadWith (load : Op (Stop Error) ReadArchive Attributes.View) (codecs : Codecs)
    (number : Nat) (buffer : Bytes) : Op (Stop Error) ReadArchive FileData := do
  let s ← readMember w codecs number buffer
  (if s.lossy then pure () else verifyData w load number (s.buffer.take s.total))
  pure { buffer := s.buffer, transferred := s.total }

def parseAttributes (codecs : Codecs) (number size : Nat) :
    Op (Stop Error) ReadArchive Attributes.View := do
  offsetsAcquire w number (some attributesName)
  let data ← holding w number
    (fileReadWith w (throw (.error .format)) codecs number (Bytes.zeros size))
  stopIf (data.transferred ≠ size) .read
  let a ← get
  let index ← mapAt w a number
  plainly (fromExcept (Attributes.parse data.buffer a.header.blockTableCount.toNat index))

-- `libmpq__attributes_load`
def attributesLoad (codecs : Codecs) : Op (Stop Error) ReadArchive Attributes.View := do
  let a ← get
  match a.attributes, a.attributesError with
  | some view, _ => pure view
  | none, some e => throw (.error e)
  | none, none => do
    let found ← outcome (fileNumber w a attributesName)
    match found with
    | .error e => plainly (rememberError e)
    | .ok number => do
      let e ← entryAt w a number
      let size := e.unpackedSize.toNat
      if size < 8 ∨ size > 8 + a.header.blockTableCount.toNat * 32 then plainly (rememberError .format)
      else do
        onPlan (plainly (request .malloc))
        let before ← get
        match parseAttributes w codecs number size before with
        | .ok view a' => do
          set { a' with attributes := some view }
          pure view
        | .error (.error e) a' => do
          set (if e = .format then { a' with attributesError := some e } else a')
          throw (.error e)
        | .error stop a' => do
          set a'
          throw stop

-- `libmpq__file_read`
def fileRead (codecs : Codecs) (number : Nat) (buffer : Bytes) : Op (Stop Error) ReadArchive FileData :=
  fileReadWith w (attributesLoad w codecs) codecs number buffer

def keyKnown (a : ReadArchive) (number : Nat) : Op (Stop Error) ReadArchive Unit := do
  let blocks ← countFileBlocks w a number
  let e ← entryAt w a number
  if blocks ≠ 0 ∧ has e.flags Flag.encrypted then do
    let file ← fileAt w a number
    match file with
    | none => throw (.error .format)
    | some file => do
      stopIf (file.packedOffsetCount < 2) .format
      stopIf (file.packedOffset 1 < file.packedOffset 0) .format
      stopIf ((file.packedOffset 1 - file.packedOffset 0).toNat ≥ 4 ∧ file.seed = none) .decrypt
  else pure ()

def orRelease {α : Type} (number : Nat) (x : Op (Stop Error) ReadArchive α) :
    Op (Stop Error) ReadArchive α := fun a =>
  match x a with
  | .ok r a' => .ok r a'
  | .error (.error e) a' => (recover (offsetsRelease w number) >>= fun _ => throw (.error e)) a'
  | .error stop a' => .error stop a'

-- `stream_adopt`
def streamAdopt (codecs : Codecs) (number : Nat) (name : Option Bytes) :
    Op (Stop Error) ReadArchive Stream := do
  let a ← get
  validateFileNumber a number
  onPlan (plainly (request .malloc))
  offsetsAcquire w number name
  orRelease w number (do
    let a ← get
    keyKnown w a number
    let checksums ← recover (sectorChecksums w codecs number)
    let archive ← get
    pure
      { archive
        number
        blocks := Reading.countFileBlocks a number
        cachedBlock := 2 ^ 32 - 1
        checksums := checksums.join
        buffer := []
        blockValid := false
        size := (Reading.entry a number).unpackedSize.toNat
        position := 0
        blockSize := 0 })

def onClone {α : Type} (clone : ReadArchive) (x : Op (Stop Error) ReadArchive α) :
    Op (Stop Error) ReadArchive α := fun a =>
  match x { clone with plan := a.plan } with
  | .ok r b => .ok r { a with plan := b.plan }
  | .error e b => .error e { a with plan := b.plan }

-- `libmpq__stream_open`
def streamOpen (codecs : Codecs) (number : Nat) : Op (Stop Error) ReadArchive Stream := do
  let a ← get
  validateFileNumber a number
  let clone ← plainly Streaming.archiveClone
  onClone clone (streamAdopt w codecs number none)

end Watching

end LibMpq
