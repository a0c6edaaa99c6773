import LibMpq.Attributes
import LibMpq.Base.Disk
import LibMpq.Compression
import LibMpq.Tables
import LibMpq.Wave

set_option autoImplicit false

namespace LibMpq

open Effect Bits Chunked

structure FileOptions where
  flags : UInt32
  compressionFirst : UInt32
  compressionNext : UInt32
  locale : UInt16
  platform : UInt16
  deriving DecidableEq

def FileOptions.default : FileOptions where
  flags := 0
  compressionFirst := 0
  compressionNext := 0
  locale := 0
  platform := 0

structure Writer where
  name : Bytes
  data : Bytes
  sectorIndex : Nat
  blockCount : Nat
  payloadOffset : Nat
  prefixSize : Nat
  patchResultSize : Nat
  packedTotal : Nat
  offsets : Option (Nat → UInt32)
  checksums : Option (Nat → UInt32)
  expected : Nat
  written : Nat
  options : FileOptions
  attributes : FileAttributes
  md5 : Md5

def Writer.patchFile (w : Writer) : Bool := w.prefixSize ≠ 0

def Writer.offset (w : Writer) (i : Nat) : UInt32 := w.offsets.elim 0 fun offsets => offsets i

abbrev createListfile : UInt32 := 0x1
abbrev createCompressionExtended : UInt32 := 0x2

/-- An archive handle in write mode. -/
structure WriteArchive where
  disk : Disk
  header : Header
  headerEx : HeaderEx
  hash : Nat → HashEntry
  block : Nat → BlockEntry
  blockEx : Nat → UInt16
  capacity : Nat
  hashCapacity : Nat
  sectorSize : Nat
  flags : UInt32
  attributesFlags : UInt32
  nextBlock : Nat
  names : Nat → Bytes
  attributes : Option (Nat → FileAttributes)
  internal : Bool
  patchMode : Bool
  current : Option Writer
  signature : Bool
  signatureOffset : Nat
  signatureKey : Bytes
  strongSignature : Bool
  strongSignatureKey : Bytes

abbrev uint32Max : Nat := 2 ^ 32 - 1

structure Active where
  writer : Writer
  archive : WriteArchive

namespace Writing

def onDisk {α : Type} (x : Op Error Disk α) : Op Error WriteArchive α :=
  zoom (·.disk) (fun disk a => { a with disk }) x

def onArchive {α : Type} (x : Op Error WriteArchive α) : Op Error Active α :=
  zoom (·.archive) (fun archive s => { s with archive }) x

def streamDisk {α : Type} (x : Op Error Disk α) : Op Error Active α := onArchive (onDisk x)

def modifyWriter (f : Writer → Writer) : Op Error Active Unit :=
  modify fun s => { s with writer := f s.writer }

def compressionPolicy (a : WriteArchive) : Policy :=
  if has a.flags createCompressionExtended then .extended else .standard

def normalize (name : Bytes) : Bytes := name.map fun c => if c = 0x2F then 0x5C else c

def fileKey (name : Bytes) : UInt32 := Crypto.hashString (normalize name) 0x300

-- Without memory for the normalized copy `file_key` returns zero.
def keyOf (name : Bytes) : Op Error Faults UInt32 := fun plan =>
  .ok (if plan 0 = none then fileKey name else 0) plan.rest

def storeAt {α : Type} (table : Nat → α) (i : Nat) (value : α) : Nat → α :=
  fun j => if j = i then value else table j

def pkzipCompress (codecs : Codecs) (data : Bytes) : Except Error Bytes :=
  (codecs.stage .pkzip).encode data (Compression.stageCapacity .pkzip data.length)

def implode (codecs : Codecs) (data : Bytes) : Op Error Faults Bytes := do
  let packed ← fromExcept (pkzipCompress codecs data)
  if packed.length ≥ data.length then do
    request .malloc
    pure data
  else pure packed

def requestedMask (w : Writer) : UInt32 :=
  if w.sectorIndex = 0 then w.options.compressionFirst else w.options.compressionNext

def packSector (codecs : Codecs) (s : Active) : Op Error Faults Bytes :=
  let w := s.writer
  if has w.options.flags Flag.compress then do
    let encoded ← Compression.encodeSector codecs w.data (requestedMask w)
      s.archive.header.version.toUInt32 (compressionPolicy s.archive)
    pure encoded.output
  else if has w.options.flags Flag.implode then implode codecs w.data
  else do
    request .malloc
    pure w.data

def encryptSector (w : Writer) (packed : Bytes) : Op Error Faults Bytes :=
  if has w.options.flags Flag.encrypted then do
    let key ← keyOf w.name
    pure (Crypto.encryptBlock packed (key + UInt32.ofNat w.sectorIndex))
  else pure packed

def recordChecksum (packed : Bytes) (w : Writer) : Writer :=
  { w with
    checksums := w.checksums.map fun sums =>
      storeAt sums w.sectorIndex (Checksum.adler32 0 packed) }

def setOffset (i : Nat) (value : UInt32) (w : Writer) : Writer :=
  { w with offsets := w.offsets.map fun offsets => storeAt offsets i value }

def recordOffset : Op Error Active Unit := do
  if (← get).writer.offsets.isSome then do
    let position ← streamDisk (Disk.tell .seek)
    modifyWriter fun w =>
      setOffset w.sectorIndex (UInt32.ofNat (position - w.payloadOffset)) w
  else pure ()

-- The first sector of a lossy member decides which WAVE codec the later ones use.
def nextMask (w : Writer) : Except Error UInt32 :=
  let next := w.options.compressionNext
  if w.sectorIndex = 0 ∧ has next Compression.waveMasks then
    match Wave.probePcm16Prefix w.data w.expected with
    | none => .error .format
    | some wave =>
      let stage := if wave.channels = 1 then Stage.waveMono else Stage.waveStereo
      .ok ((next &&& ~~~Compression.waveMasks) ||| stage.mask)
  else .ok next

-- `stream_flush_sector`
def flushSector (codecs : Codecs) : Op Error Active Unit := do
  let s ← get
  failIf (s.writer.sectorIndex ≥ s.writer.blockCount) .size
  let packed ← streamDisk (Disk.onPlan (packSector codecs s))
  modifyWriter (recordChecksum packed)
  let stored ← streamDisk (Disk.onPlan (encryptSector s.writer packed))
  recordOffset
  streamDisk (Disk.write .write stored)
  modifyWriter fun w => { w with packedTotal := w.packedTotal + stored.length }
  let next ← fromExcept (nextMask s.writer)
  modifyWriter fun w =>
    { w with
      options := { w.options with compressionNext := next }
      sectorIndex := w.sectorIndex + 1
      data := [] }

def absorb (data : Bytes) (w : Writer) : Writer :=
  { w with
    data := w.data ++ data
    written := w.written + data.length
    attributes :=
      { w.attributes with
        crc32 :=
          if has w.attributes.flags attributeCrc32 then
            Checksum.crc32 w.attributes.crc32 data
          else w.attributes.crc32 }
    md5 := if has w.attributes.flags attributeMd5 then w.md5.update data else w.md5 }

def sectorBuffer (codecs : Codecs) : Buffer Error Active where
  room s := s.archive.sectorSize - s.writer.data.length
  push data s := { s with writer := absorb data s.writer }
  flush := flushSector codecs

-- `libmpq__writer_file_write`
def streamWrite (codecs : Codecs) (data : Bytes) : Op Error Active Unit := do
  let w := (← get).writer
  failIf (data.length > w.expected - w.written) .size
  -- A sector left full by a failed flush is tried again before any byte is taken.
  (sectorBuffer codecs).feed (data.length + 1) data

def slotPosition (a : WriteArchive) (hash1 : UInt32) (slot : Nat) : Nat :=
  ((hash1 + UInt32.ofNat slot) &&& UInt32.ofNat (a.hashCapacity - 1)).toNat

def freeSlot (a : WriteArchive) (hash1 : UInt32) : Nat → Nat → Option Nat
  | 0, _ => none
  | fuel + 1, slot =>
    let pos := slotPosition a hash1 slot
    if (a.hash pos).blockTableIndex = hashFree then some pos else freeSlot a hash1 fuel (slot + 1)

def blockFlags (w : Writer) : UInt32 :=
  Flag.exists_ ||| w.options.flags ||| (if w.patchFile then Flag.patchFile else 0) |||
    (if has w.options.flags Flag.compress then Flag.compressMulti else 0)

def blockEntry (w : Writer) (blockOffset total : Nat) : BlockEntry where
  offset := UInt32.ofNat blockOffset
  packedSize := UInt32.ofNat (total + w.prefixSize)
  unpackedSize := UInt32.ofNat (if w.patchFile then w.patchResultSize else w.expected)
  flags := blockFlags w

def hashEntry (w : Writer) (index : Nat) : HashEntry where
  hashA := (fileHash w.name).hash2
  hashB := (fileHash w.name).hash3
  locale := w.options.locale
  platform := w.options.platform
  blockTableIndex := UInt32.ofNat index

def finalAttributes (w : Writer) : FileAttributes :=
  { w.attributes with
    md5 := if has w.attributes.flags attributeMd5 then w.md5.finish else w.attributes.md5 }

def publishBlock (w : Writer) (blockOffset total : Nat) (a : WriteArchive) : WriteArchive :=
  let index := a.nextBlock
  { a with
    block := storeAt a.block index (blockEntry w blockOffset total)
    blockEx := storeAt a.blockEx index (UInt16.ofNat (blockOffset >>> 32))
    names := storeAt a.names index w.name
    nextBlock := index + 1 }

def publishHash (w : Writer) (index pos : Nat) (a : WriteArchive) : WriteArchive :=
  { a with
    hash := storeAt a.hash pos (hashEntry w index)
    attributes := a.attributes.map fun rows => storeAt rows index (finalAttributes w) }

-- The tail of `stream_finish`: the block slot is taken before a hash slot is known.
def publish (blockOffset total : Nat) : Op Error Active Unit := do
  let w := (← get).writer
  let index := (← get).archive.nextBlock
  onArchive (modify (publishBlock w blockOffset total))
  let a := (← get).archive
  match freeSlot a (fileHash w.name).hash1 a.hashCapacity 0 with
  | some pos => onArchive (modify (publishHash w index pos))
  | none => throw .size

def tableEntries (w : Writer) : Nat := w.blockCount + 1 + (if w.checksums.isSome then 1 else 0)

def checksumTable (w : Writer) (sums : Nat → UInt32) : Bytes :=
  Wire.le32.encodeTable sums w.blockCount

-- `stream_write_checksums`
def writeChecksums (codecs : Codecs) (sums : Nat → UInt32) : Op Error Active Unit := do
  let s ← get
  let w := s.writer
  streamDisk (Disk.alloc .malloc)
  let encoded ← streamDisk (Disk.onPlan (Compression.encodeSector codecs (checksumTable w sums)
    (Stage.mask .zlib) s.archive.header.version.toUInt32 .standard))
  let size := encoded.output.length
  failIf (size > uint32Max - (w.offset w.blockCount).toNat) .size
  streamDisk (Disk.write .write encoded.output)
  modifyWriter fun w =>
    { setOffset (w.blockCount + 1) (w.offset w.blockCount + UInt32.ofNat size) w with
      packedTotal := w.packedTotal + size }

def encryptTable (w : Writer) (table : Bytes) : Op Error Faults Bytes :=
  if has w.options.flags Flag.encrypted then do
    let key ← keyOf w.name
    pure (Crypto.encryptBlock table (key - 1))
  else pure table

-- The offset table goes back to the space reserved for it; the result is its size.
def writeOffsets (codecs : Codecs) : Op Error Active Nat := do
  let w := (← get).writer
  let tableSize := tableEntries w * 4
  failIf (w.packedTotal > uint32Max - tableSize) .size
  modifyWriter fun w =>
    setOffset w.blockCount (UInt32.ofNat w.packedTotal + UInt32.ofNat tableSize) w
  (match w.checksums with
    | none => pure ()
    | some sums => writeChecksums codecs sums)
  streamDisk (Disk.alloc .malloc)
  let w := (← get).writer
  let table ← streamDisk (Disk.onPlan (encryptTable w
    (Wire.le32.encodeTable w.offset (tableEntries w))))
  streamDisk (Disk.writeAt .write w.payloadOffset table)
  pure tableSize

-- Version 1 refuses such a member, version 2 returns zero without publishing it.
def oversized (w : Writer) (total : Nat) : Prop :=
  w.payloadOffset > uint32Max ∨ total > uint32Max ∨ w.expected > uint32Max

instance (w : Writer) (total : Nat) : Decidable (oversized w total) :=
  inferInstanceAs (Decidable (_ ∨ _ ∨ _))

-- `stream_finish` up to the table entries; the result is the stored size.
def closePayload (codecs : Codecs) : Op Error Active Nat := do
  let w := (← get).writer
  failIf (w.written ≠ w.expected ∨ w.sectorIndex ≠ w.blockCount) .size
  let tableSize ← (if w.offsets.isSome then writeOffsets codecs else pure 0)
  let w := (← get).writer
  let total := w.packedTotal + tableSize
  streamDisk (Disk.seek .seek (w.payloadOffset + total))
  failIf (w.payloadOffset < w.prefixSize ∨ (w.prefixSize ≠ 0 ∧ total > uint32Max - w.prefixSize))
    .size
  pure total

-- `stream_finish`
def streamFinish (codecs : Codecs) : Op Error Active Unit := do
  let total ← closePayload codecs
  let s ← get
  let w := s.writer
  if oversized w total then
    failIf (s.archive.header.version.toUInt32 = versionOne ∨ w.payloadOffset >>> 32 > 2 ^ 16 - 1)
      .size
  else publish (w.payloadOffset - w.prefixSize) total

def streamEnd (codecs : Codecs) : Op Error Active Unit := do
  let w := (← get).writer
  (if w.data ≠ [] ∨ w.expected = 0 then flushSector codecs else pure ())
  streamFinish codecs

-- A call without an active writer is given a null pointer.
def withWriter {α : Type} (e : Error) (x : Op Error Active α) : Op Error WriteArchive α := fun a =>
  match a.current with
  | none => .error e a
  | some writer =>
    match x { writer, archive := a } with
    | .ok r s => .ok r { s.archive with current := some s.writer }
    | .error e s => .error e { s.archive with current := some s.writer }

def fileWrite (codecs : Codecs) (data : Bytes) : Op Error WriteArchive Unit :=
  withWriter .size (streamWrite codecs data)

-- `libmpq__writer_file_abort`
def fileAbort : Op Error WriteArchive Unit := modify fun a => { a with current := none }

def dropWriter {α : Type} (x : Op Error WriteArchive α) : Op Error WriteArchive α := fun a =>
  match x a with
  | .ok r a' => .ok r { a' with current := none }
  | .error e a' => .error e { a' with current := none }

-- `libmpq__writer_file_finish`
def fileFinish (codecs : Codecs) : Op Error WriteArchive Unit :=
  dropWriter (withWriter .exist (streamEnd codecs))

structure PatchPrefix where
  bytes : Bytes
  resultSize : Nat

def PatchPrefix.none : PatchPrefix := ⟨[], 0⟩

def sameIdentity (first second : Bytes) : Bool :=
  (fileHash first).hash2 = (fileHash second).hash2 ∧ (fileHash first).hash3 = (fileHash second).hash3

-- Hash entries omit the first hash, so a match is confirmed on the stored name.
def duplicate (a : WriteArchive) (name : Bytes) (options : FileOptions) : Nat → Nat → Bool
  | 0, _ => false
  | fuel + 1, slot =>
    let h := fileHash name
    let entry := a.hash (slotPosition a h.hash1 slot)
    if entry.blockTableIndex = hashFree then false
    else if entry.hashA = h.hash2 ∧ entry.hashB = h.hash3 ∧ entry.locale = options.locale ∧
        entry.platform = options.platform ∧
        (fileHash (a.names entry.blockTableIndex.toNat)).hash1 = h.hash1 then true
    else duplicate a name options fuel (slot + 1)

def reservedSlots (a : WriteArchive) : Nat := 1 + (if has a.flags createListfile then 1 else 0)

-- Attribute rows are reserved with the first member.
def reserveAttributes (name : Bytes) : Op Error WriteArchive Unit := do
  let a ← get
  if a.attributesFlags ≠ 0 then do
    let reserved := reservedSlots a
    failIf (a.internal = false ∧ (reserved > a.capacity ∨ a.nextBlock ≥ a.capacity - reserved)) .size
    failIf (a.internal = false ∧ fileHash name = fileHash attributesName) .format
    match a.attributes with
    | some _ => pure ()
    | none => do
      onDisk (Disk.alloc .malloc)
      modify fun a => { a with attributes := some fun _ => .none }
  else pure ()

def checkOptions (a : WriteArchive) (options : FileOptions) : Op Error WriteArchive Unit := do
  let version := a.header.version.toUInt32
  let policy := compressionPolicy a
  failIf (has options.flags Flag.implode ∧ has options.flags Flag.compress) .format
  failIf (has options.flags Flag.compress ∧
    (Compression.allowed version options.compressionFirst policy = false ∨
      Compression.allowed version options.compressionNext policy = false)) .format
  failIf (has options.flags Flag.single ∧
    has (options.compressionFirst ||| options.compressionNext) Compression.waveMasks) .format

def effectiveOptions (a : WriteArchive) (size : Nat) (options : FileOptions) : FileOptions :=
  let plain := has options.flags Flag.compress = false ∧ has options.flags Flag.implode = false
  let flags :=
    if size = 0 ∨ has options.flags Flag.single ∨ plain then options.flags &&& ~~~Flag.sectorCrc
    else options.flags
  let first := options.compressionFirst &&& ~~~Compression.waveMasks
  let first :=
    if Compression.allowed a.header.version.toUInt32 first (compressionPolicy a) then first
    else Stage.mask .zlib
  let next := if options.compressionNext = 0 then first else options.compressionNext
  { options with flags, compressionFirst := first, compressionNext := next }

def blockCountOf (a : WriteArchive) (size : Nat) (flags : UInt32) : Nat :=
  let count :=
    if has flags Flag.single then 1 else (size + a.sectorSize - 1) / a.sectorSize % 2 ^ 32
  if count = 0 then 1 else count

def sectorTable (flags : UInt32) : Bool :=
  has flags Flag.single = false ∧ (has flags Flag.compress ∨ has flags Flag.implode)

def newWriter (a : WriteArchive) (name : Bytes) (size : Nat) (options : FileOptions)
    (patch : PatchPrefix) (payloadOffset : Nat) : Writer where
  name
  data := []
  sectorIndex := 0
  blockCount := blockCountOf a size options.flags
  payloadOffset
  prefixSize := patch.bytes.length
  patchResultSize := patch.resultSize
  packedTotal := 0
  offsets := none
  checksums := none
  expected := size
  written := 0
  options
  attributes :=
    { FileAttributes.none with
      flags := a.attributesFlags
      crc32 :=
        if patch.bytes ≠ [] ∧ has a.attributesFlags attributeCrc32 then
          Checksum.crc32 0 patch.bytes else 0 }
  md5 := Md5.init

-- Space for the offset table is skipped before the first sector is written.
def reserveOffsets (w : Writer) : Op Error WriteArchive Writer :=
  if sectorTable w.options.flags then do
    let crc := has w.options.flags Flag.sectorCrc
    let entries := w.blockCount + 1 + (if crc then 1 else 0)
    failIf (entries > uint32Max / 4) .size
    onDisk (Disk.alloc .malloc)
    onDisk (Disk.seek .seek (w.payloadOffset + entries * 4))
    pure
      { w with
        offsets := some (storeAt (fun _ => 0) 0 (UInt32.ofNat (entries * 4)))
        checksums := if crc then some fun _ => 0 else none }
  else pure w

-- `writer_file_begin` up to the point where the writer becomes the archive's active one
def prepareWriter (name : Bytes) (size : Int) (options : FileOptions) (patch : PatchPrefix) :
    Op Error WriteArchive Writer := do
  let a ← get
  failIf (size < 0 ∨ a.current.isSome ∨
    (patch.bytes ≠ [] ∧ (a.patchMode = false ∨ patch.resultSize > uint32Max))) .format
  failIf (a.signature ∧ sameIdentity name signatureName) .format
  failIf (has options.flags Flag.deleteMarker ∧
    (a.patchMode = false ∨ options.flags ≠ Flag.deleteMarker ∨ size ≠ 0)) .format
  reserveAttributes name
  onDisk (Disk.alloc .malloc)
  failIf (a.nextBlock ≥ a.capacity) .size
  checkOptions a options
  failIf (duplicate a name options a.hashCapacity 0) .exist
  onDisk (Disk.alloc .malloc)
  failIf (a.sectorSize = 0) .format
  let position ← onDisk (Disk.tell .seek)
  (if patch.bytes = [] then pure () else onDisk (Disk.writeAt .write position patch.bytes))
  reserveOffsets (newWriter a name size.toNat (effectiveOptions a size.toNat options) patch
    (position + patch.bytes.length))

def fileBeginWith (name : Bytes) (size : Int) (options : FileOptions) (patch : PatchPrefix) :
    Op Error WriteArchive Unit := do
  let w ← prepareWriter name size options patch
  modify fun a => { a with current := some w }

-- `libmpq__writer_file_begin`
def fileBegin (name : Bytes) (size : Int) (options : FileOptions) : Op Error WriteArchive Unit :=
  fileBeginWith name size options .none

def orAbort {α : Type} (x : Op Error WriteArchive α) : Op Error WriteArchive α := fun a =>
  match x a with
  | .ok r a' => .ok r a'
  | .error e a' => .error e { a' with current := none }

-- `libmpq__writer_file_add`
def fileAdd (codecs : Codecs) (name data : Bytes) (options : FileOptions) :
    Op Error WriteArchive Unit := do
  fileBegin name data.length options
  orAbort (fileWrite codecs data)
  fileFinish codecs

abbrev patchInfoSize : Nat := 28

-- `libmpq__writer_patch_file_add`
def patchFileAdd (codecs : Codecs) (name info body : Bytes) (resultSize : Int)
    (options : FileOptions) : Op Error WriteArchive Unit := do
  let a ← get
  failIf (a.patchMode = false) .exist
  failIf (resultSize < 0 ∨ body.length > uint32Max ∨ resultSize > uint32Max) .size
  failIf (info.length < patchInfoSize ∨ (Crypto.loadLe32 info).toNat ≠ info.length ∨
    Crypto.loadLe32 (info.drop 8) ≠ UInt32.ofNat body.length ∨
    has (Crypto.loadLe32 (info.drop 4)) 0x80000000 = false) .format
  fileBeginWith name body.length options ⟨info, resultSize.toNat⟩
  orAbort (fileWrite codecs body)
  fileFinish codecs

-- `libmpq__writer_patch_delete_marker`
def patchDeleteMarker (codecs : Codecs) (name : Bytes) (locale platform : UInt16) :
    Op Error WriteArchive Unit := do
  failIf ((← get).patchMode = false) .format
  fileAdd codecs name [] { FileOptions.default with flags := Flag.deleteMarker, locale, platform }

structure Page where
  got : Bytes
  ended : Bool
  failed : Bool
  source : Disk

abbrev pageSize : Nat := 4096

def readPage (source : Disk) : Page :=
  let data := source.file.read source.pos pageSize
  match source.plan 0 with
  | none =>
    { got := data, ended := data.length < pageSize, failed := false
      source := { source with pos := source.pos + data.length, plan := source.plan.rest } }
  | some k =>
    { got := data.take k, ended := false, failed := true
      source := { source with pos := source.pos + (data.take k).length, plan := source.plan.rest } }

-- A failing read overrules what the write of its bytes returned.
def overrule {α : Type} (failed : Bool) (x : Op Error WriteArchive α) : Op Error WriteArchive α :=
  fun a =>
    match x a with
    | .error e a' => .error (if failed then .read else e) a'
    | .ok r a' => if failed then .error .read a' else .ok r a'

def copyPages (codecs : Codecs) : Nat → Disk → Op Error WriteArchive Unit
  | 0, _ => pure ()
  | fuel + 1, source => do
    let page := readPage source
    if page.got = [] then failIf page.failed .read
    else do
      overrule page.failed (fileWrite codecs page.got)
      if page.ended then pure () else copyPages codecs fuel page.source

def openPath (source : Disk) : EStateM.Result Error Disk Nat :=
  (do
    Disk.alloc .openFile
    Disk.seekEnd .seek
    let size ← Disk.tell .seek
    Disk.seek .seek 0
    pure size : Op Error Disk Nat) source

-- `libmpq__writer_file_add_path`
def fileAddPath (codecs : Codecs) (name : Bytes) (source : Disk) (options : FileOptions) :
    Op Error WriteArchive Unit :=
  match openPath source with
  | .error e _ => throw e
  | .ok size source => do
    fileBegin name size options
    orAbort (copyPages codecs (size / pageSize + 2) source)
    fileFinish codecs

end Writing

end LibMpq
