import LibMpq.Rsa
import LibMpq.Writer

set_option autoImplicit false

namespace LibMpq

open Effect Bits

structure CreateOptions where
  version : UInt32
  maxFiles : UInt32
  sectorSize : UInt32
  flags : UInt32
  attributes : UInt32
  deriving DecidableEq

-- What a null options pointer stands for.
def CreateOptions.default : CreateOptions where
  version := versionOne
  maxFiles := 1024
  sectorSize := 4096
  flags := 0
  attributes := 0

namespace Writing

-- `writer_validate_options`
def validateOptions (o : CreateOptions) : Bool :=
  ¬ (o.version > versionTwo ∨ o.maxFiles = 0xFFFFFFFF ∨ (o.maxFiles ≠ 0 ∧ o.maxFiles > 0x40000000)) ∧
  ¬ (o.sectorSize ≠ 0 ∧ (o.sectorSize < 512 ∨ o.sectorSize &&& (o.sectorSize - 1) ≠ 0)) ∧
  o.attributes &&& ~~~attributesAll = 0 ∧
  ¬ (o.attributes ≠ 0 ∧ o.maxFiles ≠ 0 ∧
      o.maxFiles < 1 + (if has o.flags createListfile then 1 else 0))

def nextPowerTwo (value : Nat) : Nat :=
  let rec grow : Nat → Nat → Nat
    | 0, result => result
    | fuel + 1, result =>
      if result < value ∧ result < 0x80000000 then grow fuel (result * 2) else result
  grow 32 4

def sectorShift (sectorSize : Nat) : Nat :=
  let rec grow : Nat → Nat → Nat
    | 0, shift => shift
    | fuel + 1, shift => if 512 <<< shift < sectorSize then grow fuel (shift + 1) else shift
  grow 32 0

def capacityOf (o : CreateOptions) : Nat := if o.maxFiles = 0 then 1024 else o.maxFiles.toNat

def sectorSizeOf (o : CreateOptions) : Nat := if o.sectorSize = 0 then 4096 else o.sectorSize.toNat

def hashCapacityOf (o : CreateOptions) : Nat := nextPowerTwo (capacityOf o * 2)

def headerSizeOf (o : CreateOptions) : Nat :=
  if o.version = versionTwo then headerWireSize + headerExWireSize else headerWireSize

-- Version 1 leaves a gap before the tables when attributes are written.
def hashTableOffsetOf (o : CreateOptions) : UInt32 :=
  UInt32.ofNat
    (headerSizeOf o + (if o.version = versionOne ∧ o.attributes ≠ 0 then 16 else 0))

-- Both summands are 32-bit values in the source.
def blockTableOffsetOf (o : CreateOptions) : UInt32 :=
  hashTableOffsetOf o + UInt32.ofNat (hashCapacityOf o) * UInt32.ofNat hashEntryWireSize

def extendedOffsetOf (o : CreateOptions) : Nat :=
  (blockTableOffsetOf o).toNat + capacityOf o * blockEntryWireSize

def firstPayloadOf (o : CreateOptions) : Nat :=
  let offset :=
    if o.version = versionTwo then extendedOffsetOf o + capacityOf o * blockExEntryWireSize
    else extendedOffsetOf o
  (offset + 511) / 512 * 512

def newHeader (o : CreateOptions) : Header where
  magic := 0
  headerSize := UInt32.ofNat (headerSizeOf o)
  archiveSize := 0
  version := o.version.toUInt16
  blockSize := UInt16.ofNat (sectorShift (sectorSizeOf o))
  hashTableOffset := hashTableOffsetOf o
  blockTableOffset := blockTableOffsetOf o
  hashTableCount := UInt32.ofNat (hashCapacityOf o)
  blockTableCount := UInt32.ofNat (capacityOf o)

def newHeaderEx (o : CreateOptions) : HeaderEx where
  extendedOffset := if o.version = versionTwo then UInt64.ofNat (extendedOffsetOf o) else 0
  hashTableOffsetHigh := 0
  blockTableOffsetHigh := 0

def newArchive (o : CreateOptions) (disk : Disk) : WriteArchive where
  disk
  header := newHeader o
  headerEx := newHeaderEx o
  hash _ := { hashA := 0, hashB := 0, locale := 0, platform := 0, blockTableIndex := hashFree }
  block _ := { offset := 0, packedSize := 0, unpackedSize := 0, flags := 0 }
  blockEx _ := 0
  capacity := capacityOf o
  hashCapacity := hashCapacityOf o
  sectorSize := sectorSizeOf o
  flags := o.flags
  attributesFlags := o.attributes
  nextBlock := 0
  names _ := []
  attributes := none
  internal := false
  patchMode := false
  current := none
  signature := false
  signatureOffset := 0
  signatureKey := Bytes.zeros (2 * Rsa.rsaSize)
  strongSignature := false
  strongSignatureKey := Bytes.zeros (2 * Rsa.rsaStrongSize)

-- The reserved space is not written out: at most one page of zeros, then a seek.
def reserveTables (o : CreateOptions) : Op Error Disk Unit := do
  Disk.alloc .malloc
  Disk.alloc .openFile
  failIf (o.version = versionOne ∧ firstPayloadOf o > uint32Max) .size
  Disk.alloc .malloc
  Disk.alloc .write
  Disk.write .write (Bytes.zeros (min 4096 (firstPayloadOf o)))
  Disk.seek .seek (firstPayloadOf o)

-- `libmpq__writer_archive_create`
def archiveCreate (o : CreateOptions) (plan : Faults) : Except Error WriteArchive :=
  if validateOptions o then
    match reserveTables o { file := File.empty, pos := 0, plan } with
    | .ok _ disk => .ok (newArchive o disk)
    | .error e _ => .error e
  else .error .format

inductive SignatureType where
  | weak | strong
  deriving DecidableEq, Repr

abbrev signaturePrefixSize : Nat := 8
abbrev signatureSize : Nat := 72

def hasSignature (a : WriteArchive) : Bool :=
  (List.range a.hashCapacity).any fun i =>
    (a.hash i).blockTableIndex.toNat < a.capacity ∧
      (a.hash i).hashA = (fileHash signatureName).hash2 ∧
      (a.hash i).hashB = (fileHash signatureName).hash3

-- `libmpq__signature_configure`: the weak signature reserves its zero payload at once.
def archiveSign (codecs : Codecs) (type : SignatureType) (key : Bytes) :
    Op Error WriteArchive Unit := do
  let a ← get
  failIf a.current.isSome .notInitialized
  match type with
  | .strong => do
    failIf (a.strongSignature ∨ Rsa.keyValidate key Rsa.rsaStrongSize = false) .format
    modify fun a => { a with strongSignatureKey := key, strongSignature := true }
  | .weak => do
    failIf (a.signature ∨ Rsa.keyValidate key Rsa.rsaSize = false) .format
    failIf (hasSignature a) .format
    fileAdd codecs signatureName (Bytes.zeros signatureSize) .default
    modify fun b =>
      { b with
        attributes := b.attributes.map fun rows => storeAt rows a.nextBlock .none
        signatureOffset := (b.block a.nextBlock).offset.toNat
        signatureKey := key
        signature := true }

abbrev digestChunk : Nat := 16384

-- The bytes of one chunk that fall into the excluded payload are hashed as zeros.
def blank (excluded pos : Nat) (chunk : Bytes) : Bytes :=
  chunk.mapIdx fun i b => if excluded ≤ pos + i ∧ pos + i < excluded + signatureSize then 0 else b

def md5Range (excluded size : Nat) : Nat → Nat → Md5 → Op Error Disk Md5
  | 0, _, context => pure context
  | fuel + 1, pos, context =>
    if pos < size then do
      let chunk ← Disk.readAt .seek .read pos (min digestChunk (size - pos))
      md5Range excluded size fuel (pos + min digestChunk (size - pos))
        (context.update (blank excluded pos chunk))
    else pure context

-- `digest_archive` of a finalized writer
def digestArchive (size excluded : Nat) : Op Error Disk Digest := do
  failIf (excluded > size ∨ size - excluded < signatureSize) .format
  let context ← md5Range excluded size (size + 1) 0 Md5.init
  pure context.finish

def sha1Range (size : Nat) : Nat → Nat → Sha1 → Op Error Disk Sha1
  | 0, _, context => pure context
  | fuel + 1, pos, context =>
    if pos < size then do
      let chunk ← Disk.readAt .seek .read pos (min digestChunk (size - pos))
      sha1Range size fuel (pos + min digestChunk (size - pos)) (context.update chunk)
    else pure context

def strongEncoded (digest : Bytes) : Bytes :=
  0x0B :: List.replicate (Rsa.rsaStrongSize - 20 - 1) 0xBB ++ digest.reverse

def strongMarker : Bytes := ascii "NGIS".toList

-- `strong_finish`
def strongFinish (a : WriteArchive) (size : Nat) : Op Error Disk Unit :=
  if a.strongSignature then do
    Disk.alloc .malloc
    let context ← sha1Range size (size + 1) 0 Sha1.init
    let signature ← fromExcept
      (Rsa.strongPrivateOperation a.strongSignatureKey (strongEncoded context.finish))
    Disk.seek .seek size
    Disk.write .write strongMarker
    Disk.write .write signature.reverse
    Disk.sync .write
  else pure ()

def weakFinish (a : WriteArchive) (size : Nat) : Op Error Disk Unit :=
  if a.signature then do
    Disk.alloc .malloc
    let digest ← digestArchive size a.signatureOffset
    let signature ← fromExcept (Rsa.weakOperation a.signatureKey (Rsa.md5Encode digest))
    Disk.seek .seek (a.signatureOffset + signaturePrefixSize)
    Disk.write .write signature.reverse
    Disk.sync .write
  else pure ()

-- `libmpq__signature_finish`
def signatureFinish (size : Nat) : Op Error WriteArchive Unit := do
  let a ← get
  onDisk (do
    weakFinish a size
    strongFinish a size)

def line (name : Bytes) : Bytes := name ++ [0x0A]

def listfileContent (a : WriteArchive) : Bytes :=
  (List.range a.nextBlock).flatMap (fun i => line (a.names i)) ++
    (if a.attributesFlags ≠ 0 then line attributesName else [])

def listfileOptions : FileOptions := { FileOptions.default with flags := Flag.single }

def attributesOptions : FileOptions :=
  { FileOptions.default with
    flags := Flag.compress
    compressionFirst := Stage.mask .zlib
    compressionNext := Stage.mask .zlib }

def markPatches (a : WriteArchive) (rows : Nat → FileAttributes) : Nat → FileAttributes := fun i =>
  if a.patchMode ∧ has a.attributesFlags attributePatchBit ∧ i < a.nextBlock then
    { rows i with patchBit := has (a.block i).flags Flag.patchFile }
  else rows i

def addListfile (codecs : Codecs) : Op Error WriteArchive Unit := do
  let a ← get
  if has a.flags createListfile then do
    onDisk (Disk.alloc .malloc)
    fileAdd codecs listfileName (listfileContent a) listfileOptions
  else pure ()

def addAttributes (codecs : Codecs) : Op Error WriteArchive Unit := do
  let a ← get
  if a.attributesFlags ≠ 0 then do
    let rows := markPatches a (a.attributes.getD fun _ => .none)
    modify fun a => { a with attributes := some rows }
    let raw ← onDisk (Disk.onPlan
      ((if a.patchMode then Attributes.serializePatchBits else Attributes.serialize)
        rows a.capacity a.nextBlock a.attributesFlags))
    fileAdd codecs attributesName raw attributesOptions
  else pure ()

-- The cipher is told the table size in 32 bits.
def encryptTableBytes (raw : Bytes) (key : UInt32) : Bytes :=
  let size := raw.length % 2 ^ 32
  Crypto.encryptBlock (raw.take size) key ++ raw.drop size

def hashTableBytes (a : WriteArchive) : Bytes :=
  encryptTableBytes (Tables.hashWire.encodeTable a.hash a.hashCapacity) Tables.hashTableKey

def blockTableBytes (a : WriteArchive) : Bytes :=
  encryptTableBytes (Tables.blockWire.encodeTable a.block a.capacity) Tables.blockTableKey

def blockExTableBytes (a : WriteArchive) : Bytes := Wire.le16.encodeTable a.blockEx a.capacity

def writeTables (a : WriteArchive) : Op Error Disk Unit := do
  Disk.alloc .malloc
  Disk.writeAt .write a.header.hashTableOffset.toNat (hashTableBytes a)
  Disk.alloc .malloc
  Disk.writeAt .write a.header.blockTableOffset.toNat (blockTableBytes a)
  if a.header.version.toUInt32 = versionTwo then do
    Disk.alloc .malloc
    Disk.writeAt .write a.headerEx.extendedOffset.toNat (blockExTableBytes a)
  else pure ()

def finalHeader (a : WriteArchive) (size : Nat) : Header :=
  { a.header with magic := headerMagic, archiveSize := UInt32.ofNat size }

def finalHeaderEx (a : WriteArchive) : HeaderEx :=
  { a.headerEx with hashTableOffsetHigh := 0, blockTableOffsetHigh := 0 }

def wireHeader (a : WriteArchive) (size : Nat) : Bytes :=
  Tables.headerWire.encode (finalHeader a size) ++
    (if a.header.version.toUInt32 = versionTwo then Tables.headerExWire.encode (finalHeaderEx a)
    else [])

-- The header is written last; the result is the size it records.
def writeHeader (a : WriteArchive) : Op Error Disk Nat := do
  Disk.seekEnd .seek
  let size ← Disk.tell .seek
  failIf (size > uint32Max) .size
  Disk.writeAt .write 0 (wireHeader a size)
  Disk.sync .write
  pure size

def reserveRows : Op Error WriteArchive Unit := do
  let a ← get
  if a.attributesFlags ≠ 0 ∧ a.attributes.isNone then do
    onDisk (Disk.alloc .malloc)
    modify fun a => { a with attributes := some fun _ => .none }
  else pure ()

-- `finalize_archive`
def finalizeArchive (codecs : Codecs) : Op Error WriteArchive Unit := do
  failIf (← get).current.isSome .size
  modify fun a => { a with internal := true }
  reserveRows
  addListfile codecs
  addAttributes codecs
  let a ← get
  onDisk (writeTables a)
  let size ← onDisk (writeHeader a)
  signatureFinish size

-- `libmpq__archive_close` of a write handle: the file on disk is what remains.
def archiveClose (codecs : Codecs) : Op Error WriteArchive Unit := do
  finalizeArchive codecs
  onDisk (Disk.sync .close)

end Writing

end LibMpq
