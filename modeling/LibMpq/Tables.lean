import LibMpq.Base.Wire
import LibMpq.Crypto

set_option autoImplicit false

namespace LibMpq

structure Header where
  magic : UInt32
  headerSize : UInt32
  archiveSize : UInt32
  version : UInt16
  blockSize : UInt16
  hashTableOffset : UInt32
  blockTableOffset : UInt32
  hashTableCount : UInt32
  blockTableCount : UInt32
  deriving DecidableEq, Inhabited

structure HeaderEx where
  extendedOffset : UInt64
  hashTableOffsetHigh : UInt16
  blockTableOffsetHigh : UInt16
  deriving DecidableEq, Inhabited

structure HashEntry where
  hashA : UInt32
  hashB : UInt32
  locale : UInt16
  platform : UInt16
  blockTableIndex : UInt32
  deriving DecidableEq, Inhabited

structure BlockEntry where
  offset : UInt32
  packedSize : UInt32
  unpackedSize : UInt32
  flags : UInt32
  deriving DecidableEq, Inhabited

abbrev headerMagic : UInt32 := 0x1A51504D
abbrev headerWireSize : Nat := 32
abbrev headerExWireSize : Nat := 12
abbrev hashEntryWireSize : Nat := 16
abbrev blockEntryWireSize : Nat := 16
abbrev blockExEntryWireSize : Nat := 2

abbrev hashFree : UInt32 := 0xFFFFFFFF
abbrev hashDeleted : UInt32 := 0xFFFFFFFE

namespace Tables

open Wire

def headerWire : Wire Header :=
  (le32.pair (le32.pair (le32.pair (le16.pair (le16.pair (le32.pair (le32.pair
    (le32.pair le32)))))))).map
    (fun (magic, headerSize, archiveSize, version, blockSize, hashTableOffset, blockTableOffset,
        hashTableCount, blockTableCount) =>
      { magic, headerSize, archiveSize, version, blockSize, hashTableOffset, blockTableOffset,
        hashTableCount, blockTableCount })
    (fun h => (h.magic, h.headerSize, h.archiveSize, h.version, h.blockSize, h.hashTableOffset,
      h.blockTableOffset, h.hashTableCount, h.blockTableCount))
    (fun _ => rfl)

def headerExWire : Wire HeaderEx :=
  (le64.pair (le16.pair le16)).map
    (fun (extendedOffset, hashTableOffsetHigh, blockTableOffsetHigh) =>
      { extendedOffset, hashTableOffsetHigh, blockTableOffsetHigh })
    (fun h => (h.extendedOffset, h.hashTableOffsetHigh, h.blockTableOffsetHigh))
    (fun _ => rfl)

def hashWire : Wire HashEntry :=
  (le32.pair (le32.pair (le16.pair (le16.pair le32)))).map
    (fun (hashA, hashB, locale, platform, blockTableIndex) =>
      { hashA, hashB, locale, platform, blockTableIndex })
    (fun e => (e.hashA, e.hashB, e.locale, e.platform, e.blockTableIndex))
    (fun _ => rfl)

def blockWire : Wire BlockEntry :=
  (le32.pair (le32.pair (le32.pair le32))).map
    (fun (offset, packedSize, unpackedSize, flags) => { offset, packedSize, unpackedSize, flags })
    (fun e => (e.offset, e.packedSize, e.unpackedSize, e.flags))
    (fun _ => rfl)

example : headerWire.width = headerWireSize ∧ headerExWire.width = headerExWireSize ∧
    hashWire.width = hashEntryWireSize ∧ blockWire.width = blockEntryWireSize ∧
    le16.width = blockExEntryWireSize := by
  decide

def hashTableKey : UInt32 := Crypto.hashString (ascii "(hash table)".toList) 0x300

def blockTableKey : UInt32 := Crypto.hashString (ascii "(block table)".toList) 0x300

end Tables

def listfileName : Bytes := ascii "(listfile)".toList

def attributesName : Bytes := ascii "(attributes)".toList

def signatureName : Bytes := ascii "(signature)".toList

/-- The three Storm hashes of a name: its home slot and its identity. -/
structure FileHash where
  hash1 : UInt32
  hash2 : UInt32
  hash3 : UInt32
  deriving DecidableEq

def fileHash (name : Bytes) : FileHash where
  hash1 := Crypto.hashString name 0x000
  hash2 := Crypto.hashString name 0x100
  hash3 := Crypto.hashString name 0x200

end LibMpq
