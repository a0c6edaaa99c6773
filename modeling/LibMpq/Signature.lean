import LibMpq.Reader
import LibMpq.WriterArchive

set_option autoImplicit false

namespace LibMpq

open Effect Bits

abbrev uint64Max : Nat := 2 ^ 64 - 1

namespace Reading

def extendExtent (offset length extent : Nat) : Except Error Nat :=
  if offset > uint64Max - length then .error .format else .ok (max extent (offset + length))

def hashTablePlace (a : ReadArchive) : Nat :=
  a.header.hashTableOffset.toNat + a.headerEx.hashTableOffsetHigh.toNat * 2 ^ 32

def blockTablePlace (a : ReadArchive) : Nat :=
  a.header.blockTableOffset.toNat + a.headerEx.blockTableOffsetHigh.toNat * 2 ^ 32

def blockPlace (a : ReadArchive) (index : Nat) : Nat :=
  (a.block index).offset.toNat + (a.blockEx index).toNat * 2 ^ 32

def hashTableLength (a : ReadArchive) : Nat := a.header.hashTableCount.toNat * hashEntryWireSize

def blockTableLength (a : ReadArchive) : Nat := a.header.blockTableCount.toNat * blockEntryWireSize

def blockExTableLength (a : ReadArchive) : Nat := a.header.blockTableCount.toNat * blockExEntryWireSize

-- Only payloads with bytes reach into the extent.
def stored (a : ReadArchive) (index : Nat) : Bool :=
  has (a.block index).flags Flag.exists_ && (a.block index).packedSize != 0

-- `libmpq__archive_required_extent`
def archiveRequiredExtent (a : ReadArchive) : Except Error Nat := do
  let needed := headerWireSize +
    (if a.header.version.toUInt32 = versionTwo then headerExWireSize else 0)
  if a.header.version.toUInt32 > versionTwo ∨ a.header.headerSize.toNat < needed then .error .format
  else do
    let extent ← extendExtent (hashTablePlace a) (hashTableLength a) a.header.headerSize.toNat
    let extent ← extendExtent (blockTablePlace a) (blockTableLength a) extent
    let extent ←
      (if a.headerEx.extendedOffset ≠ 0 then
        extendExtent a.headerEx.extendedOffset.toNat (blockExTableLength a) extent
      else .ok extent)
    (List.range a.header.blockTableCount.toNat).foldlM
      (fun extent i =>
        if stored a i then extendExtent (blockPlace a i) (a.block i).packedSize.toNat extent
        else .ok extent) extent

-- `libmpq__archive_signature_extent`: version 1 trusts its header, version 2 its tables.
def archiveSignatureExtent (a : ReadArchive) : Except Error Nat := do
  let required ← archiveRequiredExtent a
  let extent :=
    if a.header.version.toUInt32 = versionOne then a.header.archiveSize.toNat else required
  if extent < required ∨ a.archiveOffset > a.source.size ∨ extent > a.source.size - a.archiveOffset then
    .error .format
  else .ok extent

-- `overlaps`: a range against the 72 bytes of the signature payload
def overlaps (start size signature : Nat) : Bool :=
  start < signature + Writing.signatureSize ∧ (start > signature ∨ size > signature - start)

def signatureSlot (a : ReadArchive) (i : Nat) : Bool :=
  (a.hash i).blockTableIndex < hashDeleted ∧ (a.hash i).hashA = (fileHash signatureName).hash2 ∧
    (a.hash i).hashB = (fileHash signatureName).hash3

-- The physical table is searched, so that an invalid entry does not look like absence.
def signatureIndex (a : ReadArchive) : Except Error Nat := do
  let found ← (List.range a.header.hashTableCount.toNat).foldlM
    (fun (found : Option Nat) i =>
      if signatureSlot a i then
        if found.isSome ∨ (a.hash i).locale ≠ 0 ∨ (a.hash i).platform ≠ 0 ∨
            (a.hash i).blockTableIndex ≥ a.header.blockTableCount then .error .format
        else .ok (some (a.hash i).blockTableIndex.toNat)
      else .ok found) none
  match found with
  | none => .error .exist
  | some index => .ok index

-- A table has to lie in the extent and off the payload.
def tableClear (place length extent pos : Nat) : Bool :=
  ¬ (place > extent ∨ length > extent - place ∨ overlaps place length pos)

def othersClear (a : ReadArchive) (index extent pos : Nat) : Bool :=
  (List.range a.header.blockTableCount.toNat).all fun i =>
    !stored a i ||
      ¬ (blockPlace a i > extent ∨ (a.block i).packedSize.toNat > extent - blockPlace a i ∨
        (i ≠ index ∧ overlaps (blockPlace a i) (a.block i).packedSize.toNat pos))

structure Located where
  offset : Nat
  extent : Nat
  payload : Bytes

-- `locate`
def locate : Op Error ReadArchive Located := do
  let a ← get
  let index ← fromExcept (signatureIndex a)
  let extent ← fromExcept (archiveSignatureExtent a)
  failIf ((a.block index).unpackedSize.toNat ≠ Writing.signatureSize ∨
    (a.block index).packedSize.toNat ≠ Writing.signatureSize ∨
    (a.block index).flags &&& ~~~Flag.single ≠ Flag.exists_) .format
  let pos := blockPlace a index
  failIf (extent < a.header.headerSize.toNat ∨ pos < a.header.headerSize.toNat ∨ pos > extent ∨
    extent - pos < Writing.signatureSize ∨ a.archiveOffset > a.source.size ∨
    extent > a.source.size - a.archiveOffset) .format
  failIf (tableClear (hashTablePlace a) (hashTableLength a) extent pos = false) .format
  failIf (tableClear (blockTablePlace a) (blockTableLength a) extent pos = false) .format
  failIf (a.headerEx.extendedOffset ≠ 0 ∧
    tableClear a.headerEx.extendedOffset.toNat (blockExTableLength a) extent pos = false) .format
  failIf (othersClear a index extent pos = false) .format
  let payload ← onPlan (sourceReadAt a.source (a.archiveOffset + pos) Writing.signatureSize)
  failIf (payload.take Writing.signaturePrefixSize ≠ Bytes.zeros Writing.signaturePrefixSize) .format
  pure { offset := pos, extent, payload }

abbrev strongTrailerSize : Nat := 4 + Rsa.rsaStrongSize

-- `strong_locate` on a plain file
def strongLocate : Op Error ReadArchive (Nat × Bytes) := do
  let a ← get
  let extent ← fromExcept (archiveSignatureExtent a)
  failIf (a.archiveOffset > uint64Max - extent) .format
  let offset := a.archiveOffset + extent
  failIf (offset > a.source.size ∨ strongTrailerSize > a.source.size - offset) .exist
  let trailer ← onPlan (sourceReadAt a.source offset strongTrailerSize)
  failIf (trailer.take 4 ≠ Writing.strongMarker) .exist
  pure (extent, trailer.drop 4)

def hm3w : Bytes := ascii "HM3W".toList

-- `signature_hash_range`: the start and the length of what is hashed
def signatureHashRange (extent : Nat) : Op Error ReadArchive (Nat × Nat) := do
  let a ← get
  failIf (a.archiveOffset > uint64Max - extent) .format
  let start ←
    (if a.archiveOffset > 0 ∧ a.source.size ≥ 4 then do
      let front ← onPlan (sourceReadAt a.source 0 4)
      pure (if front = hm3w then 0 else a.archiveOffset)
    else pure a.archiveOffset)
  pure (start, a.archiveOffset + extent - start)

-- Sixteen kilobytes at a time, each passed on with its position.
def hashSource {κ : Type} (source : File) (start size : Nat) (absorb : Nat → Bytes → κ → κ) :
    Nat → Nat → κ → Op Error Faults κ
  | 0, _, context => pure context
  | fuel + 1, pos, context =>
    if pos < size then do
      let count := min Writing.digestChunk (size - pos)
      let chunk ← sourceReadAt source (start + pos) count
      hashSource source start size absorb fuel (pos + count) (absorb pos chunk context)
    else pure context

-- `digest_archive`
def digestSource (source : File) (start size excluded : Nat) : Op Error Faults Digest := do
  failIf (start > uint64Max - size ∨ excluded > size ∨ size - excluded < Writing.signatureSize) .format
  let context ← hashSource source start size
    (fun pos chunk (context : Md5) => context.update (Writing.blank excluded pos chunk)) (size + 1) 0 Md5.init
  pure context.finish

-- `strong_digest_base`
def strongDigestBase (source : File) (start size : Nat) : Op Error Faults Sha1 :=
  hashSource source start size (fun _ chunk (context : Sha1) => context.update chunk) (size + 1) 0 Sha1.init

def upper (c : UInt8) : UInt8 := if 0x61 ≤ c ∧ c ≤ 0x7A then c - 0x20 else c

def baseName (name : Bytes) : Bytes :=
  (name.reverse.takeWhile fun c => c ≠ 0x2F ∧ c ≠ 0x5C).reverse

-- `strong_digest_variant`: bare, with the upper-case file name, or with a fixed suffix
def strongDigestVariants (filename : Option Bytes) (base : Sha1) : List Bytes :=
  [base.finish] ++
    (filename.toList.map fun name => ((baseName name).foldl (fun s c => s.update [upper c]) base).finish) ++
    [(base.update (ascii "ARCHIVE".toList)).finish]

abbrev signatureWeak : UInt32 := 0x01
abbrev signatureStrong : UInt32 := 0x02

-- `strong_verify`: the mismatch bits
def strongVerify (filename : Option Bytes) (key : Bytes) : Op Error ReadArchive UInt32 := do
  failIf (Rsa.keyValidate key Rsa.rsaStrongSize = false) .format
  let (extent, signature) ← strongLocate
  let (start, size) ← signatureHashRange extent
  let a ← get
  let input := signature.reverse
  if Rsa.below input (key.take Rsa.rsaStrongSize) = false then pure signatureStrong
  else do
    let actual ← fromExcept (Rsa.strongPublicOperation key input)
    let base ← onPlan (strongDigestBase a.source start size)
    pure (if (strongDigestVariants filename base).any fun d => actual = Writing.strongEncoded d then 0
      else signatureStrong)

def weakVerify (key : Bytes) : Op Error ReadArchive UInt32 := do
  failIf (Rsa.keyValidate key Rsa.rsaSize = false) .format
  let located ← locate
  let (start, size) ← signatureHashRange located.extent
  let a ← get
  failIf (a.archiveOffset > uint64Max - located.offset ∨ a.archiveOffset + located.offset < start) .format
  let digest ← onPlan (digestSource a.source start size (a.archiveOffset + located.offset - start))
  let input := (located.payload.drop Writing.signaturePrefixSize).reverse
  pure (match Rsa.weakOperation key input with
    | .ok actual => if Rsa.md5Encode digest = actual then 0 else signatureWeak
    | .error _ => signatureWeak)

-- `libmpq__signature_verify`
def signatureVerify (filename : Option Bytes) (flags : UInt32) (key : Bytes) :
    Op Error ReadArchive UInt32 :=
  if flags = signatureStrong then strongVerify filename key
  else if flags = signatureWeak then weakVerify key
  else throw .format

-- A missing signature is not an error.
def present {α : Type} (bit : UInt32) (x : Op Error ReadArchive α) : Op Error ReadArchive UInt32 := fun a =>
  match x a with
  | .ok _ a' => .ok bit a'
  | .error e a' => if e = .exist then .ok 0 a' else .error e a'

-- `libmpq__signature_detect`
def signatureDetect : Op Error ReadArchive UInt32 := do
  let weak ← present signatureWeak locate
  let strong ← present signatureStrong strongLocate
  pure (weak ||| strong)

end Reading

end LibMpq
