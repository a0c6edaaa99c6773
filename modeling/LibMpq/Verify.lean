import LibMpq.Reader

set_option autoImplicit false

namespace LibMpq

open Effect Bits

abbrev verifySectorCrc : UInt32 := 0x01
abbrev verifyFileCrc32 : UInt32 := 0x02
abbrev verifyFileMd5 : UInt32 := 0x04
abbrev verifyAll : UInt32 := 0x07

namespace Reading

def releasing {α : Type} (number : Nat) (x : Op Error ReadArchive α) : Op Error ReadArchive α := fun a =>
  match x a with
  | .ok r a' => (offsetsRelease number >>= fun _ => pure r) a'
  | .error e a' => .error e (final (offsetsRelease number a'))

-- A block read into a buffer of exactly the announced size.
def readAcquired (codecs : Codecs) (number block : Nat) (checksum : Option UInt32) (buffer : Bytes)
    (mismatch : Bool) : Op Error ReadArchive (Nat × Window) := fun a =>
  match blockReadAcquired codecs a number block checksum
      { plan := a.plan, buffer, mismatch, lossy := false } with
  | .ok status w => .ok (status.toNatClampNeg, w) { a with plan := w.plan }
  | .error e w => .error e { a with plan := w.plan }

-- `libmpq__reader_block_read`
def blockRead (codecs : Codecs) (number block : Nat) (checksum : Option UInt32) (buffer : Bytes) :
    Op Error ReadArchive (Nat × Window) := do
  failIf (block ≥ countFileBlocks (← get) number) .exist
  offsetsAcquire number none
  holding number (readAcquired codecs number block checksum buffer false)

def sectorized (flags : UInt32) : Prop := has flags Flag.sectorCrc = true ∧ serialized flags = true

instance (flags : UInt32) : Decidable (sectorized flags) := inferInstanceAs (Decidable (_ ∧ _))

def sectorBits (mismatch : Bool) : UInt32 := if mismatch then verifySectorCrc else 0

structure BlockVerdict where
  checksum : UInt32
  mismatches : UInt32

def verifyStored (codecs : Codecs) (number block : Nat) : Op Error ReadArchive BlockVerdict := do
  let checksums ← sectorChecksums codecs number
  match checksums.map (· block) with
  | none => throw .exist
  | some stored => do
    failIf (stored = 0 ∨ stored = 0xFFFFFFFF) .exist
    let size ← fromExcept (blockSizeUnpacked (← get) number block)
    onPlan (request .malloc)
    let (transferred, w) ← blockRead codecs number block (some stored) (Bytes.zeros size)
    failIf (transferred ≠ size) .read
    pure { checksum := stored, mismatches := sectorBits w.mismatch }

-- `libmpq__verify_block`
def verifyBlock (codecs : Codecs) (number block : Nat) : Op Error ReadArchive BlockVerdict := do
  let a ← get
  failIf (number ≥ a.files ∨ block ≥ countFileBlocks a number) .exist
  failIf (¬ sectorized (entry a number).flags) .exist
  offsetsAcquire number none
  releasing number (verifyStored codecs number block)

-- `libmpq__file_attributes`
def fileAttributes (codecs : Codecs) (number : Nat) : Op Error ReadArchive FileAttributes := do
  failIf (number ≥ (← get).files) .exist
  let view ← attributesLoad codecs
  pure (Attributes.get view (entryIndex (← get) number))

def available (row : FileAttributes) (storage flags : UInt32) : UInt32 :=
  let flags := if has row.flags attributeCrc32 then flags else flags &&& ~~~verifyFileCrc32
  let flags := if has row.flags attributeMd5 then flags else flags &&& ~~~verifyFileMd5
  if sectorized storage then flags else flags &&& ~~~verifySectorCrc

-- `libmpq__attributes_compare_file`
def compareFile (row : FileAttributes) (flags crc : UInt32) (digest : Digest) (mismatches : UInt32) :
    UInt32 :=
  let mismatches :=
    if has flags verifyFileCrc32 ∧ has row.flags attributeCrc32 ∧ crc ≠ row.crc32 then
      mismatches ||| verifyFileCrc32 else mismatches
  if has flags verifyFileMd5 ∧ has row.flags attributeMd5 ∧ digest ≠ row.md5 then
    mismatches ||| verifyFileMd5 else mismatches

structure VerifyState where
  buffer : Bytes
  crc : UInt32
  md5 : Md5
  total : Nat
  mismatch : Bool

-- The sector buffer only grows; it is never empty once allocated.
def growVerify (size : Nat) (buffer : Bytes) : Op Error ReadArchive Bytes :=
  if size > buffer.length ∨ buffer = [] then do
    onPlan (request .malloc)
    pure (buffer ++ Bytes.zeros (max size 1 - buffer.length))
  else pure buffer

def verifyStep (codecs : Codecs) (number : Nat) (flags : UInt32) (checksums : Option (Nat → UInt32))
    (expected : Nat) (s : VerifyState) (i : Nat) : Op Error ReadArchive VerifyState := do
  let size ← fromExcept (blockSizeUnpacked (← get) number i)
  failIf (s.total + size > expected) .size
  let buffer ← growVerify size s.buffer
  let (transferred, w) ←
    readAcquired codecs number i (checksums.map (· i)) (buffer.take size) s.mismatch
  failIf (transferred ≠ size) .read
  let data := w.buffer.take size
  pure
    { buffer := Bytes.overlay w.buffer buffer
      crc := if has flags verifyFileCrc32 then Checksum.crc32 s.crc data else s.crc
      md5 := if has flags verifyFileMd5 then s.md5.update data else s.md5
      total := s.total + size
      mismatch := w.mismatch }

def VerifyState.init : VerifyState where
  buffer := []
  crc := 0
  md5 := .init
  total := 0
  mismatch := false

def verifyBlocks (codecs : Codecs) (number : Nat) (flags : UInt32) (row : FileAttributes)
    (expected blocks : Nat) : Op Error ReadArchive UInt32 := do
  let checksums ←
    (if has flags verifySectorCrc then sectorChecksums codecs number else pure none)
  -- Without a sector table there is nothing to read for the sector check alone.
  if checksums.isNone ∧ has flags (verifyFileCrc32 ||| verifyFileMd5) = false then pure 0
  else do
    let s ← (List.range blocks).foldlM (verifyStep codecs number flags checksums expected) .init
    failIf (s.total ≠ expected) .read
    pure (compareFile row flags s.crc s.md5.finish (sectorBits s.mismatch))

-- What is left of a request once its checks are known to apply.
def verifyAvailable (codecs : Codecs) (number : Nat) (flags : UInt32) (row : FileAttributes) :
    Op Error ReadArchive UInt32 := do
  let a ← get
  if flags = 0 then pure 0
  else do
    offsetsAcquire number none
    releasing number (verifyBlocks codecs number flags row (entry a number).unpackedSize.toNat
      (countFileBlocks a number))

-- `libmpq__verify_file`
def verifyFile (codecs : Codecs) (number : Nat) (flags : UInt32) : Op Error ReadArchive UInt32 := do
  failIf (number ≥ (← get).files) .exist
  failIf (flags &&& ~~~verifyAll ≠ 0) .format
  if flags = 0 then pure 0
  else do
    let row ←
      (if has flags (verifyFileCrc32 ||| verifyFileMd5) then fileAttributes codecs number
        else pure .none)
    let a ← get
    verifyAvailable codecs number (available row (entry a number).flags flags) row

end Reading

end LibMpq
