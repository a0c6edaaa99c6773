import LibMpq.Reader

set_option autoImplicit false

namespace LibMpq

open Effect Bits

structure Stream where
  archive : ReadArchive
  number : Nat
  blocks : Nat
  cachedBlock : Nat
  checksums : Option (Nat → UInt32)
  buffer : Bytes
  blockValid : Bool
  size : Nat
  position : Nat
  blockSize : Nat

namespace Streaming

-- An encrypted member is refused at once when its key is not known.
def keyKnown (a : ReadArchive) (number : Nat) : Op Error ReadArchive Unit :=
  if Reading.countFileBlocks a number ≠ 0 ∧ has (Reading.entry a number).flags Flag.encrypted then
    match a.cache number with
    | none => throw .format
    | some file => do
      failIf (file.packedOffsetCount < 2) .format
      failIf (file.packedOffset 1 < file.packedOffset 0) .format
      failIf ((file.packedOffset 1 - file.packedOffset 0).toNat ≥ 4 ∧ file.seed = none) .decrypt
  else pure ()

def orRelease {α : Type} (number : Nat) (x : Op Error ReadArchive α) : Op Error ReadArchive α := fun a =>
  match x a with
  | .ok r a' => .ok r a'
  | .error e a' => .error e (final (Reading.offsetsRelease number a'))

-- `stream_adopt`
def streamAdopt (codecs : Codecs) (number : Nat) (name : Option Bytes) :
    Op Error ReadArchive Stream := do
  failIf (number ≥ (← get).files) .exist
  Reading.onPlan (request .malloc)
  Reading.offsetsAcquire number name
  orRelease number (do
    let a ← get
    keyKnown a number
    let checksums ← attempt (Reading.sectorChecksums codecs number)
    let archive ← get
    pure
      { archive
        number
        blocks := Reading.countFileBlocks a number
        cachedBlock := 2 ^ 32 - 1
        checksums := checksums.join
        buffer := []
        blockValid := false
        size := (Reading.entry a number).unpackedSize.toNat
        position := 0
        blockSize := 0 })

-- `libmpq__archive_clone`: a second handle on the same file
def archiveClone : Op Error ReadArchive ReadArchive := do
  let a ← get
  Reading.onPlan (do
    let clone ← Reading.openPath a.source a.archiveOffset
    request .exist
    pure clone)

def onClone {α : Type} (clone : ReadArchive) (x : Op Error ReadArchive α) : Op Error ReadArchive α :=
  fun a =>
    match x { clone with plan := a.plan } with
    | .ok r b => .ok r { a with plan := b.plan }
    | .error e b => .error e { a with plan := b.plan }

-- `libmpq__stream_open`
def streamOpen (codecs : Codecs) (number : Nat) : Op Error ReadArchive Stream := do
  failIf (number ≥ (← get).files) .exist
  let clone ← archiveClone
  onClone clone (streamAdopt codecs number none)

-- `libmpq__stream_open_name`
def streamOpenName (codecs : Codecs) (name : Bytes) : Op Error ReadArchive Stream := do
  let clone ← archiveClone
  let number ← fromExcept (Reading.fileNumber clone name)
  onClone clone (streamAdopt codecs number (some name))

-- `libmpq__stream_close`: what becomes of the private handle before it is freed.
def streamClose (s : Stream) : EStateM.Result Error ReadArchive Unit :=
  Reading.offsetsRelease s.number s.archive

def growBuffer (size : Nat) : Op Error Stream Unit := do
  let s ← get
  if size > s.buffer.length then do
    zoom (·.archive.plan) (fun plan s => { s with archive := { s.archive with plan } })
      (request .malloc)
    modify fun s => { s with buffer := s.buffer ++ Bytes.zeros (size - s.buffer.length) }
  else pure ()

-- A block is loaded into the buffer that holds the cached one.
def readInto (codecs : Codecs) (block : Nat) : Op Error Stream Nat := fun s =>
  let window : Reading.Window :=
    { plan := s.archive.plan, buffer := s.buffer, mismatch := false, lossy := false }
  let after := fun (w : Reading.Window) =>
    { s with buffer := w.buffer, archive := { s.archive with plan := w.plan } }
  match Reading.blockReadAcquired codecs s.archive s.number block (s.checksums.map (· block))
      window with
  | .ok status w =>
    if w.mismatch then .error .read (after w) else .ok status.toNatClampNeg (after w)
  | .error e w => .error (if w.mismatch then .read else e) (after w)

-- `stream_load_block`
def loadBlock (codecs : Codecs) (block : Nat) : Op Error Stream Unit := do
  let s ← get
  if s.blockValid ∧ s.cachedBlock = block then pure ()
  else do
    let size ← fromExcept (Reading.blockSizeUnpacked s.archive s.number block)
    growBuffer size
    let transferred ← readInto codecs block
    modify fun s => { s with cachedBlock := block, blockSize := transferred, blockValid := true }

-- What one `stream_read` reports: its return value and the bytes it transferred.
structure ReadOutcome where
  stream : Stream
  data : Bytes
  transferred : Nat
  error : Option Error

def blockAt (s : Stream) (position : Nat) : Nat :=
  if s.blocks = 1 then 0 else position / s.archive.blockSize.toNat

def baseOf (s : Stream) (block : Nat) : Nat :=
  if s.blocks = 1 then 0 else block * s.archive.blockSize.toNat

-- What a loaded block gives to a read that still wants `want` bytes.
def takeCount (s : Stream) (offset want : Nat) : Nat :=
  min (min want (s.blockSize - offset)) (s.size - s.position)

def advance (count : Nat) (s : Stream) : Stream := { s with position := s.position + count }

-- Every round of the loop transfers at least one byte.
def readLoop (codecs : Codecs) : Nat → Nat → Stream → ReadOutcome
  | 0, _, s => ⟨s, [], 0, none⟩
  | fuel + 1, want, s =>
    if want = 0 ∨ s.position ≥ s.size then ⟨s, [], 0, none⟩
    else
      match loadBlock codecs (blockAt s s.position) s with
      | .error e s' => ⟨s', [], 0, some e⟩
      | .ok _ s' =>
        let offset := s'.position - baseOf s' (blockAt s s.position)
        if offset ≥ s'.blockSize then ⟨s', [], 0, some .read⟩
        else
          let count := takeCount s' offset want
          let rest := readLoop codecs fuel (want - count) (advance count s')
          { rest with
            data := (s'.buffer.drop offset).take count ++ rest.data
            transferred := count + rest.transferred }

-- `libmpq__stream_read`
def streamRead (codecs : Codecs) (size : Int) (s : Stream) : ReadOutcome :=
  if size < 0 then ⟨s, [], 0, some .size⟩ else readLoop codecs size.toNat size.toNat s

inductive Origin where
  | set | current | fromEnd | unknown
  deriving DecidableEq, Repr

abbrev int64Max : Int := 2 ^ 63 - 1
abbrev int64Min : Int := -(2 ^ 63)

def originBase (s : Stream) : Origin → Option Int
  | .set => some 0
  | .current => some s.position
  | .fromEnd => some s.size
  | .unknown => none

-- `libmpq__stream_seek`
def streamSeek (offset : Int) (origin : Origin) : Op Error Stream Unit := do
  let s ← get
  match originBase s origin with
  | none => throw .seek
  | some base => do
    failIf ((offset > 0 ∧ base > int64Max - offset) ∨ (offset < 0 ∧ base < int64Min - offset)) .seek
    failIf (base + offset < 0 ∨ base + offset > s.size) .seek
    set { s with position := (base + offset).toNat }

end Streaming

end LibMpq
