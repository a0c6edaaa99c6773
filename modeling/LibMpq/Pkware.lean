import LibMpq.Base.Bitstream
import LibMpq.Compression

set_option autoImplicit false

-- `mpq-pkware.c`: an encoder with a 4 KiB dictionary, and a decoder that works on a sliding
-- window. The decoder keeps a list of the places it touches.

namespace LibMpq

open Effect

namespace Pkware

def distBits : List Nat :=
  [0x02, 0x04, 0x04, 0x05, 0x05, 0x05, 0x05, 0x06, 0x06, 0x06, 0x06, 0x06, 0x06, 0x06, 0x06, 0x06,
    0x06, 0x06, 0x06, 0x06, 0x06, 0x06, 0x07, 0x07, 0x07, 0x07, 0x07, 0x07, 0x07, 0x07, 0x07, 0x07,
    0x07, 0x07, 0x07, 0x07, 0x07, 0x07, 0x07, 0x07, 0x07, 0x07, 0x07, 0x07, 0x07, 0x07, 0x07, 0x07,
    0x08, 0x08, 0x08, 0x08, 0x08, 0x08, 0x08, 0x08, 0x08, 0x08, 0x08, 0x08, 0x08, 0x08, 0x08, 0x08]

def distCode : List Nat :=
  [0x03, 0x0D, 0x05, 0x19, 0x09, 0x11, 0x01, 0x3E, 0x1E, 0x2E, 0x0E, 0x36, 0x16, 0x26, 0x06, 0x3A,
    0x1A, 0x2A, 0x0A, 0x32, 0x12, 0x22, 0x42, 0x02, 0x7C, 0x3C, 0x5C, 0x1C, 0x6C, 0x2C, 0x4C, 0x0C,
    0x74, 0x34, 0x54, 0x14, 0x64, 0x24, 0x44, 0x04, 0x78, 0x38, 0x58, 0x18, 0x68, 0x28, 0x48, 0x08,
    0xF0, 0x70, 0xB0, 0x30, 0xD0, 0x50, 0x90, 0x10, 0xE0, 0x60, 0xA0, 0x20, 0xC0, 0x40, 0x80, 0x00]

def clenBits : List Nat :=
  [0x00, 0x00, 0x00, 0x00, 0x00, 0x00, 0x00, 0x00, 0x01, 0x02, 0x03, 0x04, 0x05, 0x06, 0x07, 0x08]

def lenBase : List Nat :=
  [0x0000, 0x0001, 0x0002, 0x0003, 0x0004, 0x0005, 0x0006, 0x0007, 0x0008, 0x000A, 0x000E, 0x0016,
    0x0026, 0x0046, 0x0086, 0x0106]

def slenBits : List Nat :=
  [0x03, 0x02, 0x03, 0x03, 0x04, 0x04, 0x04, 0x05, 0x05, 0x05, 0x05, 0x06, 0x06, 0x06, 0x07, 0x07]

def lenCode : List Nat :=
  [0x05, 0x03, 0x01, 0x06, 0x0A, 0x02, 0x0C, 0x14, 0x04, 0x18, 0x08, 0x30, 0x10, 0x20, 0x40, 0x00]

def bitsAsc : List Nat :=
  [0x0B, 0x0C, 0x0C, 0x0C, 0x0C, 0x0C, 0x0C, 0x0C, 0x0C, 0x08, 0x07, 0x0C, 0x0C, 0x07, 0x0C, 0x0C,
    0x0C, 0x0C, 0x0C, 0x0C, 0x0C, 0x0C, 0x0C, 0x0C, 0x0C, 0x0C, 0x0D, 0x0C, 0x0C, 0x0C, 0x0C, 0x0C,
    0x04, 0x0A, 0x08, 0x0C, 0x0A, 0x0C, 0x0A, 0x08, 0x07, 0x07, 0x08, 0x09, 0x07, 0x06, 0x07, 0x08,
    0x07, 0x06, 0x07, 0x07, 0x07, 0x07, 0x08, 0x07, 0x07, 0x08, 0x08, 0x0C, 0x0B, 0x07, 0x09, 0x0B,
    0x0C, 0x06, 0x07, 0x06, 0x06, 0x05, 0x07, 0x08, 0x08, 0x06, 0x0B, 0x09, 0x06, 0x07, 0x06, 0x06,
    0x07, 0x0B, 0x06, 0x06, 0x06, 0x07, 0x09, 0x08, 0x09, 0x09, 0x0B, 0x08, 0x0B, 0x09, 0x0C, 0x08,
    0x0C, 0x05, 0x06, 0x06, 0x06, 0x05, 0x06, 0x06, 0x06, 0x05, 0x0B, 0x07, 0x05, 0x06, 0x05, 0x05,
    0x06, 0x0A, 0x05, 0x05, 0x05, 0x05, 0x08, 0x07, 0x08, 0x08, 0x0A, 0x0B, 0x0B, 0x0C, 0x0C, 0x0C,
    0x0D, 0x0D, 0x0D, 0x0D, 0x0D, 0x0D, 0x0D, 0x0D, 0x0D, 0x0D, 0x0D, 0x0D, 0x0D, 0x0D, 0x0D, 0x0D,
    0x0D, 0x0D, 0x0D, 0x0D, 0x0D, 0x0D, 0x0D, 0x0D, 0x0D, 0x0D, 0x0D, 0x0D, 0x0D, 0x0D, 0x0D, 0x0D,
    0x0D, 0x0D, 0x0D, 0x0D, 0x0D, 0x0D, 0x0D, 0x0D, 0x0D, 0x0D, 0x0D, 0x0D, 0x0D, 0x0D, 0x0D, 0x0D,
    0x0C, 0x0C, 0x0C, 0x0C, 0x0C, 0x0C, 0x0C, 0x0C, 0x0C, 0x0C, 0x0C, 0x0C, 0x0C, 0x0C, 0x0C, 0x0C,
    0x0C, 0x0C, 0x0C, 0x0C, 0x0C, 0x0C, 0x0C, 0x0C, 0x0C, 0x0C, 0x0C, 0x0C, 0x0C, 0x0C, 0x0C, 0x0C,
    0x0C, 0x0C, 0x0C, 0x0C, 0x0C, 0x0C, 0x0C, 0x0C, 0x0C, 0x0C, 0x0C, 0x0C, 0x0C, 0x0C, 0x0C, 0x0C,
    0x0D, 0x0C, 0x0D, 0x0D, 0x0D, 0x0C, 0x0D, 0x0D, 0x0D, 0x0C, 0x0D, 0x0D, 0x0D, 0x0D, 0x0C, 0x0D,
    0x0D, 0x0D, 0x0C, 0x0C, 0x0C, 0x0D, 0x0D, 0x0D, 0x0D, 0x0D, 0x0D, 0x0D, 0x0D, 0x0D, 0x0D, 0x0D]

def codeAsc : List Nat :=
  [0x0490, 0x0FE0, 0x07E0, 0x0BE0, 0x03E0, 0x0DE0, 0x05E0, 0x09E0, 0x01E0, 0x00B8, 0x0062, 0x0EE0,
    0x06E0, 0x0022, 0x0AE0, 0x02E0, 0x0CE0, 0x04E0, 0x08E0, 0x00E0, 0x0F60, 0x0760, 0x0B60, 0x0360,
    0x0D60, 0x0560, 0x1240, 0x0960, 0x0160, 0x0E60, 0x0660, 0x0A60, 0x000F, 0x0250, 0x0038, 0x0260,
    0x0050, 0x0C60, 0x0390, 0x00D8, 0x0042, 0x0002, 0x0058, 0x01B0, 0x007C, 0x0029, 0x003C, 0x0098,
    0x005C, 0x0009, 0x001C, 0x006C, 0x002C, 0x004C, 0x0018, 0x000C, 0x0074, 0x00E8, 0x0068, 0x0460,
    0x0090, 0x0034, 0x00B0, 0x0710, 0x0860, 0x0031, 0x0054, 0x0011, 0x0021, 0x0017, 0x0014, 0x00A8,
    0x0028, 0x0001, 0x0310, 0x0130, 0x003E, 0x0064, 0x001E, 0x002E, 0x0024, 0x0510, 0x000E, 0x0036,
    0x0016, 0x0044, 0x0030, 0x00C8, 0x01D0, 0x00D0, 0x0110, 0x0048, 0x0610, 0x0150, 0x0060, 0x0088,
    0x0FA0, 0x0007, 0x0026, 0x0006, 0x003A, 0x001B, 0x001A, 0x002A, 0x000A, 0x000B, 0x0210, 0x0004,
    0x0013, 0x0032, 0x0003, 0x001D, 0x0012, 0x0190, 0x000D, 0x0015, 0x0005, 0x0019, 0x0008, 0x0078,
    0x00F0, 0x0070, 0x0290, 0x0410, 0x0010, 0x07A0, 0x0BA0, 0x03A0, 0x0240, 0x1C40, 0x0C40, 0x1440,
    0x0440, 0x1840, 0x0840, 0x1040, 0x0040, 0x1F80, 0x0F80, 0x1780, 0x0780, 0x1B80, 0x0B80, 0x1380,
    0x0380, 0x1D80, 0x0D80, 0x1580, 0x0580, 0x1980, 0x0980, 0x1180, 0x0180, 0x1E80, 0x0E80, 0x1680,
    0x0680, 0x1A80, 0x0A80, 0x1280, 0x0280, 0x1C80, 0x0C80, 0x1480, 0x0480, 0x1880, 0x0880, 0x1080,
    0x0080, 0x1F00, 0x0F00, 0x1700, 0x0700, 0x1B00, 0x0B00, 0x1300, 0x0DA0, 0x05A0, 0x09A0, 0x01A0,
    0x0EA0, 0x06A0, 0x0AA0, 0x02A0, 0x0CA0, 0x04A0, 0x08A0, 0x00A0, 0x0F20, 0x0720, 0x0B20, 0x0320,
    0x0D20, 0x0520, 0x0920, 0x0120, 0x0E20, 0x0620, 0x0A20, 0x0220, 0x0C20, 0x0420, 0x0820, 0x0020,
    0x0FC0, 0x07C0, 0x0BC0, 0x03C0, 0x0DC0, 0x05C0, 0x09C0, 0x01C0, 0x0EC0, 0x06C0, 0x0AC0, 0x02C0,
    0x0CC0, 0x04C0, 0x08C0, 0x00C0, 0x0F40, 0x0740, 0x0B40, 0x0340, 0x0300, 0x0D40, 0x1D00, 0x0D00,
    0x1500, 0x0540, 0x0500, 0x1900, 0x0900, 0x0940, 0x1100, 0x0100, 0x1E00, 0x0E00, 0x0140, 0x1600,
    0x0600, 0x1A00, 0x0E40, 0x0640, 0x0A40, 0x0A00, 0x1200, 0x0200, 0x1C00, 0x0C00, 0x1400, 0x0400,
    0x1800, 0x0800, 0x1000, 0x0000]

abbrev cmpBinary : Nat := 0
abbrev cmpAscii : Nat := 1

inductive Table where
  | pos1 | pos2 | offs2c34 | offs2d34 | offs2e34 | offs2eb4
  | bitsAsc | distBits | slenBits | clenBits | lenBase
  deriving DecidableEq, Repr

def Table.size : Table → Nat
  | pos1 | pos2 | offs2c34 | offs2d34 | offs2eb4 | bitsAsc => 0x100
  | offs2e34 => 0x80
  | distBits => 0x40
  | slenBits | clenBits | lenBase => 0x10

structure TableStore where
  table : Table
  index : Nat
  symbol : Nat
  deriving DecidableEq

def slots (add limit : Nat) : Nat → Nat → List Nat
  | 0, _ => []
  | rounds + 1, acc => acc :: if acc + add < limit then slots add limit rounds (acc + add) else []

-- `generate_tables_decode`
def generateTablesDecode (buf2 : Table) (count : Nat) (bits code : List Nat) : List TableStore :=
  (List.range count).reverse.flatMap fun i =>
    (slots (1 <<< bits.getD i 0) 0x100 0x100 (code.getD i 0)).map fun idx1 => ⟨buf2, idx1, i⟩

-- A long code leaves an escape in the first table, or nothing when its first byte is zero.
def asciiStores (code bits count : Nat) : List TableStore :=
  if bits ≤ 8 then
    (if code < 0x100 then slots (1 <<< bits) 0x100 0x100 code else []).map (⟨.offs2c34, ·, count⟩)
  else if code &&& 0xFF ≠ 0 then
    ⟨.offs2c34, code &&& 0xFF, 0xFF⟩ ::
      if code &&& 0x3F ≠ 0 then
        (slots (1 <<< (bits - 4)) 0x100 0x100 (code >>> 4)).map (⟨.offs2d34, ·, count⟩)
      else (slots (1 <<< (bits - 6)) 0x80 0x80 (code >>> 6)).map (⟨.offs2e34, ·, count⟩)
  else (slots (1 <<< (bits - 8)) 0x100 0x100 (code >>> 8)).map (⟨.offs2eb4, ·, count⟩)

-- What is left of a literal's code after the part that selects its table.
def asciiBits (code bits : Nat) : Nat :=
  if bits ≤ 8 then bits
  else if code &&& 0xFF ≠ 0 then if code &&& 0x3F ≠ 0 then bits - 4 else bits - 6
  else bits - 8

def asciiCodes : List ((Nat × Nat) × Nat) := (codeAsc.zip bitsAsc).zipIdx

-- `generate_tables_ascii`
def generateTablesAscii : List TableStore :=
  asciiCodes.reverse.flatMap fun c => asciiStores c.1.1 c.1.2 c.2

def fill (table : Table) (stores : List TableStore) : List Nat :=
  (stores.filter fun s => s.table = table).foldl (fun cells s => cells.set s.index s.symbol)
    (List.replicate table.size 0)

def lengthStores : List TableStore := generateTablesDecode .pos2 0x10 slenBits lenCode

def distanceStores : List TableStore := generateTablesDecode .pos1 0x40 distBits distCode

def Table.entries : Table → List Nat
  | pos1 => fill pos1 distanceStores
  | pos2 => fill pos2 lengthStores
  | bitsAsc => asciiCodes.map fun c => asciiBits c.1.1 c.1.2
  | distBits => Pkware.distBits
  | slenBits => Pkware.slenBits
  | clenBits => Pkware.clenBits
  | lenBase => Pkware.lenBase
  | table => fill table generateTablesAscii

def Table.get (table : Table) (index : Nat) : Nat := table.entries.getD index 0

inductive Access where
  | table (table : Table) (index : Nat)
  | staged (index : Nat)
  | copy (position back length : Nat)
  | literal (position : Nat)
  | moved (count : Nat)
  deriving DecidableEq

abbrev windowHalf : Nat := 0x1000
abbrev windowSize : Nat := 0x2000

-- `out_buf` and `offs_2030` together; `in_buf` follows them in memory.
abbrev stagingStart : Nat := 0x2204
abbrev stagingSize : Nat := 0x800

-- `pkzip_cmp_s` and the callbacks' `pkzip_data_s`, with the accesses so far.
structure Cmp where
  cmpType : Nat
  outPos : Nat
  dsizeBits : Nat
  dsizeMask : Nat
  bitBuf : Nat
  extraBits : Nat
  inPos : Nat
  inBytes : Nat
  -- `out_buf`, `offs_2030` and `in_buf`, one after the other.
  work : Nat → UInt8
  source : Bytes
  sourcePos : Nat
  maxOut : Nat
  out : Bytes
  log : List Access

inductive Stop where
  -- The value 0x306 of the source: truncated input.
  | abort
  | fuel
  deriving DecidableEq, Repr

abbrev Step (α : Type) := Op Stop Cmp α

def touch (access : Access) : Step Unit := modify fun s => { s with log := access :: s.log }

def look (table : Table) (index : Nat) : Step Nat := do
  touch (.table table index)
  pure (table.get index)

-- `data_read_input`
def dataReadInput (s : Cmp) : Nat × Cmp :=
  let toRead := min stagingSize (s.source.length - s.sourcePos)
  (toRead,
    { s with
      sourcePos := s.sourcePos + toRead
      work := fun j =>
        if stagingStart ≤ j ∧ j < stagingStart + toRead then
          s.source.getD (s.sourcePos + (j - stagingStart)) 0
        else s.work j })

-- `data_write_output` on the upper half of the window
def dataWriteOutput (count : Nat) (s : Cmp) : Cmp :=
  { s with
    out := s.out ++
      ((List.range count).map fun i => s.work (windowHalf + i)).take (s.maxOut - s.out.length) }

-- Refill the staging buffer when it is used up.
def refill : Step Unit := fun s =>
  if s.inPos = s.inBytes then
    let (count, s) := dataReadInput s
    if count = 0 then .error .abort { s with inBytes := 0 }
    else .ok () { s with inBytes := count, inPos := 0 }
  else .ok () s

def nextByte : Step Nat := do
  refill
  let s ← get
  touch (.staged s.inPos)
  modify fun s => { s with inPos := s.inPos + 1 }
  pure (s.work (stagingStart + s.inPos)).toNat

-- `skip_bit`
def skipBit (bits : Nat) : Step Unit := do
  let s ← get
  if bits ≤ s.extraBits then
    set { s with extraBits := s.extraBits - bits, bitBuf := s.bitBuf >>> bits }
  else do
    set { s with bitBuf := s.bitBuf >>> s.extraBits }
    let byte ← nextByte
    modify fun s =>
      { s with
        bitBuf := (s.bitBuf ||| byte <<< 8) >>> (bits - s.extraBits)
        extraBits := s.extraBits + 8 - bits }

def bitBuf : Step Nat := do pure (← get).bitBuf

-- The last bits of the terminator may be followed by nothing.
def decodeLength : Step Nat := do
  let value ← look .pos2 ((← bitBuf) &&& 0xFF)
  let width ← look .slenBits value
  skipBit width
  let bits ← look .clenBits value
  if bits ≠ 0 then do
    let val2 := (← bitBuf) &&& ((1 <<< bits) - 1)
    let skipped ← attempt (skipBit bits)
    failIf (skipped = none ∧ value + val2 ≠ 0x10E) .abort
    let base ← look .lenBase value
    pure (base + val2 + 0x100)
  else pure (value + 0x100)

def decodeAscii : Step Nat := do
  let low := (← bitBuf) &&& 0xFF
  let value ←
    (if low ≠ 0 then do
      let value ← look .offs2c34 low
      if value = 0xFF then
        if (← bitBuf) &&& 0x3F ≠ 0 then do
          skipBit 4
          look .offs2d34 ((← bitBuf) &&& 0xFF)
        else do
          skipBit 6
          look .offs2e34 ((← bitBuf) &&& 0x7F)
      else pure value
    else do
      skipBit 8
      look .offs2eb4 ((← bitBuf) &&& 0xFF))
  let width ← look .bitsAsc value
  skipBit width
  pure value

-- `decode_literal`; where the source returns 0x306 the call fails.
def decodeLiteral : Step Nat := do
  if (← bitBuf) &&& 1 ≠ 0 then do
    skipBit 1
    decodeLength
  else do
    skipBit 1
    if (← get).cmpType = cmpBinary then do
      let value := (← bitBuf) &&& 0xFF
      skipBit 8
      pure value
    else decodeAscii

-- `decode_distance`; where the source returns zero the call fails.
def decodeDistance (length : Nat) : Step Nat := do
  let pos ← look .pos1 ((← bitBuf) &&& 0xFF)
  let skip ← look .distBits pos
  skipBit skip
  let s ← get
  if length = 2 then do
    skipBit 2
    pure ((pos <<< 2 ||| s.bitBuf &&& 0x03) + 1)
  else do
    skipBit s.dsizeBits
    pure ((pos <<< s.dsizeBits ||| s.bitBuf &&& s.dsizeMask) + 1)

-- Byte by byte: a match may overlap its own source.
def copyBytes : Nat → Nat → Nat → (Nat → UInt8) → Nat → UInt8
  | 0, _, _, work => work
  | count + 1, target, source, work =>
    copyBytes count (target + 1) (source + 1) (Function.update work target (work source))

def expandCode (code : Nat) : Step Unit := do
  let s ← get
  if code ≥ 0x100 then do
    let length := code - 0xFE
    let back ← decodeDistance length
    touch (.copy s.outPos back length)
    modify fun s =>
      { s with
        work := copyBytes length s.outPos (s.outPos - back) s.work
        outPos := s.outPos + length }
  else do
    touch (.literal s.outPos)
    modify fun s =>
      { s with work := Function.update s.work s.outPos (UInt8.ofNat code), outPos := s.outPos + 1 }

-- Half of the window is delivered, the other half stays as history.
def flush : Step Unit := do
  let s ← get
  if s.outPos ≥ windowSize then do
    touch (.moved (s.outPos - windowHalf))
    modify fun s =>
      let s := dataWriteOutput windowHalf s
      { s with
        work := fun j => if j < s.outPos - windowHalf then s.work (windowHalf + j) else s.work j
        outPos := s.outPos - windowHalf }
  else pure ()

def expandLoop : Nat → Step Unit
  | 0 => throw .fuel
  | fuel + 1 => do
    let code ← decodeLiteral
    if code < 0x305 then do
      expandCode code
      flush
      expandLoop fuel
    else pure ()

inductive Status where
  | noError | invDictsize | invMode | badData | abort
  deriving DecidableEq, Repr

structure Outcome where
  status : Status
  state : Cmp

-- `expand`; nothing is returned when the loop does not end within its fuel.
def expand (fuel : Nat) (s : Cmp) : Option Outcome :=
  let deliver := fun (s : Cmp) => dataWriteOutput (s.outPos - windowHalf) s
  match expandLoop fuel { s with outPos := windowHalf } with
  | .ok _ s => some ⟨.noError, deliver s⟩
  | .error .abort s => some ⟨.abort, deliver s⟩
  | .error .fuel _ => none

def Cmp.init (input : Bytes) (maxOut : Nat) : Cmp where
  cmpType := 0
  outPos := 0
  dsizeBits := 0
  dsizeMask := 0
  bitBuf := 0
  extraBits := 0
  inPos := 0
  inBytes := 0
  work _ := 0
  source := input
  sourcePos := 0
  maxOut
  out := []
  log := []

def staged (s : Cmp) (i : Nat) : Nat := (s.work (stagingStart + i)).toNat

-- The header is the literal mode and the dictionary size; the third byte starts the bits.
def readHeader (s : Cmp) : Cmp :=
  { s with
    cmpType := staged s 0, dsizeBits := staged s 1, bitBuf := staged s 2, extraBits := 0, inPos := 3
    log := [.staged 0, .staged 1, .staged 2] ++ s.log }

def buildTables (s : Cmp) : Cmp :=
  let ascii := if s.cmpType = cmpBinary then [] else generateTablesAscii
  let stores := ascii ++ lengthStores ++ distanceStores
  { s with log := stores.map (fun store => .table store.table store.index) ++ s.log }

-- Every round of the loop takes a bit off the input.
def loopFuel (input : Bytes) : Nat := 8 * input.length + 1

-- `libmpq__pkzip_decompress`
def decompress (input : Bytes) (maxOut : Nat) : Option Outcome :=
  let (count, s) := dataReadInput (Cmp.init input maxOut)
  let s := { s with inBytes := count }
  if count < 4 then some ⟨.badData, s⟩
  else
    let s := readHeader s
    if 4 > s.dsizeBits ∨ s.dsizeBits > 6 then some ⟨.invDictsize, s⟩
    else
      let s := { s with dsizeMask := 0xFFFF >>> (0x10 - s.dsizeBits) }
      if s.cmpType ≠ cmpBinary ∧ s.cmpType ≠ cmpAscii then some ⟨.invMode, s⟩
      else expand (loopFuel input) (buildTables s)

abbrev dictionarySize : Nat := 4096
abbrev matchMax : Nat := 516
abbrev searchMax : Nat := 256

-- The hash chains: positions, or nothing where the source has `UINT32_MAX`.
structure History where
  head : Nat → Option Nat
  previous : Nat → Option Nat

-- `pair_hash`
def pairHash (input : Bytes) (i : Nat) : Nat :=
  ((input.getD i 0).toNat * 251 + (input.getD (i + 1) 0).toNat) &&& (dictionarySize - 1)

def repeats (input : Bytes) (candidate position : Nat) : Nat → Nat
  | 0 => 0
  | limit + 1 =>
    if input.getD candidate 0 = input.getD position 0 then
      repeats input (candidate + 1) (position + 1) limit + 1
    else 0

structure Match where
  length : Nat
  distance : Nat
  deriving DecidableEq

def search (history : History) (input : Bytes) (position limit : Nat) :
    Nat → Option Nat → Match → Match
  | 0, _, best => best
  | _ + 1, none, best => best
  | probes + 1, some candidate, best =>
    let back := position - candidate
    if back > dictionarySize then best
    else
      let length := repeats input candidate position limit
      let next := history.previous (candidate &&& (dictionarySize - 1))
      -- Length two has only two distance suffix bits.
      if length > best.length ∧ (length > 2 ∨ back ≤ 256) then
        if length = limit then ⟨length, back⟩
        else search history input position limit probes next ⟨length, back⟩
      else search history input position limit probes next best

-- `find_match`
def findMatch (history : History) (input : Bytes) (position : Nat) : Match :=
  let limit := input.length - position
  if limit < 2 then ⟨1, 0⟩
  else
    search history input position (min limit matchMax) searchMax (history.head (pairHash input position))
      ⟨1, 0⟩

structure Writer where
  out : Bytes
  bitPos : Nat

-- `pkzip_put_bits`
def putBits (w : Writer) (value bits : Nat) : Writer :=
  (List.range bits).foldl
    (fun w i =>
      { out := if value &&& (1 <<< i) ≠ 0 then Bitstream.setBit w.bitPos w.out else w.out
        bitPos := w.bitPos + 1 }) w

-- The entry whose range has the value, as the encoder searches it.
def lengthEntry (value : Nat) : Nat :=
  ((List.range 16).find? fun entry =>
    value ≥ lenBase.getD entry 0 ∧ value < lenBase.getD entry 0 + 1 <<< clenBits.getD entry 0).getD 15

def putLength (w : Writer) (value : Nat) : Writer :=
  let entry := lengthEntry value
  let slen := slenBits.getD entry 0
  let code := (value - lenBase.getD entry 0) <<< (slen + 1) ||| (lenCode.getD entry 0 * 2) ||| 1
  putBits w code (slen + clenBits.getD entry 0 + 1)

def putMatch (w : Writer) (found : Match) : Writer :=
  let suffix := if found.length = 2 then 2 else 6
  let encodedDistance := found.distance - 1
  let pre := encodedDistance >>> suffix
  let w := putLength w (found.length - 2)
  let w := putBits w (distCode.getD pre 0) (distBits.getD pre 0)
  putBits w (encodedDistance &&& ((1 <<< suffix) - 1)) suffix

def putLiteral (w : Writer) (b : UInt8) : Writer := putBits (putBits w 0 1) b.toNat 8

def remember (input : Bytes) (history : History) (i : Nat) : History :=
  if input.length - i ≥ 2 then
    let hash := pairHash input i
    { previous := Function.update history.previous (i &&& (dictionarySize - 1)) (history.head hash)
      head := Function.update history.head hash (some i) }
  else history

structure Emitted where
  position : Nat
  found : Match

structure Encoder where
  history : History
  position : Nat
  writer : Writer
  emitted : List Emitted

def encodeStep (input : Bytes) (e : Encoder) : Encoder :=
  let found := findMatch e.history input e.position
  { history := (List.range' e.position found.length).foldl (remember input) e.history
    position := e.position + found.length
    writer := if found.length ≥ 2 then putMatch e.writer found
      else putLiteral e.writer (input.getD e.position 0)
    emitted := if found.length ≥ 2 then ⟨e.position, found⟩ :: e.emitted else e.emitted }

-- Every round takes at least one byte.
def encodeLoop (input : Bytes) : Nat → Encoder → Encoder
  | 0, e => e
  | fuel + 1, e => if e.position < input.length then encodeLoop input fuel (encodeStep input e) else e

def maximumBytes (size : Nat) : Nat := 2 + (size * 9 + 16 + 7) / 8

structure Compressed where
  out : Bytes
  bitCount : Nat
  emitted : List Emitted

def encode (input : Bytes) : Compressed :=
  let e := encodeLoop input input.length
    { history := ⟨fun _ => none, fun _ => none⟩, position := 0, emitted := []
      writer := { out := Bytes.zeros (maximumBytes input.length - 2), bitPos := 0 } }
  -- Length table 15, extra value 255: the terminator.
  let w := putBits e.writer 0xFF01 16
  { out := ([UInt8.ofNat cmpBinary, 6] ++ w.out).take (2 + (w.bitPos + 7) / 8)
    bitCount := w.bitPos
    emitted := e.emitted }

abbrev uint32Max : Nat := 2 ^ 32 - 1

-- `libmpq__pkzip_compress`
def compress (input : Bytes) : Op Error Faults Compressed := do
  failIf (maximumBytes input.length > uint32Max) .size
  request .malloc
  request .malloc
  pure (encode input)

end Pkware

end LibMpq
