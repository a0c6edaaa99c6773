import LibMpq.Base.Wire
import LibMpq.Huffman

set_option autoImplicit false

namespace LibMpq

open Effect Wire

namespace Huffman

-- `struct huffman_input_stream_s`, with what lies from `in_buf` to `in_end`.
structure InputStream where
  rest : Bytes
  bitBuf : UInt32
  bits : Nat
  failed : Bool

abbrev In (α : Type) := Op (Stop Error) InputStream α

-- The loop of `huffman_refill`.
def fill (required : Nat) (is : InputStream) : Bytes → InputStream
  | [] => { is with rest := [] }
  | byte :: rest =>
    if is.bits < required then
      fill required
        { is with
          bitBuf := is.bitBuf ||| byte.toUInt32 <<< UInt32.ofNat is.bits
          bits := is.bits + 8 } rest
    else { is with rest := byte :: rest }

def refill (required : Nat) : In Bool := do
  modify fun is => fill required is is.rest
  if (← get).bits < required then do
    modify fun is => { is with failed := true }
    pure false
  else pure true

def skip (count : Nat) : In Unit :=
  modify fun is => { is with bitBuf := is.bitBuf >>> UInt32.ofNat count, bits := is.bits - count }

def readBit : In Bool := do
  if ← refill 1 then do
    let bit := (← get).bitBuf &&& 1
    skip 1
    pure (bit ≠ 0)
  else pure false

def peekSevenBits : In UInt32 := do
  if ← refill 7 then pure ((← get).bitBuf &&& 0x7F) else pure 0

def readByte : In UInt32 := do
  if ← refill 8 then do
    let byte := (← get).bitBuf &&& 0xFF
    skip 8
    pure byte
  else pure 0

structure Decoder where
  ht : Tree
  is : InputStream
  -- what lies from `out_buf` to `out_pos`
  out : Bytes

abbrev Dec (α : Type) := Op (Stop Error) Decoder α

def onTree {α : Type} (x : Act α) : Dec α := zoom Decoder.ht (fun ht d => { d with ht := ht }) x

def onStream {α : Type} (x : In α) : Dec α := zoom Decoder.is (fun is d => { d with is := is }) x

def checkFailed : Dec Unit := do
  if (← get).is.failed then throw (.error .unpack)

structure Walk where
  item : Nat
  bitCount : Nat
  seventh : Option Nat

-- `none`: the walk ends outside the tree and the call returns zero.
def branch (walk : Walk) : Dec (Walk ⊕ Option Walk) := do
  match (← get).ht.child walk.item with
  | none => pure (.inr none)
  | some child => do
    let bit ← onStream readBit
    let ht := (← get).ht
    match if bit then ht.prev (.item child) else .to (.item child) with
    | .null => pure (.inr none)
    | .not _ => throw .undefined
    | .to p => do
      checkFailed
      let item ← onTree (itemAt p)
      let bitCount := walk.bitCount + 1
      let walk := { item := item, bitCount := bitCount, seventh := if bitCount = 7 then some item else walk.seventh }
      if (← get).ht.child item ≠ none then pure (.inl walk) else pure (.inr (some walk))

-- No item has more ancestors than the walk has rounds.
def walkFrom : Option Nat → Dec (Option Walk)
  | none => pure none
  | some item => rounds branch (poolSize + 1) { item := item, bitCount := 0, seventh := none }

def rootItem : Act (Option Nat) := do
  let ht ← get
  let p ← follow (ht.next .first)
  let behind ← follow (ht.next p)
  match ht.prev behind with
  | .to p => some <$> itemAt p
  | _ => pure none

-- The entries from an index on in steps, as long as there are any.
def fillCache (entry : QuickDecode) (add : Nat) : Nat → Nat → (Nat → QuickDecode) → Nat → QuickDecode
  | 0, _, cache => cache
  | fuel + 1, index, cache =>
    if index ≤ 0x7F then fillCache entry add fuel (index + add) (Function.update cache index entry) else cache

def record (n7bits : UInt32) (walk : Walk) : Act Unit := do
  let ht ← get
  let bits := UInt32.ofNat walk.bitCount
  if walk.bitCount > 7 then
    let entry : QuickDecode := { generation := ht.generation, bits := bits, value := .inr walk.seventh }
    modify fun ht => { ht with quickDecodeCache := Function.update ht.quickDecodeCache n7bits.toNat entry }
  else
    let index := n7bits &&& 0xFFFFFFFF >>> (32 - bits)
    let entry : QuickDecode := { generation := ht.generation, bits := bits, value := .inl (ht.dcmpByte walk.item) }
    modify fun ht =>
      { ht with quickDecodeCache := fillCache entry (2 ^ walk.bitCount) 0x80 index.toNat ht.quickDecodeCache }

def symbolAt : Option Walk → Dec (Option UInt32)
  | none => pure none
  | some walk => do pure (some ((← get).ht.dcmpByte walk.item))

def quickSymbol (n7bits : UInt32) : Dec (Option UInt32) := do
  let ht := (← get).ht
  let qd := ht.quickDecodeCache n7bits.toNat
  if qd.generation ≥ ht.generation then
    match qd.value with
    | .inr item => do
      -- the other member of the union is not read
      if ¬ qd.bits > 7 then throw .undefined
      onStream (skip 7)
      symbolAt (← walkFrom item)
    | .inl symbol => do
      if qd.bits > 7 then throw .undefined
      onStream (skip qd.bits.toNat)
      pure (some symbol)
  else do
    let walk ← walkFrom (← onTree rootItem)
    match walk with
    | none => pure none
    | some walk => do
      onTree (record n7bits walk)
      symbolAt (some walk)

def fetchSymbol : Dec (Option UInt32) := do
  let n7bits ← onStream peekSevenBits
  checkFailed
  quickSymbol n7bits

def walkSymbol : Dec (Option UInt32) := do
  let walk ← walkFrom (← onTree rootItem)
  symbolAt walk

-- A difference of pointers as `int32_t`.
def returned (out : Bytes) : Int := (Int32.ofNat out.length).toInt

def emit (symbol : UInt32) (left : Nat) : Dec (Nat ⊕ Int) := do
  if symbol = 0x100 then pure (.inr (returned (← get).out))
  else do
    modify fun d => { d with out := d.out ++ [symbol.toUInt8] }
    if left - 1 = 0 then pure (.inr (returned (← get).out))
    else do
      if (← get).ht.compressionTypeZero then onTree do updateWeights ((← get).symbolNodes symbol.toNat)
      pure (.inl (left - 1))

def digest (symbol : UInt32) (left : Nat) : Dec (Nat ⊕ Int) := do
  if symbol = 0x101 then do
    let n8bits ← onStream readByte
    checkFailed
    if ← onTree (splitLast n8bits) then emit n8bits left else pure (.inr 0)
  else emit symbol left

def decodeRound (fetch : Dec (Option UInt32)) (left : Nat) : Dec (Nat ⊕ Int) := do
  match ← fetch with
  | none => pure (.inr 0)
  | some symbol => digest symbol left

def openStream : Dec Unit := do
  let n8bits ← onStream readByte
  checkFailed
  if ¬ n8bits.toNat < initialWeightTypes then throw (.error .unpack)
  onTree (treeBuild n8bits)
  modify fun d => { d with ht := { d.ht with compressionTypeZero := n8bits = 0 } }

def decodeWith (fetch : Dec (Option UInt32)) (outLength : UInt32) : Dec Int := do
  if outLength = 0 then pure 0
  else do
    openStream
    rounds (decodeRound fetch) outLength.toNat outLength.toNat

def decode (outLength : UInt32) : Dec Int := decodeWith fetchSymbol outLength

-- The state `compression_decompress_huffman` starts from.
def Decoder.start (inBuf : Bytes) : Decoder where
  ht := treeInit true Tree.zero
  is := { rest := inBuf.drop 4, bitBuf := le32.decode inBuf, bits := 32, failed := false }
  out := []

-- The memory of the tree and the stream is taken to be there.
def decompressHuffman (inBuf : Bytes) (outSize : UInt32) : EStateM.Result (Stop Error) Decoder Int :=
  if inBuf.length < 4 then .error (.error .format) (Decoder.start inBuf)
  else decode outSize (Decoder.start inBuf)

-- `struct huffman_output_stream_s`, with what lies before `out_pos`.
structure OutputStream where
  out : Bytes
  bitBuf : UInt32
  bits : Nat
  capacity : UInt32

abbrev Out (α : Type) := Op (Stop Error) OutputStream α

def writeBit (bit : UInt32) : Out Unit := do
  modify fun os => { os with bitBuf := os.bitBuf ||| (bit &&& 1) <<< UInt32.ofNat os.bits, bits := os.bits + 1 }
  if (← get).bits = 8 then do
    if (← get).out.length ≥ (← get).capacity.toNat then throw (.error .size)
    modify fun os => { os with out := os.out ++ [os.bitBuf.toUInt8], bitBuf := 0, bits := 0 }

def writeBits : Nat → UInt32 → Out Unit
  | 0, _ => pure ()
  | count + 1, value => do
    writeBit value
    writeBits count (value >>> 1)

structure Encoder where
  ht : Tree
  os : OutputStream

abbrev Enc (α : Type) := Op (Stop Error) Encoder α

def inTree {α : Type} (x : Act α) : Enc α := zoom Encoder.ht (fun ht e => { e with ht := ht }) x

def toStream {α : Type} (x : Out α) : Enc α := zoom Encoder.os (fun os e => { e with os := os }) x

def failAs {σ α : Type} (e : Error) (x : Op (Stop Error) σ α) : Op (Stop Error) σ α := fun s =>
  match x s with
  | .error (.error _) s' => .error (.error e) s'
  | result => result

-- An item on the way to the root, with the bits below it.
def codeRound : Nat × UInt32 × Nat → Act ((Nat × UInt32 × Nat) ⊕ (UInt32 × Nat))
  | (item, bits, count) => do
    let ht ← get
    match ht.parent item with
    | none => pure (.inr (bits, count))
    | some parent => do
      let child ← given (ht.child parent)
      let bit : UInt32 := if ht.prev (.item child) = .to (.item item) then 1 else 0
      if count + 1 = 32 then throw (.error .format)
      pure (.inl (parent, bits <<< 1 ||| bit, count + 1))

-- `huffman_encode_symbol`.
def encodeSymbol (item : Option Nat) : Enc Unit := do
  let item ← inTree (given item)
  let (bits, count) ← inTree (rounds codeRound 33 (item, 0, 0))
  toStream (writeBits count bits)

def encodeByte (value : UInt8) : Enc Unit := do
  match (← get).ht.symbolNodes value.toNat with
  | none => do
    failAs .size do
      encodeSymbol ((← get).ht.symbolNodes 0x101)
      toStream (writeBits 8 value.toUInt32)
    failAs .format (inTree (insertLiteral value.toUInt32))
    inTree do updateWeights ((← get).symbolNodes value.toNat)
  | some item => do
    failAs .size (encodeSymbol (some item))
    inTree (updateWeights (some item))

def finishStream : Enc Int := do
  failAs .size do encodeSymbol ((← get).ht.symbolNodes 0x100)
  if (← get).os.bits ≠ 0 then do
    if (← get).os.out.length ≥ (← get).os.capacity.toNat then throw (.error .size)
    modify fun e => { e with os := { e.os with out := e.os.out ++ [e.os.bitBuf.toUInt8] } }
  modify fun e => { e with os := { e.os with out := e.os.out ++ Bytes.zeros (4 - e.os.out.length) } }
  pure (returned (← get).os.out)

def beginStream : Enc Unit := do
  if (← get).os.capacity < 4 then throw (.error .format)
  modify fun e => { e with os := { e.os with out := [0], bitBuf := 0, bits := 0 } }
  modify fun e => { e with ht := treeInit false e.ht }
  inTree (treeBuild 0)
  modify fun e => { e with ht := { e.ht with compressionTypeZero := true } }

def encode (inBuf : Bytes) : Enc Int := do
  beginStream
  inBuf.forM encodeByte
  finishStream

/-- What `compression_stage` starts from. -/
def Encoder.start (capacity : UInt32) : Encoder where
  ht := Tree.zero
  os := { out := [], bitBuf := 0, bits := 0, capacity := capacity }

end Huffman

end LibMpq
