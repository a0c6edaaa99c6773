import LibMpq.Types

set_option autoImplicit false

-- The stage codecs are parameters; the chain around them (`mpq-compression.c`) is not: which
-- stages are kept, what the method byte says, how the decoder passes its buffers from stage to
-- stage and what its return value means.

namespace LibMpq

open Effect Bits

inductive Stage where
  | sparse | waveMono | waveStereo | huffman | zlib | pkzip | bzip2
  deriving DecidableEq, Repr

namespace Stage

def mask : Stage → UInt32
  | .huffman => 0x01
  | .zlib => 0x02
  | .pkzip => 0x08
  | .bzip2 => 0x10
  | .sparse => 0x20
  | .waveMono => 0x40
  | .waveStereo => 0x80

def encodeOrder : List Stage :=
  [.sparse, .waveMono, .waveStereo, .huffman, .zlib, .pkzip, .bzip2]

def decodeOrder : List Stage :=
  [.bzip2, .pkzip, .zlib, .huffman, .waveStereo, .waveMono, .sparse]

def isWave : Stage → Bool
  | .waveMono | .waveStereo => true
  | _ => false

end Stage

abbrev lzmaMask : UInt32 := 0x100
abbrev lzmaMethod : UInt8 := 0x12

abbrev int32Max : Nat := 2 ^ 31 - 1

structure Decoded (capacity : Nat) where
  status : Int32
  written : Bytes
  fits : written.length ≤ capacity

structure Codec where
  encode : Bytes → Nat → Except Error Bytes
  decode : Bytes → (capacity : Nat) → Decoded capacity

inductive LzmaRet where
  | ok | streamEnd | memError | bufError | other
  deriving DecidableEq, Repr

structure LzmaPacked (limit : Nat) where
  ret : LzmaRet
  packed : Bytes
  fits : packed.length ≤ limit

structure LzmaRun (capacity : Nat) where
  ret : LzmaRet
  produced : Bytes
  unread : Nat
  fits : produced.length ≤ capacity

structure LzmaCodec where
  properties : Option Bytes
  encode : Bytes → (limit : Nat) → LzmaPacked limit
  decodeProperties : Bytes → LzmaRet
  memusage : Bytes → Nat
  decoderInit : Bytes → LzmaRet
  decode : Bytes → Bytes → (capacity : Nat) → LzmaRun capacity

structure Codecs where
  stage : Stage → Codec
  lzma : LzmaCodec

inductive Policy where
  | standard | extended | unknown
  deriving DecidableEq, Repr

/-- A packed sector and the method byte that describes it. -/
structure Encoded where
  output : Bytes
  mask : UInt8
  deriving DecidableEq

namespace Compression

def waveMasks : UInt32 := Stage.mask .waveMono ||| Stage.mask .waveStereo

def zlibBzip2 : UInt32 := Stage.mask .zlib ||| Stage.mask .bzip2

def allMasks : UInt32 :=
  Stage.mask .huffman ||| Stage.mask .zlib ||| Stage.mask .pkzip ||| Stage.mask .bzip2 |||
    Stage.mask .sparse ||| Stage.mask .waveMono ||| Stage.mask .waveStereo

-- `libmpq__compression_allowed`.
def allowed (version mask : UInt32) (policy : Policy) : Bool :=
  if version > versionTwo || policy = .unknown then false
  else if mask = lzmaMask then version ≥ versionTwo
  else if has mask lzmaMask then false
  else if has mask (Stage.mask .sparse) && has mask waveMasks then false
  else if mask &&& waveMasks = waveMasks then false
  else if version ≥ versionTwo && mask &&& zlibBzip2 = zlibBzip2 then false
  else if version ≥ versionTwo && policy = .standard then
    mask = 0 || mask = Stage.mask .zlib || mask = Stage.mask .pkzip || mask = Stage.mask .bzip2 ||
      mask = Stage.mask .sparse || mask = Stage.mask .sparse ||| Stage.mask .zlib ||
      mask = Stage.mask .sparse ||| Stage.mask .bzip2 ||
      mask = Stage.mask .huffman ||| Stage.mask .waveMono ||
      mask = Stage.mask .huffman ||| Stage.mask .waveStereo
  else mask &&& ~~~allMasks = 0

def stageCapacity (stage : Stage) (size : Nat) : Nat :=
  match stage with
  | .sparse => size - 2
  | .huffman => (size * 2 + 64) % 2 ^ 32
  | _ => (size + size / 100 + 1024) % 2 ^ 32

-- `compression_stage`.
def compressionStage (codecs : Codecs) (stage : Stage) (data : Bytes) : Op Error Faults Bytes := do
  failIf (stage = .sparse ∧ (data.length < 7 ∨ data.length > int32Max)) .unpack
  request .malloc
  (if stage = .huffman then request .malloc else pure ())
  fromExcept ((codecs.stage stage).encode data (stageCapacity stage data.length))

structure Packing where
  data : Bytes
  mask : UInt8

def saves (before after : Nat) : Bool := after ≤ before - (if before ≥ 2 then 2 else before)

def tryStage (codecs : Codecs) (requested : UInt32) (packing : Packing) (stage : Stage) :
    Op Error Faults Packing :=
  if has requested stage.mask then do
    request .malloc
    let next ← attempt (compressionStage codecs stage packing.data)
    match next with
    | none => pure packing
    | some data =>
      if saves packing.data.length data.length then
        pure { data, mask := packing.mask ||| stage.mask.toUInt8 }
      else pure packing
  else pure packing

def copyRaw (input : Bytes) : Op Error Faults Encoded := do
  request .malloc
  pure { output := input, mask := 0 }

abbrev lzmaHeaderSize : Nat := 14
abbrev lzmaTotalOverhead : Nat := 15
abbrev lzmaPropertiesSize : Nat := 5
abbrev lzmaDecoderMemoryMax : Nat := 64 * 1024 * 1024

-- `encode_lzma`.
def encodeLzma (codecs : Codecs) (input : Bytes) : Op Error Faults Encoded :=
  if input.length ≤ lzmaTotalOverhead then copyRaw input
  else do
    request .malloc
    match codecs.lzma.properties with
    | none => throw .unpack
    | some properties =>
      failIf (properties.length ≠ lzmaPropertiesSize) .unpack
      let result := codecs.lzma.encode input (input.length - lzmaTotalOverhead - 1)
      match result.ret with
      | .bufError => copyRaw input
      | .memError => throw .malloc
      | .ok =>
        let framed := 0 :: properties ++ Bytes.ofNat 8 input.length ++ result.packed
        pure { output := lzmaMethod :: framed, mask := lzmaMethod }
      | _ => throw .unpack

-- The last part of `libmpq__compression_encode_sector`: raw data unless the chain won.
def emit (input : Bytes) (packing : Packing) : Op Error Faults Encoded :=
  if packing.mask = 0 ∨ packing.data.length + 1 ≥ input.length then
    pure { output := packing.data, mask := 0 }
  else do
    request .malloc
    pure { output := packing.mask :: packing.data, mask := packing.mask }

-- `libmpq__compression_encode_sector`.
def encodeSector (codecs : Codecs) (input : Bytes) (requested version : UInt32) (policy : Policy) :
    Op Error Faults Encoded := do
  failIf (allowed version requested policy = false) .format
  if requested = lzmaMask then encodeLzma codecs input
  else do
    request .malloc
    let packing ← Stage.encodeOrder.foldlM (tryStage codecs requested) { data := input, mask := 0 }
    if allowed version packing.mask.toUInt32 policy then emit input packing
    else do
      -- Skipped stages left a method the format does not have: start over from the raw input.
      request .malloc
      emit input { data := input, mask := 0 }

structure Unpacked where
  status : Int32
  out : Bytes

-- `decompress_lzma`.
def decompressLzma (codecs : Codecs) (input out : Bytes) (outSize : UInt32) : Unpacked :=
  if input.length ≤ lzmaHeaderSize then ⟨Error.unpack.code, out⟩
  else if input.head? ≠ some 0 then ⟨Error.unpack.code, out⟩
  else if outSize.toNat > int32Max then ⟨Error.size.code, out⟩
  else
    let properties := (input.drop 1).take lzmaPropertiesSize
    match codecs.lzma.decodeProperties properties with
    | .memError => ⟨Error.malloc.code, out⟩
    | .ok =>
      if codecs.lzma.memusage properties > lzmaDecoderMemoryMax then ⟨Error.unpack.code, out⟩
      else
        match codecs.lzma.decoderInit properties with
        | .memError => ⟨Error.malloc.code, out⟩
        | .ok =>
          let run := codecs.lzma.decode properties (input.drop lzmaHeaderSize) outSize.toNat
          let out := Bytes.overlay run.produced out
          if (run.ret = .streamEnd ∨ run.ret = .bufError) ∧ run.produced.length = outSize.toNat ∧
              run.unread = 0 then ⟨outSize.toInt32, out⟩
          else ⟨Error.unpack.code, out⟩
        | _ => ⟨Error.unpack.code, out⟩
    | _ => ⟨Error.unpack.code, out⟩

-- Where `in_buf` points between two stages.
inductive Place where
  | packed | temp | out
  deriving DecidableEq

-- The decoder's buffers between two stages; `input` is what `in_buf` and `in_size` describe.
structure Chain where
  place : Place
  input : Bytes
  temp : Option Bytes
  out : Bytes
  status : Int32

def Chain.target (c : Chain) : Place :=
  match c.place with
  | .packed => if c.temp.isSome then .temp else .out
  | .temp => .out
  | .out => .temp

def decodeStage (codecs : Codecs) (outSize : UInt32) (stage : Stage) (c : Chain) : Chain :=
  let result := (codecs.stage stage).decode c.input outSize.toNat
  let after := fun work => (Bytes.overlay result.written work).take result.status.toNatClampNeg
  match c.target with
  | .out =>
    { c with
      place := .out, input := after c.out, status := result.status
      out := Bytes.overlay result.written c.out }
  | place =>
    { c with
      place, input := after (c.temp.getD []), status := result.status
      temp := c.temp.map (Bytes.overlay result.written) }

def runStages (codecs : Codecs) (outSize : UInt32) : List Stage → Chain → Chain
  | [], c => c
  | stage :: rest, c =>
    let next := decodeStage codecs outSize stage c
    if next.status < 0 then next else runStages codecs outSize rest next

def Chain.finish (c : Chain) : Unpacked :=
  if c.status < 0 ∨ c.place = .out then ⟨c.status, c.out⟩
  else ⟨c.status, Bytes.overlay (c.input.take c.status.toNatClampNeg) c.out⟩

def stagesOf (flag : UInt8) : List Stage :=
  Stage.decodeOrder.filter fun stage => has flag.toUInt32 stage.mask

-- `libmpq__compression_decompress_multi`; `granted` tells whether the buffer between two
-- stages can be allocated.
def decompressMulti (codecs : Codecs) (granted : Bool) (input out : Bytes) (outSize : UInt32)
    (version : UInt32) : Unpacked :=
  match input with
  | [] => ⟨Error.unpack.code, out⟩
  | flag :: packed =>
    if version ≥ versionTwo ∧ flag = lzmaMethod then decompressLzma codecs packed out outSize
    else
      let stages := stagesOf flag
      let unsupported :=
        stages.foldl (fun left stage => left &&& ~~~stage.mask) flag.toUInt32
      if unsupported ≠ 0 then ⟨Error.unpack.code, out⟩
      else if stages.length > 1 ∧ granted = false then ⟨Error.malloc.code, out⟩
      else
        let temp := if stages.length > 1 then some (Bytes.zeros outSize.toNat) else none
        (runStages codecs outSize stages
          { place := .packed, input := packed, temp, out, status := 0 }).finish

-- `libmpq__compression_decompress_pkzip`.
def decompressPkzip (codecs : Codecs) (input out : Bytes) (outSize : UInt32) : Unpacked :=
  let result := (codecs.stage .pkzip).decode input outSize.toNat
  ⟨result.status, Bytes.overlay result.written out⟩

def copyOut (input out : Bytes) (outSize : UInt32) : Unpacked :=
  ⟨outSize.toInt32, Bytes.overlay (input.take outSize.toNat) out⟩

def requireWhole (pkzip : Bool) (outSize : UInt32) (result : Unpacked) : Unpacked :=
  if pkzip ∧ 0 ≤ result.status ∧ result.status.toUInt32 ≠ outSize then
    { result with status := Error.unpack.code }
  else result

-- `libmpq__compression_decompress_block`.
def decompressBlock (codecs : Codecs) (granted : Bool) (input out : Bytes)
    (outSize compressionType version : UInt32) : Unpacked :=
  let short := input.length < outSize.toNat
  if compressionType = Flag.compressNone then
    if short then ⟨Error.size.code, out⟩ else copyOut input out outSize
  else if compressionType = Flag.compressPkzip then
    requireWhole true outSize
      (if short then decompressPkzip codecs input out outSize else copyOut input out outSize)
  else if compressionType = Flag.compressMulti then
    if short then
      requireWhole (has (input.headD 0).toUInt32 (Stage.mask .pkzip)) outSize
        (decompressMulti codecs granted input out outSize version)
    else copyOut input out outSize
  else ⟨0, out⟩

end Compression

end LibMpq
