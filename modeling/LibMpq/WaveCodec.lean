import LibMpq.Base.Checked
import LibMpq.Base.Wire
import LibMpq.Types

set_option autoImplicit false

namespace LibMpq

open Effect

namespace Wave

open Wire

def stepAdjustments : List UInt32 :=
  [0xFFFFFFFF, 0x00000000, 0xFFFFFFFF, 0x00000004, 0xFFFFFFFF, 0x00000002, 0xFFFFFFFF, 0x00000006,
   0xFFFFFFFF, 0x00000001, 0xFFFFFFFF, 0x00000005, 0xFFFFFFFF, 0x00000003, 0xFFFFFFFF, 0x00000007,
   0xFFFFFFFF, 0x00000001, 0xFFFFFFFF, 0x00000005, 0xFFFFFFFF, 0x00000003, 0xFFFFFFFF, 0x00000007,
   0xFFFFFFFF, 0x00000002, 0xFFFFFFFF, 0x00000004, 0xFFFFFFFF, 0x00000006, 0xFFFFFFFF, 0x00000008]

def stepSizes : List UInt32 :=
  [0x00000007, 0x00000008, 0x00000009, 0x0000000A, 0x0000000B, 0x0000000C, 0x0000000D, 0x0000000E,
   0x00000010, 0x00000011, 0x00000013, 0x00000015, 0x00000017, 0x00000019, 0x0000001C, 0x0000001F,
   0x00000022, 0x00000025, 0x00000029, 0x0000002D, 0x00000032, 0x00000037, 0x0000003C, 0x00000042,
   0x00000049, 0x00000050, 0x00000058, 0x00000061, 0x0000006B, 0x00000076, 0x00000082, 0x0000008F,
   0x0000009D, 0x000000AD, 0x000000BE, 0x000000D1, 0x000000E6, 0x000000FD, 0x00000117, 0x00000133,
   0x00000151, 0x00000173, 0x00000198, 0x000001C1, 0x000001EE, 0x00000220, 0x00000256, 0x00000292,
   0x000002D4, 0x0000031C, 0x0000036C, 0x000003C3, 0x00000424, 0x0000048E, 0x00000502, 0x00000583,
   0x00000610, 0x000006AB, 0x00000756, 0x00000812, 0x000008E0, 0x000009C3, 0x00000ABD, 0x00000BD0,
   0x00000CFF, 0x00000E4C, 0x00000FBA, 0x0000114C, 0x00001307, 0x000014EE, 0x00001706, 0x00001954,
   0x00001BDC, 0x00001EA5, 0x000021B6, 0x00002515, 0x000028CA, 0x00002CDF, 0x0000315B, 0x0000364B,
   0x00003BB9, 0x000041B2, 0x00004844, 0x00004F7E, 0x00005771, 0x0000602F, 0x000069CE, 0x00007462,
   0x00007FFF]

-- `(int16_t)libmpq__load_le16(...)`
def toSample (word : Bytes) : Int32 := (le16.decode word).toInt16.toInt32

-- `libmpq__store_le16(..., (uint16_t)sample)`
def ofSample (sample : Int32) : Bytes := le16.encode sample.toInt16.toUInt16

def sampleAt (pcm : Bytes) (i : Nat) : Int32 := toSample (pcm.drop (i * 2))

def encodeBit (magnitude step : UInt32) (acc : UInt32 × Int32) (bit : UInt32) : UInt32 × Int32 :=
  let contribution := (step >>> bit).toInt32
  if magnitude ≥ (acc.2 + contribution).toUInt32 then (acc.1 ||| (1 <<< bit), acc.2 + contribution)
  else acc

-- The code of a difference and what becomes of the predictor and the step index.
def encodeDelta (difference predictor stepIndex : Int32) (shift : UInt32) : UInt8 × Int32 × Int32 :=
  let step := stepSizes.getD stepIndex.toInt.toNat 0
  let magnitude := if difference < 0 then (-difference).toUInt32 else difference.toUInt32
  let sign : UInt32 := if difference < 0 then 0x40 else 0
  let (code, delta) := [0, 1, 2, 3, 4, 5].foldl (encodeBit magnitude step) (sign, (step >>> shift).toInt32)
  let predictor := if difference < 0 then predictor - delta else predictor + delta
  let predictor := if predictor > 32767 then 32767 else predictor
  let predictor := if predictor < -32768 then -32768 else predictor
  let stepIndex := stepIndex + (stepAdjustments.getD (code &&& 0x1f).toNat 0).toInt32
  let stepIndex := if stepIndex < 0 then 0 else stepIndex
  let stepIndex := if stepIndex > 0x58 then 0x58 else stepIndex
  (code.toUInt8, predictor, stepIndex)

structure Coder where
  predictor : Nat → Int32
  index : Nat → Int32
  out : Bytes

def encodeSample (shift : UInt32) (pcm : Bytes) (channels i : Nat) (coder : Coder) (channel : Nat) :
    Coder :=
  let sample := sampleAt pcm (i * channels + channel)
  let (code, predictor, index) := encodeDelta (sample - coder.predictor channel)
    (coder.predictor channel) (coder.index channel) shift
  { predictor := Function.update coder.predictor channel predictor
    index := Function.update coder.index channel index
    out := coder.out ++ [code] }

def encodeFrame (shift : UInt32) (pcm : Bytes) (channels i : Nat) (coder : Coder) : Coder :=
  (List.range channels).foldl (encodeSample shift pcm channels i) coder

def seed (pcm : Bytes) (coder : Coder) (i : Nat) : Coder :=
  { coder with
    predictor := Function.update coder.predictor i (sampleAt pcm i)
    out := coder.out ++ ofSample (sampleAt pcm i) }

def seeds (shift : UInt32) (pcm : Bytes) (channels : Nat) : Coder :=
  (List.range channels).foldl (seed pcm)
    { predictor := fun _ => 0, index := fun _ => 0x2c, out := [0, shift.toUInt8] }

def encodeFrames (shift : UInt32) (pcm : Bytes) (channels : Nat) : Nat → Coder
  | 0 => seeds shift pcm channels
  | i + 1 => encodeFrame shift pcm channels (i + 1) (encodeFrames shift pcm channels i)

def compressShift : UInt32 := 4

-- Sizes are 32-bit numbers whose sums and products here are far from wrapping.
def compress (granted : Bool) (pcm : Bytes) (channels : Nat) : Except Error Bytes :=
  if (channels ≠ 1 ∧ channels ≠ 2) ∨ pcm.length < channels * 2 ∨ pcm.length % (channels * 2) ≠ 0 then
    .error .format
  else if granted = false then .error .malloc
  else
    let samples := pcm.length / (channels * 2)
    .ok (encodeFrames compressShift pcm channels (samples - 1)).out

/-- The local variables of the decoder; `out` is what has been stored so far. -/
structure Decoder where
  out : Bytes
  outPtr : Nat
  left : Int32
  index : Nat
  stepIndices : Nat → Int32
  predictors : Nat → Int32

namespace Decoder

def emit (d : Decoder) (sample : Int32) : Decoder :=
  { d with out := d.out ++ ofSample sample, outPtr := d.outPtr + 2, left := d.left - 2 }

def setStep (d : Decoder) (step : Int32) : Decoder :=
  { d with stepIndices := Function.update d.stepIndices d.index step }

def setPredictor (d : Decoder) (sample : Int32) : Decoder :=
  { d with predictors := Function.update d.predictors d.index sample }

def alternate (channels : Int32) (d : Decoder) : Decoder :=
  if channels = 2 then { d with index := if d.index = 0 then 1 else 0 } else d

end Decoder

def byteAt (input : Bytes) (pos : Nat) : Op (Stop Error) Unit UInt8 := do
  require (pos < input.length)
  pure (input.getD pos 0)

def lookUp (table : List UInt32) (i : Int32) : Op (Stop Error) Unit UInt32 := do
  require (0 ≤ i ∧ i.toInt < table.length)
  pure (table.getD i.toInt.toNat 0)

-- A byte with the high bit set moves the step index of a channel. The `break` on a
-- full buffer leaves the `switch` only, so the loop goes on.
def control (channels : Int32) (code : UInt8) (d : Decoder) : Decoder :=
  let step := d.stepIndices d.index
  if code = 0 then
    let d := if step ≠ 0 then d.setStep (step - 1) else d
    if d.left < 2 then d else d.emit (d.predictors d.index)
  else if code = 1 then
    (d.setStep (if step + 8 > 0x58 then 0x58 else step + 8)).alternate channels
  else if code = 2 then d
  else (d.setStep (if step - 8 < 0 then 0 else step - 8)).alternate channels

def deltaOf (step shift : UInt32) (byte : UInt8) : UInt32 :=
  [0, 1, 2, 3, 4, 5].foldl
    (fun delta (bit : UInt8) => if byte &&& (1 <<< bit) ≠ 0 then delta + step >>> bit.toUInt32 else delta)
    (step >>> shift)

def moved (predictor : Int32) (delta : UInt32) (byte : UInt8) : Int32 :=
  if byte &&& 0x40 ≠ 0 then
    let sample := (predictor.toUInt32 - delta).toInt32
    if sample ≤ -32768 then -32768 else sample
  else
    let sample := (predictor.toUInt32 + delta).toInt32
    if sample ≥ 0x7FFF then 0x7FFF else sample

-- Right: the buffer is full and the loop is left.
def decodeDelta (shift : UInt32) (byte : UInt8) (d : Decoder) :
    Op (Stop Error) Unit (Decoder ⊕ Decoder) := do
  let step ← lookUp stepSizes (d.stepIndices d.index)
  let sample := moved (d.predictors d.index) (deltaOf step shift byte) byte
  let d := d.setPredictor sample
  if d.left < 2 then pure (.inr d)
  else do
    let adjustment ← lookUp stepAdjustments (byte &&& 0x1F).toUInt32.toInt32
    let step := ((d.stepIndices d.index).toUInt32 + adjustment).toInt32
    pure (.inl ((d.emit sample).setStep (if step < 0 then 0 else if step > 0x58 then 0x58 else step)))

def decodeRound (input : Bytes) (channels : Int32) (shift : UInt32) :
    Nat × Decoder → Op (Stop Error) Unit ((Nat × Decoder) ⊕ Decoder)
  | (pos, d) =>
    if pos < input.length then do
      let byte ← byteAt input pos
      let d := d.alternate channels
      if byte &&& 0x80 ≠ 0 then pure (.inl (pos + 1, control channels (byte &&& 0x7F) d))
      else do
        let next ← decodeDelta shift byte d
        pure (next.map (Prod.mk (pos + 1)) id)
    else pure (.inr d)

-- Right: the buffer is full and the call returns.
def decodeSeeds (input : Bytes) : Nat → Nat → Decoder → Op (Stop Error) Unit (Decoder ⊕ Decoder)
  | 0, _, d => pure (.inl d)
  | more + 1, count, d => do
    let word ← load input (2 + count * 2) 2
    let sample := toSample word
    let d := { d with predictors := Function.update d.predictors count sample }
    if d.left < 2 then pure (.inr d) else decodeSeeds input more (count + 1) (d.emit sample)

def Decoder.start (outLength channels : Int32) : Decoder where
  out := []
  outPtr := 0
  left := outLength
  index := (channels - 1).toInt.toNat
  stepIndices := fun _ => 0x2C
  predictors := fun _ => 0

-- `(int32_t)(out_ptr - out_buf)`, and what is in the output buffer
def Decoder.result (d : Decoder) : Int32 × Bytes := (Int32.ofNat d.outPtr, d.out)

-- The loop is cut off after so many rounds.
def decompress (fuel : Nat) (outLength : Int32) (input : Bytes) (channels : Int32) :
    Op (Stop Error) Unit (Int32 × Bytes) := do
  if channels < 1 ∨ channels > 2 ∨ (input.length : Int) < 2 + channels.toInt * 2 then pure (0, [])
  else do
    let shift ← byteAt input 1
    if shift ≥ 32 then pure (0, [])
    else do
      let seeded ← decodeSeeds input channels.toInt.toNat 0 (.start outLength channels)
      match seeded with
      | .inr d => pure d.result
      | .inl d => do
        let d ← rounds (decodeRound input channels shift.toUInt32) fuel
          (2 + channels.toInt.toNat * 2, d)
        pure d.result

end Wave

end LibMpq
