import LibMpq.WaveCodec

set_option autoImplicit false

namespace LibMpq

open Effect

namespace Wave

open Wire

def InRange (sample : Int32) : Prop := -32768 ≤ sample.toInt ∧ sample.toInt ≤ 32767

theorem toSample_inRange (word : Bytes) : InRange (toSample word) := by
  have low := (le16.decode word).toInt16.le_toInt
  have high := (le16.decode word).toInt16.toInt_lt
  simp only [InRange, toSample, Int16.toInt_toInt32]
  omega

theorem ofSample_length (sample : Int32) : (ofSample sample).length = 2 := by
  simp [ofSample, le16]

theorem toInt16_toInt32 {sample : Int32} (inside : InRange sample) : sample.toInt16.toInt32 = sample := by
  obtain ⟨low, high⟩ := inside
  have small : sample.toInt.bmod (2 ^ 16) = sample.toInt := Int.bmod_eq_of_le (by omega) (by omega)
  apply Int32.toInt.inj
  rw [Int16.toInt_toInt32, Int32.toInt_toInt16, small]

theorem toSample_ofSample {sample : Int32} (inside : InRange sample) (rest : Bytes) :
    toSample (ofSample sample ++ rest) = sample := by
  simp only [toSample, ofSample, decode_encode, Int16.toInt16_toUInt16, toInt16_toInt32 inside]

theorem ofSample_toSample {word : Bytes} (two : 2 ≤ word.length) :
    ofSample (toSample word) = word.take 2 := by
  have length : (word.take 2).length = 2 := by simp [two]
  have back := Bytes.ofNat_toNat (word.take 2)
  have small := Bytes.toNat_lt (word.take 2)
  rw [length] at back small
  have same : (toSample word).toInt16.toUInt16 = le16.decode word := by simp [toSample]
  have value : (le16.decode word).toNat = Bytes.toNat (word.take 2) := UInt16.toNat_ofNat_of_lt' small
  rw [ofSample, same]
  show Bytes.ofNat 2 (le16.decode word).toNat = word.take 2
  rw [value, back]

theorem encodeBits_taken (magnitude step : UInt32) (bits : List UInt32) (acc : UInt32 × Int32) :
    ∃ taken : List Bool, taken.length = bits.length ∧
      bits.foldl (encodeBit magnitude step) acc =
        ((bits.zip taken).foldl (fun code b => if b.2 then code ||| (1 <<< b.1) else code) acc.1,
          ((bits.zip taken).foldl (fun delta b => if b.2 then delta + step >>> b.1 else delta)
            acc.2.toUInt32).toInt32) := by
  induction bits generalizing acc with
  | nil => exact ⟨[], rfl, by simp⟩
  | cons bit bits ih =>
    obtain ⟨taken, length, rest⟩ := ih (encodeBit magnitude step acc bit)
    rw [List.foldl_cons, rest]
    by_cases larger : magnitude ≥ (acc.2 + (step >>> bit).toInt32).toUInt32
    next =>
      refine ⟨true :: taken, by simp [length], ?_⟩
      rw [encodeBit, if_pos larger]
      simp
    next =>
      refine ⟨false :: taken, by simp [length], ?_⟩
      rw [encodeBit, if_neg larger]
      simp

def codeOf (negative b0 b1 b2 b3 b4 b5 : Bool) : UInt32 :=
  ([(0, b0), (1, b1), (2, b2), (3, b3), (4, b4), (5, b5)] : List (UInt32 × Bool)).foldl
    (fun code b => if b.2 then code ||| (1 <<< b.1) else code) (if negative then 0x40 else 0)

theorem code_bits : ∀ negative b0 b1 b2 b3 b4 b5 : Bool,
    let code := codeOf negative b0 b1 b2 b3 b4 b5
    let byte := code.toUInt8
    (byte &&& (1 : UInt8) <<< 0 ≠ 0 ↔ b0 = true) ∧ (byte &&& (1 : UInt8) <<< 1 ≠ 0 ↔ b1 = true) ∧
    (byte &&& (1 : UInt8) <<< 2 ≠ 0 ↔ b2 = true) ∧ (byte &&& (1 : UInt8) <<< 3 ≠ 0 ↔ b3 = true) ∧
    (byte &&& (1 : UInt8) <<< 4 ≠ 0 ↔ b4 = true) ∧ (byte &&& (1 : UInt8) <<< 5 ≠ 0 ↔ b5 = true) ∧
    (byte &&& 0x40 ≠ 0 ↔ negative = true) ∧ ¬ byte &&& 0x80 ≠ 0 ∧
    (byte &&& 0x1F).toUInt32 = code &&& 0x1f := by
  decide +kernel

theorem encodeBits_delta (magnitude step shift : UInt32) (negative : Bool) :
    ∃ code : UInt32,
      [0, 1, 2, 3, 4, 5].foldl (encodeBit magnitude step)
        (if negative then 0x40 else 0, (step >>> shift).toInt32) =
        (code, (deltaOf step shift code.toUInt8).toInt32) ∧
      (code.toUInt8 &&& 0x40 ≠ 0 ↔ negative = true) ∧ ¬ code.toUInt8 &&& 0x80 ≠ 0 ∧
      (code.toUInt8 &&& 0x1F).toUInt32 = code &&& 0x1f := by
  obtain ⟨taken, length, codes⟩ := encodeBits_taken magnitude step [0, 1, 2, 3, 4, 5]
    (if negative then 0x40 else 0, (step >>> shift).toInt32)
  obtain ⟨b0, b1, b2, b3, b4, b5, rfl⟩ : ∃ b0 b1 b2 b3 b4 b5, taken = [b0, b1, b2, b3, b4, b5] := by
    match taken, length with
    | [b0, b1, b2, b3, b4, b5], _ => exact ⟨b0, b1, b2, b3, b4, b5, rfl⟩
  obtain ⟨t0, t1, t2, t3, t4, t5, sign, high, low⟩ := code_bits negative b0 b1 b2 b3 b4 b5
  refine ⟨codeOf negative b0 b1 b2 b3 b4 b5, codes.trans ?_, sign, high, low⟩
  have delta : deltaOf step shift (codeOf negative b0 b1 b2 b3 b4 b5).toUInt8 =
      ([(0, b0), (1, b1), (2, b2), (3, b3), (4, b4), (5, b5)] : List (UInt32 × Bool)).foldl
        (fun delta b => if b.2 then delta + step >>> b.1 else delta) (step >>> shift) := by
    simp only [deltaOf, List.foldl_cons, List.foldl_nil, t0, t1, t2, t3, t4, t5]
    rfl
  rw [delta]
  rfl

theorem deltaOf_le (step shift : UInt32) (byte : UInt8) : (deltaOf step shift byte).toNat ≤ 7 * step.toNat := by
  have part : ∀ bit : UInt32, (step >>> bit).toNat ≤ step.toNat := by
    intro bit
    rw [UInt32.toNat_shiftRight]
    exact Nat.shiftRight_le _ _
  have sum : ∀ (bits : List UInt8) (delta : UInt32),
      (bits.foldl (fun delta (bit : UInt8) =>
        if byte &&& (1 <<< bit) ≠ 0 then delta + step >>> bit.toUInt32 else delta) delta).toNat ≤
        delta.toNat + bits.length * step.toNat := by
    intro bits
    induction bits with
    | nil => simp
    | cons bit bits ih =>
      intro delta
      have one : (if byte &&& (1 <<< bit) ≠ 0 then delta + step >>> bit.toUInt32 else delta).toNat ≤
          delta.toNat + step.toNat := by
        have := part bit.toUInt32
        split
        next => exact (UInt32.toNat_add _ _ ▸ Nat.mod_le _ _ : _ ≤ delta.toNat + _).trans (by omega)
        next => omega
      rw [List.foldl_cons, List.length_cons, Nat.succ_mul]
      have := ih (if byte &&& (1 <<< bit) ≠ 0 then delta + step >>> bit.toUInt32 else delta)
      omega
  have all := sum [0, 1, 2, 3, 4, 5] (step >>> shift)
  have first := part shift
  simp only [List.length_cons, List.length_nil] at all
  unfold deltaOf
  omega

theorem stepSize_le (i : Nat) : (stepSizes.getD i 0).toNat ≤ 32767 := by
  by_cases inside : i < stepSizes.length
  next =>
    have all : stepSizes.all (fun step => decide (step.toNat ≤ 32767)) = true := by decide +kernel
    rw [List.getD_eq_getElem?_getD, List.getElem?_eq_getElem inside]
    exact of_decide_eq_true (List.all_eq_true.mp all _ (List.getElem_mem inside))
  next => simp [List.getElem?_eq_none (Nat.not_lt.mp inside)]

def clamped (sample : Int32) : Int32 :=
  let sample := if sample > 32767 then 32767 else sample
  if sample < -32768 then -32768 else sample

theorem clamped_toInt (sample : Int32) : (clamped sample).toInt = max (-32768) (min 32767 sample.toInt) := by
  have top : (32767 : Int32).toInt = 32767 := rfl
  have bottom : (-32768 : Int32).toInt = -32768 := rfl
  unfold clamped
  by_cases high : sample > 32767
  next =>
    have above := Int32.lt_iff_toInt_lt.mp high
    rw [if_pos high, if_neg (by decide)]
    omega
  next =>
    have below := mt Int32.lt_iff_toInt_lt.mpr high
    rw [if_neg high]
    change (if sample < -32768 then -32768 else sample).toInt = _
    split
    next low =>
      have := Int32.lt_iff_toInt_lt.mp low
      omega
    next low =>
      have := mt Int32.lt_iff_toInt_lt.mpr low
      omega

theorem clamped_inRange (sample : Int32) : InRange (clamped sample) := by
  rw [InRange, clamped_toInt]
  omega

theorem moved_eq {predictor : Int32} (inside : InRange predictor) {delta : UInt32}
    (small : delta.toNat ≤ 7 * 32767) (byte : UInt8) :
    moved predictor delta byte =
      clamped (if byte &&& 0x40 ≠ 0 then predictor - delta.toInt32 else predictor + delta.toInt32) := by
  obtain ⟨low, high⟩ := inside
  have size : delta.toInt32.toInt = delta.toNat :=
    @BitVec.toInt_eq_toNat_of_lt 32 delta.toBitVec (by rw [UInt32.toNat_toBitVec]; omega)
  have down : (predictor - delta.toInt32).toInt = predictor.toInt - delta.toNat := by
    rw [Int32.toInt_sub, size]
    exact Int.bmod_eq_of_le (by omega) (by omega)
  have up : (predictor + delta.toInt32).toInt = predictor.toInt + delta.toNat := by
    rw [Int32.toInt_add, size]
    exact Int.bmod_eq_of_le (by omega) (by omega)
  have top : (32767 : Int32).toInt = 32767 := rfl
  have bottom : (-32768 : Int32).toInt = -32768 := rfl
  apply Int32.toInt.inj
  rw [clamped_toInt]
  by_cases sign : byte &&& 0x40 ≠ 0
  next =>
    simp only [moved, if_pos sign, UInt32.toInt32_sub, Int32.toInt32_toUInt32, Int32.le_iff_toInt_le, down, bottom]
    split <;> omega
  next =>
    simp only [moved, if_neg sign, UInt32.toInt32_add, Int32.toInt32_toUInt32, ge_iff_le,
      Int32.le_iff_toInt_le, up, top]
    split <;> omega

/-- What either side keeps of a channel. -/
structure Ready (predictor stepIndex : Int32) : Prop where
  sample : InRange predictor
  low : 0 ≤ stepIndex.toInt
  high : stepIndex.toInt ≤ 0x58

def bounded (stepIndex : Int32) : Int32 := if stepIndex < 0 then 0 else if stepIndex > 0x58 then 0x58 else stepIndex

theorem bounded_toInt (stepIndex : Int32) : (bounded stepIndex).toInt = max 0 (min 0x58 stepIndex.toInt) := by
  have top : (0x58 : Int32).toInt = 0x58 := rfl
  have bottom : (0 : Int32).toInt = 0 := rfl
  simp only [bounded, gt_iff_lt, Int32.lt_iff_toInt_lt, top, bottom]
  split
  next => omega
  next => split <;> omega

theorem lookUp_ready {stepIndex : Int32} (low : 0 ≤ stepIndex.toInt) (high : stepIndex.toInt ≤ 0x58) :
    lookUp stepSizes stepIndex () = .ok (stepSizes.getD stepIndex.toInt.toNat 0) () := by
  have inside : 0 ≤ stepIndex ∧ stepIndex.toInt < stepSizes.length := by
    refine ⟨Int32.le_iff_toInt_le.mpr low, ?_⟩
    simp only [stepSizes, List.length_cons, List.length_nil]
    omega
  rw [lookUp, bind_of_ok (require_of inside ()), pure_run]

theorem lookUp_adjustment (byte : UInt8) : lookUp stepAdjustments (byte &&& 0x1F).toUInt32.toInt32 () =
    .ok (stepAdjustments.getD (byte &&& 0x1F).toUInt32.toNat 0) () := by
  have low : (byte &&& 0x1F).toUInt32.toNat ≤ 31 := by
    rw [UInt8.toNat_toUInt32, UInt8.toNat_and]
    exact Nat.and_le_right
  have value : (byte &&& 0x1F).toUInt32.toInt32.toInt = (byte &&& 0x1F).toUInt32.toNat :=
    @BitVec.toInt_eq_toNat_of_lt 32 (byte &&& 0x1F).toUInt32.toBitVec (by rw [UInt32.toNat_toBitVec]; omega)
  have inside : 0 ≤ (byte &&& 0x1F).toUInt32.toInt32 ∧
      (byte &&& 0x1F).toUInt32.toInt32.toInt < stepAdjustments.length := by
    rw [Int32.le_iff_toInt_le, value]
    simp only [stepAdjustments, List.length_cons, List.length_nil]
    exact ⟨Int.natCast_nonneg _, by omega⟩
  rw [lookUp, bind_of_ok (require_of inside ()), pure_run, value, Int.toNat_natCast]

theorem encodeDelta_eq {difference predictor stepIndex delta : Int32} {shift code : UInt32}
    (folded : [0, 1, 2, 3, 4, 5].foldl
      (encodeBit (if difference < 0 then (-difference).toUInt32 else difference.toUInt32)
        (stepSizes.getD stepIndex.toInt.toNat 0))
      (if difference < 0 then 0x40 else 0, (stepSizes.getD stepIndex.toInt.toNat 0 >>> shift).toInt32) =
        (code, delta)) :
    encodeDelta difference predictor stepIndex shift =
      (code.toUInt8, clamped (if difference < 0 then predictor - delta else predictor + delta),
        bounded (stepIndex + (stepAdjustments.getD (code &&& 0x1f).toNat 0).toInt32)) := by
  have steps : ∀ step : Int32, (if (if step < 0 then 0 else step) > 0x58 then 0x58 else if step < 0 then 0 else step) =
      bounded step := by
    intro step
    unfold bounded
    by_cases negative : step < 0
    next =>
      rw [if_pos negative, if_pos negative]
      rfl
    next => rw [if_neg negative, if_neg negative]
  rw [← steps]
  unfold encodeDelta
  simp only [folded]
  rfl

theorem decodeDelta_encodeDelta {d : Decoder} (difference : Int32)
    (ready : Ready (d.predictors d.index) (d.stepIndices d.index)) (room : ¬ d.left < 2) :
    ∃ code predictor stepIndex,
      encodeDelta difference (d.predictors d.index) (d.stepIndices d.index) compressShift =
        (code, predictor, stepIndex) ∧
      Ready predictor stepIndex ∧ ¬ code &&& 0x80 ≠ 0 ∧
      decodeDelta compressShift code d () =
        .ok (.inl (((d.setPredictor predictor).emit predictor).setStep stepIndex)) () := by
  let step := stepSizes.getD (d.stepIndices d.index).toInt.toNat 0
  obtain ⟨code, folded, sign, plain, low⟩ := encodeBits_delta
    (if difference < 0 then (-difference).toUInt32 else difference.toUInt32) step compressShift
    (decide (difference < 0))
  simp only [decide_eq_true_eq] at folded sign
  have small : (deltaOf step compressShift code.toUInt8).toNat ≤ 7 * 32767 :=
    (deltaOf_le step _ _).trans (Nat.mul_le_mul_left 7 (stepSize_le _))
  have predicted := moved_eq ready.sample small code.toUInt8
  simp only [sign] at predicted
  refine ⟨_, _, _, encodeDelta_eq folded, ⟨clamped_inRange _, ?_, ?_⟩, plain, ?_⟩
  · rw [bounded_toInt]
    omega
  · rw [bounded_toInt]
    omega
  · have roomy : ¬ (d.setPredictor (moved (d.predictors d.index) (deltaOf step compressShift code.toUInt8)
        code.toUInt8)).left < 2 := room
    rw [decodeDelta, bind_of_ok (lookUp_ready ready.low ready.high), if_neg roomy,
      bind_of_ok (lookUp_adjustment _), pure_run, predicted, low]
    rfl

def reading (pcm : Bytes) (coder : Coder) (out : Bytes) (index : Nat) : Decoder where
  out := out
  outPtr := out.length
  left := Int32.ofInt ((pcm.length : Int) - out.length)
  index := index
  stepIndices := coder.index
  predictors := coder.predictor

theorem reading_roomy {pcm out : Bytes} (small : (pcm.length : Int) < 2 ^ 31) (room : out.length + 2 ≤ pcm.length)
    (coder : Coder) (index : Nat) : ¬ (reading pcm coder out index).left < 2 := by
  have left : (reading pcm coder out index).left.toInt = (pcm.length : Int) - out.length :=
    Int32.toInt_ofInt_of_le (by omega) (by omega)
  have two : (2 : Int32).toInt = 2 := rfl
  rw [Int32.lt_iff_toInt_lt, left, two]
  omega

theorem emit_reading (pcm : Bytes) (coder : Coder) (out : Bytes) (index : Nat) (sample : Int32) :
    (reading pcm coder out index).emit sample = reading pcm coder (out ++ ofSample sample) index := by
  have two : Int32.ofInt 2 = 2 := rfl
  have less : (pcm.length : Int) - (out ++ ofSample sample).length = ((pcm.length : Int) - out.length) - 2 := by
    rw [List.length_append, ofSample_length]
    omega
  have longer : (out ++ ofSample sample).length = out.length + 2 := by rw [List.length_append, ofSample_length]
  simp only [Decoder.emit, reading, less, Int32.ofInt_sub _ 2, two]
  rw [longer]

def Coder.Ready (coder : Coder) : Prop := ∀ k, Wave.Ready (coder.predictor k) (coder.index k)

theorem decodeRound_encodeSample {pcm out : Bytes} {coder : Coder} {channels i k index : Nat} {count : Int32}
    (ready : coder.Ready) (small : (pcm.length : Int) < 2 ^ 31) (room : out.length + 2 ≤ pcm.length)
    (next : (reading pcm coder out index).alternate count = reading pcm coder out k) :
    (encodeSample compressShift pcm channels i coder k).Ready ∧
    (∀ other, other ≠ k →
      (encodeSample compressShift pcm channels i coder k).predictor other = coder.predictor other) ∧
    ∃ code, (encodeSample compressShift pcm channels i coder k).out = coder.out ++ [code] ∧
      ∀ input, coder.out ++ [code] <+: input →
        decodeRound input count compressShift (coder.out.length, reading pcm coder out index) () =
          .ok (.inl (coder.out.length + 1, reading pcm (encodeSample compressShift pcm channels i coder k)
            (out ++ ofSample ((encodeSample compressShift pcm channels i coder k).predictor k)) k)) () := by
  obtain ⟨code, predictor, stepIndex, encoded, kept, plain, decoded⟩ :=
    @decodeDelta_encodeDelta (reading pcm coder out k)
      (sampleAt pcm (i * channels + k) - coder.predictor k) (ready k) (reading_roomy small room coder k)
  have coded : encodeSample compressShift pcm channels i coder k =
      { predictor := Function.update coder.predictor k predictor
        index := Function.update coder.index k stepIndex
        out := coder.out ++ [code] } := by
    have encoded : encodeDelta (sampleAt pcm (i * channels + k) - coder.predictor k) (coder.predictor k)
      (coder.index k) compressShift = (code, predictor, stepIndex) := encoded
    simp only [encodeSample, encoded]
  rw [coded]
  refine ⟨?_, fun other differ => Function.update_of_ne differ _ _, code, rfl, ?_⟩
  · intro other
    by_cases same : other = k
    next =>
      subst same
      simpa using kept
    next => simpa [Function.update_of_ne same] using ready other
  · intro input starts
    obtain ⟨rest, rfl⟩ := starts
    have inside : coder.out.length < (coder.out ++ [code] ++ rest).length := by
      simp only [List.length_append, List.length_cons]
      omega
    have byte : byteAt (coder.out ++ [code] ++ rest) coder.out.length () = .ok code () := by
      rw [byteAt, bind_of_ok (require_of inside ()), pure_run]
      simp
    rw [decodeRound, if_pos inside, bind_of_ok byte, if_neg plain, next, bind_of_ok decoded, pure_run,
      ← emit_reading]
    simp only [Function.update_self]
    rfl

def frame (channels : Nat) (coder : Coder) : Bytes :=
  (List.range channels).flatMap fun k => ofSample (coder.predictor k)

def heldFrames (pcm : Bytes) (channels last : Nat) : Bytes :=
  (List.range (last + 1)).flatMap fun i => frame channels (encodeFrames compressShift pcm channels i)

theorem frame_length (channels : Nat) (coder : Coder) : (frame channels coder).length = channels * 2 := by
  simp [frame, List.length_flatMap, ofSample_length]

theorem heldFrames_succ (pcm : Bytes) (channels last : Nat) :
    heldFrames pcm channels (last + 1) =
      heldFrames pcm channels last ++ frame channels (encodeFrames compressShift pcm channels (last + 1)) := by
  rw [heldFrames, List.range_succ, List.flatMap_append, List.flatMap_singleton, heldFrames]

theorem heldFrames_length (pcm : Bytes) (channels last : Nat) :
    (heldFrames pcm channels last).length = (last + 1) * (channels * 2) := by
  induction last with
  | zero => simp [heldFrames, frame_length]
  | succ last ih =>
    rw [heldFrames_succ, List.length_append, ih, frame_length]
    ring

theorem rounds_encodeFrame {pcm out : Bytes} {coder : Coder} {channels i : Nat} (ready : coder.Ready)
    (count : channels = 1 ∨ channels = 2) (small : (pcm.length : Int) < 2 ^ 31)
    (room : out.length + channels * 2 ≤ pcm.length) :
    (encodeFrame compressShift pcm channels i coder).Ready ∧
    ∃ codes, codes.length = channels ∧
      (encodeFrame compressShift pcm channels i coder).out = coder.out ++ codes ∧
      ∀ input fuel, coder.out ++ codes <+: input →
        rounds (decodeRound input (Int32.ofNat channels) compressShift) (fuel + channels)
          (coder.out.length, reading pcm coder out (channels - 1)) () =
        rounds (decodeRound input (Int32.ofNat channels) compressShift) fuel
          (coder.out.length + channels, reading pcm (encodeFrame compressShift pcm channels i coder)
            (out ++ frame channels (encodeFrame compressShift pcm channels i coder)) (channels - 1)) () := by
  rcases count with rfl | rfl
  case inl =>
    obtain ⟨kept, -, code, stored, follows⟩ := @decodeRound_encodeSample pcm out coder 1 i 0 0 1 ready small
      (by omega) rfl
    refine ⟨kept, [code], rfl, stored, fun input fuel starts => ?_⟩
    rw [show Int32.ofNat 1 = 1 from rfl, rounds_next (follows input starts)]
    simp [encodeFrame, frame]
  case inr =>
    obtain ⟨kept, -, code, stored, follows⟩ := @decodeRound_encodeSample pcm out coder 2 i 0 1 2 ready small
      (by omega) rfl
    obtain ⟨kept', others, code', stored', follows'⟩ := @decodeRound_encodeSample pcm
      (out ++ ofSample ((encodeSample compressShift pcm 2 i coder 0).predictor 0))
      (encodeSample compressShift pcm 2 i coder 0) 2 i 1 0 2 kept small
      (by rw [List.length_append, ofSample_length]; omega) rfl
    have both : encodeFrame compressShift pcm 2 i coder =
        encodeSample compressShift pcm 2 i (encodeSample compressShift pcm 2 i coder 0) 1 := by
      simp [encodeFrame, List.range_succ]
    rw [both]
    refine ⟨kept', [code, code'], rfl, ?_, fun input fuel starts => ?_⟩
    · rw [stored', stored, List.append_assoc, List.singleton_append]
    · have first : coder.out ++ [code] <+: input := by
        refine List.IsPrefix.trans ⟨[code'], ?_⟩ starts
        simp
      have second : (encodeSample compressShift pcm 2 i coder 0).out ++ [code'] <+: input := by
        rw [stored, List.append_assoc]
        exact starts
      have place : (encodeSample compressShift pcm 2 i coder 0).out.length = coder.out.length + 1 := by
        rw [stored, List.length_append, List.length_singleton]
      have next := follows' input second
      rw [place] at next
      have held := others 0 (by decide)
      rw [show Int32.ofNat 2 = 2 from rfl, rounds_next (follows input first), rounds_next next]
      have joined :
          out ++ frame 2 (encodeSample compressShift pcm 2 i (encodeSample compressShift pcm 2 i coder 0) 1) =
          out ++ ofSample ((encodeSample compressShift pcm 2 i coder 0).predictor 0) ++
            ofSample ((encodeSample compressShift pcm 2 i (encodeSample compressShift pcm 2 i coder 0) 1).predictor 1) := by
        rw [← held]
        simp [frame, List.range_succ]
      rw [joined]

theorem rounds_encodeFrames {pcm : Bytes} {channels last : Nat} (ready : (seeds compressShift pcm channels).Ready)
    (count : channels = 1 ∨ channels = 2) (small : (pcm.length : Int) < 2 ^ 31)
    (room : (last + 1) * (channels * 2) ≤ pcm.length) :
    (encodeFrames compressShift pcm channels last).Ready ∧
    ∀ input fuel, (encodeFrames compressShift pcm channels last).out <+: input →
      rounds (decodeRound input (Int32.ofNat channels) compressShift) (fuel + last * channels)
        ((seeds compressShift pcm channels).out.length,
          reading pcm (seeds compressShift pcm channels) (heldFrames pcm channels 0) (channels - 1)) () =
      rounds (decodeRound input (Int32.ofNat channels) compressShift) fuel
        ((encodeFrames compressShift pcm channels last).out.length,
          reading pcm (encodeFrames compressShift pcm channels last) (heldFrames pcm channels last)
            (channels - 1)) () := by
  induction last with
  | zero => exact ⟨ready, fun input fuel starts => by simp [encodeFrames]⟩
  | succ last ih =>
    obtain ⟨kept, follows⟩ := ih (by rw [Nat.succ_mul] at room; omega)
    obtain ⟨kept', codes, each, stored, follows'⟩ :=
      @rounds_encodeFrame pcm (heldFrames pcm channels last) (encodeFrames compressShift pcm channels last)
        channels (last + 1) kept count small (by rw [heldFrames_length]; rw [Nat.succ_mul] at room; exact room)
    have longer : (encodeFrames compressShift pcm channels (last + 1)).out.length =
        (encodeFrames compressShift pcm channels last).out.length + channels := by
      rw [encodeFrames, stored, List.length_append, each]
    refine ⟨kept', fun input fuel starts => ?_⟩
    have further : (encodeFrames compressShift pcm channels last).out ++ codes <+: input := by
      rw [← stored]
      exact starts
    have fuels : fuel + (last + 1) * channels = fuel + channels + last * channels := by ring
    rw [fuels, follows input (fuel + channels) ((List.prefix_append _ _).trans further), follows' input fuel further,
      longer, heldFrames_succ]
    rfl

theorem seed_ready {coder : Coder} (ready : coder.Ready) (pcm : Bytes) (k : Nat) : (seed pcm coder k).Ready := by
  intro other
  by_cases same : other = k
  next =>
    subst same
    have kept := ready other
    have sample : (seed pcm coder other).predictor other = sampleAt pcm other := Function.update_self ..
    exact ⟨sample ▸ toSample_inRange _, kept.low, kept.high⟩
  next => simpa [seed, Function.update_of_ne same] using ready other

theorem seeds_ready (pcm : Bytes) (channels : Nat) : (seeds compressShift pcm channels).Ready := by
  have kept : ∀ (ks : List Nat) (coder : Coder), coder.Ready → (ks.foldl (seed pcm) coder).Ready := by
    intro ks
    induction ks with
    | nil => exact fun coder ready => ready
    | cons k ks ih => exact fun coder ready => ih _ (seed_ready ready pcm k)
  have start : Wave.Ready 0 0x2c := ⟨⟨by decide, by decide⟩, by decide, by decide⟩
  exact kept _ _ fun _ => start

theorem decodeSeeds_seed {pcm input out : Bytes} {coder : Coder} {k index : Nat}
    (starts : coder.out ++ ofSample (sampleAt pcm k) <+: input) (place : coder.out.length = 2 + k * 2)
    (small : (pcm.length : Int) < 2 ^ 31) (room : out.length + 2 ≤ pcm.length) (more : Nat) :
    decodeSeeds input (more + 1) k (reading pcm coder out index) () =
      decodeSeeds input more (k + 1) (reading pcm (seed pcm coder k) (out ++ ofSample (sampleAt pcm k)) index) () := by
  obtain ⟨rest, rfl⟩ := starts
  have two := ofSample_length (sampleAt pcm k)
  have word : (load (coder.out ++ ofSample (sampleAt pcm k) ++ rest) (2 + k * 2) 2 : Op (Stop Error) Unit Bytes) () =
      .ok (ofSample (sampleAt pcm k)) () := by
    rw [load_of (by simp only [List.length_append]; omega), ← place, List.append_assoc, List.drop_left,
      List.take_left' two]
  have sample : toSample (ofSample (sampleAt pcm k)) = sampleAt pcm k := by
    have back := toSample_ofSample (toSample_inRange (pcm.drop (k * 2))) []
    rwa [List.append_nil] at back
  rw [decodeSeeds, bind_of_ok word, sample, ← emit_reading]
  exact congrFun (if_neg (reading_roomy small room coder index)) ()

theorem start_eq {pcm : Bytes} {outLength : Int32} (whole : outLength.toInt = pcm.length) (channels : Nat)
    (count : channels = 1 ∨ channels = 2) :
    Decoder.start outLength (Int32.ofNat channels) =
      reading pcm { predictor := fun _ => 0, index := fun _ => 0x2c, out := [0, compressShift.toUInt8] } []
        (channels - 1) := by
  have left : outLength = Int32.ofInt ((pcm.length : Int) - ([] : Bytes).length) := by
    simp [← whole]
  rcases count with rfl | rfl <;> (rw [left]; rfl)

theorem decodeSeeds_seeds {pcm input : Bytes} {channels : Nat} {outLength : Int32}
    (count : channels = 1 ∨ channels = 2) (whole : outLength.toInt = pcm.length) (room : channels * 2 ≤ pcm.length)
    (starts : (seeds compressShift pcm channels).out <+: input) :
    decodeSeeds input channels 0 (.start outLength (Int32.ofNat channels)) () =
      .ok (.inl (reading pcm (seeds compressShift pcm channels) (heldFrames pcm channels 0) (channels - 1))) () := by
  have small : (pcm.length : Int) < 2 ^ 31 := whole ▸ outLength.toInt_lt
  rw [start_eq whole channels count]
  rcases count with rfl | rfl
  case inl =>
    rw [decodeSeeds_seed (by simpa [seeds, seed] using starts) rfl small (by simpa using room)]
    rfl
  case inr =>
    have first : ([0, compressShift.toUInt8] : Bytes) ++ ofSample (sampleAt pcm 0) <+: input :=
      List.IsPrefix.trans ⟨ofSample (sampleAt pcm 1), by simp [seeds, seed, List.range_succ]⟩ starts
    rw [decodeSeeds_seed first rfl small (by simp; omega),
      decodeSeeds_seed (by simpa [seeds, seed, List.range_succ] using starts) rfl small
        (by simp [ofSample_length]; omega)]
    rfl

theorem frame_seeds {pcm : Bytes} {channels : Nat} (count : channels = 1 ∨ channels = 2)
    (room : channels * 2 ≤ pcm.length) : frame channels (seeds compressShift pcm channels) = pcm.take (channels * 2) := by
  have word : ∀ k, k < channels → ofSample (sampleAt pcm k) = (pcm.drop (k * 2)).take 2 := by
    intro k below
    refine ofSample_toSample ?_
    rw [List.length_drop]
    rcases count with rfl | rfl <;> omega
  rcases count with rfl | rfl
  case inl => simpa [frame, seeds, seed] using word 0 (by decide)
  case inr =>
    have split : pcm.take 4 = pcm.take 2 ++ (pcm.drop 2).take 2 := @List.take_add _ pcm 2 2
    have first := word 0 (by decide)
    have second := word 1 (by decide)
    rw [show 2 * 2 = 4 from rfl, split]
    simp only [Nat.zero_mul, List.drop_zero, Nat.one_mul] at first second
    rw [← first, ← second]
    simp [frame, seeds, seed, List.range_succ]

theorem take_heldFrames {pcm : Bytes} {channels : Nat} (count : channels = 1 ∨ channels = 2)
    (room : channels * 2 ≤ pcm.length) (last : Nat) :
    (heldFrames pcm channels last).take (channels * 2) = pcm.take (channels * 2) := by
  induction last with
  | zero =>
    rw [heldFrames, List.range_one, List.flatMap_singleton, encodeFrames, frame_seeds count room, List.take_take,
      Nat.min_self]
  | succ last ih =>
    have long : channels * 2 ≤ (heldFrames pcm channels last).length := by
      rw [heldFrames_length, Nat.succ_mul]
      omega
    rw [heldFrames_succ, List.take_append_of_le_length long, ih]

theorem heldFrames_table {channels : Nat} (count : channels = 1 ∨ channels = 2) (pcm : Bytes) (last : Nat) :
    heldFrames pcm channels last = le16.encodeTable
      (fun j => ((encodeFrames compressShift pcm channels (j / channels)).predictor (j % channels)).toInt16.toUInt16)
      ((last + 1) * channels) := by
  have one : ∀ i, frame channels (encodeFrames compressShift pcm channels i) =
      (List.range channels).flatMap fun k => le16.encode
        ((encodeFrames compressShift pcm channels i).predictor k).toInt16.toUInt16 := fun i => rfl
  induction last with
  | zero =>
    rcases count with rfl | rfl <;>
      simp [heldFrames, frame, encodeTable, ofSample, List.range_succ]
  | succ last ih =>
    rw [heldFrames_succ, ih, one]
    rcases count with rfl | rfl
    case inl =>
      rw [Nat.mul_one, Nat.mul_one, encodeTable_succ _ _ (last + 1)]
      simp [Nat.mod_one]
    case inr =>
      have even : (last + 1) * 2 / 2 = last + 1 ∧ (last + 1) * 2 % 2 = 0 := by omega
      have odd : ((last + 1) * 2 + 1) / 2 = last + 1 ∧ ((last + 1) * 2 + 1) % 2 = 1 := by omega
      rw [show (last + 1 + 1) * 2 = (last + 1) * 2 + 1 + 1 by omega, encodeTable_succ _ _ ((last + 1) * 2 + 1),
        encodeTable_succ _ _ ((last + 1) * 2), even.1, even.2, odd.1, odd.2]
      simp [List.range_succ]

theorem sampleAt_heldFrames {pcm : Bytes} {channels last i k : Nat} (count : channels = 1 ∨ channels = 2)
    (ready : (encodeFrames compressShift pcm channels i).Ready) (earlier : i ≤ last) (below : k < channels) :
    sampleAt (heldFrames pcm channels last) (i * channels + k) =
      (encodeFrames compressShift pcm channels i).predictor k := by
  have inside : i * channels + k < (last + 1) * channels := by
    have := Nat.mul_le_mul_right channels earlier
    rw [Nat.succ_mul]
    omega
  have quotient : (i * channels + k) / channels = i ∧ (i * channels + k) % channels = k := by
    rcases count with rfl | rfl <;> omega
  have entry := decodeTable_encodeTable le16
    (fun j => ((encodeFrames compressShift pcm channels (j / channels)).predictor (j % channels)).toInt16.toUInt16)
    inside []
  rw [List.append_nil, ← heldFrames_table count, quotient.1, quotient.2] at entry
  rw [sampleAt, toSample]
  change (le16.decodeTable (heldFrames pcm channels last) (i * channels + k)).toInt16.toInt32 = _
  rw [entry, Int16.toInt16_toUInt16, toInt16_toInt32 (ready k).sample]

theorem encodeFrames_length (pcm : Bytes) {channels : Nat} (count : channels = 1 ∨ channels = 2) (last : Nat) :
    (encodeFrames compressShift pcm channels last).out.length = 2 + channels * 2 + last * channels := by
  induction last with
  | zero =>
    rcases count with rfl | rfl <;>
      simp [encodeFrames, seeds, seed, List.range_succ, ofSample_length]
  | succ last ih =>
    rcases count with rfl | rfl <;>
      simp [encodeFrames, encodeFrame, encodeSample, List.range_succ, ih, Nat.succ_mul] <;> omega

theorem seeds_out_starts (pcm : Bytes) {channels : Nat} (count : channels = 1 ∨ channels = 2) (last : Nat) :
    (seeds compressShift pcm channels).out <+: (encodeFrames compressShift pcm channels last).out := by
  induction last with
  | zero => exact List.prefix_refl _
  | succ last ih =>
    refine ih.trans ?_
    rcases count with rfl | rfl <;> simp [encodeFrames, encodeFrame, encodeSample, List.range_succ]

theorem compress_ok {granted : Bool} {pcm out : Bytes} {channels : Nat} (packed : compress granted pcm channels = .ok out) :
    (channels = 1 ∨ channels = 2) ∧ (∃ last, pcm.length = (last + 1) * (channels * 2)) ∧
      out = (encodeFrames compressShift pcm channels (pcm.length / (channels * 2) - 1)).out := by
  unfold compress at packed
  split at packed
  next => cases packed
  next valid =>
    split at packed
    next => cases packed
    next =>
      cases packed
      rw [not_or, not_or, not_and_or, not_not, not_not, Nat.not_lt, not_not] at valid
      obtain ⟨count, long, whole⟩ := valid
      obtain ⟨samples, size⟩ := Nat.dvd_of_mod_eq_zero whole
      refine ⟨count, ⟨samples - 1, ?_⟩, rfl⟩
      have some : samples ≠ 0 := by
        rintro rfl
        rcases count with rfl | rfl <;> omega
      rw [size, Nat.sub_add_cancel (Nat.one_le_iff_ne_zero.mpr some), Nat.mul_comm]

theorem header_out (pcm : Bytes) {channels : Nat} (count : channels = 1 ∨ channels = 2) (last : Nat) :
    byteAt (encodeFrames compressShift pcm channels last).out 1 () = .ok compressShift.toUInt8 () := by
  have front : ([0, compressShift.toUInt8] : Bytes) <+: (seeds compressShift pcm channels).out := by
    rcases count with rfl | rfl <;> simp [seeds, seed, List.range_succ]
  obtain ⟨rest, joined⟩ := front.trans (seeds_out_starts pcm count last)
  rw [byteAt, ← joined, bind_of_ok (require_of (by simp) ()), pure_run]
  rfl

theorem decompress_encodeFrames {pcm : Bytes} {channels last fuel : Nat} {outLength : Int32}
    (count : channels = 1 ∨ channels = 2) (size : pcm.length = (last + 1) * (channels * 2))
    (whole : outLength.toInt = pcm.length)
    (enough : (encodeFrames compressShift pcm channels last).out.length ≤ fuel) :
    decompress fuel outLength (encodeFrames compressShift pcm channels last).out (Int32.ofNat channels) () =
      .ok (outLength, heldFrames pcm channels last) () := by
  have small : (pcm.length : Int) < 2 ^ 31 := whole ▸ outLength.toInt_lt
  have first : channels * 2 ≤ pcm.length := by
    rw [size, Nat.succ_mul]
    omega
  have length := encodeFrames_length pcm count last
  have seeded := decodeSeeds_seeds count whole first (seeds_out_starts pcm count last)
  have place : (seeds compressShift pcm channels).out.length = 2 + channels * 2 := by
    have := encodeFrames_length pcm count 0
    rwa [Nat.zero_mul] at this
  have number : (Int32.ofNat channels).toInt = channels := Int32.toInt_ofNat_of_lt (by omega)
  have refused : ¬ (Int32.ofNat channels < 1 ∨ Int32.ofNat channels > 2 ∨
      ((encodeFrames compressShift pcm channels last).out.length : Int) < 2 + (Int32.ofNat channels).toInt * 2) := by
    rw [number, length]
    rcases count with rfl | rfl
    next => exact not_or.mpr ⟨by decide, not_or.mpr ⟨by decide, by omega⟩⟩
    next => exact not_or.mpr ⟨by decide, not_or.mpr ⟨by decide, by omega⟩⟩
  obtain ⟨more, rfl⟩ : ∃ more, fuel = more + 1 + last * channels := ⟨fuel - last * channels - 1, by omega⟩
  have run := (rounds_encodeFrames (seeds_ready pcm channels) count small size.ge).2 _ (more + 1) (List.prefix_refl _)
  -- After the last code the cursor is at the end of the input.
  have done : decodeRound (encodeFrames compressShift pcm channels last).out (Int32.ofNat channels) compressShift
      ((encodeFrames compressShift pcm channels last).out.length,
        reading pcm (encodeFrames compressShift pcm channels last) (heldFrames pcm channels last) (channels - 1)) () =
      .ok (.inr (reading pcm (encodeFrames compressShift pcm channels last) (heldFrames pcm channels last)
        (channels - 1))) () := by
    rw [decodeRound, if_neg (Nat.lt_irrefl _), pure_run]
  rw [place, rounds_done done] at run
  have returned : Int32.ofNat (heldFrames pcm channels last).length = outLength := by
    apply Int32.toInt.inj
    rw [heldFrames_length, ← size, whole]
    exact Int32.toInt_ofNat_of_lt (by omega)
  rw [decompress, if_neg refused, bind_of_ok (header_out pcm count last), if_neg (by decide), number, Int.toNat_natCast,
    bind_of_ok seeded]
  refine (bind_of_ok run _).trans ?_
  rw [pure_run, Decoder.result]
  exact congrArg (fun count => EStateM.Result.ok (count, heldFrames pcm channels last) ()) returned

theorem adpcm_lockstep {granted : Bool} {pcm out : Bytes} {channels : Nat}
    (packed : compress granted pcm channels = .ok out) :
    ∃ samples, pcm.length = samples * (channels * 2) ∧
      out.length = 2 + 2 * channels + (samples - 1) * channels ∧
      ∀ (outLength : Int32) (fuel : Nat), outLength.toInt = pcm.length → out.length ≤ fuel →
        ∃ written, decompress fuel outLength out (Int32.ofNat channels) () = .ok (outLength, written) () ∧
          written.length = pcm.length ∧
          written.take (channels * 2) = pcm.take (channels * 2) ∧
          ∀ i k, i < samples → k < channels →
            sampleAt written (i * channels + k) = (encodeFrames compressShift pcm channels i).predictor k := by
  obtain ⟨count, ⟨last, size⟩, rfl⟩ := compress_ok packed
  have some : 0 < channels * 2 := by
    rcases count with rfl | rfl <;> omega
  have samples : pcm.length / (channels * 2) - 1 = last := by
    rw [size, Nat.mul_div_cancel _ some, Nat.add_sub_cancel]
  have length := encodeFrames_length pcm count last
  rw [samples]
  refine ⟨last + 1, size, by rw [length, Nat.add_sub_cancel, Nat.mul_comm 2], ?_⟩
  intro outLength fuel whole enough
  have small : (pcm.length : Int) < 2 ^ 31 := whole ▸ outLength.toInt_lt
  refine ⟨heldFrames pcm channels last, decompress_encodeFrames count size whole enough, ?_, ?_, ?_⟩
  · rw [heldFrames_length, size]
  · have room : channels * 2 ≤ pcm.length := by
      rw [size, Nat.succ_mul]
      omega
    exact take_heldFrames count room last
  · intro i k earlier below
    have room : (i + 1) * (channels * 2) ≤ pcm.length := size ▸ Nat.mul_le_mul_right _ earlier
    have ready := (rounds_encodeFrames (seeds_ready pcm channels) count small room).1
    exact sampleAt_heldFrames count ready (Nat.le_of_lt_succ earlier) below

theorem adpcm_lockstep_stereo :
    ∃ out samples, compress true [11, 48, 85, 122, 159, 196, 233, 14] 2 = .ok out ∧ 8 = samples * 4 ∧
      out.length = 6 + (samples - 1) * 2 ∧ ∃ written, decompress 8 8 out 2 () = .ok (8, written) () ∧
        written.take 4 = [11, 48, 85, 122] := by
  obtain ⟨out, packed⟩ : ∃ out, compress true [11, 48, 85, 122, 159, 196, 233, 14] 2 = .ok out := ⟨_, rfl⟩
  obtain ⟨samples, size, length, follows⟩ := adpcm_lockstep packed
  have two : samples = 2 := by
    rw [List.length_cons] at size
    simp only [List.length_cons, List.length_nil] at size
    omega
  subst two
  obtain ⟨written, decoded, -, first, -⟩ := follows 8 8 (by decide) (by rw [length])
  exact ⟨out, 2, packed, rfl, length, written, decoded, first⟩

end Wave

end LibMpq
