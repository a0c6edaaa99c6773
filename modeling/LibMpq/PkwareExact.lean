import LibMpq.CompressionRoundTrip
import LibMpq.PkwareDecompress

set_option autoImplicit false

namespace LibMpq

open Effect Bitstream Compression

namespace Pkware

theorem decompress_total (input : Bytes) (maxOut : Nat) : ∃ o, decompress input maxOut = some o := by
  by_cases known : ∃ f rest, Headed input f rest
  · obtain ⟨f, rest, headed⟩ := known
    obtain ⟨o, run, -⟩ := headed.run maxOut
    exact ⟨o, run⟩
  · obtain ⟨o, run, -⟩ := decompress_refused (fun f rest headed => known ⟨f, rest, headed⟩) maxOut
    exact ⟨o, run⟩

theorem decompress_fits {input : Bytes} {maxOut : Nat} {o : Outcome} (run : decompress input maxOut = some o) :
    o.state.out.length ≤ maxOut := by
  by_cases known : ∃ f rest, Headed input f rest
  · obtain ⟨f, rest, headed⟩ := known
    obtain ⟨o', run', -, out, -⟩ := headed.run maxOut
    obtain rfl := Option.some.inj (run.symm.trans run')
    rw [out]
    exact List.length_take_le _ _
  · obtain ⟨o', run', -, out, -⟩ := decompress_refused (fun f rest headed => known ⟨f, rest, headed⟩) maxOut
    obtain rfl := Option.some.inj (run.symm.trans run')
    rw [out]
    exact Nat.zero_le _

-- `libmpq__compression_decompress_pkzip`, once it has its work buffer
def decompressStage (input : Bytes) (outSize : Nat) : Decoded outSize :=
  match run : decompress input outSize with
  | some o =>
    { status := if o.status ≠ .noError then Error.unpack.code else Int32.ofNat o.state.out.length
      written := o.state.out
      fits := decompress_fits run }
  | none => { status := Error.unpack.code, written := [], fits := Nat.zero_le _ }

def codec : Codec where
  encode data _ := if maximumBytes data.length > uint32Max then .error .size else .ok (encode data).out
  decode := decompressStage

def withPkware (codecs : Codecs) : Codecs :=
  { codecs with stage := fun stage => if stage = .pkzip then codec else codecs.stage stage }

theorem decompressStage_of {input : Bytes} {outSize : Nat} {o : Outcome} (run : decompress input outSize = some o) :
    (decompressStage input outSize).status =
        (if o.status ≠ .noError then Error.unpack.code else Int32.ofNat o.state.out.length) ∧
      (decompressStage input outSize).written = o.state.out := by
  unfold decompressStage
  split
  next o' run' =>
    obtain rfl := Option.some.inj (run.symm.trans run')
    exact ⟨rfl, rfl⟩
  next none => cases run.symm.trans none

theorem Stream.unique {input : Bytes} {f g : Format} {tokens tokens' : List Token} (stream : Stream input f tokens)
    (other : Stream input g tokens') : f = g ∧ tokens = tokens' := by
  obtain ⟨rest, headed, ended⟩ := stream.headed
  obtain ⟨rest', headed', ended'⟩ := other.headed
  obtain ⟨rfl, rfl⟩ := header_unique headed.format headed'.format (headed.starts.symm.trans headed'.starts)
  exact ⟨rfl, congrArg Prod.fst (ended.symm.trans ended')⟩

def Expands (input : Bytes) (size : Nat) : Prop :=
  ∃ f tokens, Stream input f tokens ∧ (expansion tokens).length = size

/-- The block is accepted with its declared size, or refused, as its stream says. -/
def ExactBlock (codecs : Codecs) (granted : Bool) (input out : Bytes) (outSize version : UInt32) : Prop :=
  let result := decompressBlock (withPkware codecs) granted input out outSize Flag.compressPkzip version
  (result.status.toInt = outSize.toNat ↔ Expands input outSize.toNat) ∧
    (¬ Expands input outSize.toNat → result.status < 0)

theorem requireWhole_count {count : Nat} {outSize : UInt32} (le : count ≤ outSize.toNat) (out : Bytes) :
    let status := (requireWhole true outSize ⟨Int32.ofNat count, out⟩).status
    if outSize.toNat < 2 ^ 31 ∧ count = outSize.toNat then status.toInt = outSize.toNat else status < 0 := by
  have below := outSize.toNat_lt
  unfold requireWhole
  by_cases small : count < 2 ^ 31
  · have number := Int32.toInt_ofNat_of_lt small
    have positive : 0 ≤ Int32.ofNat count := by
      rw [Int32.le_iff_toInt_le, number]
      exact Int.natCast_nonneg count
    by_cases whole : count = outSize.toNat
    · have same : (Int32.ofNat count).toUInt32 = outSize := by
        rw [Int32.toUInt32_ofNat', whole, UInt32.ofNat_toNat]
      rw [if_pos ⟨whole ▸ small, whole⟩, if_neg (fun other => other.2.2 same)]
      exact whole ▸ number
    · have other : (Int32.ofNat count).toUInt32 ≠ outSize := by
        intro same
        have := congrArg UInt32.toNat same
        rw [Int32.toUInt32_ofNat', UInt32.toNat_ofNat', Nat.mod_eq_of_lt (by omega)] at this
        exact whole this
      rw [if_neg (fun both => whole both.2), if_pos ⟨rfl, positive, other⟩]
      exact Error.code_neg _
  · have negative : Int32.ofNat count < 0 := by
      have size : Int32.size = 2 ^ 32 := rfl
      rw [Int32.lt_iff_toInt_lt, Int32.toInt_ofNat', Int32.toInt_zero]
      refine (Int.bmod_neg_iff (by omega) (by omega)).mpr (.inr ?_)
      omega
    rw [if_neg (by omega), if_neg (fun both => absurd both.2.1 (Int32.not_le.mpr negative))]
    exact negative

section block

variable {codecs : Codecs} {granted : Bool} {input out : Bytes} {outSize version : UInt32}
  (short : input.length < outSize.toNat)
include short

theorem block_status {o : Outcome} (run : decompress input outSize.toNat = some o) :
    ∃ stored, decompressBlock (withPkware codecs) granted input out outSize Flag.compressPkzip version =
      requireWhole true outSize
        ⟨if o.status ≠ .noError then Error.unpack.code else Int32.ofNat o.state.out.length, stored⟩ := by
  have other : Flag.compressPkzip ≠ Flag.compressNone := by decide
  refine ⟨Bytes.overlay (decompressStage input outSize.toNat).written out, ?_⟩
  rw [← (decompressStage_of run).1]
  unfold decompressBlock
  simp only [other, short, if_true, if_false]
  rfl

theorem block_of_stream {f : Format} {tokens : List Token} (stream : Stream input f tokens) :
    let status := (decompressBlock (withPkware codecs) granted input out outSize Flag.compressPkzip version).status
    if outSize.toNat < 2 ^ 31 ∧ outSize.toNat ≤ (expansion tokens).length then status.toInt = outSize.toNat
    else status < 0 := by
  obtain ⟨o, run, done, written⟩ := stream.decompress outSize.toNat
  obtain ⟨stored, result⟩ := @block_status codecs granted input out outSize version short o run
  have count := congrArg List.length written
  rw [List.length_take] at count
  have whole : outSize.toNat ≤ (expansion tokens).length ↔ o.state.out.length = outSize.toNat := by omega
  rw [if_neg (not_not.mpr done)] at result
  simp only [result, whole]
  exact requireWhole_count (decompress_fits run) stored

theorem block_of_garbage (garbage : ∀ f tokens, ¬ Stream input f tokens) :
    (decompressBlock (withPkware codecs) granted input out outSize Flag.compressPkzip version).status < 0 := by
  obtain ⟨o, run⟩ := decompress_total input outSize.toNat
  obtain ⟨stored, result⟩ := @block_status codecs granted input out outSize version short o run
  have failed : o.status ≠ .noError := fun done =>
    let ⟨f, tokens, stream⟩ := decompress_stream run done
    garbage f tokens stream
  rw [if_pos failed] at result
  have negative : ¬ 0 ≤ Error.unpack.code := Int32.not_le.mpr (Error.code_neg _)
  rw [result, requireWhole, if_neg (fun both => negative both.2.1)]
  exact Error.code_neg _

theorem Stream.inexact {f : Format} {tokens : List Token} (stream : Stream input f tokens)
    (small : outSize.toNat < 2 ^ 31) (long : outSize.toNat < (expansion tokens).length) :
    ¬ ExactBlock codecs granted input out outSize version := by
  rintro ⟨exact, -⟩
  have taken := @block_of_stream codecs granted input out outSize version short f tokens stream
  simp only [small, Nat.le_of_lt long, and_self, if_true] at taken
  obtain ⟨g, tokens', other, whole⟩ := exact.mp taken
  rw [← (stream.unique other).2] at whole
  omega

-- A block is exact unless its stream is one that expands to more than the declared size, or
-- that size does not fit the signed result.
theorem decompressBlock_exact :
    ExactBlock codecs granted input out outSize version ↔
      ∀ f tokens, Stream input f tokens →
        if outSize.toNat < 2 ^ 31 then (expansion tokens).length ≤ outSize.toNat
        else (expansion tokens).length ≠ outSize.toNat := by
  have negative : ∀ {status : Int32}, status < 0 → status.toInt ≠ outSize.toNat := by
    intro status below
    rw [Int32.lt_iff_toInt_lt, Int32.toInt_zero] at below
    omega
  unfold ExactBlock
  by_cases known : ∃ f tokens, Stream input f tokens
  · obtain ⟨f, tokens, stream⟩ := known
    have expands : Expands input outSize.toNat ↔ (expansion tokens).length = outSize.toNat := by
      constructor
      case mp =>
        rintro ⟨g, tokens', other, length⟩
        rwa [(stream.unique other).2]
      case mpr => exact fun length => ⟨f, tokens, stream, length⟩
    have only : (∀ f tokens, Stream input f tokens →
        if outSize.toNat < 2 ^ 31 then (expansion tokens).length ≤ outSize.toNat
        else (expansion tokens).length ≠ outSize.toNat) ↔
        if outSize.toNat < 2 ^ 31 then (expansion tokens).length ≤ outSize.toNat
        else (expansion tokens).length ≠ outSize.toNat := by
      refine ⟨fun all => all f tokens stream, fun here g tokens' other => ?_⟩
      rwa [← (stream.unique other).2]
    have status := @block_of_stream codecs granted input out outSize version short f tokens stream
    simp only at status ⊢
    rw [only, expands]
    generalize (decompressBlock (withPkware codecs) granted input out outSize Flag.compressPkzip version).status =
      result at status ⊢
    generalize (expansion tokens).length = length at status ⊢
    split at status
    next filled =>
      rw [if_pos filled.1, status]
      have positive : ¬ result < 0 := fun below => negative below status
      simp only [true_iff, positive, imp_false, not_not]
      omega
    next other =>
      simp only [negative status, status, implies_true, and_true, false_iff]
      split <;> omega
  · have garbage : ∀ f tokens, ¬ Stream input f tokens := fun f tokens stream => known ⟨f, tokens, stream⟩
    have status := @block_of_garbage codecs granted input out outSize version short garbage
    refine iff_of_true ⟨iff_of_false (negative status) ?_, fun _ => status⟩ fun f tokens stream =>
      absurd stream (garbage f tokens)
    exact fun ⟨f, tokens, stream, _⟩ => garbage f tokens stream

end block

-- A literal and a copy of 518 bytes of it.
def overlong : Bytes := [0x00, 0x06, 0x00, 0x02, 0xFC, 0x07, 0x02, 0xFE, 0x01]

theorem overlong_stream : Stream overlong ⟨cmpBinary, 6⟩ [.literal 0, .copy 518 1] := by
  refine ⟨⟨.inl rfl, by decide⟩, ⟨overlong.drop 2, rfl, List.replicate 7 false, by decide +kernel⟩, ?_⟩
  simp [Token.Valid, suffixBits]

theorem overlong_length : (expansion [.literal 0, .copy 518 1]).length = 519 := by
  rw [expansion_length]
  rfl

-- declared as long as it is, the block is exact
theorem decompressBlock_exact_copy :
    overlong.length < (519 : UInt32).toNat ∧ ExactBlock zeroRunCodecs true overlong (Bytes.zeros 519) 519 versionOne := by
  refine ⟨by decide, (decompressBlock_exact (by decide)).mpr fun f tokens stream => ?_⟩
  rw [if_pos (by decide), ← (overlong_stream.unique stream).2, overlong_length]
  exact Nat.le_refl _

theorem overlong_inexact : ¬ ExactBlock zeroRunCodecs true overlong (Bytes.zeros 100) 100 versionOne := by
  have short : overlong.length < (100 : UInt32).toNat := by decide
  have small : (100 : UInt32).toNat < 2 ^ 31 := by decide
  exact Stream.inexact short overlong_stream small (by rw [overlong_length]; decide)

end Pkware

end LibMpq
