import LibMpq.WaveLockstep

set_option autoImplicit false

namespace LibMpq

open Effect

namespace Wave

structure Decoder.Bounded (outLength : Int32) (d : Decoder) : Prop where
  index : d.index ≤ 1
  ready : ∀ k, Ready (d.predictors k) (d.stepIndices k)
  written : d.out.length = d.outPtr
  room : d.left.toInt = outLength.toInt - d.outPtr
  within : 0 ≤ outLength.toInt → d.outPtr ≤ outLength.toInt
  none : outLength.toInt < 0 → d.outPtr = 0

namespace Decoder.Bounded

variable {outLength : Int32} {d : Decoder} (b : d.Bounded outLength)

include b

theorem setStep {step : Int32} (low : 0 ≤ step.toInt) (high : step.toInt ≤ 0x58) :
    (d.setStep step).Bounded outLength := by
  refine { b with ready := fun k => ?_ }
  by_cases own : k = d.index
  next =>
    subst own
    simpa [Decoder.setStep] using ⟨(b.ready d.index).sample, low, high⟩
  next => simpa [Decoder.setStep, Function.update_of_ne own] using b.ready k

theorem setPredictor {sample : Int32} (inside : InRange sample) : (d.setPredictor sample).Bounded outLength := by
  refine { b with ready := fun k => ?_ }
  by_cases own : k = d.index
  next =>
    subst own
    simpa [Decoder.setPredictor] using ⟨inside, (b.ready d.index).low, (b.ready d.index).high⟩
  next => simpa [Decoder.setPredictor, Function.update_of_ne own] using b.ready k

theorem alternate (channels : Int32) : (d.alternate channels).Bounded outLength := by
  unfold Decoder.alternate
  split
  · refine { b with index := ?_ }
    simp only
    split <;> omega
  · exact b

theorem emit (room : ¬ d.left < 2) (sample : Int32) : (d.emit sample).Bounded outLength := by
  have two : (2 : Int32).toInt = 2 := rfl
  have left := b.room
  have enough : 2 ≤ d.left.toInt := by
    rw [Int32.lt_iff_toInt_lt, two] at room
    omega
  have less : (d.left - 2).toInt = d.left.toInt - 2 := by
    have high := d.left.toInt_lt
    rw [Int32.toInt_sub, two]
    exact Int.bmod_eq_of_le (by omega) (by omega)
  refine ⟨b.index, b.ready, ?_, ?_, fun _ => ?_, fun negative => ?_⟩
  · rw [Decoder.emit, List.length_append, ofSample_length, b.written]
  · simp only [Decoder.emit, less, left]
    omega
  · simp only [Decoder.emit]
    omega
  · have := b.none negative
    omega

theorem lowered :
    (if d.stepIndices d.index ≠ 0 then d.setStep (d.stepIndices d.index - 1) else d).Bounded outLength := by
  have low := (b.ready d.index).low
  have high := (b.ready d.index).high
  have zero : (0 : Int32).toInt = 0 := rfl
  have one : (1 : Int32).toInt = 1 := rfl
  split
  next positive =>
    have positive : (d.stepIndices d.index).toInt ≠ 0 := fun same => positive (Int32.toInt.inj (same.trans zero.symm))
    have less : (d.stepIndices d.index - 1).toInt = (d.stepIndices d.index).toInt - 1 := by
      rw [Int32.toInt_sub, one]
      exact Int.bmod_eq_of_le (by omega) (by omega)
    exact b.setStep (by omega) (by omega)
  next => exact b

theorem repeated : (if d.left < 2 then d else d.emit (d.predictors d.index)).Bounded outLength := by
  split
  next => exact b
  next room => exact b.emit room _

theorem control (channels : Int32) (code : UInt8) : (control channels code d).Bounded outLength := by
  have low := (b.ready d.index).low
  have high := (b.ready d.index).high
  have top : (0x58 : Int32).toInt = 0x58 := rfl
  have zero : (0 : Int32).toInt = 0 := rfl
  have eight : (8 : Int32).toInt = 8 := rfl
  have more : (d.stepIndices d.index + 8).toInt = (d.stepIndices d.index).toInt + 8 := by
    rw [Int32.toInt_add, eight]
    exact Int.bmod_eq_of_le (by omega) (by omega)
  have less : (d.stepIndices d.index - 8).toInt = (d.stepIndices d.index).toInt - 8 := by
    rw [Int32.toInt_sub, eight]
    exact Int.bmod_eq_of_le (by omega) (by omega)
  unfold Wave.control
  by_cases first : code = 0
  next =>
    rw [if_pos first]
    exact b.lowered.repeated
  rw [if_neg first]
  by_cases second : code = 1
  next =>
    rw [if_pos second]
    refine (b.setStep ?_ ?_).alternate channels <;>
      simp only [gt_iff_lt, Int32.lt_iff_toInt_lt, top, more] <;> split <;> omega
  rw [if_neg second]
  split
  next => exact b
  next =>
    refine (b.setStep ?_ ?_).alternate channels <;>
      simp only [Int32.lt_iff_toInt_lt, zero, less] <;> split <;> omega

theorem decodeDelta (shift : UInt32) (byte : UInt8) :
    ∃ r, decodeDelta shift byte d () = .ok r () ∧ (r.elim id id).Bounded outLength := by
  have ready := b.ready d.index
  have small : (deltaOf (stepSizes.getD (d.stepIndices d.index).toInt.toNat 0) shift byte).toNat ≤ 7 * 32767 :=
    (deltaOf_le _ _ _).trans (Nat.mul_le_mul_left 7 (stepSize_le _))
  have inside : InRange (moved (d.predictors d.index)
      (deltaOf (stepSizes.getD (d.stepIndices d.index).toInt.toNat 0) shift byte) byte) := by
    rw [moved_eq ready.sample small]
    exact clamped_inRange _
  have after := b.setPredictor inside
  unfold Wave.decodeDelta
  rw [bind_of_ok (lookUp_ready ready.low ready.high)]
  by_cases full : (d.setPredictor (moved (d.predictors d.index)
      (deltaOf (stepSizes.getD (d.stepIndices d.index).toInt.toNat 0) shift byte) byte)).left < 2
  next =>
    refine ⟨.inr _, ?_, after⟩
    rw [if_pos full, pure_run]
    rfl
  next =>
    let step := ((d.stepIndices d.index).toUInt32 + stepAdjustments.getD (byte &&& 0x1F).toUInt32.toNat 0).toInt32
    have low : 0 ≤ (bounded step).toInt := by rw [bounded_toInt]; omega
    have high : (bounded step).toInt ≤ 0x58 := by rw [bounded_toInt]; omega
    refine ⟨.inl _, ?_, (after.emit full (moved (d.predictors d.index)
      (deltaOf (stepSizes.getD (d.stepIndices d.index).toInt.toNat 0) shift byte) byte)).setStep low high⟩
    rw [if_neg full, bind_of_ok (lookUp_adjustment byte), pure_run]
    rfl

theorem seed (count : Nat) {sample : Int32} (inside : InRange sample) :
    Decoder.Bounded outLength { d with predictors := Function.update d.predictors count sample } := by
  refine { b with ready := fun k => ?_ }
  by_cases own : k = count
  next =>
    subst own
    simpa using ⟨inside, (b.ready k).low, (b.ready k).high⟩
  next => simpa [Function.update_of_ne own] using b.ready k

theorem decodeSeeds {input : Bytes} {more count : Nat} (inside : 2 + (count + more) * 2 ≤ input.length) :
    ∃ r, decodeSeeds input more count d () = .ok r () ∧ (r.elim id id).Bounded outLength := by
  induction more generalizing count d with
  | zero => exact ⟨.inl d, rfl, b⟩
  | succ more ih =>
    have seeded := b.seed count (toSample_inRange ((input.drop (2 + count * 2)).take 2))
    rw [Wave.decodeSeeds, bind_of_ok (load_of (by omega) ())]
    by_cases full : d.left < 2
    next => exact ⟨.inr _, congrFun (if_pos full) (), seeded⟩
    next =>
      obtain ⟨r, run, bounded⟩ := ih (seeded.emit full (toSample ((input.drop (2 + count * 2)).take 2)))
        (by omega : 2 + (count + 1 + more) * 2 ≤ input.length)
      exact ⟨r, (congrFun (if_neg full) ()).trans run, bounded⟩

theorem decodeRound {input : Bytes} (channels : Int32) (shift : UInt32) (pos : Nat) :
    (∃ d', decodeRound input channels shift (pos, d) () = .ok (.inr d') () ∧ d'.Bounded outLength) ∨
    ∃ d', decodeRound input channels shift (pos, d) () = .ok (.inl (pos + 1, d')) () ∧
      pos < input.length ∧ d'.Bounded outLength := by
  rw [Wave.decodeRound]
  by_cases inside : pos < input.length
  next =>
    have byte : byteAt input pos () = .ok (input.getD pos 0) () := by
      rw [byteAt, bind_of_ok (require_of inside ()), pure_run]
    rw [if_pos inside, bind_of_ok byte]
    by_cases high : input.getD pos 0 &&& 0x80 ≠ 0
    next =>
      rw [if_pos high]
      exact .inr ⟨_, rfl, inside, (b.alternate channels).control channels _⟩
    next =>
      obtain ⟨r, run, bounded⟩ := (b.alternate channels).decodeDelta shift (input.getD pos 0)
      rw [if_neg high, bind_of_ok run]
      cases r with
      | inl d' => exact .inr ⟨d', rfl, inside, bounded⟩
      | inr d' => exact .inl ⟨d', rfl, bounded⟩
  next =>
    rw [if_neg inside]
    exact .inl ⟨d, rfl, b⟩

theorem result : d.result.1.toInt = d.result.2.length ∧
    (0 ≤ outLength.toInt → d.result.1.toInt ≤ outLength.toInt) := by
  have top := outLength.toInt_lt
  have small : d.outPtr < 2 ^ 31 := by
    by_cases negative : outLength.toInt < 0
    next =>
      rw [b.none negative]
      omega
    next =>
      have := b.within (Int.not_lt.mp negative)
      omega
  have status : d.result.1.toInt = d.outPtr := Int32.toInt_ofNat_of_lt (by omega)
  constructor
  · rw [status, Decoder.result, b.written]
  · intro whole
    rw [status]
    exact b.within whole

end Decoder.Bounded

theorem start_bounded (outLength : Int32) {channels : Int32} (low : ¬ channels < 1) (high : ¬ channels > 2) :
    (Decoder.start outLength channels).Bounded outLength where
  index := by
    have one : (1 : Int32).toInt = 1 := rfl
    have two : (2 : Int32).toInt = 2 := rfl
    rw [Int32.lt_iff_toInt_lt, one] at low
    rw [gt_iff_lt, Int32.lt_iff_toInt_lt, two] at high
    have less : (channels - 1).toInt = channels.toInt - 1 := by
      rw [Int32.toInt_sub, one]
      exact Int.bmod_eq_of_le (by omega) (by omega)
    simp only [Decoder.start, less]
    omega
  ready _ := by
    have zero : (0 : Int32).toInt = 0 := rfl
    have middle : (0x2C : Int32).toInt = 0x2C := rfl
    constructor <;> simp [InRange, Decoder.start, zero, middle]
  written := rfl
  room := (sub_zero _).symm
  within := id
  none _ := rfl

theorem seeds_inside {input : Bytes} {channels : Int32} (low : ¬ channels < 1)
    (inside : 2 + channels.toInt * 2 ≤ input.length) : 2 + (0 + channels.toInt.toNat) * 2 ≤ input.length := by
  have one : (1 : Int32).toInt = 1 := rfl
  rw [Int32.lt_iff_toInt_lt, one] at low
  omega

/-- The local variables at each turn of the loop of a call, and those it returns with. -/
inductive Visited (input : Bytes) (outLength channels : Int32) : (Nat × Decoder) ⊕ Decoder → Prop
  | seeded {r} (accepted : ¬ (channels < 1 ∨ channels > 2 ∨ (input.length : Int) < 2 + channels.toInt * 2))
      (run : decodeSeeds input channels.toInt.toNat 0 (.start outLength channels) () = .ok r ()) :
      Visited input outLength channels (r.map (Prod.mk (2 + channels.toInt.toNat * 2)) id)
  | turned {pos d r} (before : Visited input outLength channels (.inl (pos, d)))
      (run : decodeRound input channels (input.getD 1 0).toUInt32 (pos, d) () = .ok r ()) :
      Visited input outLength channels r

theorem Visited.bounded {input : Bytes} {outLength channels : Int32} {r : (Nat × Decoder) ⊕ Decoder}
    (visited : Visited input outLength channels r) : (r.elim Prod.snd id).Bounded outLength := by
  induction visited with
  | @seeded r accepted run =>
    simp only [not_or, Int.not_lt] at accepted
    obtain ⟨low, high, inside⟩ := accepted
    obtain ⟨r', run', bounded⟩ := (start_bounded outLength low high).decodeSeeds (seeds_inside low inside)
    obtain rfl : r' = r := by simpa using run'.symm.trans run
    cases r' <;> exact bounded
  | @turned pos d r before run ih =>
    rcases Decoder.Bounded.decodeRound ih channels (input.getD 1 0).toUInt32 pos with
      ⟨d', run', bounded⟩ | ⟨d', run', _, bounded⟩
    · obtain rfl : .inr d' = r := by simpa using run'.symm.trans run
      exact bounded
    · obtain rfl : .inl (pos + 1, d') = r := by simpa using run'.symm.trans run
      exact bounded

theorem Visited.rounds {input : Bytes} {outLength channels : Int32} {fuel pos : Nat} {d : Decoder}
    (visited : Visited input outLength channels (.inl (pos, d))) (inside : pos ≤ input.length)
    (enough : input.length < pos + fuel) :
    ∃ d', rounds (decodeRound input channels (input.getD 1 0).toUInt32) fuel (pos, d) () = .ok d' () ∧
      Visited input outLength channels (.inr d') := by
  induction fuel generalizing pos d with
  | zero => omega
  | succ fuel ih =>
    have bounded : d.Bounded outLength := visited.bounded
    rcases bounded.decodeRound channels (input.getD 1 0).toUInt32 pos with
      ⟨d', run, _⟩ | ⟨d', run, inside, _⟩
    · exact ⟨d', rounds_done run, visited.turned run⟩
    · rw [rounds_next run]
      exact ih (visited.turned run) (by omega) (by omega)

theorem wave_bounded (input : Bytes) (outLength channels : Int32) :
    (∀ fuel, input.length ≤ fuel → ∃ status out,
      decompress fuel outLength input channels () = .ok (status, out) () ∧
      status.toInt = out.length ∧ (0 ≤ outLength.toInt → status.toInt ≤ outLength.toInt)) ∧
    ∀ r, Visited input outLength channels r →
      ∀ k, Ready ((r.elim Prod.snd id).predictors k) ((r.elim Prod.snd id).stepIndices k) := by
  refine ⟨fun fuel enough => ?_, fun r visited => visited.bounded.ready⟩
  unfold decompress
  by_cases accepted : channels < 1 ∨ channels > 2 ∨ (input.length : Int) < 2 + channels.toInt * 2
  next =>
    rw [if_pos accepted]
    exact ⟨0, [], rfl, rfl, id⟩
  rw [if_neg accepted]
  have wide := accepted
  simp only [not_or, Int.not_lt] at wide
  obtain ⟨low, high, wide⟩ := wide
  have inside := seeds_inside low wide
  have byte : byteAt input 1 () = .ok (input.getD 1 0) () := by
    rw [byteAt, bind_of_ok (require_of (by omega) ()), pure_run]
  rw [bind_of_ok byte]
  by_cases wild : input.getD 1 0 ≥ 32
  next =>
    rw [if_pos wild]
    exact ⟨0, [], rfl, rfl, id⟩
  rw [if_neg wild]
  obtain ⟨r, run, bounded⟩ := (start_bounded outLength low high).decodeSeeds inside
  have visited := Visited.seeded accepted run
  rw [bind_of_ok run]
  cases r with
  | inr d => exact ⟨_, _, rfl, Decoder.Bounded.result bounded⟩
  | inl d =>
    obtain ⟨d', turns, visited⟩ := visited.rounds (by omega)
      (by omega : input.length < 2 + channels.toInt.toNat * 2 + fuel)
    simp only
    rw [bind_of_ok turns]
    exact ⟨_, _, rfl, Decoder.Bounded.result visited.bounded⟩

end Wave

end LibMpq
