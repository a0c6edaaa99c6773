import LibMpq.CompressionRoundTrip

set_option autoImplicit false

namespace LibMpq

open Effect Bits

-- Decoders that report a size have stored that many bytes. The zlib wrapper has not when it returns
-- `Z_NEED_DICT`, so nothing about the library's own decoders may assume this.
def Codecs.Reporting (codecs : Codecs) : Prop :=
  ∀ stage input capacity, 0 ≤ ((codecs.stage stage).decode input capacity).status →
    ((codecs.stage stage).decode input capacity).written.length =
      ((codecs.stage stage).decode input capacity).status.toNatClampNeg

namespace Compression

structure Agree (c c' : Chain) : Prop where
  place : c'.place = c.place
  input : c'.input = c.input
  status : c'.status = c.status
  temp : c'.temp.isSome = c.temp.isSome
  start : c.place = .packed → c.status = 0
  length : c.place ≠ .packed → c.input.length = c.status.toNatClampNeg
  out : c.place = .out → c.out.take c.input.length = c.input ∧ c'.out.take c.input.length = c.input

theorem Chain.target_ne_packed (c : Chain) : c.target ≠ .packed := by
  unfold Chain.target
  cases c.place with
  | packed => cases c.temp <;> simp
  | temp => simp
  | out => simp

theorem decodeStage_agree {codecs : Codecs} (reports : codecs.Reporting) {outSize : UInt32}
    {stage : Stage} {c c' : Chain} (place : c'.place = c.place) (input : c'.input = c.input)
    (temp : c'.temp.isSome = c.temp.isSome)
    (ok : 0 ≤ (decodeStage codecs outSize stage c).status) :
    Agree (decodeStage codecs outSize stage c) (decodeStage codecs outSize stage c') := by
  have target : c'.target = c.target := by
    simp only [Chain.target, place, temp]
  have status : (decodeStage codecs outSize stage c).status =
      ((codecs.stage stage).decode c.input outSize.toNat).status := by
    unfold decodeStage
    cases c.target <;> rfl
  have length := reports stage c.input outSize.toNat (status ▸ ok)
  -- Whatever the work buffer held, the stage's output is what it wrote.
  have whole : ∀ work, (Bytes.overlay ((codecs.stage stage).decode c.input outSize.toNat).written
      work).take ((codecs.stage stage).decode c.input outSize.toNat).status.toNatClampNeg =
      ((codecs.stage stage).decode c.input outSize.toNat).written := by
    intro work
    rw [← length, Bytes.take_overlay]
  cases place : c.target with
  | packed => exact absurd place c.target_ne_packed
  | temp =>
    simp only [decodeStage, target, input, place, whole]
    exact ⟨rfl, rfl, rfl, by simpa using temp, by simp, fun _ => length, by simp⟩
  | out =>
    simp only [decodeStage, target, input, place, whole]
    exact ⟨rfl, rfl, rfl, temp, by simp, fun _ => length, fun _ => by simp⟩

theorem runStages_agree {codecs : Codecs} (reports : codecs.Reporting) {outSize : UInt32}
    (stages : List Stage) {c c' : Chain} (agree : Agree c c')
    (ok : 0 ≤ (runStages codecs outSize stages c).status) :
    Agree (runStages codecs outSize stages c) (runStages codecs outSize stages c') := by
  induction stages generalizing c c' with
  | nil => exact agree
  | cons stage rest ih =>
    rw [runStages] at ok ⊢
    rw [runStages]
    by_cases failed : (decodeStage codecs outSize stage c).status < 0
    · rw [if_pos failed] at ok
      exact absurd failed (Int32.not_lt.mpr ok)
    · have next := decodeStage_agree reports agree.place agree.input agree.temp
        (Int32.not_lt.mp failed)
      rw [if_neg failed] at ok ⊢
      rw [if_neg (by rw [next.status]; exact failed)]
      exact ih next ok

theorem finish_agree {c c' : Chain} (agree : Agree c c') (ok : 0 ≤ c.status) :
    c'.finish.status = c.finish.status ∧
      c.finish.status.toNatClampNeg ≤ c.finish.out.length ∧
      c'.finish.out.take c.finish.status.toNatClampNeg =
        c.finish.out.take c.finish.status.toNatClampNeg := by
  have nonneg : ¬ c.status < 0 := Int32.not_lt.mpr ok
  unfold Chain.finish
  rw [agree.status, agree.place, agree.input]
  cases place : c.place with
  | out =>
    obtain ⟨first, second⟩ := agree.out place
    have length := agree.length (by simp [place])
    rw [if_pos (.inr rfl), if_pos (.inr rfl), ← length]
    refine ⟨rfl, ?_, second.trans first.symm⟩
    have cut := congrArg List.length first
    rw [List.length_take] at cut
    exact cut.symm.trans_le (min_le_right _ _)
  | temp =>
    have length := agree.length (by simp [place])
    rw [if_neg (by simp [nonneg]), if_neg (by simp [nonneg]), ← length]
    simp
  | packed =>
    rw [if_neg (by simp [nonneg]), if_neg (by simp [nonneg]), agree.start place]
    simp

theorem Chain.finish_status (c : Chain) : c.finish.status = c.status := by
  unfold Chain.finish
  split <;> rfl

def Determined (decode : Bool → Bytes → Unpacked) : Prop :=
  ∀ granted out out', 0 ≤ (decode granted out).status →
    (decode true out').status = (decode granted out).status ∧
      (decode granted out).status.toNatClampNeg ≤ (decode granted out).out.length ∧
      (decode true out').out.take (decode granted out).status.toNatClampNeg =
        (decode granted out).out.take (decode granted out).status.toNatClampNeg

theorem determined_error (e : Error) : Determined fun _ out => ⟨e.code, out⟩ := by
  intro granted out out' ok
  exact absurd ok (Int32.not_le.mpr e.code_neg)

theorem determined_overlay {status : Int32} {data : Bytes}
    (length : 0 ≤ status → data.length = status.toNatClampNeg) :
    Determined fun _ out => ⟨status, Bytes.overlay data out⟩ := by
  intro granted out out' ok
  simp only [← length ok, Bytes.take_overlay, Bytes.overlay_length, and_true, true_and]
  exact le_max_left _ _

theorem toNatClampNeg_toInt32 {size : UInt32} (ok : 0 ≤ size.toInt32) :
    size.toInt32.toNatClampNeg = size.toNat := by
  rw [toInt32_eq] at ok ⊢
  by_cases small : size.toNat < 2 ^ 31
  · exact Int32.toNatClampNeg_ofNat_of_lt small
  · have bound := size.toNat_lt
    rw [Int32.le_iff_toInt_le, Int32.toInt_ofNat'] at ok
    simp only [Int32.toInt_zero, Int.bmod_def, Int32.size] at ok
    omega

theorem determined_copyOut {input : Bytes} {outSize : UInt32} (whole : outSize.toNat ≤ input.length) :
    Determined fun _ out => copyOut input out outSize := by
  refine determined_overlay fun ok => ?_
  rw [toNatClampNeg_toInt32 ok, List.length_take]
  omega

theorem determined_requireWhole {pkzip : Bool} {outSize : UInt32} {decode : Bool → Bytes → Unpacked}
    (determined : Determined decode) :
    Determined fun granted out => requireWhole pkzip outSize (decode granted out) := by
  intro granted out out' ok
  by_cases short : pkzip = true ∧ 0 ≤ (decode granted out).status ∧
      (decode granted out).status.toUInt32 ≠ outSize
  · simp only [requireWhole, if_pos short] at ok
    exact absurd ok (Int32.not_le.mpr (Error.code_neg .unpack))
  · simp only [requireWhole, if_neg short] at ok ⊢
    obtain ⟨status, fits, same⟩ := determined granted out out' ok
    rw [if_neg (by rw [status]; exact short)]
    exact ⟨status, fits, same⟩

theorem determined_lzma (codecs : Codecs) (input : Bytes) (outSize : UInt32) :
    Determined fun _ out => decompressLzma codecs input out outSize := by
  unfold decompressLzma
  split
  · exact determined_error _
  split
  · exact determined_error _
  split
  · exact determined_error _
  simp only
  split
  · exact determined_error _
  · split
    · exact determined_error _
    · split
      · exact determined_error _
      · split
        next whole =>
          refine determined_overlay fun ok => ?_
          rw [toNatClampNeg_toInt32 ok, whole.2.1]
        next =>
          intro granted out out' ok
          exact absurd ok (Int32.not_le.mpr (Error.code_neg .unpack))
      · exact determined_error _
  · exact determined_error _

theorem determined_multi {codecs : Codecs} (reports : codecs.Reporting) (input : Bytes)
    (outSize version : UInt32) :
    Determined fun granted out => decompressMulti codecs granted input out outSize version := by
  cases input with
  | nil => exact determined_error _
  | cons flag packed =>
    by_cases lzma : version ≥ versionTwo ∧ flag = lzmaMethod
    · simp only [decompressMulti, if_pos lzma]
      exact determined_lzma codecs packed outSize
    by_cases unsupported :
        (stagesOf flag).foldl (fun left stage => left &&& ~~~stage.mask) flag.toUInt32 ≠ 0
    · simp only [decompressMulti, if_neg lzma, if_pos unsupported]
      exact determined_error _
    intro granted out out' ok
    by_cases refused : (stagesOf flag).length > 1 ∧ granted = false
    · simp only [decompressMulti, if_neg lzma, if_neg unsupported, if_pos refused] at ok
      exact absurd ok (Int32.not_le.mpr (Error.code_neg .malloc))
    · simp only [decompressMulti, if_neg lzma, if_neg unsupported, if_neg refused] at ok ⊢
      rw [if_neg (by simp)]
      rw [Chain.finish_status] at ok
      refine finish_agree (runStages_agree reports _ ?_ ok) ok
      exact ⟨rfl, rfl, rfl, rfl, fun _ => rfl, by simp, by simp⟩

theorem decompressBlock_determined {codecs : Codecs} (reports : codecs.Reporting) (input : Bytes)
    (outSize method version : UInt32) :
    Determined fun granted out =>
      decompressBlock codecs granted input out outSize method version := by
  have zero : Determined fun _ out => ⟨0, out⟩ := @determined_overlay 0 [] fun _ => rfl
  unfold decompressBlock
  simp only
  split
  · split
    · exact determined_error _
    next whole => exact determined_copyOut (Nat.not_lt.mp whole)
  split
  · refine determined_requireWhole ?_
    split
    next => exact determined_overlay (reports .pkzip input outSize.toNat)
    next whole => exact determined_copyOut (Nat.not_lt.mp whole)
  split
  · split
    next => exact determined_requireWhole (determined_multi reports input outSize version)
    next whole => exact determined_copyOut (Nat.not_lt.mp whole)
  · exact zero

theorem decompressMulti_refused (codecs : Codecs) (input out : Bytes) (outSize version : UInt32) :
    decompressMulti codecs false input out outSize version = decompressMulti codecs true input out outSize version ∨
      decompressMulti codecs false input out outSize version = ⟨Error.malloc.code, out⟩ := by
  cases input with
  | nil => exact .inl rfl
  | cons flag packed =>
    unfold decompressMulti
    simp only
    split
    · exact .inl rfl
    split
    · exact .inl rfl
    split
    · exact .inr rfl
    next granted =>
      rw [if_neg fun both : (stagesOf flag).length > 1 ∧ true = false => Bool.noConfusion both.2]
      exact .inl rfl

-- A successful call does not depend on whether the buffer between two stages was to be had.
theorem decompressBlock_granted {codecs : Codecs} {granted : Bool} {input out : Bytes}
    {outSize method version : UInt32}
    (ok : 0 ≤ (decompressBlock codecs granted input out outSize method version).status) :
    decompressBlock codecs true input out outSize method version =
      decompressBlock codecs granted input out outSize method version := by
  cases granted with
  | true => rfl
  | false =>
    rcases decompressMulti_refused codecs input out outSize version with same | refused
    · rw [decompressBlock, decompressBlock, same]
    · unfold decompressBlock at ok ⊢
      simp only [refused] at ok ⊢
      split
      · rfl
      split
      · rfl
      split
      next none pkzip multi =>
        rw [if_neg none, if_neg pkzip, if_pos multi] at ok
        split
        next short =>
          rw [if_pos short, requireWhole,
            if_neg fun both => Int32.not_le.mpr (Error.code_neg .malloc) both.2.1] at ok
          exact absurd ok (Int32.not_le.mpr (Error.code_neg .malloc))
        · rfl
      · rfl

theorem length_le_overlay (new old : Bytes) : old.length ≤ (Bytes.overlay new old).length := by
  rw [Bytes.overlay_length]
  exact le_max_right _ _

theorem decodeStage_length_le (codecs : Codecs) (outSize : UInt32) (stage : Stage) (c : Chain) :
    c.out.length ≤ (decodeStage codecs outSize stage c).out.length := by
  unfold decodeStage
  cases c.target with
  | out => exact length_le_overlay _ _
  | packed => exact le_rfl
  | temp => exact le_rfl

theorem runStages_length_le (codecs : Codecs) (outSize : UInt32) (stages : List Stage) (c : Chain) :
    c.out.length ≤ (runStages codecs outSize stages c).out.length := by
  induction stages generalizing c with
  | nil => exact le_rfl
  | cons stage rest ih =>
    have first := decodeStage_length_le codecs outSize stage c
    rw [runStages]
    by_cases failed : (decodeStage codecs outSize stage c).status < 0
    · rwa [if_pos failed]
    · rw [if_neg failed]
      exact first.trans (ih _)

theorem Chain.finish_length_le (c : Chain) : c.out.length ≤ c.finish.out.length := by
  unfold Chain.finish
  split
  · exact le_rfl
  · exact length_le_overlay _ _

theorem decompressLzma_length_le (codecs : Codecs) (input out : Bytes) (outSize : UInt32) :
    out.length ≤ (decompressLzma codecs input out outSize).out.length := by
  unfold decompressLzma
  split
  · exact le_rfl
  split
  · exact le_rfl
  split
  · exact le_rfl
  simp only
  split
  · exact le_rfl
  · split
    · exact le_rfl
    · split
      · exact le_rfl
      · split <;> exact length_le_overlay _ _
      · exact le_rfl
  · exact le_rfl

theorem decompressMulti_length_le (codecs : Codecs) (granted : Bool) (input out : Bytes)
    (outSize version : UInt32) :
    out.length ≤ (decompressMulti codecs granted input out outSize version).out.length := by
  cases input with
  | nil => exact le_rfl
  | cons flag packed =>
    simp only [decompressMulti]
    split
    · exact decompressLzma_length_le codecs packed out outSize
    split
    · exact le_rfl
    split
    · exact le_rfl
    · exact (runStages_length_le codecs outSize _ ⟨.packed, packed, _, out, 0⟩).trans
        (Chain.finish_length_le _)

theorem requireWhole_out (pkzip : Bool) (outSize : UInt32) (result : Unpacked) :
    (requireWhole pkzip outSize result).out = result.out := by
  unfold requireWhole
  split <;> rfl

theorem decompressBlock_length_le (codecs : Codecs) (granted : Bool) (input out : Bytes)
    (outSize method version : UInt32) :
    out.length ≤ (decompressBlock codecs granted input out outSize method version).out.length := by
  unfold decompressBlock
  simp only
  split
  · split
    · exact le_rfl
    · exact length_le_overlay _ _
  split
  · rw [requireWhole_out]
    split <;> exact length_le_overlay _ _
  split
  · split
    · rw [requireWhole_out]
      exact decompressMulti_length_le codecs granted input out outSize version
    · exact length_le_overlay _ _
  · exact le_rfl

structure Chain.Within (n : Nat) (c : Chain) : Prop where
  out : c.out.length ≤ n
  temp : ∀ temp, c.temp = some temp → temp.length ≤ n
  input : c.place ≠ .packed → c.input.length ≤ n
  start : c.place = .packed → c.status = 0

theorem overlay_within {n : Nat} {new old : Bytes} (first : new.length ≤ n) (second : old.length ≤ n) :
    (Bytes.overlay new old).length ≤ n := by
  rw [Bytes.overlay_length]
  exact max_le first second

theorem decodeStage_within {codecs : Codecs} {outSize : UInt32} {n : Nat} (room : outSize.toNat ≤ n)
    (stage : Stage) {c : Chain} (within : c.Within n) :
    (decodeStage codecs outSize stage c).Within n := by
  have written : ((codecs.stage stage).decode c.input outSize.toNat).written.length ≤ n :=
    ((codecs.stage stage).decode c.input outSize.toNat).fits.trans room
  have cut : ∀ {work : Bytes} (k : Nat), work.length ≤ n → (work.take k).length ≤ n := fun k le => by
    rw [List.length_take]
    omega
  have target : c.target ≠ .packed := by
    unfold Chain.target
    split
    · split <;> decide
    all_goals decide
  unfold decodeStage
  cases place : c.target with
  | packed => exact absurd place target
  | out => exact ⟨overlay_within written within.out, within.temp,
      fun _ => cut _ (overlay_within written within.out), nofun⟩
  | temp =>
    refine ⟨within.out, fun temp known => ?_, fun _ => cut _ (overlay_within written ?_), nofun⟩
    · obtain ⟨old, before, rfl⟩ := Option.map_eq_some_iff.mp known
      exact overlay_within written (within.temp old before)
    · cases before : c.temp with
      | none => exact Nat.zero_le n
      | some old => exact within.temp old before

theorem runStages_within {codecs : Codecs} {outSize : UInt32} {n : Nat} (room : outSize.toNat ≤ n)
    (stages : List Stage) {c : Chain} (within : c.Within n) :
    (runStages codecs outSize stages c).Within n := by
  induction stages generalizing c with
  | nil => exact within
  | cons stage rest ih =>
    have next := @decodeStage_within codecs outSize n room stage c within
    rw [runStages]
    by_cases failed : (decodeStage codecs outSize stage c).status < 0
    · rwa [if_pos failed]
    · rw [if_neg failed]
      exact ih next

theorem Chain.Within.finish {n : Nat} {c : Chain} (within : c.Within n) : c.finish.out.length ≤ n := by
  unfold Chain.finish
  split
  · exact within.out
  · refine overlay_within ?_ within.out
    rw [List.length_take]
    by_cases start : c.place = .packed
    · rw [within.start start]
      exact (Nat.min_le_left _ _).trans (Nat.zero_le n)
    · exact (Nat.min_le_right _ _).trans (within.input start)

theorem decompressLzma_within (codecs : Codecs) (input : Bytes) {out : Bytes} {outSize : UInt32} {n : Nat}
    (room : outSize.toNat ≤ n) (fits : out.length ≤ n) :
    (decompressLzma codecs input out outSize).out.length ≤ n := by
  unfold decompressLzma
  split
  · exact fits
  split
  · exact fits
  split
  · exact fits
  simp only
  split
  · exact fits
  · split
    · exact fits
    · split
      · exact fits
      · split <;> exact overlay_within ((codecs.lzma.decode _ _ _).fits.trans room) fits
      · exact fits
  · exact fits

theorem decompressMulti_within (codecs : Codecs) (granted : Bool) (input : Bytes) {out : Bytes}
    {outSize : UInt32} (version : UInt32) {n : Nat} (room : outSize.toNat ≤ n) (fits : out.length ≤ n) :
    (decompressMulti codecs granted input out outSize version).out.length ≤ n := by
  cases input with
  | nil => exact fits
  | cons flag packed =>
    simp only [decompressMulti]
    split
    · exact decompressLzma_within codecs packed room fits
    split
    · exact fits
    split
    · exact fits
    · refine (runStages_within room _ ⟨fits, fun temp known => ?_, fun moved => absurd rfl moved,
        fun _ => rfl⟩).finish
      split at known
      · cases known
        rw [Bytes.zeros_length]
        exact room
      · cases known

theorem decompressBlock_within (codecs : Codecs) (granted : Bool) (input : Bytes) {out : Bytes}
    {outSize : UInt32} (method version : UInt32) {n : Nat} (room : outSize.toNat ≤ n)
    (fits : out.length ≤ n) :
    (decompressBlock codecs granted input out outSize method version).out.length ≤ n := by
  have copied : (copyOut input out outSize).out.length ≤ n := by
    refine overlay_within ?_ fits
    rw [List.length_take]
    exact (Nat.min_le_left _ _).trans room
  unfold decompressBlock
  simp only
  split
  · split
    · exact fits
    · exact copied
  split
  · rw [requireWhole_out]
    split
    · exact overlay_within (((codecs.stage .pkzip).decode input outSize.toNat).fits.trans room) fits
    · exact copied
  split
  · split
    · rw [requireWhole_out]
      exact decompressMulti_within codecs granted input version room fits
    · exact copied
  · exact fits

theorem zeroRunCodec_reports (input : Bytes) (capacity : Nat)
    (reported : 0 ≤ (zeroRunCodec.decode input capacity).status) :
    (zeroRunCodec.decode input capacity).written.length =
      (zeroRunCodec.decode input capacity).status.toNatClampNeg := by
  unfold zeroRunCodec at reported ⊢
  simp only at reported ⊢
  split at reported
  next length token =>
    split at reported
    next fits =>
      simp only [dif_pos fits, List.length_replicate]
      have small := length.toNat_lt
      rw [Int32.toNatClampNeg_ofNat_of_lt (by omega)]
    next => exact absurd reported (Int32.not_le.mpr (Error.code_neg .unpack))
  next => exact absurd reported (Int32.not_le.mpr (Error.code_neg .unpack))

theorem zeroRunCodecs_reporting : zeroRunCodecs.Reporting := by
  intro stage input capacity reported
  cases stage
  case sparse => exact zeroRunCodec_reports input capacity reported
  all_goals exact absurd reported (Int32.not_le.mpr (Error.code_neg .unpack))

end Compression

end LibMpq
