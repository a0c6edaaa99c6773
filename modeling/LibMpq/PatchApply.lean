import LibMpq.Checksum
import LibMpq.PatchBsd0

set_option autoImplicit false

namespace LibMpq

open Effect

namespace Patch

open Wire

def md5Of (data : Bytes) : Bytes := (Md5.init.update data).finish.val

def patchTag : Bytes := ascii "PTCH".toList

def md5Tag : Bytes := ascii "MD5_".toList

def transformTag : Bytes := ascii "XFRM".toList

def copyTag : Bytes := ascii "COPY".toList

def bsd0Tag : Bytes := ascii "BSD0".toList

structure Info where
  length : UInt32
  flags : UInt32
  dataSize : UInt32
  md5 : Bytes

-- The header may be all that is in memory of a longer record.
def infoParseHeader (header : Bytes) (availableSize : Nat) : Op (Stop Error) Faults Info := do
  stopIf (header.length < 28) .format
  let length ← wordAt header 0
  let flags ← wordAt header 4
  let dataSize ← wordAt header 8
  let md5 ← load header 12 16
  stopIf (length.toNat < 28 ∨ length.toNat > availableSize ∨ flags &&& 0x80000000 = 0) .format
  pure { length, flags, dataSize, md5 }

-- `libmpq__patch_info_parse`
def infoParse (data : Bytes) : Op (Stop Error) Faults Info := infoParseHeader data data.length

def checkMd5 (data expected : Bytes) : Op (Stop Error) Faults Unit := stopIf (md5Of data ≠ expected) .format

def applyCopy (encoded : Bytes) (decodedSize afterSize : Nat) (borrow : Bool) : Op (Stop Error) Faults Bytes := do
  stopIf (decodedSize ≠ encoded.length ∨ decodedSize ≠ afterSize) .format
  if borrow then pure encoded else do
    request (.error .malloc)
    load encoded 0 afterSize

-- A transform of another size than announced is wrapped.
def decode (encoded : Bytes) (decodedSize : Nat) : Op (Stop Error) Faults Bytes :=
  if decodedSize ≠ encoded.length then do
    request (.error .malloc)
    expandRle encoded decodedSize
  else pure encoded

def applyScript (base encoded : Bytes) (decodedSize afterSize : Nat) : Op (Stop Error) Faults Bytes := do
  stopIf (decodedSize < 32) .format
  let decoded ← decode encoded decodedSize
  request (.error .malloc)
  applyBsd0 base decoded afterSize

def applyTransform (base method encoded : Bytes) (decodedSize afterSize : Nat) (borrowCopy : Bool) :
    Op (Stop Error) Faults Bytes :=
  if method = copyTag then applyCopy encoded decodedSize afterSize borrowCopy
  else if method = bsd0Tag then applyScript base encoded decodedSize afterSize
  else throw (.error .format)

-- `patch_apply_internal`
def applyInternal (base patch : Bytes) (borrowCopy : Bool) : Op (Stop Error) Faults Bytes := do
  stopIf (patch.length < 68) .format
  let first ← load patch 0 4
  let second ← load patch 16 4
  let third ← load patch 56 4
  stopIf (first ≠ patchTag ∨ second ≠ md5Tag ∨ third ≠ transformTag) .format
  let completeSize ← wordAt patch 4
  let beforeSize ← wordAt patch 8
  let afterSize ← wordAt patch 12
  let md5BlockSize ← wordAt patch 20
  let transformSize ← wordAt patch 60
  stopIf (beforeSize.toNat ≠ base.length ∨ md5BlockSize ≠ 40 ∨ completeSize.toNat < 68 ∨
    transformSize.toNat < 12 ∨ transformSize.toNat - 12 ≠ patch.length - 68) .format
  let before ← load patch 24 16
  checkMd5 base before
  let encoded ← load patch 68 (patch.length - 68)
  let decodedSize ← minus completeSize.toNat 68
  let method ← load patch 64 4
  let output ← applyTransform base method encoded decodedSize afterSize.toNat borrowCopy
  let after ← load patch 40 16
  checkMd5 output after
  pure output

-- `libmpq__patch_apply`
def apply (base patch : Bytes) : Op (Stop Error) Faults Bytes := applyInternal base patch false

def Follows (base patch output : Bytes) : Prop :=
  ((patch.drop 64).take 4 = copyTag ∧ output = patch.drop 68) ∨
    ((patch.drop 64).take 4 = bsd0Tag ∧ ∃ stream, (stream = patch.drop 68 ∨ Unwraps (patch.drop 68) stream) ∧
      stream.length + 68 = (le32.decode (patch.drop 4)).toNat ∧ Transforms base stream output)

/-- A patch that was applied fits its base and has led to what it announces. -/
structure Accepted (base patch output : Bytes) : Prop where
  baseSize : (le32.decode (patch.drop 8)).toNat = base.length
  baseMd5 : md5Of base = (patch.drop 24).take 16
  size : output.length = (le32.decode (patch.drop 12)).toNat
  md5 : md5Of output = (patch.drop 40).take 16
  follows : Follows base patch output

theorem applyCopy_ensures (encoded : Bytes) (decodedSize afterSize : Nat) (borrow : Bool) :
    Ensures (applyCopy encoded decodedSize afterSize borrow) fun output =>
      output = encoded ∧ output.length = afterSize := by
  unfold applyCopy
  refine (Ensures.stopIf _ Error.format).bind fun _ same => ?_
  rw [not_or, not_not, not_not] at same
  obtain ⟨whole, size⟩ := same
  cases borrow with
  | true => exact Ensures.pure ⟨rfl, whole ▸ size⟩
  | false =>
    refine (Ensures.request _).bind fun _ _ => ?_
    refine (Ensures.load (by omega)).mono ?_
    rintro _ rfl
    rw [List.drop_zero, ← size, whole, List.take_length]
    exact ⟨rfl, rfl⟩

theorem decode_ensures (encoded : Bytes) (decodedSize : Nat) :
    Ensures (decode encoded decodedSize) fun stream =>
      (stream = encoded ∨ Unwraps encoded stream) ∧ stream.length = decodedSize := by
  unfold decode
  by_cases wrapped : decodedSize ≠ encoded.length
  · rw [if_pos wrapped]
    refine (Ensures.request _).bind fun _ _ => (expandRle_ensures encoded decodedSize).mono ?_
    exact fun stream meets => ⟨.inr meets.2, meets.1⟩
  · rw [if_neg wrapped]
    exact Ensures.pure ⟨.inl rfl, (not_not.mp wrapped).symm⟩

theorem applyTransform_ensures (base method encoded : Bytes) (decodedSize afterSize : Nat) (borrowCopy : Bool) :
    Ensures (applyTransform base method encoded decodedSize afterSize borrowCopy) fun output =>
      output.length = afterSize ∧ ((method = copyTag ∧ output = encoded) ∨
        (method = bsd0Tag ∧ ∃ stream, (stream = encoded ∨ Unwraps encoded stream) ∧
          stream.length = decodedSize ∧ Transforms base stream output)) := by
  unfold applyTransform
  by_cases copied : method = copyTag
  · rw [if_pos copied]
    refine (applyCopy_ensures encoded decodedSize afterSize borrowCopy).mono fun output meets => ?_
    exact ⟨meets.2, .inl ⟨copied, meets.1⟩⟩
  · rw [if_neg copied]
    by_cases scripted : method = bsd0Tag
    · rw [if_pos scripted]
      refine (Ensures.stopIf _ Error.format).bind fun _ _ => ?_
      refine (decode_ensures encoded decodedSize).bind fun stream decoded => ?_
      refine (Ensures.request _).bind fun _ _ => ?_
      refine (applyBsd0_ensures base stream afterSize).mono fun output applied => ?_
      exact ⟨applied.1, .inr ⟨scripted, stream, decoded.1, decoded.2, applied.2⟩⟩
    · rw [if_neg scripted]
      exact Ensures.throw _

theorem checkMd5_ensures (data expected : Bytes) :
    Ensures (checkMd5 data expected) fun _ => md5Of data = expected :=
  (Ensures.stopIf _ _).mono fun _ same => not_not.mp same

theorem applyInternal_ensures (base patch : Bytes) (borrowCopy : Bool) :
    Ensures (applyInternal base patch borrowCopy) (Accepted base patch) := by
  unfold applyInternal
  refine (Ensures.stopIf (patch.length < 68) Error.format).bind fun _ long => ?_
  rw [Nat.not_lt] at long
  refine (Ensures.load (by omega)).bind fun _ _ => ?_
  refine (Ensures.load (by omega)).bind fun _ _ => ?_
  refine (Ensures.load (by omega)).bind fun _ _ => ?_
  refine (Ensures.stopIf _ Error.format).bind fun _ _ => ?_
  refine (Ensures.of_ok (wordAt_of (by omega))).bind ?_
  rintro _ rfl
  refine (Ensures.of_ok (wordAt_of (by omega))).bind ?_
  rintro _ rfl
  refine (Ensures.of_ok (wordAt_of (by omega))).bind ?_
  rintro _ rfl
  refine (Ensures.of_ok (wordAt_of (by omega))).bind fun _ _ => ?_
  refine (Ensures.of_ok (wordAt_of (by omega))).bind fun _ _ => ?_
  refine (Ensures.stopIf _ Error.format).bind fun _ sizes => ?_
  simp only [not_or, not_not, Nat.not_lt] at sizes
  obtain ⟨baseSize, _, complete, _⟩ := sizes
  refine (Ensures.load (by omega)).bind ?_
  rintro _ rfl
  refine (checkMd5_ensures _ _).bind fun _ baseMd5 => ?_
  refine (Ensures.load (by omega)).bind ?_
  rintro _ rfl
  refine (Ensures.minus complete).bind fun decodedSize whole => ?_
  refine (Ensures.load (by omega)).bind ?_
  rintro _ rfl
  refine (applyTransform_ensures _ _ _ _ _ _).bind fun output applied => ?_
  refine (Ensures.load (by omega)).bind ?_
  rintro _ rfl
  refine (checkMd5_ensures _ _).bind fun _ md5 => Ensures.pure ?_
  have rest : (patch.drop 68).take (patch.length - 68) = patch.drop 68 := by
    rw [← List.length_drop, List.take_length]
  rw [rest] at applied
  obtain ⟨size, copied | ⟨scripted, stream, wrapped, length, transforms⟩⟩ := applied
  · exact ⟨baseSize, baseMd5, size, md5, .inl copied⟩
  · exact ⟨baseSize, baseMd5, size, md5, .inr ⟨scripted, stream, wrapped, by omega, transforms⟩⟩

theorem apply_watched (base patch : Bytes) : Ensures (apply base patch) (Accepted base patch) :=
  applyInternal_ensures base patch false

end Patch

end LibMpq
